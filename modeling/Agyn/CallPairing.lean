import Mathlib.Data.List.Basic
import Mathlib.Data.List.Nodup
import Mathlib.Data.List.Pairwise

/-!
Conversations of requests and answers. A message asks for some keys or answers one. A
conversation is paired when each key that is asked for is answered once, and no answer
stands before its request. Appending whole exchanges keeps that, and so does cutting off a
beginning together with the answers to requests in it.
-/
namespace Agyn

namespace CallPairing

variable {M K : Type} (asks : M → List K) (answer : M → Option K)

structure Paired (ms : List M) : Prop where
  answers_nodup : (ms.filterMap answer).Nodup
  answered : ∀ k, k ∈ ms.flatMap asks ↔ k ∈ ms.filterMap answer
  ordered : ms.Pairwise fun a b => ∀ k, answer a = some k → k ∉ asks b

variable {asks answer} {ms front results head tail : List M} {r : M} {k : K}

theorem Paired.nil : Paired asks answer [] := ⟨by simp, by simp, .nil⟩

theorem flatMap_asks_eq_nil (h : ∀ m ∈ ms, asks m = []) : ms.flatMap asks = [] := by
  rw [List.flatMap_eq_nil_iff]
  exact h

theorem filterMap_answer_eq_nil (h : ∀ m ∈ ms, answer m = none) : ms.filterMap answer = [] := by
  rw [List.filterMap_eq_nil_iff]
  exact h

/-- Messages that neither ask nor answer change nothing. -/
theorem Paired.append_plain (h : Paired asks answer ms) (hasks : ∀ m ∈ results, asks m = [])
    (hanswer : ∀ m ∈ results, answer m = none) : Paired asks answer (ms ++ results) := by
  have hnone := filterMap_answer_eq_nil hanswer
  have hnil := flatMap_asks_eq_nil hasks
  constructor
  · rw [List.filterMap_append, hnone, List.append_nil]
    exact h.answers_nodup
  · intro k
    rw [List.flatMap_append, hnil, List.append_nil, List.filterMap_append, hnone, List.append_nil]
    exact h.answered k
  · refine List.pairwise_append.mpr ⟨h.ordered, ?_, ?_⟩
    · refine List.pairwise_of_forall_mem_list ?_
      intro a _ b hb k _
      simp [hasks b hb]
    · intro a _ b hb k _
      simp [hasks b hb]

/-- A request for new keys, followed by the answers to it. -/
theorem Paired.append_exchange (h : Paired asks answer front) (hr : answer r = none)
    (hnodup : (asks r).Nodup) (hfresh : ∀ k ∈ asks r, k ∉ front.flatMap asks)
    (hasks : ∀ m ∈ results, asks m = []) (hanswers : results.filterMap answer = asks r) :
    Paired asks answer (front ++ r :: results) := by
  have hnil := flatMap_asks_eq_nil hasks
  have hall : (front ++ r :: results).filterMap answer = front.filterMap answer ++ asks r := by
    rw [List.filterMap_append, List.filterMap_cons_none hr, hanswers]
  have hcalls : (front ++ r :: results).flatMap asks = front.flatMap asks ++ asks r := by
    rw [List.flatMap_append, List.flatMap_cons, hnil, List.append_nil]
  constructor
  · rw [hall]
    refine List.Nodup.append h.answers_nodup hnodup ?_
    intro k hk hkr
    exact hfresh k hkr ((h.answered k).mpr hk)
  · intro k
    rw [hall, hcalls, List.mem_append, List.mem_append, h.answered k]
  · refine List.pairwise_append.mpr ⟨h.ordered, List.pairwise_cons.mpr ⟨?_, ?_⟩, ?_⟩
    · intro m _ k hk
      rw [hr] at hk
      cases hk
    · refine List.pairwise_of_forall_mem_list ?_
      intro a _ b hb k _
      simp [hasks b hb]
    · intro a ha b hb k hk hkb
      rcases List.mem_cons.mp hb with hb | hb
      · subst hb
        refine hfresh k hkb ((h.answered k).mpr ?_)
        exact List.mem_filterMap.mpr ⟨a, ha, hk⟩
      · simp [hasks b hb] at hkb

/-- Cutting off a beginning, with the later answers to requests in it. -/
theorem Paired.cut (h : Paired asks answer (tail ++ head)) {keep : M → Bool}
    (hkeep : ∀ m ∈ head, keep m = true ↔ ∀ k, answer m = some k → k ∈ head.flatMap asks)
    (hasks : ∀ m ∈ head, answer m ≠ none → asks m = []) :
    Paired asks answer (head.filter keep) := by
  have hsub : (head.filter keep).Sublist (tail ++ head) :=
    (List.filter_sublist).trans (List.sublist_append_right tail head)
  have hkept : ∀ m ∈ head, m ∉ head.filter keep → asks m = [] := by
    intro m hm hmem
    refine hasks m hm ?_
    intro hnone
    refine hmem (List.mem_filter.mpr ⟨hm, (hkeep m hm).mpr ?_⟩)
    intro k hk
    rw [hnone] at hk
    cases hk
  have hcalls : ∀ k, k ∈ (head.filter keep).flatMap asks ↔ k ∈ head.flatMap asks := by
    intro k
    constructor
    · intro hk
      obtain ⟨m, hm, hmk⟩ := List.mem_flatMap.mp hk
      exact List.mem_flatMap.mpr ⟨m, (List.mem_filter.mp hm).1, hmk⟩
    · intro hk
      obtain ⟨m, hm, hmk⟩ := List.mem_flatMap.mp hk
      refine List.mem_flatMap.mpr ⟨m, ?_, hmk⟩
      by_contra hmem
      rw [hkept m hm hmem] at hmk
      cases hmk
  refine ⟨h.answers_nodup.sublist (hsub.filterMap answer), ?_, h.ordered.sublist hsub⟩
  intro k
  rw [hcalls k]
  constructor
  · intro hk
    have hasked : k ∈ (tail ++ head).flatMap asks := by simp [hk]
    obtain ⟨r, hr, hkr⟩ := List.mem_flatMap.mp hk
    obtain ⟨m, hm, hmk⟩ := List.mem_filterMap.mp ((h.answered k).mp hasked)
    rcases List.mem_append.mp hm with hm | hm
    · exact absurd hkr ((List.pairwise_append.mp h.ordered).2.2 m hm r hr k hmk)
    · refine List.mem_filterMap.mpr ⟨m, List.mem_filter.mpr ⟨hm, (hkeep m hm).mpr ?_⟩, hmk⟩
      intro k' hk'
      rw [hmk] at hk'
      cases hk'
      exact hk
  · intro hk
    obtain ⟨m, hm, hmk⟩ := List.mem_filterMap.mp hk
    obtain ⟨hmem, hkeeps⟩ := List.mem_filter.mp hm
    exact (hkeep m hmem).mp hkeeps k hmk

/-- A key that is asked for has exactly one answer behind the request. -/
theorem Paired.count_answers [DecidableEq K] {before after : List M}
    (h : Paired asks answer (before ++ r :: after))
    (hr : answer r = none) (hk : k ∈ asks r) : (after.filterMap answer).count k = 1 := by
  have hall : (before ++ r :: after).filterMap answer =
      before.filterMap answer ++ after.filterMap answer := by
    rw [List.filterMap_append, List.filterMap_cons_none hr]
  have hmem : k ∈ before.filterMap answer ++ after.filterMap answer := by
    rw [← hall]
    exact (h.answered k).mp (List.mem_flatMap.mpr ⟨r, by simp, hk⟩)
  have hbefore : k ∉ before.filterMap answer := by
    intro hmem
    obtain ⟨m, hm, hmk⟩ := List.mem_filterMap.mp hmem
    exact (List.pairwise_append.mp h.ordered).2.2 m hm r List.mem_cons_self k hmk hk
  have hafter : k ∈ after.filterMap answer := (List.mem_append.mp hmem).resolve_left hbefore
  have hnodup : (after.filterMap answer).Nodup := by
    have hnodup := h.answers_nodup
    rw [hall] at hnodup
    exact hnodup.sublist (List.sublist_append_right _ _)
  exact List.count_eq_one_of_mem hnodup hafter

/-- An answer has its request before it. -/
theorem Paired.asked_before {before after : List M} {m : M}
    (h : Paired asks answer (before ++ m :: after)) (hm : answer m = some k) (hasks : asks m = []) :
    k ∈ before.flatMap asks := by
  have hmem : k ∈ (before ++ m :: after).flatMap asks :=
    (h.answered k).mpr (List.mem_filterMap.mpr ⟨m, by simp, hm⟩)
  rw [List.flatMap_append, List.flatMap_cons, hasks, List.nil_append] at hmem
  refine (List.mem_append.mp hmem).resolve_right ?_
  intro hafter
  obtain ⟨r, hr, hkr⟩ := List.mem_flatMap.mp hafter
  have hordered := (List.pairwise_append.mp h.ordered).2.1
  exact (List.pairwise_cons.mp hordered).1 r hr k hm hkr

end CallPairing

end Agyn
