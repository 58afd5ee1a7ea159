import Mathlib.Order.WithBot
import Mathlib.Data.List.Perm.Basic
import Mathlib.Data.List.Pairwise
import Mathlib.Data.List.Sort

/-!
Updates with a time, and states that keep the time of the last update as a mark. An update below
the mark is stale and changes nothing. So the order in which updates arrive matters only through
the updates that a later one overtakes, and of updates that arrive again only those at the mark
are applied. They change nothing when a later copy of an update makes an earlier one redundant.
-/
namespace Agyn

variable {σ α T : Type} [LinearOrder T]

section Overtaken

variable {time : α → T} {as : List α}

/-- The updates of a list that nothing before them overtakes; `before` has come already. -/
def notOvertaken (time : α → T) (before : List α) : List α → List α
  | [] => []
  | a :: as =>
    if ∀ b ∈ before, time b ≤ time a then a :: notOvertaken time (before ++ [a]) as
    else notOvertaken time (before ++ [a]) as

theorem notOvertaken_sublist (before as : List α) : (notOvertaken time before as).Sublist as := by
  induction as generalizing before with
  | nil => exact List.Sublist.refl _
  | cons a as ih =>
    unfold notOvertaken
    split
    · exact (ih _).cons_cons a
    · exact (ih _).cons a

theorem before_le_notOvertaken {before : List α} :
    ∀ a ∈ notOvertaken time before as, ∀ b ∈ before, time b ≤ time a := by
  induction as generalizing before with
  | nil => simp [notOvertaken]
  | cons c as ih =>
    intro a ha b hb
    have hrest (h : a ∈ notOvertaken time (before ++ [c]) as) : time b ≤ time a :=
      ih a h b (List.mem_append_left _ hb)
    unfold notOvertaken at ha
    split at ha
    next hc =>
      rcases List.mem_cons.mp ha with rfl | ha
      · exact hc b hb
      · exact hrest ha
    next => exact hrest ha

/-- What is not overtaken is in the order of its times. -/
theorem notOvertaken_pairwise (before as : List α) :
    (notOvertaken time before as).Pairwise fun a b => time a ≤ time b := by
  induction as generalizing before with
  | nil => exact List.Pairwise.nil
  | cons c as ih =>
    unfold notOvertaken
    split
    · refine List.Pairwise.cons (fun a ha => ?_) (ih _)
      exact before_le_notOvertaken a ha c (List.mem_append_right _ (List.mem_singleton_self c))
    · exact ih _

/-- An update is left out exactly when one with a newer time has come before it. -/
theorem mem_notOvertaken {a : α} {before : List α} :
    a ∈ notOvertaken time before as ↔
      ∃ pre post, as = pre ++ a :: post ∧ ∀ b ∈ before ++ pre, time b ≤ time a := by
  induction as generalizing before with
  | nil => simp [notOvertaken]
  | cons c as ih =>
    have hsplit : (∃ pre post, c :: as = pre ++ a :: post ∧ ∀ b ∈ before ++ pre, time b ≤ time a) ↔
        (a = c ∧ ∀ b ∈ before, time b ≤ time c) ∨ a ∈ notOvertaken time (before ++ [c]) as := by
      rw [ih]
      constructor
      · rintro ⟨pre, post, heq, hle⟩
        rcases List.cons_eq_append_iff.mp heq with ⟨rfl, hcons⟩ | ⟨pre, rfl, rfl⟩
        · obtain ⟨rfl, rfl⟩ := List.cons.inj hcons
          exact .inl ⟨rfl, by simpa using hle⟩
        · exact .inr ⟨pre, post, rfl, by simpa using hle⟩
      · rintro (⟨rfl, hle⟩ | ⟨pre, post, rfl, hle⟩)
        · exact ⟨[], as, rfl, by simpa using hle⟩
        · exact ⟨c :: pre, post, rfl, by simpa using hle⟩
    rw [hsplit, notOvertaken]
    split
    next hc => rw [List.mem_cons, and_iff_left hc]
    next hc => exact (or_iff_right fun h => hc h.2).symm

/-- Nothing is overtaken in the order of the times. -/
theorem notOvertaken_of_pairwise {before : List α}
    (hbefore : ∀ a ∈ as, ∀ b ∈ before, time b ≤ time a)
    (h : as.Pairwise fun a b => time a ≤ time b) : notOvertaken time before as = as := by
  induction as generalizing before with
  | nil => rfl
  | cons a as ih =>
    obtain ⟨hfirst, hrest⟩ := List.pairwise_cons.mp h
    unfold notOvertaken
    rw [if_pos (hbefore a List.mem_cons_self)]
    congr 1
    refine ih (fun c hc b hb => ?_) hrest
    rcases List.mem_append.mp hb with hb | hb
    · exact hbefore c (List.mem_cons_of_mem a hc) b hb
    · rw [List.mem_singleton.mp hb]
      exact hfirst c hc

theorem notOvertaken_filterMap {β : Type} {time' : β → T} {f : α → Option β} {before : List α}
    (h : ∀ a ∈ before ++ as, ∃ b, f a = some b ∧ time' b = time a) :
    (notOvertaken time before as).filterMap f =
      notOvertaken time' (before.filterMap f) (as.filterMap f) := by
  induction as generalizing before with
  | nil => rfl
  | cons a as ih =>
    obtain ⟨b, hb, htime⟩ := h a (by simp)
    have hbefore : (∀ c ∈ before, time c ≤ time a) ↔
        ∀ c ∈ before.filterMap f, time' c ≤ time' b := by
      simp only [List.mem_filterMap, htime]
      constructor
      · rintro hle c' ⟨c, hc, hfc⟩
        obtain ⟨b', hb', htime'⟩ := h c (by simp [hc])
        obtain rfl : c' = b' := Option.some.inj (hfc.symm.trans hb')
        exact htime'.trans_le (hle c hc)
      · intro hle c hc
        obtain ⟨b', hb', htime'⟩ := h c (by simp [hc])
        exact htime'.symm.trans_le (hle b' ⟨c, hc, hb'⟩)
    have hrest : (notOvertaken time (before ++ [a]) as).filterMap f = _ := ih (by simpa using h)
    simp only [List.filterMap_append, List.filterMap_cons, List.filterMap_nil, hb] at hrest ⊢
    unfold notOvertaken
    by_cases hle : ∀ c ∈ before, time c ≤ time a
    · rw [if_pos hle, if_pos (hbefore.mp hle), List.filterMap_cons, hb, hrest]
    · rw [if_neg hle, if_neg (mt hbefore.mpr hle), hrest]

/-- With different times, what is not overtaken is a part of the list in the order of the times. -/
theorem notOvertaken_sublist_sorted {sorted : List α} (hperm : as.Perm sorted)
    (hsorted : sorted.Pairwise fun a b => time a < time b) :
    (notOvertaken time [] as).Sublist sorted := by
  have hne : as.Pairwise fun a b => time a ≠ time b :=
    (hperm.pairwise_iff fun hab => hab.symm).mpr (hsorted.imp ne_of_lt)
  have hlt : (notOvertaken time [] as).Pairwise fun a b => time a < time b :=
    ((notOvertaken_pairwise [] as).and (hne.sublist (notOvertaken_sublist [] as))).imp
      fun h => lt_of_le_of_ne h.1 h.2
  have : Std.Antisymm fun a b : α => time a < time b := ⟨fun _ _ hab hba => absurd hab hba.asymm⟩
  exact List.sublist_of_subperm_of_pairwise
    ((notOvertaken_sublist [] as).subperm.trans hperm.subperm) hlt hsorted

end Overtaken

structure HighWater (σ α T : Type) where
  time : α → T
  mark : σ → WithBot T
  apply : σ → α → σ
  mark_apply : ∀ s a, mark (apply s a) = time a

namespace HighWater

variable (w : HighWater σ α T) {s : σ} {as bs : List α}

def Stale (s : σ) (a : α) : Prop := (w.time a : WithBot T) < w.mark s

instance (s : σ) (a : α) : Decidable (w.Stale s a) :=
  inferInstanceAs (Decidable ((w.time a : WithBot T) < w.mark s))

def step (s : σ) (a : α) : σ := if w.Stale s a then s else w.apply s a

def run (s : σ) (as : List α) : σ := as.foldl w.step s

theorem run_append : w.run s (as ++ bs) = w.run (w.run s as) bs := List.foldl_append

theorem mark_step (s : σ) (a : α) : w.mark (w.step s a) = max (w.mark s) (w.time a) := by
  unfold step
  split
  next h => exact (max_eq_left h.le).symm
  next h => rw [w.mark_apply, max_eq_right (not_lt.mp h)]

theorem mark_le_run : w.mark s ≤ w.mark (w.run s as) := by
  induction as generalizing s with
  | nil => exact le_rfl
  | cons a as ih =>
    have hstep : w.mark s ≤ w.mark (w.step s a) := by
      rw [w.mark_step]
      exact le_max_left _ _
    exact hstep.trans ih

theorem time_le_run : ∀ a ∈ as, (w.time a : WithBot T) ≤ w.mark (w.run s as) := by
  induction as generalizing s with
  | nil => simp
  | cons b as ih =>
    intro a ha
    rcases List.mem_cons.mp ha with rfl | ha
    · have hstep : (w.time a : WithBot T) ≤ w.mark (w.step s a) := by
        rw [w.mark_step]
        exact le_max_right _ _
      exact hstep.trans (w.mark_le_run (s := w.step s a))
    · exact ih a ha

theorem run_notOvertaken_of {before : List α}
    (hbefore : ∀ b ∈ before, (w.time b : WithBot T) ≤ w.mark s) :
    w.run s (notOvertaken w.time before as) = w.run s as := by
  induction as generalizing s before with
  | nil => rfl
  | cons a as ih =>
    have hnext : ∀ b ∈ before ++ [a], (w.time b : WithBot T) ≤ w.mark (w.step s a) := by
      intro b hb
      rw [w.mark_step]
      rcases List.mem_append.mp hb with hb | hb
      · exact (hbefore b hb).trans (le_max_left _ _)
      · rw [List.mem_singleton.mp hb]
        exact le_max_right _ _
    unfold notOvertaken
    split
    next => exact ih hnext
    next hover =>
      simp only [not_forall, not_le] at hover
      obtain ⟨b, hb, hlt⟩ := hover
      have hstale : w.Stale s a := (WithBot.coe_lt_coe.mpr hlt).trans_le (hbefore b hb)
      have hsame : w.step s a = s := if_pos hstale
      have hrun : w.run s (a :: as) = w.run s as := by
        change w.run (w.step s a) as = _
        rw [hsame]
      rw [hrun]
      exact ih (hsame ▸ hnext)

/-- A run is the run of the updates that are not overtaken. -/
theorem run_notOvertaken : w.run s (notOvertaken w.time [] as) = w.run s as :=
  w.run_notOvertaken_of (by simp)

/-- Updates in the order of their times are applied unless they are stale at first. -/
theorem run_of_pairwise (h : as.Pairwise fun a b => w.time a ≤ w.time b) :
    w.run s as = (as.filter fun a => ¬ w.Stale s a).foldl w.apply s := by
  induction as generalizing s with
  | nil => rfl
  | cons a as ih =>
    obtain ⟨hfirst, hrest⟩ := List.pairwise_cons.mp h
    change w.run (w.step s a) as = _
    by_cases hstale : w.Stale s a
    · have hstep : w.step s a = s := if_pos hstale
      rw [hstep, ih hrest, List.filter_cons_of_neg (by simpa using hstale)]
    · have hstep : w.step s a = w.apply s a := if_neg hstale
      have hkept : ∀ b ∈ as, ¬ w.Stale s b := fun b hb =>
        not_lt.mpr ((not_lt.mp hstale).trans (WithBot.coe_le_coe.mpr (hfirst b hb)))
      have hkept' : ∀ b ∈ as, ¬ w.Stale (w.apply s a) b := fun b hb => by
        rw [Stale, w.mark_apply]
        exact not_lt.mpr (WithBot.coe_le_coe.mpr (hfirst b hb))
      rw [hstep, ih hrest, List.filter_cons_of_pos (by simpa using hstale), List.foldl_cons,
        List.filter_eq_self.mpr fun b hb => decide_eq_true (hkept b hb),
        List.filter_eq_self.mpr fun b hb => decide_eq_true (hkept' b hb)]

/-- A run applies the updates that are neither overtaken nor stale at first. -/
theorem run_eq_foldl (s : σ) (as : List α) :
    w.run s as = ((notOvertaken w.time [] as).filter fun a => ¬ w.Stale s a).foldl w.apply s := by
  rw [← w.run_notOvertaken, w.run_of_pairwise (notOvertaken_pairwise [] as)]

/-- Of updates that are not above the mark those at the mark are applied. -/
theorem run_of_le (h : ∀ a ∈ as, (w.time a : WithBot T) ≤ w.mark s) :
    w.run s as = (as.filter fun a => (w.time a : WithBot T) = w.mark s).foldl w.apply s := by
  induction as generalizing s with
  | nil => rfl
  | cons a as ih =>
    have hrest : ∀ b ∈ as, (w.time b : WithBot T) ≤ w.mark s := fun b hb =>
      h b (List.mem_cons_of_mem a hb)
    change w.run (w.step s a) as = _
    by_cases heq : (w.time a : WithBot T) = w.mark s
    · have hstep : w.step s a = w.apply s a := if_neg (by simp [Stale, heq])
      have hmark : w.mark (w.apply s a) = w.mark s := (w.mark_apply s a).trans heq
      rw [hstep, ih (hmark ▸ hrest), List.filter_cons_of_pos (by simpa using heq)]
      simp [hmark]
    · have hstep : w.step s a = s :=
        if_pos (lt_of_le_of_ne (h a List.mem_cons_self) heq)
      rw [hstep, ih hrest, List.filter_cons_of_neg (by simpa using heq)]

/-- After an update that is not stale those with its time are applied, if none is newer. -/
theorem run_cons_of_le {b : α} (hb : w.mark s ≤ w.time b) (h : ∀ a ∈ as, w.time a ≤ w.time b) :
    w.run s (b :: as) = ((b :: as).filter fun a => w.time a = w.time b).foldl w.apply s := by
  have hstep : w.step s b = w.apply s b := if_neg (not_lt.mpr hb)
  have hle : ∀ a ∈ as, (w.time a : WithBot T) ≤ w.mark (w.apply s b) := by
    intro a ha
    rw [w.mark_apply]
    exact WithBot.coe_le_coe.mpr (h a ha)
  change w.run (w.step s b) as = _
  rw [hstep, w.run_of_le hle, List.filter_cons_of_pos (by simp), List.foldl_cons]
  simp only [w.mark_apply, WithBot.coe_inj]

/-- The updates of a run that are at its final mark are applied one after the other, from the first
of them on. -/
theorem run_eq_foldl_newest (s : σ) (as : List α) :
    (as.filter fun a => (w.time a : WithBot T) = w.mark (w.run s as)) = [] ∨
      ∃ pre b post, as = pre ++ b :: post ∧ w.mark (w.run s as) = w.time b ∧
        (∀ a ∈ pre, w.time a < w.time b) ∧
        w.run s as = (as.filter fun a => w.time a = w.time b).foldl w.apply (w.run s pre) := by
  cases hfirst : as.find? fun a => (w.time a : WithBot T) = w.mark (w.run s as) with
  | none =>
    left
    rw [List.filter_eq_nil_iff]
    exact List.find?_eq_none.mp hfirst
  | some b =>
    right
    obtain ⟨hb, pre, post, hsplit, hpre⟩ := List.find?_eq_some_iff_append.mp hfirst
    replace hb : (w.time b : WithBot T) = w.mark (w.run s as) := by simpa using hb
    have hle : ∀ a ∈ as, w.time a ≤ w.time b := by
      intro a ha
      have h := w.time_le_run (s := s) a ha
      rwa [← hb, WithBot.coe_le_coe] at h
    have hlt : ∀ a ∈ pre, w.time a < w.time b := by
      intro a ha
      have hne := hpre a ha
      rw [← hb] at hne
      refine lt_of_le_of_ne (hle a (hsplit ▸ List.mem_append_left _ ha)) ?_
      simpa [WithBot.coe_inj] using hne
    have hnone : pre.filter (fun a => w.time a = w.time b) = [] := by
      rw [List.filter_eq_nil_iff]
      intro a ha
      simpa using (hlt a ha).ne
    have hmark : w.mark (w.run s pre) ≤ w.time b := by
      rw [hb, hsplit, run_append]
      exact w.mark_le_run
    refine ⟨pre, b, post, hsplit, hb.symm, hlt, ?_⟩
    have hpost : ∀ a ∈ post, w.time a ≤ w.time b := fun a ha =>
      hle a (hsplit ▸ List.mem_append_right _ (List.mem_cons_of_mem b ha))
    conv_lhs => rw [hsplit, run_append, w.run_cons_of_le hmark hpost]
    rw [hsplit, List.filter_append, hnone, List.nil_append]

end HighWater

/-- A later copy of an update makes an earlier one redundant. -/
structure Absorbing (apply : σ → α → σ) : Prop where
  idem : ∀ s a, apply (apply s a) a = apply s a
  congr : ∀ s₁ s₂ a b, apply s₁ a = apply s₂ a → apply (apply s₁ b) a = apply (apply s₂ b) a

namespace Absorbing

variable {apply : σ → α → σ} (h : Absorbing apply)

include h

theorem foldl_congr {s₁ s₂ : σ} {a : α} (heq : apply s₁ a = apply s₂ a) (as : List α) :
    apply (as.foldl apply s₁) a = apply (as.foldl apply s₂) a := by
  induction as generalizing s₁ s₂ with
  | nil => exact heq
  | cons b as ih => exact ih (h.congr s₁ s₂ a b heq)

theorem foldl_apply {s : σ} {a : α} {as : List α} (ha : a ∈ as) :
    as.foldl apply (apply s a) = as.foldl apply s := by
  obtain ⟨pre, post, rfl⟩ := List.append_of_mem ha
  rw [List.foldl_append, List.foldl_append, List.foldl_cons, List.foldl_cons,
    h.foldl_congr (h.idem s a) pre]

/-- Updates after which all of them come again are redundant. -/
theorem foldl_foldl {s : σ} {as bs : List α} (hsub : ∀ a ∈ as, a ∈ bs) :
    bs.foldl apply (as.foldl apply s) = bs.foldl apply s := by
  induction as generalizing s with
  | nil => rfl
  | cons a as ih =>
    rw [List.foldl_cons, ih fun b hb => hsub b (List.mem_cons_of_mem a hb),
      h.foldl_apply (hsub a List.mem_cons_self)]

end Absorbing

end Agyn
