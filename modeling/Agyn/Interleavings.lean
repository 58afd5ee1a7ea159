import Mathlib.Data.List.Basic

/-!
Interleavings of any number of traces: in each step one of them goes on by one event. What is
counted in an interleaving is counted in the traces.
-/
namespace Agyn

variable {α : Type}

inductive Interleaving : List (List α) → List α → Prop where
  | done {traces : List (List α)} : (∀ t ∈ traces, t = []) → Interleaving traces []
  | next (before after : List (List α)) (e : α) (rest : List α) {log : List α} :
      Interleaving (before ++ rest :: after) log →
      Interleaving (before ++ (e :: rest) :: after) (e :: log)

namespace Interleaving

variable {traces : List (List α)} {log : List α}

theorem perm_flatten (h : Interleaving traces log) : log.Perm traces.flatten := by
  induction h with
  | done hnil =>
    rw [List.flatten_eq_nil_iff.mpr hnil]
  | next before after e rest _ ih =>
    refine (ih.cons e).trans ?_
    rw [List.flatten_append, List.flatten_append, List.flatten_cons, List.flatten_cons,
      List.cons_append]
    exact List.perm_middle.symm

/-- The traces may run one after the other. -/
theorem flatten (traces : List (List α)) : Interleaving traces traces.flatten := by
  have hrun : ∀ front : List (List α), (∀ t ∈ front, t = []) →
      Interleaving (front ++ traces) traces.flatten := by
    induction traces with
    | nil =>
      intro front hfront
      rw [List.append_nil]
      exact .done hfront
    | cons t traces ih =>
      intro front hfront
      rw [List.flatten_cons]
      induction t with
      | nil =>
        rw [List.nil_append, List.append_cons]
        refine ih (front ++ [[]]) fun u hu => ?_
        rcases List.mem_append.mp hu with hold | hnew
        · exact hfront u hold
        · exact List.mem_singleton.mp hnew
      | cons e t iht => exact .next front traces e t iht
  exact hrun [] (fun _ ht => absurd ht List.not_mem_nil)

end Interleaving

end Agyn
