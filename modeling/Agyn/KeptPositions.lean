import Mathlib.Data.List.Nodup
import Mathlib.Data.Nat.Notation

/-!
The elements of a list for which a partial function is defined, each with its position in the list.
The `i`-th of them stands at position `i` exactly when the function is defined up to there.
-/
namespace Agyn.KeptPositions

variable {α β : Type} {f : α → Option β} {n i : ℕ} {a : α} {b : β} {l : List α}

/-- What is kept of a list whose first element has the position `n`. -/
def keptFrom (f : α → Option β) : ℕ → List α → List (ℕ × β)
  | _, [] => []
  | n, a :: l =>
    match f a with
    | none => keptFrom f (n + 1) l
    | some b => (n, b) :: keptFrom f (n + 1) l

theorem keptFrom_cons_none (h : f a = none) : keptFrom f n (a :: l) = keptFrom f (n + 1) l := by
  rw [keptFrom, h]

theorem keptFrom_cons_some (h : f a = some b) :
    keptFrom f n (a :: l) = (n, b) :: keptFrom f (n + 1) l := by
  rw [keptFrom, h]

/-- Without the positions, the values of the function. -/
theorem map_snd_keptFrom (n : ℕ) (l : List α) : (keptFrom f n l).map Prod.snd = l.filterMap f := by
  induction l generalizing n with
  | nil => rfl
  | cons a l ih =>
    cases h : f a with
    | none => rw [keptFrom_cons_none h, ih, List.filterMap_cons_none h]
    | some b => rw [keptFrom_cons_some h, List.map_cons, ih, List.filterMap_cons_some h]

theorem length_keptFrom (n : ℕ) (l : List α) :
    (keptFrom f n l).length = (l.filterMap f).length := by
  rw [← map_snd_keptFrom n l, List.length_map]

theorem le_of_keptFrom {e : ℕ × β} (h : (keptFrom f n l)[i]? = some e) : n + i ≤ e.1 := by
  induction l generalizing n i with
  | nil => simp [keptFrom] at h
  | cons a l ih =>
    cases ha : f a with
    | none =>
      rw [keptFrom_cons_none ha] at h
      have := ih h
      omega
    | some b =>
      rw [keptFrom_cons_some ha] at h
      cases i with
      | zero =>
        obtain rfl : (n, b) = e := by simpa using h
        exact Nat.le_refl n
      | succ i =>
        have := ih (by simpa using h)
        omega

theorem le_of_mem_keptFrom {e : ℕ × β} (h : e ∈ keptFrom f n l) : n ≤ e.1 := by
  obtain ⟨i, hi⟩ := List.mem_iff_getElem?.mp h
  have := le_of_keptFrom hi
  omega

/-- What stands at a position is what is kept of the element there. -/
theorem mem_keptFrom : (n + i, b) ∈ keptFrom f n l ↔ l[i]?.bind f = some b := by
  induction l generalizing n i with
  | nil => simp [keptFrom]
  | cons a l ih =>
    have hlater : (n, b) ∉ keptFrom f (n + 1) l := fun hmem => by
      have : n + 1 ≤ n := le_of_mem_keptFrom hmem
      omega
    cases i with
    | zero =>
      cases ha : f a with
      | none => simpa [keptFrom_cons_none ha, ha] using hlater
      | some c => simpa [keptFrom_cons_some ha, ha, hlater] using eq_comm
    | succ i =>
      have hrest := ih (n := n + 1) (i := i)
      rw [Nat.add_right_comm, Nat.add_assoc] at hrest
      cases ha : f a with
      | none => simpa [keptFrom_cons_none ha] using hrest
      | some c => simpa [keptFrom_cons_some ha] using hrest

theorem nodup_keptFrom (n : ℕ) (l : List α) : ((keptFrom f n l).map Prod.fst).Nodup := by
  induction l generalizing n with
  | nil => exact List.nodup_nil
  | cons a l ih =>
    cases ha : f a with
    | none =>
      rw [keptFrom_cons_none ha]
      exact ih (n + 1)
    | some b =>
      rw [keptFrom_cons_some ha, List.map_cons, List.nodup_cons]
      refine ⟨fun hmem => ?_, ih (n + 1)⟩
      obtain ⟨e, he, hfst⟩ := List.mem_map.mp hmem
      have := le_of_mem_keptFrom he
      omega

/-- The `i`-th that is kept is the `i`-th element when all are kept up to there. -/
theorem keptFrom_aligned_iff (hi : i < l.length) :
    ((keptFrom f n l)[i]?.map Prod.fst) = some (n + i) ↔
      ∀ a ∈ l.take (i + 1), (f a).isSome := by
  induction l generalizing n i with
  | nil => simp at hi
  | cons a l ih =>
    rw [List.take_succ_cons, List.forall_mem_cons]
    cases ha : f a with
    | none =>
      rw [keptFrom_cons_none ha]
      constructor
      · intro h
        obtain ⟨e, he, hfst⟩ := Option.map_eq_some_iff.mp h
        have := le_of_keptFrom he
        omega
      · rintro ⟨h, -⟩
        exact absurd h (by simp)
    | some b =>
      rw [keptFrom_cons_some ha]
      cases i with
      | zero => simp
      | succ i =>
        have hrest := ih (n := n + 1) (i := i) (by simpa using hi)
        rw [List.getElem?_cons_succ, ← hrest, Nat.add_right_comm, Nat.add_assoc]
        simp

end Agyn.KeptPositions
