import Mathlib.Data.List.Sort

/-!
Lists that are fetched page by page. A page is asked for with a cursor and comes with the next one,
or with none when nothing is left; the client appends the pages. When every cursor leaves the rest
of the list, all of it is fetched, whatever the size of the pages is.
-/
namespace Agyn.KeysetPages

variable {α γ : Type*} {before : α → α → Prop} {xs ys pre rest : List α} {c : α}

/-- Two lists of the same elements in the same strict order are equal. -/
theorem eq_of_perm (hasymm : ∀ a b, before a b → ¬ before b a) (h : xs.Perm ys)
    (hxs : xs.Pairwise before) (hys : ys.Pairwise before) : xs = ys :=
  h.eq_of_pairwise (fun a b _ _ hab hba => absurd hba (hasymm a b hab)) hxs hys

/-- What is after an element of a sorted list. -/
theorem filter_before [DecidableRel before] (hasymm : ∀ a b, before a b → ¬ before b a)
    (h : (pre ++ c :: rest).Pairwise before) :
    (pre ++ c :: rest).filter (fun a => before c a) = rest := by
  obtain ⟨-, hrest, hpre⟩ := List.pairwise_append.mp h
  obtain ⟨hrest, -⟩ := List.pairwise_cons.mp hrest
  have hnone : pre.filter (fun a => decide (before c a)) = [] :=
    List.filter_eq_nil_iff.mpr fun a ha => by
      simpa using hasymm a c (hpre a ha c List.mem_cons_self)
  have hself : ¬ before c c := fun hc => hasymm c c hc hc
  have hall : rest.filter (fun a => decide (before c a)) = rest :=
    List.filter_eq_self.mpr fun a ha => by simpa using hrest a ha
  rw [List.filter_append, List.filter_cons_of_neg (by simpa using hself), hnone, hall]
  rfl

/-- The element that a page ends with cuts the list after the page. -/
theorem filter_before_last [DecidableRel before] (hasymm : ∀ a b, before a b → ¬ before b a)
    (h : xs.Pairwise before) {n : ℕ} (hc : (xs.take n).getLast? = some c) :
    xs.filter (fun a => before c a) = xs.drop n := by
  obtain ⟨pre, htake⟩ := List.getLast?_eq_some_iff.mp hc
  have hsplit : xs = pre ++ c :: xs.drop n := by
    conv_lhs => rw [← List.take_append_drop n xs, htake]
    simp
  have hfilter := filter_before hasymm (hsplit ▸ h)
  rwa [← hsplit] at hfilter

/-- The items of all pages from a cursor on, or nothing when the fuel ran out. -/
def followAll (page : Option γ → List α × Option γ) : ℕ → Option γ → Option (List α)
  | 0, _ => none
  | fuel + 1, cursor =>
    match (page cursor).2 with
    | none => some (page cursor).1
    | some next => (followAll page fuel (some next)).map ((page cursor).1 ++ ·)

theorem followAll_eq {page : Option γ → List α × Option γ} {left : Option γ → List α → Prop}
    {n : ℕ} (hn : 1 ≤ n)
    (hpage : ∀ cursor xs, left cursor xs → page cursor = (xs, none) ∨
      ∃ next, page cursor = (xs.take n, some next) ∧ xs ≠ [] ∧ left (some next) (xs.drop n))
    {cursor : Option γ} (h : left cursor xs) {fuel : ℕ} (hfuel : xs.length < fuel) :
    followAll page fuel cursor = some xs := by
  induction fuel generalizing cursor xs with
  | zero => omega
  | succ fuel ih =>
    unfold followAll
    obtain hlast | ⟨next, hmore, hne, hleft⟩ := hpage cursor xs h
    · rw [hlast]
    · have hlength : (xs.drop n).length < fuel := by
        have hpos := List.length_pos_iff.mpr hne
        rw [List.length_drop]
        omega
      rw [hmore]
      dsimp only
      rw [ih hleft hlength, Option.map_some, List.take_append_drop]

end Agyn.KeysetPages
