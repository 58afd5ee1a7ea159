import Mathlib.Data.List.Infix

/-!
Patterns that are matched by backtracking, and the removal of all their matches from a list. Where
a match in a list ends does not depend on what follows the list, so a list may be cut wherever no
match goes across.
-/
namespace Agyn

variable {α : Type}

inductive Pattern (α : Type) where
  | empty
  | one (p : α → Bool)
  | seq (r s : Pattern α)
  | alt (r s : Pattern α)
  | star (r : Pattern α)

namespace Pattern

/-- Greedy repetition, where every round takes something. -/
def starRests (f : List α → List (List α)) : ℕ → List α → List (List α)
  | 0, xs => [xs]
  | n + 1, xs => ((f xs).filter fun ys => ys.length < xs.length).flatMap (starRests f n) ++ [xs]

/-- What is left after a match at the start of the list, for all matches in the order in which
backtracking tries them. -/
def rests : Pattern α → List α → List (List α)
  | empty, xs => [xs]
  | one _, [] => []
  | one p, x :: xs => if p x then [xs] else []
  | seq r s, xs => (r.rests xs).flatMap s.rests
  | alt r s, xs => r.rests xs ++ s.rests xs
  | star r, xs => starRests r.rests xs.length xs

def opt (r : Pattern α) : Pattern α := alt r empty

/-- At most `n` times, greedily. -/
def upTo (r : Pattern α) : ℕ → Pattern α
  | 0 => empty
  | n + 1 => opt (seq r (upTo r n))

def matchLength (r : Pattern α) (xs : List α) : ℕ :=
  match (r.rests xs).head? with
  | some rest => xs.length - rest.length
  | none => 0

/-- Drops `skip` elements, and then every match. -/
def removeAfter (r : Pattern α) : ℕ → List α → List α
  | _, [] => []
  | skip + 1, _ :: xs => r.removeAfter skip xs
  | 0, x :: xs =>
    match r.matchLength (x :: xs) with
    | 0 => x :: r.removeAfter 0 xs
    | n + 1 => r.removeAfter n xs

def remove (r : Pattern α) (xs : List α) : List α := r.removeAfter 0 xs

/-- A match that starts in `xs` ends in `ys`. -/
def Crosses (r : Pattern α) (xs ys : List α) : Prop :=
  ∃ us, us ≠ [] ∧ us <:+ xs ∧ us.length < r.matchLength (us ++ ys)

instance [DecidableEq α] (r : Pattern α) (xs ys : List α) : Decidable (r.Crosses xs ys) :=
  decidable_of_iff (∃ us ∈ xs.tails, us ≠ [] ∧ us.length < r.matchLength (us ++ ys)) (by
    simp only [Crosses, List.mem_tails]
    exact exists_congr fun us => ⟨fun ⟨hs, hne, hl⟩ => ⟨hne, hs, hl⟩,
      fun ⟨hne, hs, hl⟩ => ⟨hs, hne, hl⟩⟩)

theorem starRests_suffix {f : List α → List (List α)} (hf : ∀ xs, ∀ ys ∈ f xs, ys <:+ xs) (n : ℕ)
    (xs : List α) : ∀ ys ∈ starRests f n xs, ys <:+ xs := by
  induction n generalizing xs with
  | zero => simp [starRests]
  | succ n ih =>
    intro ys hys
    simp only [starRests, List.mem_append, List.mem_flatMap, List.mem_filter,
      List.mem_singleton] at hys
    rcases hys with ⟨zs, ⟨hzs, -⟩, hys⟩ | rfl
    · exact (ih zs ys hys).trans (hf xs zs hzs)
    · exact List.suffix_refl ys

theorem rests_suffix (r : Pattern α) (xs : List α) : ∀ ys ∈ r.rests xs, ys <:+ xs := by
  induction r generalizing xs with
  | empty => simp [rests]
  | one p =>
    cases xs with
    | nil => simp [rests]
    | cons x xs =>
      intro ys hys
      by_cases hp : p x
      · obtain rfl : ys = xs := by simpa [rests, hp] using hys
        exact List.suffix_cons x ys
      · simp [rests, hp] at hys
  | seq r s ihr ihs =>
    intro ys hys
    obtain ⟨zs, hzs, hys⟩ := List.mem_flatMap.mp hys
    exact (ihs zs ys hys).trans (ihr xs zs hzs)
  | alt r s ihr ihs =>
    intro ys hys
    exact (List.mem_append.mp hys).elim (ihr xs ys) (ihs xs ys)
  | star r ih => exact starRests_suffix ih xs.length xs

theorem mem_rests_one {p : α → Bool} {xs zs : List α} (h : zs ∈ (one p).rests xs) :
    ∃ x, p x = true ∧ xs = x :: zs := by
  cases xs with
  | nil => simp [rests] at h
  | cons x xs =>
    by_cases hp : p x
    · obtain rfl : zs = xs := by simpa [rests, hp] using h
      exact ⟨x, hp, rfl⟩
    · simp [rests, hp] at h

theorem mem_rests_seq {r s : Pattern α} {xs zs : List α} :
    zs ∈ (seq r s).rests xs ↔ ∃ ys ∈ r.rests xs, zs ∈ s.rests ys := List.mem_flatMap

theorem mem_rests_alt {r s : Pattern α} {xs zs : List α} :
    zs ∈ (alt r s).rests xs ↔ zs ∈ r.rests xs ∨ zs ∈ s.rests xs := List.mem_append

theorem mem_starRests_one {p : α → Bool} {n : ℕ} {xs zs : List α}
    (h : zs ∈ starRests (one p).rests n xs) : ∃ ys, (∀ y ∈ ys, p y = true) ∧ xs = ys ++ zs := by
  induction n generalizing xs with
  | zero =>
    obtain rfl : zs = xs := by simpa [starRests] using h
    exact ⟨[], by simp, rfl⟩
  | succ n ih =>
    simp only [starRests, List.mem_append, List.mem_flatMap, List.mem_filter,
      List.mem_singleton] at h
    rcases h with ⟨us, ⟨hus, -⟩, hzs⟩ | rfl
    · obtain ⟨x, hx, rfl⟩ := mem_rests_one hus
      obtain ⟨ys, hys, rfl⟩ := ih hzs
      exact ⟨x :: ys, by simpa [hx] using hys, rfl⟩
    · exact ⟨[], by simp, rfl⟩

/-- A greedy run of one class of elements. -/
theorem mem_rests_star_one {p : α → Bool} {xs zs : List α} (h : zs ∈ (star (one p)).rests xs) :
    ∃ ys, (∀ y ∈ ys, p y = true) ∧ xs = ys ++ zs := mem_starRests_one h

theorem flatMap_filter_of_nil {β γ : Type} {p : β → Bool} {g : β → List γ} {l : List β}
    (h : ∀ a ∈ l, p a = false → g a = []) : (l.filter p).flatMap g = l.flatMap g := by
  induction l with
  | nil => rfl
  | cons a l ih =>
    have hrest := ih fun b hb => h b (List.mem_cons_of_mem a hb)
    cases hp : p a with
    | true => simp [hp, hrest]
    | false => simp [hp, hrest, h a List.mem_cons_self hp]

/-- Matches that have reached `ys` do not come back from there. -/
theorem filter_eq_nil_of_suffix {ys zs : List α} {ends : List (List α)}
    (hends : ∀ us ∈ ends, us <:+ zs) (hshort : zs.length < ys.length) :
    ends.filter (fun us => ys.length ≤ us.length) = [] := by
  refine List.filter_eq_nil_iff.mpr fun us hus => ?_
  have hlength := (hends us hus).length_le
  simp only [decide_eq_true_eq]
  omega

theorem filter_starRests_append {f : List α → List (List α)}
    (hsuffix : ∀ xs, ∀ ys ∈ f xs, ys <:+ xs) {ys : List α}
    (hf : ∀ xs, (f (xs ++ ys)).filter (fun zs => ys.length ≤ zs.length) =
      (f xs).map (· ++ ys)) {n m : ℕ} {xs : List α} (hn : (xs ++ ys).length ≤ n)
    (hm : xs.length ≤ m) :
    (starRests f n (xs ++ ys)).filter (fun zs => ys.length ≤ zs.length) =
      (starRests f m xs).map (· ++ ys) := by
  induction n generalizing xs m with
  | zero =>
    obtain ⟨rfl, rfl⟩ := List.append_eq_nil_iff.mp (List.length_eq_zero_iff.mp (Nat.le_zero.mp hn))
    cases m <;> simp [starRests]
  | succ n ih =>
    have hlate : ∀ zs ∈ (f (xs ++ ys)).filter (fun zs => zs.length < (xs ++ ys).length),
        decide (ys.length ≤ zs.length) = false →
          (starRests f n zs).filter (fun us => ys.length ≤ us.length) = [] := fun zs _ hshort =>
      filter_eq_nil_of_suffix (starRests_suffix hsuffix n zs) (by simpa using hshort)
    -- the first round leaves something of `xs`, or the rest has nothing of it
    have hround : ((f (xs ++ ys)).filter (fun zs => zs.length < (xs ++ ys).length)).flatMap
          (fun zs => (starRests f n zs).filter fun us => ys.length ≤ us.length) =
        ((f xs).filter fun zs => zs.length < xs.length).flatMap fun zs =>
          (starRests f n (zs ++ ys)).filter fun us => ys.length ≤ us.length := by
      rw [← flatMap_filter_of_nil hlate, List.filter_filter]
      simp only [Bool.and_comm (decide (ys.length ≤ _))]
      rw [← List.filter_filter, hf, List.filter_map, List.flatMap_map]
      simp [Function.comp_def]
    simp only [starRests, List.filter_append, List.filter_flatMap]
    rw [hround]
    cases m with
    | zero =>
      obtain rfl : xs = [] := List.length_eq_zero_iff.mp (Nat.le_zero.mp hm)
      simp [starRests]
    | succ m =>
      have hrest : ∀ zs ∈ (f xs).filter (fun zs => zs.length < xs.length),
          (starRests f n (zs ++ ys)).filter (fun us => ys.length ≤ us.length) =
            (starRests f m zs).map (· ++ ys) := by
        intro zs hzs
        have hlength : zs.length < xs.length := by simpa using (List.mem_filter.mp hzs).2
        simp only [List.length_append] at hn
        exact ih (by simp only [List.length_append]; omega) (by omega)
      rw [List.flatMap_congr hrest]
      simp [starRests, List.map_flatMap]

/-- The matches that end before `ys` are those without `ys`. -/
theorem filter_rests_append (r : Pattern α) (xs ys : List α) :
    (r.rests (xs ++ ys)).filter (fun zs => ys.length ≤ zs.length) =
      (r.rests xs).map (· ++ ys) := by
  induction r generalizing xs with
  | empty => simp [rests]
  | one p =>
    cases xs with
    | nil =>
      cases ys with
      | nil => rfl
      | cons y ys => by_cases hp : p y <;> simp [rests, hp]
    | cons x xs => by_cases hp : p x <;> simp [rests, hp]
  | seq r s ihr ihs =>
    have hlate : ∀ zs ∈ r.rests (xs ++ ys), decide (ys.length ≤ zs.length) = false →
        (s.rests zs).filter (fun us => ys.length ≤ us.length) = [] := fun zs _ hshort =>
      filter_eq_nil_of_suffix (rests_suffix s zs) (by simpa using hshort)
    simp only [rests, List.filter_flatMap]
    rw [← flatMap_filter_of_nil hlate, ihr, List.flatMap_map, List.map_flatMap]
    simp only [ihs]
  | alt r s ihr ihs => simp only [rests, List.filter_append, ihr, ihs, List.map_append]
  | star r ih =>
    exact filter_starRests_append (rests_suffix r) ih (Nat.le_refl _) (Nat.le_refl _)

theorem matchLength_le (r : Pattern α) (xs : List α) : r.matchLength xs ≤ xs.length := by
  unfold matchLength
  cases (r.rests xs).head? <;> simp

theorem exists_rest_of_matchLength {r : Pattern α} {n : ℕ} {xs : List α}
    (h : n < r.matchLength xs) : ∃ zs ∈ r.rests xs, n + zs.length < xs.length := by
  unfold matchLength at h
  cases hrests : r.rests xs with
  | nil => simp [hrests] at h
  | cons zs rest =>
    simp only [hrests, List.head?_cons] at h
    exact ⟨zs, List.mem_cons_self, by omega⟩

/-- A match that ends before `ys` is the same without `ys`. -/
theorem matchLength_of_append (r : Pattern α) {us ys : List α}
    (h : r.matchLength (us ++ ys) ≤ us.length) :
    r.matchLength us = r.matchLength (us ++ ys) := by
  have hfilter := filter_rests_append r us ys
  unfold matchLength at h ⊢
  cases hrests : r.rests (us ++ ys) with
  | nil =>
    rw [hrests] at hfilter
    simp [List.map_eq_nil_iff.mp hfilter.symm]
  | cons zs rest =>
    simp only [hrests, List.head?_cons, List.length_append] at h ⊢
    have hzs : zs.length ≤ (us ++ ys).length :=
      (rests_suffix r (us ++ ys) zs (by simp [hrests])).length_le
    rw [List.length_append] at hzs
    have hlate : ys.length ≤ zs.length := by omega
    rw [hrests, List.filter_cons_of_pos (by simpa using hlate)] at hfilter
    cases hus : r.rests us with
    | nil => simp [hus] at hfilter
    | cons vs rest' =>
      obtain rfl : zs = vs ++ ys := by
        simpa using congrArg List.head? (hfilter.trans (congrArg (List.map (· ++ ys)) hus))
      simp only [List.head?_cons, List.length_append]
      omega

theorem removeAfter_append {r : Pattern α} {xs ys : List α} (h : ¬r.Crosses xs ys) {skip : ℕ}
    (hskip : skip ≤ xs.length) :
    r.removeAfter skip (xs ++ ys) = r.removeAfter skip xs ++ r.remove ys := by
  induction xs generalizing skip with
  | nil =>
    obtain rfl : skip = 0 := Nat.le_zero.mp hskip
    rfl
  | cons x xs ih =>
    have htail : ¬r.Crosses xs ys := fun ⟨us, hne, hsuffix, hlength⟩ =>
      h ⟨us, hne, hsuffix.trans (List.suffix_cons x xs), hlength⟩
    rw [List.length_cons] at hskip
    cases skip with
    | succ skip => exact ih htail (Nat.le_of_succ_le_succ hskip)
    | zero =>
      have hends : r.matchLength (x :: xs ++ ys) ≤ (x :: xs).length :=
        Nat.le_of_not_lt fun hlt => h ⟨x :: xs, by simp, List.suffix_refl _, hlt⟩
      have hsame := matchLength_of_append r hends
      rw [List.cons_append] at hsame ⊢
      simp only [removeAfter, ← hsame]
      cases hlength : r.matchLength (x :: xs) with
      | zero => simp only [ih htail (Nat.zero_le _), List.cons_append]
      | succ n =>
        have hle := matchLength_le r (x :: xs)
        rw [hlength, List.length_cons] at hle
        exact ih htail (Nat.le_of_succ_le_succ hle)

/-- A list may be cut where no match goes across. -/
theorem remove_append {r : Pattern α} {xs ys : List α} (h : ¬r.Crosses xs ys) :
    r.remove (xs ++ ys) = r.remove xs ++ r.remove ys :=
  removeAfter_append h (Nat.zero_le _)

end Pattern

end Agyn
