import Mathlib.Data.List.Basic

/-!
Lines of a list that each end with a separator, as they come from a stream that arrives in parts.
What follows the last separator is the beginning of a line that is not complete yet; the lines of
a longer stream are found from it and the new part alone.
-/
namespace Agyn.TerminatedLines

variable {α : Type} [DecidableEq α] {sep : α}

/-- The complete lines, the first one continued from `line`, and what is left of the last one. -/
def scan (sep : α) (line : List α) : List α → List (List α) × List α
  | [] => ([], line)
  | x :: xs =>
    if x = sep then
      let (lines, rest) := scan sep [] xs
      (line :: lines, rest)
    else scan sep (line ++ [x]) xs

def lines (sep : α) (xs : List α) : List (List α) := (scan sep [] xs).1

def rest (sep : α) (xs : List α) : List α := (scan sep [] xs).2

theorem scan_append (line xs ys : List α) :
    scan sep line (xs ++ ys) =
      ((scan sep line xs).1 ++ (scan sep (scan sep line xs).2 ys).1,
        (scan sep (scan sep line xs).2 ys).2) := by
  induction xs generalizing line with
  | nil => simp [scan]
  | cons x xs ih =>
    by_cases hx : x = sep
    · simp [scan, hx, ih]
    · simp [scan, hx, ih]

theorem scan_of_not_mem {line xs : List α} (h : sep ∉ xs) :
    scan sep line xs = ([], line ++ xs) := by
  induction xs generalizing line with
  | nil => simp [scan]
  | cons x xs ih =>
    obtain ⟨hx, hxs⟩ := not_or.mp (mt List.mem_cons.mpr h)
    rw [scan, if_neg (Ne.symm hx), ih hxs]
    simp

/-- A separator does not stand in what is left. -/
theorem sep_not_mem_scan {line xs : List α} (h : sep ∉ line) : sep ∉ (scan sep line xs).2 := by
  induction xs generalizing line with
  | nil => exact h
  | cons x xs ih =>
    rw [scan]
    split_ifs with hx
    · exact ih List.not_mem_nil
    · refine ih ?_
      simp only [List.mem_append, List.mem_singleton, not_or]
      exact ⟨h, Ne.symm hx⟩

theorem sep_not_mem_rest (xs : List α) : sep ∉ rest sep xs := sep_not_mem_scan List.not_mem_nil

theorem scan_rest (xs ys : List α) :
    scan sep [] (rest sep xs ++ ys) = scan sep (rest sep xs) ys := by
  rw [scan_append, scan_of_not_mem (sep_not_mem_rest xs)]
  simp

@[simp] theorem lines_nil : lines sep ([] : List α) = [] := rfl

@[simp] theorem rest_nil : rest sep ([] : List α) = [] := rfl

/-- The lines of a stream and of its next part. -/
theorem lines_append (xs ys : List α) :
    lines sep (xs ++ ys) = lines sep xs ++ lines sep (rest sep xs ++ ys) := by
  rw [lines, lines, lines, scan_append, scan_rest]
  rfl

theorem rest_append (xs ys : List α) : rest sep (xs ++ ys) = rest sep (rest sep xs ++ ys) := by
  rw [rest, scan_append, rest, scan_rest]
  rfl

theorem lines_of_not_mem {xs : List α} (h : sep ∉ xs) : lines sep xs = [] := by
  rw [lines, scan_of_not_mem h]

theorem rest_of_not_mem {xs : List α} (h : sep ∉ xs) : rest sep xs = xs := by
  rw [rest, scan_of_not_mem h, List.nil_append]

theorem lines_cons_line {line xs : List α} (h : sep ∉ line) :
    lines sep (line ++ sep :: xs) = line :: lines sep xs := by
  rw [lines, scan_append, scan_of_not_mem h]
  simp [scan, lines]

theorem rest_cons_line {line xs : List α} (h : sep ∉ line) :
    rest sep (line ++ sep :: xs) = rest sep xs := by
  rw [rest, scan_append, scan_of_not_mem h]
  simp [scan, rest]

/-- A stream without a complete line is what is left of it. -/
theorem rest_of_lines_eq_nil {xs : List α} (h : lines sep xs = []) : rest sep xs = xs := by
  refine rest_of_not_mem fun hmem => ?_
  obtain ⟨before, after, rfl, hbefore⟩ := List.eq_append_cons_of_mem hmem
  rw [lines_cons_line hbefore] at h
  exact List.cons_ne_nil _ _ h

/-- The first separator cuts off the first line. -/
theorem eq_line_of_idxOf? {xs : List α} {i : ℕ} (h : xs.idxOf? sep = some i) :
    xs = xs.take i ++ sep :: xs.drop (i + 1) ∧ sep ∉ xs.take i := by
  obtain ⟨hi, hsep, hbefore⟩ := List.idxOf?_eq_some_iff.mp h
  constructor
  · rw [← hsep, List.getElem_cons_drop, List.take_append_drop]
  · intro hmem
    obtain ⟨j, hj, hget⟩ := List.getElem_of_mem hmem
    have hji : j < i := by
      rw [List.length_take] at hj
      omega
    exact hbefore j hji (by rw [← hget, List.getElem_take])

end Agyn.TerminatedLines
