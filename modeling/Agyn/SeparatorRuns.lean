import Mathlib.Data.List.Basic
import Mathlib.Data.List.DropRight
import Mathlib.Tactic.SplitIfs

/-!
Lists in which a separator stands between pieces. Runs of the separator collapse to one, and a list
that starts with one separator, has no runs and does not end with a separator is given by its
pieces: the parts between separators that are not empty.
-/
namespace Agyn

variable {α : Type}

/-- A separator before each of the pieces. -/
def joinPieces (c : α) (ps : List (List α)) : List α := ps.flatMap (c :: ·)

section Infix

variable {c : α} {xs ys : List α} {ps : List (List α)}

theorem joinPieces_cons (p : List α) (ps : List (List α)) :
    joinPieces c (p :: ps) = c :: [c].intercalate (p :: ps) := by
  induction ps generalizing p with
  | nil => simp [joinPieces]
  | cons q ps ih =>
    rw [List.intercalate_cons_cons, List.append_assoc, List.singleton_append, ← ih]
    rfl

/-- What has no separator in it lies within a piece. -/
theorem infix_append_cons {w : List α} (hw : c ∉ w) (h : w <:+: xs ++ c :: ys) :
    w <:+: xs ∨ w <:+: ys := by
  induction xs with
  | nil =>
    obtain hpre | hinf := List.infix_cons_iff.mp h
    · cases w with
      | nil => exact .inl (List.nil_infix)
      | cons a w => exact absurd ((List.cons_prefix_cons.mp hpre).1 ▸ List.mem_cons_self) hw
    · exact .inr hinf
  | cons a xs ih =>
    obtain hpre | hinf := List.infix_cons_iff.mp h
    · left
      have hwhole : (a :: xs) ++ [c] <+: (a :: xs) ++ c :: ys :=
        List.prefix_append_right_inj _ |>.mpr (List.prefix_append [c] ys)
      obtain hle | hle := List.prefix_or_prefix_of_prefix hpre hwhole
      · obtain rfl | hle := List.prefix_concat_iff.mp hle
        · exact absurd (by simp) hw
        · exact hle.isInfix
      · exact absurd (hle.subset (by simp)) hw
    · exact (ih hinf).imp_left fun hin => hin.trans (List.suffix_cons a xs).isInfix

theorem infix_append_joinPieces {w : List α} (hw : c ∉ w) :
    w <:+: xs ++ joinPieces c ps ↔ w <:+: xs ∨ ∃ p ∈ ps, w <:+: p := by
  induction ps generalizing xs with
  | nil => simp [joinPieces]
  | cons p ps ih =>
    rw [joinPieces, List.flatMap_cons, ← joinPieces, ← List.append_assoc, ih]
    simp only [List.mem_cons, exists_eq_or_imp, ← or_assoc]
    refine or_congr_left ⟨infix_append_cons hw, ?_⟩
    rintro (h | h)
    · exact h.trans (List.prefix_append xs _).isInfix
    · exact h.trans ⟨xs ++ [c], [], by simp⟩

/-- A part is followed by a separator or stands at the end. -/
theorem part_infix {p : List α} (h : p ∈ ps) :
    p ++ [c] <:+: [c].intercalate ps ∨ p <:+ [c].intercalate ps := by
  induction ps with
  | nil => simp at h
  | cons q ps ih =>
    cases ps with
    | nil =>
      obtain rfl : p = q := by simpa using h
      exact .inr (by simp)
    | cons q' ps =>
      rw [List.intercalate_cons_cons]
      obtain rfl | h := List.mem_cons.mp h
      · exact .inl (List.prefix_append _ _).isInfix
      · have hrest := List.suffix_append (q ++ [c]) ([c].intercalate (q' :: ps))
        exact (ih h).imp (fun hin => hin.trans hrest.isInfix) fun hsuf => hsuf.trans hrest

end Infix

variable [DecidableEq α]

/-- Every run of `c` becomes one `r`; `inRun` tells that the last element was a `c`. -/
def replaceRuns (c r : α) (inRun : Bool) : List α → List α
  | [] => []
  | a :: as =>
    if a = c then if inRun then replaceRuns c r true as else r :: replaceRuns c r true as
    else a :: replaceRuns c r false as

/-- The list without the copies of `c` at its end. -/
def stripEnd (c : α) (xs : List α) : List α := xs.rdropWhile (· = c)

/-- The parts between separators that are not empty. -/
def pieces (c : α) (xs : List α) : List (List α) := (xs.splitOn c).filter (· ≠ [])

section Runs

variable {c r : α} {xs ys : List α}

theorem replaceRuns_of_not_mem (b : Bool) (h : c ∉ xs) : replaceRuns c r b xs = xs := by
  induction xs generalizing b with
  | nil => rfl
  | cons a xs ih =>
    rw [List.mem_cons, not_or] at h
    rw [replaceRuns, if_neg (Ne.symm h.1), ih false h.2]

theorem replaceRuns_append_of_not_mem (b : Bool) (h : c ∉ ys) :
    replaceRuns c r b (xs ++ ys) = replaceRuns c r b xs ++ ys := by
  induction xs generalizing b with
  | nil => exact replaceRuns_of_not_mem b h
  | cons a xs ih =>
    simp only [List.cons_append, replaceRuns, ih]
    split_ifs <;> rfl

theorem replaceRuns_false_eq_nil : replaceRuns c r false xs = [] ↔ xs = [] := by
  cases xs with
  | nil => simp [replaceRuns]
  | cons a xs =>
    by_cases h : a = c <;> simp [replaceRuns, h]

theorem getLast?_replaceRuns {x : α} (b : Bool) (h : (replaceRuns c r b xs).getLast? = some x) :
    x = r ∨ xs.getLast? = some x := by
  induction xs generalizing b with
  | nil => simp [replaceRuns] at h
  | cons a xs ih =>
    have hcons : xs.getLast? = some x → (a :: xs).getLast? = some x := by
      intro hlast
      rw [List.getLast?_cons, hlast, Option.getD_some]
    rw [replaceRuns] at h
    split_ifs at h with hac hb
    · exact (ih true h).imp_right hcons
    · rw [List.getLast?_cons, Option.some.injEq] at h
      cases hlast : (replaceRuns c r true xs).getLast? with
      | none => exact .inl (by simpa [hlast] using h.symm)
      | some y =>
        rw [hlast, Option.getD_some] at h
        exact (ih true (hlast.trans (congrArg some h))).imp_right hcons
    · rw [List.getLast?_cons, Option.some.injEq] at h
      cases hlast : (replaceRuns c r false xs).getLast? with
      | none =>
        have hnil : xs = [] := replaceRuns_false_eq_nil.mp (List.getLast?_eq_none_iff.mp hlast)
        rw [hlast, Option.getD_none] at h
        exact .inr (by simp [hnil, h])
      | some y =>
        rw [hlast, Option.getD_some] at h
        exact (ih false (hlast.trans (congrArg some h))).imp_right hcons

/-- What no run goes on into is collapsed by itself. -/
theorem replaceRuns_append_cons (b : Bool) (hxs : c ∉ xs) (hne : xs ≠ []) :
    replaceRuns c r b (xs ++ c :: ys) = xs ++ r :: replaceRuns c r true ys := by
  induction xs generalizing b with
  | nil => exact absurd rfl hne
  | cons a xs ih =>
    rw [List.mem_cons, not_or] at hxs
    rw [List.cons_append, replaceRuns, if_neg (Ne.symm hxs.1), List.cons_append]
    congr 1
    cases xs with
    | nil => simp [replaceRuns]
    | cons a' xs => exact ih false hxs.2 (List.cons_ne_nil a' xs)

theorem replaceRuns_idem (b : Bool) (xs : List α) :
    replaceRuns c c b (replaceRuns c c b xs) = replaceRuns c c b xs := by
  induction xs generalizing b with
  | nil => rfl
  | cons a xs ih =>
    by_cases h : a = c
    · cases b <;> simp [replaceRuns, h, ih]
    · simp [replaceRuns, h, ih]

/-- With a separator put in front, if there is none, the list is collapsed. -/
theorem cons_replaceRuns (xs : List α) :
    (if (replaceRuns c c false xs).head? = some c then replaceRuns c c false xs
      else c :: replaceRuns c c false xs) = c :: replaceRuns c c true xs := by
  cases xs with
  | nil => simp [replaceRuns]
  | cons a xs =>
    by_cases h : a = c
    · simp [replaceRuns, h]
    · simp [replaceRuns, h]

end Runs

section Pieces

variable {c : α} {xs ys : List α} {ps : List (List α)}

theorem stripEnd_append (xs ys : List α) :
    stripEnd c (xs ++ ys) = if stripEnd c ys = [] then stripEnd c xs else xs ++ stripEnd c ys := by
  unfold stripEnd List.rdropWhile
  rw [List.reverse_append, List.dropWhile_append]
  cases h : ys.reverse.dropWhile (· = c) with
  | nil => simp
  | cons a as => simp

theorem stripEnd_of_getLast? (h : xs.getLast? ≠ some c) : stripEnd c xs = xs := by
  rw [stripEnd, List.rdropWhile_eq_self_iff]
  intro hne hlast
  rw [decide_eq_true_eq] at hlast
  exact h (hlast ▸ List.getLast?_eq_some_getLast hne)

theorem stripEnd_cons_piece (hxs : c ∉ xs) (hne : xs ≠ []) : stripEnd c (c :: xs) = c :: xs := by
  refine stripEnd_of_getLast? fun h => hxs ?_
  rw [List.getLast?_cons_of_ne_nil hne] at h
  exact List.mem_of_getLast? h

theorem not_mem_of_mem_splitOn (c : α) (xs : List α) : ∀ p ∈ xs.splitOn c, c ∉ p := by
  induction xs with
  | nil => simp
  | cons a xs ih =>
    rw [List.splitOn_cons_eq_if_modifyHead]
    split_ifs with h
    · simpa using ih
    · cases hparts : xs.splitOn c with
      | nil => exact absurd hparts (List.splitOn_ne_nil c xs)
      | cons q qs =>
        rw [hparts] at ih
        intro p hp
        obtain rfl | hp := List.mem_cons.mp hp
        · have hq : c ∉ q := ih q List.mem_cons_self
          have hne : c ≠ a := fun heq => h (by simp [heq])
          simp [hq, hne]
        · exact ih p (List.mem_cons_of_mem q hp)

/-- Parts with separators between them, collapsed and stripped. -/
theorem stripEnd_cons_intercalate (hps : ∀ p ∈ ps, c ∉ p) :
    stripEnd c (c :: replaceRuns c c true ([c].intercalate ps)) =
      joinPieces c (ps.filter (· ≠ [])) := by
  induction ps with
  | nil => simp [replaceRuns, stripEnd, joinPieces]
  | cons p ps ih =>
    have hp : c ∉ p := hps p List.mem_cons_self
    have ih := ih fun q hq => hps q (List.mem_cons_of_mem p hq)
    cases ps with
    | nil =>
      rw [List.intercalate_singleton, replaceRuns_of_not_mem true hp]
      by_cases hne : p = []
      · simp [hne, stripEnd, joinPieces]
      · simp [stripEnd_cons_piece hp hne, hne, joinPieces]
    | cons q ps =>
      rw [List.intercalate_cons_cons, List.append_assoc, List.singleton_append]
      by_cases hne : p = []
      · rw [hne, List.nil_append, replaceRuns, if_pos rfl, if_pos rfl, ih]
        simp
      · have hjoin : joinPieces c ((p :: q :: ps).filter (· ≠ [])) =
            c :: p ++ joinPieces c ((q :: ps).filter (· ≠ [])) := by
          rw [List.filter_cons_of_pos (by simpa using hne), joinPieces, List.flatMap_cons]
          rfl
        rw [replaceRuns_append_cons true hp hne, ← List.cons_append, stripEnd_append, ih,
          stripEnd_cons_piece hp hne, hjoin]
        split_ifs with hnil
        · rw [hnil, List.append_nil]
        · rfl

/-- Collapsed and stripped, a list is its pieces. -/
theorem stripEnd_cons_replaceRuns (c : α) (xs : List α) :
    stripEnd c (c :: replaceRuns c c true xs) = joinPieces c (pieces c xs) := by
  have h := stripEnd_cons_intercalate (not_mem_of_mem_splitOn c xs)
  rwa [List.intercalate_splitOn] at h

theorem mem_pieces {p : List α} (h : p ∈ pieces c xs) : c ∉ p ∧ p ≠ [] := by
  obtain ⟨hp, hne⟩ := List.mem_filter.mp h
  exact ⟨not_mem_of_mem_splitOn c xs p hp, by simpa using hne⟩

theorem pieces_append_cons (xs ys : List α) :
    pieces c (xs ++ c :: ys) = pieces c xs ++ pieces c ys := by
  rw [pieces, List.splitOn_append_cons_self, List.filter_append]
  rfl

theorem pieces_of_not_mem (hxs : c ∉ xs) (hne : xs ≠ []) : pieces c xs = [xs] := by
  rw [pieces, List.splitOn_eq_singleton hxs]
  simp [hne]

theorem splitOn_joinPieces (hne : ps ≠ []) (h : ∀ p ∈ ps, c ∉ p) :
    ((joinPieces c ps).drop 1).splitOn c = ps := by
  cases ps with
  | nil => exact absurd rfl hne
  | cons p ps =>
    rw [joinPieces_cons, List.drop_one, List.tail_cons]
    exact List.splitOn_intercalate c h hne

theorem piece_infix {p : List α} (h : p ∈ pieces c xs) : p ++ [c] <:+: xs ∨ p <:+ xs := by
  have hpart := part_infix (c := c) (List.mem_of_mem_filter h)
  rwa [List.intercalate_splitOn] at hpart

end Pieces

end Agyn
