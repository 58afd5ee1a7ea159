import Mathlib.Data.List.Infix
import Agyn.PersistedGraph
import Agyn.SeparatorRuns

/-!
The paths of memory documents: how a path is brought into its normal form, when it is refused, and
which segments it has.
-/
namespace Agyn.Memory

/-- `VALID_SEGMENT`: `^[A-Za-z0-9_. -]+$`. -/
def isSegmentChar (c : Char) : Bool := c.isAlphanum || c ∈ ['_', '.', ' ', '-']

def validSegment (segment : List Char) : Bool := segment ≠ [] && segment.all isSegmentChar

def trimPath (p : List Char) : List Char := (p.dropWhile isTrimmed).rdropWhile isTrimmed

def getSegments (path : List Char) : List (List Char) :=
  if path = ['/'] then [] else (path.drop 1).splitOn '/'

def checkPath (p : List Char) : Except String (List Char) :=
  if ['.', '.'] <:+: p then .error "invalid path: \"..\" not allowed"
  else if '$' ∈ p then .error "invalid path: \"$\" not allowed"
  else match (getSegments p).find? fun segment => !validSegment segment with
    | some segment => .error ("invalid path segment: " ++ String.ofList segment)
    | none => .ok p

def normalizePath (rawPath : List Char) (allowRoot : Bool) : Except String (List Char) :=
  if rawPath.length = 0 then if allowRoot then .ok ['/'] else .error "path is required"
  else
    let p := trimPath (replaceRuns '\\' '/' false rawPath)
    if p.length = 0 then if allowRoot then .ok ['/'] else .error "path is required"
    else
      let p := replaceRuns '/' '/' false p
      let p := if p.head? = some '/' then p else '/' :: p
      let p := replaceRuns '/' '/' false p
      let p := if 1 < p.length ∧ p.getLast? = some '/' then stripEnd '/' p else p
      let p := if p = [] then ['/'] else p
      if p = ['/'] ∧ allowRoot then .ok ['/']
      else if p = ['/'] ∧ ¬allowRoot then .error "path is required"
      else checkPath p

/-- The pieces of a path between its slashes, in either direction. -/
def segmentsOf (rawPath : List Char) : List (List Char) :=
  pieces '/' (trimPath (replaceRuns '\\' '/' false rawPath))

section NormalForm

variable {p rawPath : List Char} {ps : List (List Char)} {allowRoot : Bool}

theorem joinPieces_ne_root (h : ∀ s ∈ ps, s ≠ []) : joinPieces '/' ps ≠ ['/'] := by
  cases ps with
  | nil => simp [joinPieces]
  | cons s ps => simp [joinPieces, h s List.mem_cons_self]

theorem joinPieces_eq_nil : joinPieces '/' ps = [] ↔ ps = [] := by
  cases ps with
  | nil => simp [joinPieces]
  | cons s ps => simp [joinPieces]

/-- The last slash of a path that starts with one is cut off, unless it is all there is. -/
theorem cutSlash_eq (u : List Char) :
    (if (if 1 < ('/' :: u).length ∧ ('/' :: u).getLast? = some '/' then stripEnd '/' ('/' :: u)
        else '/' :: u) = [] then ['/']
      else if 1 < ('/' :: u).length ∧ ('/' :: u).getLast? = some '/' then stripEnd '/' ('/' :: u)
        else '/' :: u) =
      if stripEnd '/' ('/' :: u) = [] then ['/'] else stripEnd '/' ('/' :: u) := by
  by_cases hlast : ('/' :: u).getLast? = some '/'
  · cases u with
    | nil => simp [stripEnd]
    | cons a u => simp [hlast]
  · simp [hlast, stripEnd_of_getLast? hlast]

theorem replaceRuns_cons_collapsed (p : List Char) :
    replaceRuns '/' '/' false ('/' :: replaceRuns '/' '/' true p) =
      '/' :: replaceRuns '/' '/' true p := by
  rw [replaceRuns, if_pos rfl, if_neg Bool.false_ne_true, replaceRuns_idem]

theorem segmentsOf_eq_nil_of_length (h : rawPath.length = 0) : segmentsOf rawPath = [] := by
  rw [List.length_eq_zero_iff.mp h]
  rfl

theorem normalizePath_eq (rawPath : List Char) (allowRoot : Bool) :
    normalizePath rawPath allowRoot =
      if segmentsOf rawPath = [] then if allowRoot then .ok ['/'] else .error "path is required"
      else checkPath (joinPieces '/' (segmentsOf rawPath)) := by
  by_cases hraw : rawPath.length = 0
  · rw [normalizePath, if_pos hraw, if_pos (segmentsOf_eq_nil_of_length hraw)]
  unfold normalizePath
  rw [if_neg hraw]
  simp only [cons_replaceRuns, replaceRuns_cons_collapsed]
  simp only [cutSlash_eq]
  simp only [stripEnd_cons_replaceRuns, joinPieces_eq_nil, ← segmentsOf.eq_def]
  by_cases hempty : (trimPath (replaceRuns '\\' '/' false rawPath)).length = 0
  · have hsegs : segmentsOf rawPath = [] := by
      rw [segmentsOf, List.length_eq_zero_iff.mp hempty]
      rfl
    rw [if_pos hempty, if_pos hsegs]
  rw [if_neg hempty]
  by_cases hsegs : segmentsOf rawPath = []
  · cases allowRoot <;> simp [hsegs]
  · have hne : joinPieces '/' (segmentsOf rawPath) ≠ ['/'] :=
      joinPieces_ne_root fun s hs => (mem_pieces hs).2
    simp [hsegs, hne]

/-- No segment of the path has a dollar sign, two dots or a character that is not allowed. -/
def ValidName (name : List Char) : Prop := validSegment name ∧ ¬['.', '.'] <:+: name

theorem ValidName.ne_nil (h : ValidName p) : p ≠ [] := by
  have hp := h.1
  simp only [validSegment, Bool.and_eq_true, decide_eq_true_eq] at hp
  exact hp.1

theorem ValidName.segmentChars (h : ValidName p) : ∀ c ∈ p, isSegmentChar c := by
  have hp := h.1
  simp only [validSegment, Bool.and_eq_true, List.all_eq_true] at hp
  exact hp.2

theorem getSegments_joinPieces (hne : ps ≠ []) (h : ∀ s ∈ ps, '/' ∉ s ∧ s ≠ []) :
    getSegments (joinPieces '/' ps) = ps := by
  rw [getSegments, if_neg (joinPieces_ne_root fun s hs => (h s hs).2),
    splitOn_joinPieces hne fun s hs => (h s hs).1]

theorem isSegmentChar_dollar : isSegmentChar '$' = false := by decide +kernel
theorem isSegmentChar_slash : isSegmentChar '/' = false := by decide +kernel
theorem isSegmentChar_backslash : isSegmentChar '\\' = false := by decide +kernel

theorem ValidName.not_mem {c : Char} (h : ValidName p) (hc : isSegmentChar c = false) : c ∉ p :=
  fun hmem => by simp [h.segmentChars c hmem] at hc

theorem toNat_of_isSegmentChar {c : Char} (h : isSegmentChar c) :
    45 ≤ c.toNat ∧ c.toNat ≤ 122 ∨ c.toNat = 32 := by
  unfold isSegmentChar Char.isAlphanum at h
  delta Char.isAlpha Char.isUpper Char.isLower Char.isDigit at h
  simp only [Bool.or_eq_true, Bool.and_eq_true, decide_eq_true_eq, ge_iff_le,
    UInt32.le_iff_toNat_le] at h
  obtain (h | h) | h := h
  · obtain h | h := h
    · exact .inl ⟨Nat.le_trans (by decide) h.1, Nat.le_trans h.2 (by decide)⟩
    · exact .inl ⟨Nat.le_trans (by decide) h.1, Nat.le_trans h.2 (by decide)⟩
  · exact .inl ⟨Nat.le_trans (by decide) h.1, Nat.le_trans h.2 (by decide)⟩
  · have hall : ∀ d ∈ ['_', '.', ' ', '-'], 45 ≤ d.toNat ∧ d.toNat ≤ 122 ∨ d.toNat = 32 := by simp
    exact hall c h

/-- The only white space in a name is the blank. -/
theorem eq_blank_of_isTrimmed {c : Char} (hseg : isSegmentChar c) (htrim : isTrimmed c) :
    c = ' ' := by
  have hnat := toNat_of_isSegmentChar hseg
  simp only [isTrimmed, List.mem_cons, List.not_mem_nil, or_false, decide_eq_true_eq] at htrim
  apply Char.toNat_inj.mp
  show c.toNat = 32
  omega

theorem dots_infix_joinPieces :
    ['.', '.'] <:+: joinPieces '/' ps ↔ ∃ s ∈ ps, ['.', '.'] <:+: s := by
  have h : ['.', '.'] <:+: [] ++ joinPieces '/' ps ↔ _ := infix_append_joinPieces (by simp)
  simpa using h

theorem checkPath_joinPieces (hne : ps ≠ []) (h : ∀ s ∈ ps, '/' ∉ s ∧ s ≠ []) :
    checkPath (joinPieces '/' ps) = .ok p ↔ p = joinPieces '/' ps ∧ ∀ s ∈ ps, ValidName s := by
  rw [checkPath, getSegments_joinPieces hne h]
  constructor
  · intro hok
    split_ifs at hok with hdots hdollar
    rw [dots_infix_joinPieces] at hdots
    cases hfind : ps.find? fun segment => !validSegment segment with
    | some s => simp [hfind] at hok
    | none =>
      simp only [hfind, Except.ok.injEq] at hok
      refine ⟨hok.symm, fun s hs => ⟨?_, fun hin => hdots ⟨s, hs, hin⟩⟩⟩
      simpa using List.find?_eq_none.mp hfind s hs
  · rintro ⟨rfl, hvalid⟩
    have hdots : ¬['.', '.'] <:+: joinPieces '/' ps := by
      rw [dots_infix_joinPieces]
      exact fun ⟨s, hs, hin⟩ => (hvalid s hs).2 hin
    have hdollar : '$' ∉ joinPieces '/' ps := by
      rw [joinPieces, List.mem_flatMap]
      rintro ⟨s, hs, hmem⟩
      have hmem : '$' ∈ s := by simpa using hmem
      exact (hvalid s hs).not_mem isSegmentChar_dollar hmem
    have hfind : ps.find? (fun segment => !validSegment segment) = none :=
      List.find?_eq_none.mpr fun s hs => by simp [(hvalid s hs).1]
    rw [if_neg hdots, if_neg hdollar, hfind]

/-- A path is accepted as the root or as its segments, each of them a valid name. -/
theorem normalizePath_eq_ok :
    normalizePath rawPath allowRoot = .ok p ↔
      (segmentsOf rawPath = [] ∧ allowRoot ∧ p = ['/']) ∨
        (segmentsOf rawPath ≠ [] ∧ p = joinPieces '/' (segmentsOf rawPath) ∧
          ∀ s ∈ segmentsOf rawPath, ValidName s) := by
  rw [normalizePath_eq]
  by_cases hsegs : segmentsOf rawPath = []
  · cases allowRoot <;> simp [hsegs, eq_comm]
  · simp [hsegs, checkPath_joinPieces hsegs fun s hs => mem_pieces hs]

theorem exists_normalizePath :
    (∃ p, normalizePath rawPath allowRoot = .ok p) ↔
      (∀ s ∈ segmentsOf rawPath, ValidName s) ∧ (segmentsOf rawPath = [] → allowRoot) := by
  simp only [normalizePath_eq_ok]
  by_cases hsegs : segmentsOf rawPath = []
  · simp [hsegs]
  · simp [hsegs]

/-- The segments of an accepted path. -/
theorem getSegments_of_ok (h : normalizePath rawPath allowRoot = .ok p) :
    getSegments p = segmentsOf rawPath := by
  obtain ⟨hnil, -, rfl⟩ | ⟨hne, rfl, -⟩ := normalizePath_eq_ok.mp h
  · rw [hnil, getSegments, if_pos rfl]
  · exact getSegments_joinPieces hne fun s hs => mem_pieces hs

end NormalForm

section Joining

variable {p q name : List Char} {ps : List (List Char)}

/-- A path is blank or does not end in white space. -/
def Joinable (p : List Char) : Prop :=
  (∀ c ∈ p, isTrimmed c) ∨ ∀ c, p.getLast? = some c → ¬isTrimmed c

/-- A name that is not cut off at its end. -/
def KeptName (name : List Char) : Prop := ValidName name ∧ name.getLast? ≠ some ' '

theorem KeptName.getLast? {c : Char} (h : KeptName name) (hc : name.getLast? = some c) :
    ¬isTrimmed c := by
  intro htrim
  have hseg := h.1.segmentChars c (List.mem_of_getLast? hc)
  exact h.2 (eq_blank_of_isTrimmed hseg htrim ▸ hc)

theorem not_isTrimmed_of_suffix {c : Char} (h : q ++ [c] <:+ trimPath p) : ¬isTrimmed c := by
  have hne : trimPath p ≠ [] := h.ne_nil (by simp)
  have hlast : (trimPath p).getLast hne = c := by
    rw [← h.getLast (by simp), List.getLast_append_singleton]
  rw [← hlast]
  exact List.rdropWhile_last_not isTrimmed (p.dropWhile isTrimmed) hne

theorem trimEnd_of_joinable (h : Joinable q) :
    (q.dropWhile isTrimmed).rdropWhile isTrimmed = q.dropWhile isTrimmed := by
  rw [List.rdropWhile_eq_self_iff]
  intro hne
  obtain hblank | hend := h
  · exact absurd (List.dropWhile_eq_nil_iff.mpr hblank) hne
  · apply hend
    rw [(List.dropWhile_suffix isTrimmed).getLast hne]
    exact List.getLast?_eq_some_getLast _

theorem joinable_append_name (h : KeptName name) : Joinable (q ++ '/' :: name) := by
  right
  intro c hc
  rw [List.getLast?_append_of_ne_nil, List.getLast?_cons_of_ne_nil h.1.ne_nil] at hc
  · exact h.getLast? hc
  · simp

theorem dropWhile_append_name :
    (q ++ '/' :: name).dropWhile isTrimmed = q.dropWhile isTrimmed ++ '/' :: name := by
  have hslash : ('/' :: name).dropWhile isTrimmed = '/' :: name :=
    List.dropWhile_cons_of_neg (by decide)
  rw [List.dropWhile_append, hslash]
  cases q.dropWhile isTrimmed <;> rfl

theorem Joinable.replaceRuns (h : Joinable p) : Joinable (replaceRuns '\\' '/' false p) := by
  obtain hblank | hend := h
  · have hmem : '\\' ∉ p := fun hmem => absurd (hblank _ hmem) (by decide)
    rw [replaceRuns_of_not_mem false hmem]
    exact .inl hblank
  · right
    intro c hc
    obtain rfl | hc := getLast?_replaceRuns false hc
    · decide
    · exact hend c hc

/-- A name joined to a path is its last segment. -/
theorem segmentsOf_append_name (hp : Joinable p) (hname : KeptName name) :
    segmentsOf (p ++ '/' :: name) = segmentsOf p ++ [name] := by
  have hslash : '/' ∉ name := hname.1.not_mem isSegmentChar_slash
  have hbackslash : '\\' ∉ '/' :: name := by
    simpa using hname.1.not_mem isSegmentChar_backslash
  rw [segmentsOf, replaceRuns_append_of_not_mem false hbackslash, trimPath,
    trimEnd_of_joinable (joinable_append_name hname), dropWhile_append_name, pieces_append_cons,
    pieces_of_not_mem hslash hname.1.ne_nil, segmentsOf, trimPath,
    trimEnd_of_joinable hp.replaceRuns]

theorem joinable_joinPieces (h : ∀ s ∈ ps, KeptName s) : Joinable (joinPieces '/' ps) := by
  obtain rfl | ⟨init, s, rfl⟩ := List.eq_nil_or_concat ps
  · exact .inl (by simp [joinPieces])
  · rw [List.concat_eq_append, joinPieces, List.flatMap_append]
    simpa using joinable_append_name (q := init.flatMap ('/' :: ·)) (h s (by simp))

/-- A path in normal form has the segments it is made of. -/
theorem segmentsOf_joinPieces (h : ∀ s ∈ ps, KeptName s) : segmentsOf (joinPieces '/' ps) = ps := by
  induction ps using List.reverseRecOn with
  | nil => rfl
  | append_singleton init s ih =>
    have hinit : ∀ t ∈ init, KeptName t := fun t ht => h t (List.mem_append_left [s] ht)
    have hjoin : joinPieces '/' (init ++ [s]) = joinPieces '/' init ++ '/' :: s := by
      simp [joinPieces]
    rw [hjoin, segmentsOf_append_name (joinable_joinPieces hinit) (h s (by simp)), ih hinit]

end Joining

end Agyn.Memory
