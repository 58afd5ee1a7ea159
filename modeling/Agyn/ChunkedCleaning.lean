import Mathlib.Tactic.SplitIfs
import Agyn.AnsiCleaning

/-!
Text that is cleaned chunk by chunk, beside the same text cleaned at once. What the cleaner keeps
back depends on the text so far and not on its chunks, and the text it lets go is cleaned as a
whole unless a match of one of the patterns goes across a place where it is cut. What is kept back
at the end is lost, also the text behind a control string that never ends.
-/
namespace Agyn.ShellCommand

open IngressText

/-- What the cleaner returns for each chunk, and at the end. -/
def consumeAll (remainder : Text) : List Text → List Text
  | [] => [flush remainder]
  | chunk :: chunks =>
    (consume remainder chunk).1 :: consumeAll (consume remainder chunk).2 chunks

/-- The texts sanitized one after the other, and joined. -/
def sanitizeAll (state : IngressSanitizeState) : List Text → Text
  | [] => []
  | text :: texts =>
    (sanitizeIngressChunk text state).1 ++ sanitizeAll (sanitizeIngressChunk text state).2 texts

def cleanChunks (chunks : List Text) : Text :=
  sanitizeAll createIngressSanitizeState (consumeAll [] chunks)

def cleanWhole (text : Text) : Text := sanitizeIngressText (stripAnsi text)

def completePart (text : Text) : Text := (splitAnsiSafePortion text).1

theorem hasStringTerminator_append {text : Text} (h : hasStringTerminator text) (more : Text) :
    hasStringTerminator (text ++ more) := by
  induction text with
  | nil => simp [hasStringTerminator] at h
  | cons c text ih =>
    cases text with
    | nil => simp [hasStringTerminator] at h
    | cons d text =>
      simp only [hasStringTerminator, List.cons_append, Bool.or_eq_true] at h ih ⊢
      exact h.imp_right ih

/-- A complete sequence stays complete. -/
theorem isCompleteAnsiSequence_append {text : Text} (h : isCompleteAnsiSequence text)
    (more : Text) : isCompleteAnsiSequence (text ++ more) := by
  match text, h with
  | _ :: second :: rest, h =>
    simp only [isCompleteAnsiSequence, List.cons_append] at h ⊢
    split_ifs at h ⊢
    · rw [List.any_append, h, Bool.true_or]
    · simp only [Bool.or_eq_true, List.contains_iff_mem, List.mem_append] at h ⊢
      exact h.imp Or.inl fun h => hasStringTerminator_append h more
    · exact hasStringTerminator_append h more
    · rfl
    · rw [List.any_append, h, Bool.true_or]
    · rfl

theorem scanRemainder_cons (c : UInt16) (text : Text) :
    scanRemainder (c :: text) =
      if (scanRemainder text).2 then scanRemainder text
      else if c ≠ ESC then scanRemainder text
      else if isCompleteAnsiSequence (c :: text) then ((scanRemainder text).1, true)
      else (text.length + 1, false) := by
  rw [scanRemainder]
  rcases h : scanRemainder text with ⟨kept, _ | _⟩ <;> simp

theorem scanRemainder_le (text : Text) : (scanRemainder text).1 ≤ text.length := by
  induction text with
  | nil => exact Nat.le_refl 0
  | cons c text ih =>
    rw [scanRemainder_cons, List.length_cons]
    split_ifs
    · omega
    · omega
    · exact Nat.le_succ_of_le ih
    · exact Nat.le_refl _

/-- A scan that stops still stops when more follows. -/
theorem scanRemainder_append_stops {text : Text} (h : (scanRemainder text).2 = true)
    (more : Text) : (scanRemainder (text ++ more)).2 = true := by
  induction text with
  | nil => simp [scanRemainder] at h
  | cons c text ih =>
    rw [List.cons_append, scanRemainder_cons]
    rw [scanRemainder_cons] at h
    by_cases hlater : (scanRemainder (text ++ more)).2
    · rw [if_pos hlater]
      exact hlater
    · have hnow : ¬(scanRemainder text).2 = true := fun h => hlater (ih h)
      rw [if_neg hnow] at h
      rw [if_neg hlater]
      by_cases hc : c = ESC
      · by_cases hcomplete : isCompleteAnsiSequence (c :: text)
        · have hlonger := isCompleteAnsiSequence_append hcomplete more
          rw [List.cons_append] at hlonger
          rw [if_neg (not_not_intro hc), if_pos hlonger]
        · simp [hc, hc ▸ hcomplete] at h
      · rw [if_pos hc] at h
        exact absurd h hnow

/-- The remainder is that of the rest, or the whole text. -/
theorem remainder_cons (c : UInt16) (text : Text) :
    (splitAnsiSafePortion (c :: text)).2 = (splitAnsiSafePortion text).2 ∨
      (splitAnsiSafePortion (c :: text)).2 = c :: text ∧
        (scanRemainder (c :: text)).1 = (c :: text).length ∧
        isCompleteAnsiSequence (c :: text) = false := by
  have hle := scanRemainder_le text
  have hsame : (c :: text).drop ((c :: text).length - (scanRemainder text).1) =
      text.drop (text.length - (scanRemainder text).1) := by
    rw [List.length_cons, Nat.succ_sub hle, List.drop_succ_cons]
  simp only [splitAnsiSafePortion]
  rw [scanRemainder_cons]
  split_ifs with hstop hc hcomplete
  · exact Or.inl hsame
  · exact Or.inl hsame
  · exact Or.inl hsame
  · exact Or.inr ⟨by simp, rfl, by simpa using hcomplete⟩

/-- What is kept back is not a complete sequence. -/
theorem remainder_not_complete (text : Text) :
    isCompleteAnsiSequence (splitAnsiSafePortion text).2 = false := by
  induction text with
  | nil => rfl
  | cons c text ih =>
    rcases remainder_cons c text with heq | ⟨heq, -, hincomplete⟩
    · rw [heq, ih]
    · rw [heq, hincomplete]

def Kept (remainder : Text) : Prop := (scanRemainder remainder).1 = remainder.length

theorem kept_remainder (text : Text) : Kept (splitAnsiSafePortion text).2 := by
  induction text with
  | nil => rfl
  | cons c text ih =>
    rcases remainder_cons c text with heq | ⟨heq, hkept, -⟩
    · rwa [heq]
    · rwa [heq]

/-- When a text goes on, only what was kept back of it decides what is kept back then. -/
theorem scanRemainder_append {safe remainder : Text}
    (h : (scanRemainder (safe ++ remainder)).1 = remainder.length) (more : Text) :
    (scanRemainder (safe ++ (remainder ++ more))).1 = (scanRemainder (remainder ++ more)).1 := by
  induction safe with
  | nil => rfl
  | cons c safe ih =>
    have hstops (hstop : (scanRemainder (safe ++ remainder)).2 = true) :=
      scanRemainder_append_stops hstop more
    have hlength : (safe ++ remainder).length + 1 ≠ remainder.length := by
      rw [List.length_append]
      omega
    rw [List.append_assoc] at hstops
    rw [List.cons_append, scanRemainder_cons] at h ⊢
    by_cases hnow : (scanRemainder (safe ++ remainder)).2
    · rw [if_pos hnow] at h
      rw [if_pos (hstops hnow)]
      exact ih h
    · rw [if_neg hnow] at h
      by_cases hc : c = ESC
      · rw [if_neg (not_not_intro hc)] at h
        by_cases hcomplete : isCompleteAnsiSequence (c :: (safe ++ remainder))
        · rw [if_pos hcomplete] at h
          have hlater := isCompleteAnsiSequence_append hcomplete more
          rw [List.cons_append, List.append_assoc] at hlater
          rw [if_pos hlater]
          split_ifs <;> exact ih h
        · rw [if_neg hcomplete] at h
          exact absurd h hlength
      · rw [if_pos hc] at h
        split_ifs <;> exact ih h

theorem split_append (text : Text) :
    (splitAnsiSafePortion text).1 ++ (splitAnsiSafePortion text).2 = text :=
  List.take_append_drop _ text

theorem length_remainder (text : Text) :
    (splitAnsiSafePortion text).2.length = (scanRemainder text).1 := by
  have hle := scanRemainder_le text
  simp only [splitAnsiSafePortion, List.length_drop]
  omega

/-- A text may be split first up to some place. -/
theorem completePart_append (text more : Text) :
    completePart (text ++ more) =
      completePart text ++ completePart ((splitAnsiSafePortion text).2 ++ more) := by
  have hsplit := split_append text
  have hlength := length_remainder text
  generalize (splitAnsiSafePortion text).2 = remainder at *
  unfold completePart
  generalize (splitAnsiSafePortion text).1 = safe at *
  subst hsplit
  have hkept := scanRemainder_append hlength.symm more
  have hle := scanRemainder_le (remainder ++ more)
  simp only [splitAnsiSafePortion]
  rw [List.append_assoc, hkept, List.length_append, Nat.add_sub_assoc hle,
    List.take_length_add_append]

theorem oneOf_bracket {c : UInt16} : oneOf "]" c = true ↔ c = 0x5d := by
  have hunits : units "]" = [0x5d] := rfl
  simp [oneOf, hunits]

theorem osc_rest {xs zs : Text} (h : zs ∈ ANSI_OSC_REGEX.rests xs) :
    ∃ body, (∀ c ∈ body, c ≠ ESC ∧ c ≠ BEL) ∧ ∃ ending, xs = ESC :: 0x5d :: (body ++ ending) ∧
      (ending = BEL :: zs ∨ ending = ESC :: BACKSLASH :: zs) := by
  obtain ⟨xs₁, hxs₁, hafter⟩ := Pattern.mem_rests_seq.mp h
  obtain ⟨xs₂, hxs₂, hafter⟩ := Pattern.mem_rests_seq.mp hafter
  obtain ⟨xs₃, hxs₃, hend⟩ := Pattern.mem_rests_seq.mp hafter
  obtain ⟨a, ha, rfl⟩ := Pattern.mem_rests_one hxs₁
  obtain ⟨b, hb, rfl⟩ := Pattern.mem_rests_one hxs₂
  obtain ⟨body, hbody, rfl⟩ := Pattern.mem_rests_star_one hxs₃
  obtain rfl : a = ESC := by simpa using ha
  obtain rfl := oneOf_bracket.mp hb
  refine ⟨body, by simpa using hbody, xs₃, rfl, ?_⟩
  rcases Pattern.mem_rests_alt.mp hend with hbel | hterminator
  · obtain ⟨c, hc, rfl⟩ := Pattern.mem_rests_one hbel
    exact Or.inl (by simpa using hc)
  · obtain ⟨xs₄, hxs₄, hzs⟩ := Pattern.mem_rests_seq.mp hterminator
    obtain ⟨c, hc, rfl⟩ := Pattern.mem_rests_one hxs₄
    obtain ⟨d, hd, rfl⟩ := Pattern.mem_rests_one hzs
    obtain rfl : c = ESC := by simpa using hc
    obtain rfl : d = BACKSLASH := by simpa using hd
    exact Or.inr rfl

theorem hasStringTerminator_skip {text : Text} (h : ∀ c ∈ text, c ≠ ESC) (more : Text) :
    hasStringTerminator (text ++ more) = hasStringTerminator more := by
  induction text with
  | nil => rfl
  | cons c text ih =>
    obtain ⟨hc, htext⟩ := List.forall_mem_cons.mp h
    rw [← ih htext, List.cons_append]
    cases text ++ more with
    | nil => rfl
    | cons d rest => simp [hasStringTerminator, hc]

theorem scanRemainder_skip {text : Text} (h : ∀ c ∈ text, c ≠ ESC) (more : Text) :
    scanRemainder (text ++ more) = scanRemainder more := by
  induction text with
  | nil => rfl
  | cons c text ih =>
    obtain ⟨hc, htext⟩ := List.forall_mem_cons.mp h
    rw [List.cons_append, scanRemainder_cons, if_pos hc, ih htext, ite_self]

/-- The scan of a part that is not kept back whole. -/
theorem scanRemainder_of_append (before : Text) {text : Text}
    (h : (scanRemainder (before ++ text)).1 ≤ text.length) :
    (scanRemainder text).1 = (scanRemainder (before ++ text)).1 := by
  induction before with
  | nil => rfl
  | cons c before ih =>
    rw [List.cons_append, scanRemainder_cons] at h ⊢
    split_ifs at h ⊢
    · exact ih h
    · exact ih h
    · exact ih h
    · simp only [List.length_append] at h
      omega

theorem Kept.cases {remainder : Text} (h : Kept remainder) :
    remainder = [] ∨ ∃ rest, remainder = ESC :: rest ∧ (scanRemainder remainder).2 = false := by
  cases remainder with
  | nil => exact Or.inl rfl
  | cons c rest =>
    have hle := scanRemainder_le rest
    unfold Kept at h
    rw [scanRemainder_cons, List.length_cons] at h
    refine Or.inr ⟨rest, ?_⟩
    rw [scanRemainder_cons]
    split_ifs at h ⊢ with hstop hc hcomplete
    · omega
    · omega
    · dsimp only at h
      omega
    · exact ⟨by rw [not_not.mp hc], rfl⟩

/-- The start of a command is only let go when its end is there. -/
theorem osc_end_of_let_go {body remainder : Text} (hesc : ∀ c ∈ body, c ≠ ESC) (hbel : BEL ∉ body)
    (hkept : (scanRemainder remainder).2 = false)
    (hscan : (scanRemainder (ESC :: 0x5d :: (body ++ remainder))).1 = remainder.length) :
    BEL ∈ remainder ∨ hasStringTerminator remainder := by
  have hbracket : ∀ c ∈ (0x5d :: body : Text), c ≠ ESC :=
    List.forall_mem_cons.mpr ⟨by decide, hesc⟩
  have hstop := scanRemainder_skip hbracket remainder
  rw [List.cons_append] at hstop
  rw [scanRemainder_cons, hstop, hkept, if_neg Bool.false_ne_true, if_neg (not_not_intro rfl)]
    at hscan
  split_ifs at hscan with hcomplete
  · have hopen : ¬oneOf "[" 0x5d = true := by decide
    have hclose : oneOf "]" 0x5d = true := by decide
    rw [isCompleteAnsiSequence, if_neg hopen, if_pos hclose, hasStringTerminator_skip hesc,
      Bool.or_eq_true, List.contains_iff_mem, List.mem_append] at hcomplete
    exact hcomplete.imp_left (·.resolve_left hbel)
  · simp only [List.length_cons, List.length_append] at hscan
    omega

/-- So the end does not follow it. -/
theorem osc_end_not_after {body remainder more zs : Text} (hesc : ∀ c ∈ body, c ≠ ESC)
    (hbel : BEL ∉ body) (hkept : Kept remainder)
    (hincomplete : isCompleteAnsiSequence remainder = false)
    (hscan : (scanRemainder (ESC :: 0x5d :: (body ++ remainder))).1 = remainder.length)
    (hending : remainder ++ more = BEL :: zs ∨ remainder ++ more = ESC :: BACKSLASH :: zs) :
    False := by
  rcases hkept.cases with rfl | ⟨rest, rfl, hstop⟩
  · simpa [hasStringTerminator] using osc_end_of_let_go hesc hbel rfl hscan
  · rcases hending with hbell | hterminator
    · exact absurd (List.cons_eq_cons.mp hbell).1 (by decide)
    · have hnext := (List.cons_eq_cons.mp hterminator).2
      cases rest with
      | nil =>
        exact absurd (osc_end_of_let_go hesc hbel hstop hscan) (by decide)
      | cons c rest =>
        obtain ⟨rfl, -⟩ := List.cons_eq_cons.mp hnext
        have hopen : ¬oneOf "[" BACKSLASH = true := by decide
        have hclose : ¬oneOf "]" BACKSLASH = true := by decide
        have hstring : ¬oneOf "P^_" BACKSLASH = true := by decide
        have hfinal : isFinalByte BACKSLASH = true := by decide
        rw [isCompleteAnsiSequence, if_neg hopen, if_neg hclose, if_neg hstring, if_pos hfinal]
          at hincomplete
        exact Bool.noConfusion hincomplete

/-- Nor is the end of a command cut in two. -/
theorem osc_end_not_within {body early remainder more zs : Text} {c : UInt16}
    (hkept : Kept remainder) (hshort : zs.length < (remainder ++ more).length)
    (hscan : (scanRemainder (ESC :: 0x5d :: (body ++ c :: early) ++ remainder)).1 =
      remainder.length)
    (hending : c :: early ++ (remainder ++ more) = BEL :: zs ∨
      c :: early ++ (remainder ++ more) = ESC :: BACKSLASH :: zs) : False := by
  rcases hending with hbell | hterminator
  · have hrest : early ++ (remainder ++ more) = zs := (List.cons_eq_cons.mp hbell).2
    rw [← hrest, List.length_append] at hshort
    omega
  · obtain ⟨rfl, hrest⟩ := List.cons_eq_cons.mp hterminator
    cases early with
    | cons d early =>
      have hrest : early ++ (remainder ++ more) = zs := (List.cons_eq_cons.mp hrest).2
      rw [← hrest, List.length_append] at hshort
      omega
    | nil =>
      rcases hkept.cases with rfl | ⟨rest, rfl, -⟩
      · have hlast (hle : (scanRemainder (ESC :: 0x5d :: body ++ [ESC])).1 ≤ 1) :=
          scanRemainder_of_append _ hle
        simp only [List.cons_append, List.append_nil] at hlast hscan
        rw [hscan] at hlast
        exact absurd (hlast (Nat.zero_le _)) (by decide)
      · exact absurd (List.cons_eq_cons.mp hrest).1 (by decide)

/-- The cleaner never lets go of a part of an operating system command. -/
theorem osc_not_crosses (text more : Text) :
    ¬ANSI_OSC_REGEX.Crosses (splitAnsiSafePortion text).1
      ((splitAnsiSafePortion text).2 ++ more) := by
  rintro ⟨us, hne, ⟨before, hbefore⟩, hlength⟩
  have hsplit := split_append text
  have hremainder := length_remainder text
  have hincomplete := remainder_not_complete text
  have hkept := kept_remainder text
  generalize (splitAnsiSafePortion text).2 = remainder at *
  rw [← hbefore, List.append_assoc] at hsplit
  -- the scan of the text from `us` on keeps back the remainder and no more
  have hscan : (scanRemainder (us ++ remainder)).1 = remainder.length := by
    rw [← hsplit] at hremainder
    rw [scanRemainder_of_append before, hremainder]
    rw [← hremainder, List.length_append]
    omega
  obtain ⟨zs, hzs, hshort⟩ := Pattern.exists_rest_of_matchLength hlength
  obtain ⟨body, hbody, ending, hmatch, hending⟩ := osc_rest hzs
  have hesc : ∀ c ∈ body, c ≠ ESC := fun c hc => (hbody c hc).1
  have hbel : BEL ∉ body := fun hc => (hbody BEL hc).2 rfl
  match us with
  | [u] =>
    obtain ⟨rfl, hnext⟩ := List.cons_eq_cons.mp hmatch
    rcases hkept.cases with rfl | ⟨rest, rfl, -⟩
    · exact absurd hscan (by decide)
    · exact absurd (List.cons_eq_cons.mp hnext).1 (by decide)
  | u :: v :: us =>
    obtain ⟨rfl, hnext⟩ := List.cons_eq_cons.mp hmatch
    obtain ⟨rfl, htext⟩ := List.cons_eq_cons.mp hnext
    rcases List.append_eq_append_iff.mp htext with ⟨late, hbody', hlate⟩ | ⟨early, rfl, hearly⟩
    · -- what is let go ends in the body of the command
      have hesc' : ∀ c ∈ us, c ≠ ESC := fun c hc => hesc c (by simp [hbody', hc])
      have hbel' : BEL ∉ us := fun hc => hbel (by simp [hbody', hc])
      cases late with
      | nil =>
        rw [List.nil_append] at hlate
        exact osc_end_not_after hesc' hbel' hkept hincomplete hscan (hlate ▸ hending)
      | cons c late =>
        rcases hkept.cases with rfl | ⟨rest, rfl, -⟩
        · simpa [hasStringTerminator] using osc_end_of_let_go hesc' hbel' rfl hscan
        · obtain ⟨rfl, -⟩ := List.cons_eq_cons.mp hlate
          exact hesc ESC (by simp [hbody']) rfl
    · -- it ends in the end of the command
      cases early with
      | nil =>
        rw [List.append_nil] at hscan
        exact osc_end_not_after hesc hbel hkept hincomplete hscan (hearly ▸ hending)
      | cons c early =>
        simp only [List.length_append, List.length_cons] at hshort
        refine osc_end_not_within hkept ?_ hscan (hearly ▸ hending)
        rw [List.length_append]
        omega

def portions (remainder : Text) : List Text → List Text
  | [] => []
  | chunk :: chunks =>
    (splitAnsiSafePortion (remainder ++ chunk)).1 ::
      portions (splitAnsiSafePortion (remainder ++ chunk)).2 chunks

theorem stripAnsi_nil : stripAnsi [] = [] := rfl

theorem completePart_of_kept {remainder : Text} (h : Kept remainder) :
    completePart remainder = [] := by
  unfold Kept at h
  simp [completePart, splitAnsiSafePortion, h]

theorem consume_eq {remainder : Text} (h : Kept remainder) (chunk : Text) :
    consume remainder chunk =
      (stripAnsi (splitAnsiSafePortion (remainder ++ chunk)).1,
        (splitAnsiSafePortion (remainder ++ chunk)).2) := by
  unfold consume
  split_ifs with hchunk
  · have hsafe : (splitAnsiSafePortion remainder).1 = [] := completePart_of_kept h
    have hsplit := split_append remainder
    rw [hsafe, List.nil_append] at hsplit
    rw [hchunk, List.append_nil, hsafe, hsplit, stripAnsi_nil]
  · rfl

/-- The cleaner strips what it lets go, and drops what it has kept back at the end. -/
theorem consumeAll_eq {remainder : Text} (h : Kept remainder)
    (hincomplete : isCompleteAnsiSequence remainder = false) (chunks : List Text) :
    consumeAll remainder chunks = (portions remainder chunks).map stripAnsi ++ [[]] := by
  induction chunks generalizing remainder with
  | nil => simp [consumeAll, portions, flush, hincomplete]
  | cons chunk chunks ih =>
    simp only [consumeAll, portions, consume_eq h, List.map_cons, List.cons_append]
    rw [ih (kept_remainder _) (remainder_not_complete _)]

/-- Altogether that is the text up to a sequence that is incomplete at its end. -/
theorem flatten_portions {remainder : Text} (h : Kept remainder) (chunks : List Text) :
    (portions remainder chunks).flatten = completePart (remainder ++ chunks.flatten) := by
  induction chunks generalizing remainder with
  | nil => simp [portions, completePart_of_kept h]
  | cons chunk chunks ih =>
    rw [portions, List.flatten_cons, ih (kept_remainder _), List.flatten_cons,
      ← List.append_assoc, completePart_append (remainder ++ chunk)]
    rfl

/-- No control string and no other sequence goes across the place where the text is cut. -/
def MatchFree (before after : Text) : Prop :=
  ¬ANSI_STRING_REGEX.Crosses (ANSI_OSC_REGEX.remove before) (ANSI_OSC_REGEX.remove after) ∧
    ¬ANSI_REGEX.Crosses (ANSI_STRING_REGEX.remove (ANSI_OSC_REGEX.remove before))
      (ANSI_STRING_REGEX.remove (ANSI_OSC_REGEX.remove after))

/-- The text is cut in two replacement characters at its start, or directly after them and another
start of a stream follows. -/
def SplitsPrefix (before after : Text) : Prop :=
  (before.dropWhile (· = BOM_CHAR) = [REPLACEMENT] ∧ [REPLACEMENT] <+: after) ∨
    (before.dropWhile (· = BOM_CHAR) = [REPLACEMENT, REPLACEMENT] ∧
      ([BOM_CHAR] <+: after ∨ [REPLACEMENT, REPLACEMENT] <+: after))

/-- The cuts between the pieces of a text that follows the text `before`. -/
def CutsClean (before : Text) : List Text → Prop
  | [] => True
  | piece :: pieces =>
    MatchFree piece pieces.flatten ∧
      ¬SplitsPrefix (before ++ stripAnsi piece) (stripAnsi pieces.flatten) ∧
      CutsClean (before ++ stripAnsi piece) pieces

instance (before after : Text) : Decidable (MatchFree before after) := instDecidableAnd

instance (before after : Text) : Decidable (SplitsPrefix before after) := instDecidableOr

instance CutsClean.decidable : ∀ before pieces, Decidable (CutsClean before pieces)
  | _, [] => isTrue trivial
  | before, piece :: pieces =>
    have := CutsClean.decidable (before ++ stripAnsi piece) pieces
    inferInstanceAs (Decidable (MatchFree piece pieces.flatten ∧
      ¬SplitsPrefix (before ++ stripAnsi piece) (stripAnsi pieces.flatten) ∧
      CutsClean (before ++ stripAnsi piece) pieces))

theorem stripAnsi_append {before after : Text} (hosc : ¬ANSI_OSC_REGEX.Crosses before after)
    (h : MatchFree before after) :
    stripAnsi (before ++ after) = stripAnsi before ++ stripAnsi after := by
  obtain ⟨hstring, hansi⟩ := h
  simp only [stripAnsi, Pattern.remove_append hosc, Pattern.remove_append hstring,
    Pattern.remove_append hansi, withoutNulls_append]

/-- What is kept back after the last chunk. -/
def keptBack (remainder : Text) : List Text → Text
  | [] => remainder
  | chunk :: chunks => keptBack (splitAnsiSafePortion (remainder ++ chunk)).2 chunks

theorem flatten_portions_append (remainder : Text) (chunks : List Text) :
    (portions remainder chunks).flatten ++ keptBack remainder chunks =
      remainder ++ chunks.flatten := by
  induction chunks generalizing remainder with
  | nil => simp [portions, keptBack]
  | cons chunk chunks ih =>
    rw [portions, keptBack, List.flatten_cons, List.append_assoc, ih, List.flatten_cons,
      ← List.append_assoc, split_append, List.append_assoc]

/-- What is kept back of a text does not depend on its chunks. -/
theorem keptBack_eq (chunks : List Text) :
    keptBack [] chunks = (splitAnsiSafePortion chunks.flatten).2 := by
  have hkept : Kept [] := rfl
  have hall := flatten_portions_append [] chunks
  rw [flatten_portions hkept, List.nil_append, completePart] at hall
  exact List.append_cancel_left (hall.trans (split_append _).symm)

/-- The parts of a text that the cleaner lets go one after the other, and the one that it keeps. -/
def pieces (chunks : List Text) : List Text :=
  portions [] chunks ++ [(splitAnsiSafePortion chunks.flatten).2]

/-- Stripping the parts strips the text when no match goes across a cut; no cut goes through an
operating system command. -/
theorem stripAnsi_portions {before remainder : Text} {chunks : List Text}
    (h : CutsClean before (portions remainder chunks ++ [keptBack remainder chunks])) :
    stripAnsi (portions remainder chunks ++ [keptBack remainder chunks]).flatten =
      ((portions remainder chunks ++ [keptBack remainder chunks]).map stripAnsi).flatten := by
  induction chunks generalizing before remainder with
  | nil => simp [portions]
  | cons chunk chunks ih =>
    obtain ⟨hmatch, -, hrest⟩ := h
    have hosc := osc_not_crosses (remainder ++ chunk) chunks.flatten
    have hlater := flatten_portions_append (splitAnsiSafePortion (remainder ++ chunk)).2 chunks
    have hflatten (xs : List Text) (x : Text) : (xs ++ [x]).flatten = xs.flatten ++ x := by simp
    rw [← hlater, ← hflatten] at hosc
    simp only [portions, keptBack, List.cons_append, List.flatten_cons, List.map_cons] at hmatch ⊢
    rw [stripAnsi_append hosc hmatch, ih hrest]

/-- The start of a stream, when its text goes on. -/
theorem withoutPrefix_append {before text more : Text}
    (h : ¬SplitsPrefix before (text ++ more)) :
    withoutPrefix (before ++ text) = withoutPrefix before ++
      if withoutPrefix before = [] then withoutPrefix text else text := by
  unfold SplitsPrefix at h
  unfold withoutPrefix
  rw [List.dropWhile_append]
  generalize before.dropWhile (· = BOM_CHAR) = start at *
  match start with
  | [] => simp
  | [c] =>
    have hone : ¬[REPLACEMENT, REPLACEMENT] <+: c :: text := by
      intro hpair
      obtain ⟨hc, hnext⟩ := List.cons_prefix_cons.mp hpair
      exact h (Or.inl ⟨by rw [hc], hnext.trans (List.prefix_append text more)⟩)
    simp [hone]
  | c :: d :: rest =>
    by_cases hpair : c = REPLACEMENT ∧ d = REPLACEMENT
    · obtain ⟨rfl, rfl⟩ := hpair
      by_cases hrest : rest = []
      · subst hrest
        have hstart : ¬([BOM_CHAR] <+: text ∨ [REPLACEMENT, REPLACEMENT] <+: text) := fun hagain =>
          h (Or.inr ⟨rfl, hagain.imp (·.trans (List.prefix_append text more))
            (·.trans (List.prefix_append text more))⟩)
        have hsame : text.dropWhile (· = BOM_CHAR) = text := by
          cases text with
          | nil => rfl
          | cons e text =>
            have he : e ≠ BOM_CHAR := by
              rintro rfl
              exact hstart (Or.inl (by simp))
            simp [he]
        have hno : ¬[REPLACEMENT, REPLACEMENT] <+: text := fun h => hstart (Or.inr h)
        simp [hsame, hno]
      · simp [hrest]
    · have hno : ∀ l, ¬[REPLACEMENT, REPLACEMENT] <+: c :: d :: l := by
        intro l hl
        simp only [List.cons_prefix_cons] at hl
        exact hpair ⟨hl.1.symm, hl.2.1.symm⟩
      simp [hno]

theorem withoutNulls_stripAnsi (text : Text) : withoutNulls (stripAnsi text) = stripAnsi text := by
  simp [stripAnsi, withoutNulls]

/-- The cuts of texts that are sanitized one after the other. -/
def PrefixClean (before : Text) : List Text → Prop
  | [] => True
  | text :: texts =>
    ¬SplitsPrefix (before ++ text) texts.flatten ∧ PrefixClean (before ++ text) texts

theorem SplitsPrefix.append {before after : Text} (h : SplitsPrefix before after) (more : Text) :
    SplitsPrefix before (after ++ more) := by
  have hprefix : after <+: after ++ more := List.prefix_append after more
  exact h.imp (And.imp_right fun h => h.trans hprefix)
    (And.imp_right (Or.imp (fun h => h.trans hprefix) fun h => h.trans hprefix))

theorem PrefixClean.of_concat {before last : Text} {texts : List Text}
    (h : PrefixClean before (texts ++ [last])) : PrefixClean before texts := by
  induction texts generalizing before with
  | nil => trivial
  | cons text texts ih =>
    refine ⟨fun hsplits => h.1 ?_, ih h.2⟩
    change SplitsPrefix _ (texts ++ [last]).flatten
    rw [List.flatten_append]
    exact hsplits.append _

theorem PrefixClean.last {before last : Text} {texts : List Text}
    (hstart : ¬SplitsPrefix before (texts ++ [last]).flatten)
    (h : PrefixClean before (texts ++ [last])) : ¬SplitsPrefix (before ++ texts.flatten) last := by
  induction texts generalizing before with
  | nil => simpa using hstart
  | cons text texts ih =>
    rw [List.flatten_cons, ← List.append_assoc]
    exact ih h.1 h.2

/-- Texts with clean cuts, sanitized one after the other. -/
theorem sanitizeAll_eq {before : Text} {texts : List Text} {state : IngressSanitizeState}
    (hstate : state.seenContent = decide (withoutPrefix before ≠ []))
    (hnulls : ∀ text ∈ texts, withoutNulls text = text)
    (hstart : ¬SplitsPrefix before texts.flatten) (hclean : PrefixClean before texts) :
    withoutPrefix before ++ sanitizeAll state texts = withoutPrefix (before ++ texts.flatten) := by
  induction texts generalizing before state with
  | nil => simp [sanitizeAll]
  | cons text texts ih =>
    obtain ⟨hnull, hnulls⟩ := List.forall_mem_cons.mp hnulls
    rw [List.flatten_cons] at hstart
    have htext := withoutPrefix_append hstart
    have houtput : (sanitizeIngressChunk text state).1 =
        if withoutPrefix before = [] then withoutPrefix text else text := by
      rw [sanitizeIngressChunk_fst, hstate]
      by_cases hbefore : withoutPrefix before = []
      · simp [hbefore, withoutNulls_withoutPrefix hnull]
      · simp [hbefore, hnull]
    rw [← houtput] at htext
    rw [sanitizeAll, ← List.append_assoc, ← htext, List.flatten_cons, ← List.append_assoc]
    refine ih ?_ hnulls hclean.1 hclean.2
    rw [sanitizeIngressChunk_seenContent, hstate, htext]
    by_cases hbefore : withoutPrefix before = [] <;> simp [hbefore]

theorem sanitizeAll_concat_nil (state : IngressSanitizeState) (texts : List Text) :
    sanitizeAll state (texts ++ [[]]) = sanitizeAll state texts := by
  induction texts generalizing state with
  | nil => simp [sanitizeAll, sanitizeIngressChunk]
  | cons text texts ih => rw [List.cons_append, sanitizeAll, sanitizeAll, ih]

/-- The stripped parts of a text have clean cuts when its parts have. -/
theorem CutsClean.prefixClean {before remainder : Text} {chunks : List Text}
    (h : CutsClean before (portions remainder chunks ++ [keptBack remainder chunks])) :
    PrefixClean before
      ((portions remainder chunks ++ [keptBack remainder chunks]).map stripAnsi) := by
  induction chunks generalizing before remainder with
  | nil => exact ⟨h.2.1, trivial⟩
  | cons chunk chunks ih =>
    obtain ⟨-, hsplits, hrest⟩ := h
    exact ⟨stripAnsi_portions hrest ▸ hsplits, ih hrest⟩

/-- What is kept back at the end leaves nothing when it is stripped, or only the start of a stream
where nothing else was before it. -/
def EndsClean (chunks : List Text) : Prop :=
  stripAnsi (splitAnsiSafePortion chunks.flatten).2 = [] ∨
    withoutPrefix ((portions [] chunks).map stripAnsi).flatten = [] ∧
      withoutPrefix (stripAnsi (splitAnsiSafePortion chunks.flatten).2) = []

instance (chunks : List Text) : Decidable (EndsClean chunks) :=
  inferInstanceAs (Decidable (_ ∨ _ ∧ _))

/-- With clean cuts, a text cleaned in chunks is the text cleaned at once exactly when nothing is
lost at its end. -/
theorem cleanChunks_eq_iff (chunks : List Text) (h : CutsClean [] (pieces chunks)) :
    cleanChunks chunks = cleanWhole chunks.flatten ↔ EndsClean chunks := by
  have hkept : Kept [] := rfl
  have hsplits : ∀ text, ¬SplitsPrefix [] text := by simp [SplitsPrefix]
  have hstate : createIngressSanitizeState.seenContent = decide (withoutPrefix [] ≠ []) := rfl
  rw [pieces, ← keptBack_eq] at h
  have hclean := h.prefixClean
  have hwhole := stripAnsi_portions h
  have hflatten : (portions [] chunks ++ [keptBack [] chunks]).flatten = chunks.flatten := by
    simp [flatten_portions_append]
  rw [hflatten, List.map_append, List.map_singleton] at hwhole
  rw [List.map_append, List.map_singleton] at hclean
  have hnulls : ∀ text ∈ (portions [] chunks).map stripAnsi, withoutNulls text = text := by
    intro text htext
    obtain ⟨piece, -, rfl⟩ := List.mem_map.mp htext
    exact withoutNulls_stripAnsi piece
  have houtput := sanitizeAll_eq hstate hnulls (hsplits _) hclean.of_concat
  have hlast := hclean.last (hsplits _)
  rw [EndsClean, ← keptBack_eq, cleanChunks, consumeAll_eq hkept rfl, sanitizeAll_concat_nil,
    cleanWhole, sanitizeIngressText_eq, withoutNulls_withoutPrefix (withoutNulls_stripAnsi _),
    hwhole]
  generalize ((portions [] chunks).map stripAnsi) = texts at *
  generalize stripAnsi (keptBack [] chunks) = last at *
  have hend := @withoutPrefix_append _ last [] (by simpa using hlast)
  have hstart : withoutPrefix [] = [] := rfl
  rw [hstart, List.nil_append, List.nil_append] at houtput
  rw [houtput, List.flatten_append, List.flatten_singleton, hend, List.self_eq_append_right]
  split_ifs with hnone
  · simp only [hnone, true_and, iff_or_self]
    exact fun hlast => hlast ▸ hstart
  · simp [hnone]

def colourChunks : List Text :=
  [units "color: \x1b[", units "31mred\x1b[0", units "m \x1b]0;ti", units "tle\x07\n"]

theorem colour_clean : cleanChunks colourChunks = cleanWhole colourChunks.flatten :=
  (cleanChunks_eq_iff colourChunks (by decide +kernel)).mpr (by decide +kernel)

/-- A title that is never ended takes the text behind it with it, although no cut is unclean; a
sequence that is cut after its first digit leaves the second one in the text. -/
theorem chunks_differ :
    (CutsClean [] (pieces [units "\x1b]0;title\nERROR: disk full\n"]) ∧
      cleanChunks [units "\x1b]0;title\nERROR: disk full\n"] = [] ∧
      cleanWhole (units "\x1b]0;title\nERROR: disk full\n") =
        units "itle\nERROR: disk full\n") ∧
    cleanChunks [units "\x1b7", units "7logs"] ≠ cleanWhole (units "\x1b77logs") := by
  decide +kernel

end Agyn.ShellCommand
