import Mathlib.Data.List.Basic
import Mathlib.Tactic.SplitIfs

/-!
Text as it comes in from a command: UTF-16 code units, the decoding of the bytes of a stream, and
the characters that are dropped at the start of a stream and everywhere in it.
-/
namespace Agyn.IngressText

abbrev Text := List UInt16

abbrev Bytes := List UInt8

def utf16Units (c : Char) : Text :=
  if c.toNat < 0x10000 then [c.toNat.toUInt16]
  else
    let offset := c.toNat - 0x10000
    [(0xD800 + offset / 0x400).toUInt16, (0xDC00 + offset % 0x400).toUInt16]

def units (s : String) : Text := s.toList.flatMap utf16Units

/-- `Buffer.byteLength(text, 'utf8')`; half of a surrogate pair on its own takes three bytes. -/
def byteLength : Text → ℕ
  | [] => 0
  | [c] => if c < 0x80 then 1 else if c < 0x800 then 2 else 3
  | c :: d :: rest =>
    if 0xD800 ≤ c ∧ c ≤ 0xDBFF ∧ 0xDC00 ≤ d ∧ d ≤ 0xDFFF then 4 + byteLength rest
    else (if c < 0x80 then 1 else if c < 0x800 then 2 else 3) + byteLength (d :: rest)

structure IngressSanitizeState where
  seenContent : Bool
  strippedBom : Bool
  strippedReplacementPrefix : Bool
  strippedNullCount : ℕ

def BOM_CHAR : UInt16 := 0xFEFF
def REPLACEMENT : UInt16 := 0xFFFD
def NUL_CHAR : UInt16 := 0

def createIngressSanitizeState : IngressSanitizeState := ⟨false, false, false, 0⟩

/-- `text.replace(NULL_REGEX, '')`. -/
def withoutNulls (text : Text) : Text := text.filter (· ≠ NUL_CHAR)

def withoutPrefix (text : Text) : Text :=
  let text := text.dropWhile (· = BOM_CHAR)
  if [REPLACEMENT, REPLACEMENT] <+: text then text.drop 2 else text

def sanitizeIngressChunk (input : Text) (state : IngressSanitizeState) :
    Text × IngressSanitizeState :=
  if input = [] then ([], state)
  else
    let (text, state) :=
      if state.seenContent then (input, state)
      else
        let stripped := withoutPrefix input
        (stripped, { state with
          strippedBom := state.strippedBom || input.head? = some BOM_CHAR
          strippedReplacementPrefix := state.strippedReplacementPrefix ||
            [REPLACEMENT, REPLACEMENT] <+: input.dropWhile (· = BOM_CHAR) })
    if text = [] then ([], state)
    else
      let sanitized := withoutNulls text
      (sanitized, { state with
        strippedNullCount := state.strippedNullCount + (text.length - sanitized.length)
        seenContent := state.seenContent || sanitized ≠ [] })

def sanitizeIngressText (input : Text) : Text :=
  (sanitizeIngressChunk input createIngressSanitizeState).1

theorem sanitizeIngressChunk_fst (text : Text) (state : IngressSanitizeState) :
    (sanitizeIngressChunk text state).1 =
      withoutNulls (if state.seenContent then text else withoutPrefix text) := by
  unfold sanitizeIngressChunk
  by_cases htext : text = []
  · subst htext
    cases state.seenContent <;> rfl
  · rcases state with ⟨_ | _, _, _, _⟩
    · by_cases hstripped : withoutPrefix text = []
      · simp [htext, hstripped, withoutNulls]
      · simp [htext, hstripped]
    · simp [htext]

theorem sanitizeIngressChunk_seenContent (text : Text) (state : IngressSanitizeState) :
    (sanitizeIngressChunk text state).2.seenContent =
      (state.seenContent || (sanitizeIngressChunk text state).1 ≠ []) := by
  rw [sanitizeIngressChunk_fst]
  unfold sanitizeIngressChunk
  by_cases htext : text = []
  · subst htext
    rcases state with ⟨_ | _, _, _, _⟩ <;> rfl
  · rcases state with ⟨_ | _, _, _, _⟩
    · by_cases hstripped : withoutPrefix text = []
      · simp [htext, hstripped, withoutNulls]
      · simp [htext, hstripped]
    · simp [htext]

theorem sanitizeIngressText_eq (text : Text) :
    sanitizeIngressText text = withoutNulls (withoutPrefix text) :=
  sanitizeIngressChunk_fst text createIngressSanitizeState

theorem withoutPrefix_suffix (text : Text) : withoutPrefix text <:+ text := by
  have hdrop := List.dropWhile_suffix (p := (· = BOM_CHAR)) (l := text)
  unfold withoutPrefix
  dsimp only
  split_ifs
  · exact (List.drop_suffix 2 _).trans hdrop
  · exact hdrop

theorem withoutNulls_withoutPrefix {text : Text} (h : withoutNulls text = text) :
    withoutNulls (withoutPrefix text) = withoutPrefix text := by
  rw [withoutNulls, List.filter_eq_self] at h ⊢
  exact fun c hc => h c ((withoutPrefix_suffix text).subset hc)

theorem length_sanitizeIngressText_le (text : Text) :
    (sanitizeIngressText text).length ≤ text.length := by
  rw [sanitizeIngressText_eq]
  exact Nat.le_trans (List.length_filter_le _ _) (withoutPrefix_suffix text).length_le

theorem withoutNulls_sanitizeIngressText (text : Text) :
    withoutNulls (sanitizeIngressText text) = sanitizeIngressText text := by
  simp [sanitizeIngressText_eq, withoutNulls]

theorem withoutNulls_append (text text' : Text) :
    withoutNulls (text ++ text') = withoutNulls text ++ withoutNulls text' :=
  List.filter_append ..

theorem units_append (s t : String) : units (s ++ t) = units s ++ units t := by
  simp [units]

theorem withoutNulls_units {s : String}
    (h : ∀ c ∈ s.toList, 0 < c.toNat ∧ c.toNat < 0x10000) : withoutNulls (units s) = units s := by
  refine List.filter_eq_self.mpr fun u hu => ?_
  obtain ⟨c, hc, hu⟩ := List.mem_flatMap.mp hu
  obtain ⟨hpos, hlt⟩ := h c hc
  rw [utf16Units, if_pos hlt, List.mem_singleton] at hu
  refine decide_eq_true ?_
  rintro rfl
  have hzero := congrArg UInt16.toNat hu
  simp only [NUL_CHAR, UInt16.toNat_zero, UInt16.toNat_ofNat', Nat.toUInt16_eq] at hzero
  omega

/-- A text that starts with another character than those of the prefix keeps its start. -/
theorem sanitizeIngressText_cons {c : UInt16} {text : Text} (hbom : c ≠ BOM_CHAR)
    (hreplacement : c ≠ REPLACEMENT) :
    sanitizeIngressText (c :: text) = withoutNulls (c :: text) := by
  rw [sanitizeIngressText_eq]
  have hstarts : ¬[REPLACEMENT, REPLACEMENT] <+: c :: text := fun h =>
    hreplacement (List.cons_prefix_cons.mp h).1.symm
  simp [withoutPrefix, hbom, hstarts]

inductive IngressDecoderEncoding where
  | utf8
  | utf16le
  | utf16be
  deriving DecidableEq

/-- The stream decoders of the library: a new one for an encoding, the text for a chunk with the
decoder after it, and the text at the end. -/
structure Iconv (δ : Type) where
  decodeStream : IngressDecoderEncoding → δ
  write : δ → Bytes → Text × δ
  finish : δ → Text

structure IngressDecodeStreamState (δ : Type) where
  encoding : IngressDecoderEncoding
  decoder : δ
  inspected : Bool
  pending : Option Bytes

structure Detection where
  encoding : IngressDecoderEncoding
  bomBytes : ℕ

def MIN_FINALIZE_BYTES : ℕ := 2
def MIN_HEURISTIC_SAMPLE_BYTES : ℕ := 4
def UTF8_BOM : Bytes := [0xef, 0xbb, 0xbf]
def UTF16LE_BOM : Bytes := [0xff, 0xfe]
def UTF16BE_BOM : Bytes := [0xfe, 0xff]
def BOM_PREFIXES : List Bytes := [UTF8_BOM, UTF16LE_BOM, UTF16BE_BOM]

/-- The number of zero bytes at the even and at the odd places. -/
def nulls : Bytes → ℕ × ℕ
  | [] => (0, 0)
  | b :: rest =>
    let (even, odd) := nulls rest
    (odd + if b = 0 then 1 else 0, even)

def detectBomlessUtf16 (buffer : Bytes) : Option IngressDecoderEncoding :=
  let sample := buffer.take 64
  if sample.length < MIN_HEURISTIC_SAMPLE_BYTES then none
  else
    let (evenNulls, oddNulls) := nulls sample
    let threshold := max 1 (sample.length / 4)
    let noiseCeiling := sample.length / 32
    if threshold ≤ oddNulls ∧ evenNulls ≤ noiseCeiling then some .utf16le
    else if threshold ≤ evenNulls ∧ oddNulls ≤ noiseCeiling then some .utf16be
    else none

def detectEncoding (buffer : Bytes) : Option Detection :=
  if UTF8_BOM <+: buffer then some ⟨.utf8, UTF8_BOM.length⟩
  else if UTF16LE_BOM <+: buffer then some ⟨.utf16le, UTF16LE_BOM.length⟩
  else if UTF16BE_BOM <+: buffer then some ⟨.utf16be, UTF16BE_BOM.length⟩
  else (detectBomlessUtf16 buffer).map fun encoding => ⟨encoding, 0⟩

def isBomPrefix (buffer : Bytes) : Bool :=
  buffer ≠ [] && BOM_PREFIXES.any fun bom => buffer.length < bom.length && buffer <+: bom

def shouldBufferForDetection (buffer : Bytes) (detection : Option Detection) : Bool :=
  if detection.isSome then false
  else if buffer.length < MIN_FINALIZE_BYTES then true
  else if isBomPrefix buffer then true
  else buffer.contains 0 && buffer.length < MIN_HEURISTIC_SAMPLE_BYTES

variable {δ : Type} (iconv : Iconv δ)

def createIngressDecodeStreamState : IngressDecodeStreamState δ :=
  ⟨.utf8, iconv.decodeStream .utf8, false, none⟩

def writeDecoder (state : IngressDecodeStreamState δ) (buffer : Bytes) :
    Text × IngressDecodeStreamState δ :=
  if buffer = [] then ([], state)
  else
    let (text, decoder) := iconv.write state.decoder buffer
    (text, { state with decoder })

def decodeIngressChunk (state : IngressDecodeStreamState δ) (chunk : Bytes) :
    Text × IngressDecodeStreamState δ :=
  if chunk = [] then ([], state)
  else if state.inspected then writeDecoder iconv state chunk
  else
    let buffer := state.pending.getD [] ++ chunk
    let detection := detectEncoding buffer
    if shouldBufferForDetection buffer detection then ([], { state with pending := some buffer })
    else
      let state := { state with pending := none, inspected := true }
      match detection with
      | none => writeDecoder iconv state buffer
      | some detection =>
        let state :=
          if detection.encoding = state.encoding then state
          else { state with
            encoding := detection.encoding
            decoder := iconv.decodeStream detection.encoding }
        writeDecoder iconv state (buffer.drop detection.bomBytes)

/-- The decoder is not used after it. -/
def flushIngressDecoder (state : IngressDecodeStreamState δ) : Text :=
  match state.inspected, state.pending with
  | false, some pending =>
    let (text, state) := writeDecoder iconv state pending
    text ++ iconv.finish state.decoder
  | _, _ => iconv.finish state.decoder

end Agyn.IngressText
