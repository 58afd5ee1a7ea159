import Mathlib.Data.List.Infix
import Mathlib.Data.Nat.Notation
import Mathlib.Tactic.SplitIfs

/-!
The decoding of UTF-8 with replacement characters: a part that belongs to no character becomes one
U+FFFD. Bytes that are decoded in parts give the text of the whole exactly when no character is
cut; every character that is cut leaves at least two replacement characters.
-/
namespace Agyn.Utf8

def replacement : Char := Char.ofNat 0xFFFD

def encode (text : List Char) : List UInt8 := text.flatMap String.utf8EncodeChar

def isTail (b : UInt8) : Bool := 0x80 ≤ b && b ≤ 0xBF

/-- The second bytes that may follow a first byte of three or four. -/
def secondBytes (b : UInt8) : Option (UInt8 × UInt8) :=
  if b < 0xE0 || 0xF4 < b then none
  else some (if b = 0xE0 then 0xA0 else if b = 0xF0 then 0x90 else 0x80,
    if b = 0xED then 0x9F else if b = 0xF4 then 0x8F else 0xBF)

/-- Where no character starts, the length of the longest start of one, or of a single byte. -/
def maximalSubpart : List UInt8 → ℕ
  | b :: b₁ :: rest =>
    match secondBytes b with
    | some (low, high) =>
      if low ≤ b₁ && b₁ ≤ high then if 0xF0 ≤ b && rest.head?.any isTail then 3 else 2 else 1
    | none => 1
  | _ => 1

def firstChar (bytes : List UInt8) : Option Char := bytes.toByteArray.utf8DecodeChar? 0

/-- The bytes decoded in at most `n` steps. -/
def decodeFrom : ℕ → List UInt8 → List Char
  | 0, _ => []
  | _, [] => []
  | n + 1, b :: bytes =>
    match firstChar (b :: bytes) with
    | some c => c :: decodeFrom n ((b :: bytes).drop c.utf8Size)
    | none => replacement :: decodeFrom n ((b :: bytes).drop (maximalSubpart (b :: bytes)))

def decode (bytes : List UInt8) : List Char := decodeFrom bytes.length bytes

section Decode

variable {n : ℕ} {b : UInt8} {bytes pre suf rest : List UInt8} {c : Char}

theorem maximalSubpart_pos (bytes : List UInt8) : 0 < maximalSubpart bytes := by
  unfold maximalSubpart
  split
  · split
    · split_ifs <;> decide
    · decide
  · decide

/-- Each step takes a byte at least. -/
theorem decodeFrom_eq (hn : bytes.length ≤ n) : decodeFrom n bytes = decode bytes := by
  suffices h : ∀ m, bytes.length ≤ m → decodeFrom n bytes = decodeFrom m bytes from
    h _ (Nat.le_refl _)
  induction n generalizing bytes with
  | zero =>
    obtain rfl : bytes = [] := List.length_eq_zero_iff.mp (Nat.le_zero.mp hn)
    intro m _
    cases m <;> rfl
  | succ n ih =>
    intro m hm
    cases bytes with
    | nil => cases m <;> rfl
    | cons b bytes =>
      cases m with
      | zero => simp at hm
      | succ m =>
        have hdrop (k : ℕ) (hk : 0 < k) : decodeFrom n ((b :: bytes).drop k) =
            decodeFrom m ((b :: bytes).drop k) := by
          rw [List.length_cons] at hn hm
          refine ih ?_ m ?_ <;> rw [List.length_drop, List.length_cons] <;> omega
        rw [decodeFrom, decodeFrom]
        cases firstChar (b :: bytes) with
        | some c =>
          dsimp only
          rw [hdrop _ c.utf8Size_pos]
        | none =>
          dsimp only
          rw [hdrop _ (maximalSubpart_pos _)]

@[simp] theorem decode_nil : decode [] = [] := rfl

theorem decode_of_some (h : firstChar bytes = some c) :
    decode bytes = c :: decode (bytes.drop c.utf8Size) := by
  cases bytes with
  | nil => simp [firstChar, ByteArray.utf8DecodeChar?] at h
  | cons b bytes =>
    have hpos := c.utf8Size_pos
    rw [decode, List.length_cons, decodeFrom, h]
    dsimp only
    rw [decodeFrom_eq (by rw [List.length_drop, List.length_cons]; omega)]

theorem decode_of_none (hne : bytes ≠ []) (h : firstChar bytes = none) :
    decode bytes = replacement :: decode (bytes.drop (maximalSubpart bytes)) := by
  cases bytes with
  | nil => exact absurd rfl hne
  | cons b bytes =>
    have hpos := maximalSubpart_pos (b :: bytes)
    rw [decode, List.length_cons, decodeFrom, h]
    dsimp only
    rw [decodeFrom_eq (by rw [List.length_drop, List.length_cons]; omega)]

theorem firstChar_append (c : Char) (rest : List UInt8) :
    firstChar (String.utf8EncodeChar c ++ rest) = some c := by
  rw [firstChar, List.toByteArray_append]
  exact ByteArray.utf8DecodeChar?_utf8EncodeChar_append

theorem decode_char_append (c : Char) (rest : List UInt8) :
    decode (String.utf8EncodeChar c ++ rest) = c :: decode rest := by
  rw [decode_of_some (firstChar_append c rest), ← String.length_utf8EncodeChar, List.drop_left]

theorem decode_encode_append (text : List Char) (rest : List UInt8) :
    decode (encode text ++ rest) = text ++ decode rest := by
  induction text with
  | nil => rfl
  | cons c text ih =>
    rw [encode, List.flatMap_cons, List.append_assoc, decode_char_append, ← encode, ih]
    rfl

@[simp] theorem decode_encode (text : List Char) : decode (encode text) = text := by
  have h := decode_encode_append text []
  simpa using h

theorem encode_inj {text text' : List Char} (h : encode text = encode text') : text = text' := by
  rw [← decode_encode text, h, decode_encode]

/-- No start of three or four bytes begins with a byte that starts no character. -/
theorem secondBytes_eq_none (hb : ¬b.IsUTF8FirstByte) : secondBytes b = none := by
  have hall : ∀ n < 256, ¬(UInt8.ofNat n).IsUTF8FirstByte → secondBytes (UInt8.ofNat n) = none := by
    decide +kernel
  have h := hall b.toNat b.toNat_lt
  rw [UInt8.ofNat_toNat] at h
  exact h hb

theorem firstChar_eq_none (hb : ¬b.IsUTF8FirstByte) : firstChar (b :: rest) = none := by
  rw [← Option.not_isSome_iff_eq_none]
  intro hsome
  apply hb
  have hfirst := ByteArray.isUTF8FirstByte_of_isSome_utf8DecodeChar? hsome
  simpa using hfirst

/-- A byte that starts no character. -/
theorem decode_cons (hb : ¬b.IsUTF8FirstByte) :
    decode (b :: rest) = replacement :: decode rest := by
  have hone : maximalSubpart (b :: rest) = 1 := by
    cases rest with
    | nil => rfl
    | cons b₁ rest => rw [maximalSubpart, secondBytes_eq_none hb]
  rw [decode_of_none (List.cons_ne_nil b rest) (firstChar_eq_none hb), hone, List.drop_one,
    List.tail_cons]

theorem decode_append (hpre : ∀ b ∈ pre, ¬b.IsUTF8FirstByte) (rest : List UInt8) :
    decode (pre ++ rest) = List.replicate pre.length replacement ++ decode rest := by
  induction pre with
  | nil => rfl
  | cons b pre ih =>
    obtain ⟨hb, hpre⟩ := List.forall_mem_cons.mp hpre
    rw [List.cons_append, decode_cons hb, ih hpre]
    rfl

/-- Behind the first byte of a character no other one starts. -/
theorem not_firstByte_of_mem (hchar : pre ++ suf = String.utf8EncodeChar c) (hpre : pre ≠ [])
    (hb : b ∈ suf) : ¬b.IsUTF8FirstByte := by
  obtain ⟨i, hi, rfl⟩ := List.getElem_of_mem hb
  have hlength : pre.length + i < (String.utf8EncodeChar c).length := by
    rw [← hchar, List.length_append]
    omega
  have hget : suf[i] = (String.utf8EncodeChar c)[pre.length + i] := by
    simp [← hchar]
  rw [hget, UInt8.isUTF8FirstByte_getElem_utf8EncodeChar]
  have hpos := List.length_pos_iff.mpr hpre
  omega

/-- The start of a character is no character. -/
theorem firstChar_eq_none_of_cut (hchar : pre ++ suf = String.utf8EncodeChar c) (hsuf : suf ≠ []) :
    firstChar pre = none := by
  rw [← Option.not_isSome_iff_eq_none]
  intro hsome
  obtain ⟨c', hc'⟩ := Option.isSome_iff_exists.mp hsome
  have hwhole := ByteArray.utf8DecodeChar?_append_eq_some hc' suf.toByteArray
  rw [← List.toByteArray_append, hchar] at hwhole
  have hchar' := firstChar_append c []
  rw [List.append_nil, firstChar, hwhole] at hchar'
  obtain rfl := Option.some.inj hchar'
  have hle := ByteArray.le_size_of_utf8DecodeChar?_eq_some hc'
  have hlength := congrArg List.length hchar
  rw [List.length_append, String.length_utf8EncodeChar] at hlength
  have hpos := List.length_pos_iff.mpr hsuf
  simp at hle
  omega

/-- The start of a character leaves replacement characters only. -/
theorem decode_cut (hchar : pre ++ suf = String.utf8EncodeChar c) (hpre : pre ≠ [])
    (hsuf : suf ≠ []) : ∃ n, decode pre = List.replicate (n + 1) replacement := by
  obtain ⟨b, pre, rfl⟩ := List.exists_cons_of_ne_nil hpre
  have hnone := firstChar_eq_none_of_cut hchar hsuf
  rw [decode_of_none hpre hnone]
  have hpos := maximalSubpart_pos (b :: pre)
  have hdrop : (b :: pre).drop (maximalSubpart (b :: pre)) <:+ pre := by
    obtain ⟨k, hk⟩ := Nat.exists_eq_add_of_le' hpos
    rw [hk, List.drop_succ_cons]
    exact List.drop_suffix k pre
  have htails : ∀ x ∈ (b :: pre).drop (maximalSubpart (b :: pre)), ¬x.IsUTF8FirstByte := by
    intro x hx
    have hchar' : [b] ++ (pre ++ suf) = String.utf8EncodeChar c := by simpa using hchar
    exact not_firstByte_of_mem hchar' (List.cons_ne_nil b [])
      (List.mem_append_left suf (hdrop.subset hx))
  have happend := decode_append htails []
  rw [List.append_nil, decode_nil, List.append_nil] at happend
  exact ⟨_, by rw [happend, List.replicate_succ]⟩

end Decode

def Whole (bytes : List UInt8) : Prop := ∃ text, bytes = encode text

theorem whole_iff {bytes : List UInt8} : Whole bytes ↔ bytes = encode (decode bytes) := by
  refine ⟨?_, fun h => ⟨_, h⟩⟩
  rintro ⟨text, rfl⟩
  rw [decode_encode]

instance : DecidablePred Whole := fun _ => decidable_of_iff _ whole_iff.symm

/-- What is left of a text when some of its characters are cut: two replacement characters or more
for each of them. -/
inductive Damaged : List Char → List Char → Prop where
  | nil : Damaged [] []
  | keep (c : Char) {text left : List Char} : Damaged text left → Damaged (c :: text) (c :: left)
  | cut (c : Char) (n : ℕ) {text left : List Char} : 1 < c.utf8Size → Damaged text left →
      Damaged (c :: text) (List.replicate (n + 2) replacement ++ left)

namespace Damaged

variable {text text' left left' : List Char} {c : Char}

theorem append_left (text : List Char) (h : Damaged text' left') :
    Damaged (text ++ text') (text ++ left') := by
  induction text with
  | nil => exact h
  | cons c text ih => exact ih.keep c

/-- A character of one byte cannot be cut. -/
theorem split (hc : c.utf8Size = 1) (h : Damaged (text ++ c :: text') left) :
    ∃ left₁ left₂, left = left₁ ++ c :: left₂ ∧ Damaged text left₁ ∧ Damaged text' left₂ := by
  induction text generalizing left with
  | nil =>
    cases h with
    | keep _ h => exact ⟨[], _, rfl, .nil, h⟩
    | cut _ _ hsize => omega
  | cons a text ih =>
    cases h with
    | keep _ h =>
      obtain ⟨left₁, left₂, rfl, h₁, h₂⟩ := ih h
      exact ⟨a :: left₁, left₂, rfl, h₁.keep a, h₂⟩
    | cut _ n hsize h =>
      obtain ⟨left₁, left₂, rfl, h₁, h₂⟩ := ih h
      exact ⟨_ ++ left₁, left₂, by rw [List.append_assoc], h₁.cut a n hsize, h₂⟩

theorem not_mem (h : Damaged text left) (hc : c ≠ replacement) (hmem : c ∉ text) : c ∉ left := by
  induction h with
  | nil => exact hmem
  | keep _ _ ih =>
    rw [List.mem_cons, not_or] at hmem ⊢
    exact ⟨hmem.1, ih hmem.2⟩
  | cut _ _ _ _ ih =>
    rw [List.mem_cons, not_or] at hmem
    rw [List.mem_append, not_or]
    exact ⟨fun hrep => hc (List.eq_of_mem_replicate hrep), ih hmem.2⟩

theorem count_le (h : Damaged text left) : text.count replacement ≤ left.count replacement := by
  induction h with
  | nil => exact Nat.le_refl _
  | keep c _ ih =>
    rw [List.count_cons, List.count_cons]
    omega
  | cut c n _ _ ih =>
    rw [List.count_cons, List.count_append, List.count_replicate_self]
    split_ifs <;> omega

/-- A character that is cut is missed, wherever it stands. -/
theorem cut_ne {n : ℕ} (h : Damaged text left) :
    text' ++ List.replicate (n + 2) replacement ++ left ≠ text' ++ c :: text := by
  intro heq
  have hcount := congrArg (List.count replacement) heq
  have hle := h.count_le
  rw [List.count_append, List.count_append, List.count_append, List.count_replicate_self,
    List.count_cons] at hcount
  split_ifs at hcount <;> omega

end Damaged

section Parts

variable {chunk suf rest : List UInt8} {chunks : List (List UInt8)} {text : List Char}

/-- A chunk at the start of an encoded text ends between two characters or within one. -/
theorem eq_of_append_eq_encode (h : chunk ++ rest = encode text) :
    (∃ part text', text = part ++ text' ∧ chunk = encode part ∧ rest = encode text') ∨
      ∃ part c text' pre suf, text = part ++ c :: text' ∧ pre ++ suf = String.utf8EncodeChar c ∧
        pre ≠ [] ∧ suf ≠ [] ∧ chunk = encode part ++ pre ∧ rest = suf ++ encode text' := by
  induction text generalizing chunk with
  | nil =>
    obtain ⟨rfl, rfl⟩ := List.append_eq_nil_iff.mp h
    exact .inl ⟨[], [], rfl, rfl, rfl⟩
  | cons c text ih =>
    have hcons : chunk ++ rest = String.utf8EncodeChar c ++ encode text := h
    rcases List.append_eq_append_iff.mp hcons with ⟨suf, hchar, rfl⟩ | ⟨bytes, rfl, hbytes⟩
    · by_cases hpre : chunk = []
      · subst hpre
        rw [List.nil_append] at hchar
        exact .inl ⟨[], c :: text, rfl, rfl, by rw [← hchar]; rfl⟩
      · by_cases hsuf : suf = []
        · subst hsuf
          rw [List.append_nil] at hchar
          exact .inl ⟨[c], text, rfl, by rw [← hchar]; simp [encode], rfl⟩
        · exact .inr ⟨[], c, text, chunk, suf, rfl, hchar.symm, hpre, hsuf, rfl, rfl⟩
    · rcases ih hbytes.symm with ⟨part, text', rfl, rfl, rfl⟩ |
        ⟨part, c', text', pre, suf, rfl, hchar, hpre, hsuf, rfl, rfl⟩
      · exact .inl ⟨c :: part, text', rfl, rfl, rfl⟩
      · exact .inr ⟨c :: part, c', text', pre, suf, rfl, hchar, hpre, hsuf,
          by rw [← List.append_assoc]; rfl, rfl⟩

theorem encode_eq_nil (h : encode text = []) : text = [] := encode_inj h

/-- Chunks that begin with the end of a character, each decoded on its own. -/
theorem damaged_chunks (suf : List UInt8) (hsuf : ∀ b ∈ suf, ¬b.IsUTF8FirstByte)
    (h : chunks.flatten = suf ++ encode text) :
    ∃ left, chunks.flatMap decode = List.replicate suf.length replacement ++ left ∧
      Damaged text left ∧ (suf = [] → left = text → ∀ chunk ∈ chunks, Whole chunk) := by
  induction chunks generalizing suf text with
  | nil =>
    obtain ⟨rfl, htext⟩ := List.append_eq_nil_iff.mp h.symm
    obtain rfl := encode_eq_nil htext
    exact ⟨[], rfl, .nil, by simp⟩
  | cons chunk chunks ih =>
    rw [List.flatten_cons] at h
    rw [List.flatMap_cons]
    rcases List.append_eq_append_iff.mp h with ⟨suf', rfl, hrest⟩ | ⟨bytes, rfl, hbytes⟩
    · -- the chunk ends within the character that it begins with
      obtain ⟨hchunk, hsuf'⟩ := List.forall_mem_append.mp hsuf
      obtain ⟨left, hleft, hdamaged, hwhole⟩ := ih _ hsuf' hrest
      have hdecode := decode_append hchunk []
      rw [List.append_nil, decode_nil, List.append_nil] at hdecode
      refine ⟨left, ?_, hdamaged, fun hnil heq => ?_⟩
      · rw [hdecode, hleft, List.length_append, List.replicate_add, List.append_assoc]
      · obtain ⟨rfl, rfl⟩ := List.append_eq_nil_iff.mp hnil
        exact List.forall_mem_cons.mpr ⟨⟨[], rfl⟩, hwhole rfl heq⟩
    · rw [decode_append hsuf]
      rcases eq_of_append_eq_encode hbytes.symm with ⟨part, text', rfl, rfl, hrest⟩ |
        ⟨part, c, text', pre, suf', rfl, hchar, hpre, hsuf', rfl, hrest⟩
      · obtain ⟨left, hleft, hdamaged, hwhole⟩ :=
          ih [] (by simp) (by simpa using hrest)
        refine ⟨part ++ left, ?_, hdamaged.append_left part, fun hnil heq => ?_⟩
        · rw [decode_encode, hleft]
          simp
        · obtain rfl := hnil
          exact List.forall_mem_cons.mpr ⟨⟨part, rfl⟩, hwhole rfl (List.append_cancel_left heq)⟩
      · obtain ⟨left, hleft, hdamaged, -⟩ :=
          ih _ (fun b hb => not_firstByte_of_mem hchar hpre hb) hrest
        obtain ⟨n, hcut⟩ := decode_cut hchar hpre hsuf'
        obtain ⟨k, hk⟩ := Nat.exists_eq_add_of_le' (List.length_pos_iff.mpr hsuf')
        have hsize : 1 < c.utf8Size := by
          rw [← String.length_utf8EncodeChar, ← hchar, List.length_append]
          have hpos := List.length_pos_iff.mpr hpre
          omega
        refine ⟨part ++ (List.replicate (n + k + 2) replacement ++ left), ?_,
          (hdamaged.cut c (n + k) hsize).append_left part, fun _ heq => ?_⟩
        · have hsum : n + k + 2 = n + 1 + (k + 1) := by omega
          rw [decode_encode_append, hcut, hleft, hk, hsum, List.replicate_add (n + 1)]
          simp only [List.append_assoc]
        · rw [← List.append_assoc] at heq
          exact absurd heq hdamaged.cut_ne

/-- Bytes decoded in parts, which give their text if no character is cut. -/
theorem decode_chunks (h : chunks.flatten = encode text) :
    Damaged text (chunks.flatMap decode) ∧
      (chunks.flatMap decode = text ↔ ∀ chunk ∈ chunks, Whole chunk) := by
  obtain ⟨left, hleft, hdamaged, hwhole⟩ := damaged_chunks [] (by simp) (by simpa using h)
  rw [List.length_nil, List.replicate_zero, List.nil_append] at hleft
  rw [hleft]
  refine ⟨hdamaged, hwhole rfl, fun hall => ?_⟩
  apply encode_inj
  rw [← hleft, ← h, encode, List.flatMap_assoc, ← List.flatMap_id]
  exact List.flatMap_congr fun chunk hchunk => (whole_iff.mp (hall chunk hchunk)).symm

end Parts

end Agyn.Utf8
