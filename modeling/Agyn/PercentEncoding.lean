import Mathlib.Data.List.Basic

/-!
Percent encoding of a string as a URI component. A character outside the
unreserved set is written as its UTF-8 octets, each escaped by two upper-case
hexadecimal digits. Decoding collects octets and fails on a malformed escape or
on octets that are not UTF-8. Decoding undoes encoding, so distinct strings
have distinct encodings.
-/
namespace Agyn

section Encoding

/-- Letters, digits and the marks that are never escaped. -/
def isUnescaped (c : Char) : Bool := c.isAlphanum || "-_.!~*'()".toList.contains c

def hexDigit (n : ℕ) : Char := Char.ofNat (if n < 10 then 48 + n else 55 + n)

def escapeOctet (b : UInt8) : List Char :=
  ['%', hexDigit (b.toNat / 16), hexDigit (b.toNat % 16)]

def encodeChar (c : Char) : List Char :=
  if isUnescaped c then [c] else (String.utf8EncodeChar c).flatMap escapeOctet

def encodeURIComponent (s : String) : String := String.ofList (s.toList.flatMap encodeChar)

end Encoding

section Decoding

def hexValue (c : Char) : Option ℕ :=
  if '0' ≤ c ∧ c ≤ '9' then some (c.toNat - 48)
  else if 'A' ≤ c ∧ c ≤ 'F' then some (c.toNat - 55)
  else if 'a' ≤ c ∧ c ≤ 'f' then some (c.toNat - 87)
  else none

/-- The octets a component stands for; a character that is not escaped stands for its own. -/
def octets : List Char → Option (List UInt8)
  | [] => some []
  | '%' :: a :: b :: rest =>
    match hexValue a, hexValue b with
    | some x, some y => (octets rest).map (UInt8.ofNat (16 * x + y) :: ·)
    | _, _ => none
  | '%' :: _ => none
  | c :: rest => (octets rest).map (String.utf8EncodeChar c ++ ·)

/-- `none` where `decodeURIComponent` throws. -/
def decodeURIComponent (s : String) : Option String :=
  (octets s.toList).bind fun bs => String.fromUTF8? bs.toByteArray

end Decoding

section RoundTrip

theorem hexValue_hexDigit (n : ℕ) (hn : n < 16) : hexValue (hexDigit n) = some n := by
  have hall : ∀ m : Fin 16, hexValue (hexDigit m) = some m.val := by decide
  exact hall ⟨n, hn⟩

theorem octets_escapeOctet (b : UInt8) (rest : List Char) :
    octets (escapeOctet b ++ rest) = (octets rest).map (b :: ·) := by
  have hb := b.toNat_lt
  have hhigh := hexValue_hexDigit (b.toNat / 16) (by omega)
  have hlow := hexValue_hexDigit (b.toNat % 16) (by omega)
  change octets ('%' :: hexDigit (b.toNat / 16) :: hexDigit (b.toNat % 16) :: rest) = _
  rw [octets, hhigh, hlow]
  have hsum : 16 * (b.toNat / 16) + b.toNat % 16 = b.toNat := by omega
  simp only [hsum, UInt8.ofNat_toNat]

theorem octets_escapeOctets (bs : List UInt8) (rest : List Char) :
    octets (bs.flatMap escapeOctet ++ rest) = (octets rest).map (bs ++ ·) := by
  induction bs with
  | nil => simp
  | cons b bs ih =>
    rw [List.flatMap_cons, List.append_assoc, octets_escapeOctet, ih, Option.map_map]
    rfl

theorem octets_encodeChar (c : Char) (rest : List Char) :
    octets (encodeChar c ++ rest) = (octets rest).map (String.utf8EncodeChar c ++ ·) := by
  unfold encodeChar
  split
  · rename_i hc
    have hne : c ≠ '%' := by
      intro heq
      rw [heq] at hc
      revert hc
      decide
    change octets (c :: rest) = _
    rw [octets]
    · exact fun _ _ _ heq => absurd heq hne
    · exact hne
  · exact octets_escapeOctets _ rest

theorem octets_encode (cs : List Char) :
    octets (cs.flatMap encodeChar) = some (cs.flatMap String.utf8EncodeChar) := by
  induction cs with
  | nil => rfl
  | cons c cs ih =>
    rw [List.flatMap_cons, octets_encodeChar, ih]
    rfl

theorem decodeURIComponent_encodeURIComponent (s : String) :
    decodeURIComponent (encodeURIComponent s) = some s := by
  have hbytes : (s.toList.flatMap String.utf8EncodeChar).toByteArray = s.toByteArray := by
    rw [← List.utf8Encode, String.utf8Encode_toList]
  unfold decodeURIComponent encodeURIComponent
  rw [String.toList_ofList, octets_encode, Option.bind_some, hbytes, String.fromUTF8?,
    dif_pos s.isValidUTF8]
  rfl

theorem encodeURIComponent_injective : Function.Injective encodeURIComponent := by
  intro s t h
  have hs := decodeURIComponent_encodeURIComponent s
  rw [h, decodeURIComponent_encodeURIComponent] at hs
  exact (Option.some.inj hs).symm

end RoundTrip

end Agyn
