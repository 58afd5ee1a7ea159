import Agyn.Utf8Decoding

/-!
Where bytes may be cut. The decoding takes a character at a time, or where no character starts a
part that belongs to none; bytes that are decoded in parts give the text of the whole exactly when
every cut is between two of these units. A cut within a unit leaves too many characters.
-/
namespace Agyn.Utf8

variable {b : UInt8} {bytes pre rest part : List UInt8} {c : Char}

def unitLength (bytes : List UInt8) : ℕ :=
  match firstChar bytes with
  | some c => c.utf8Size
  | none => maximalSubpart bytes

def unitChar (bytes : List UInt8) : Char := (firstChar bytes).getD replacement

theorem decode_unit (h : bytes ≠ []) :
    decode bytes = unitChar bytes :: decode (bytes.drop (unitLength bytes)) := by
  unfold unitChar unitLength
  cases hfirst : firstChar bytes with
  | some c => exact decode_of_some hfirst
  | none => exact decode_of_none h hfirst

theorem unitLength_pos (bytes : List UInt8) : 0 < unitLength bytes := by
  unfold unitLength
  split
  · exact Char.utf8Size_pos _
  · exact maximalSubpart_pos bytes

theorem exists_of_firstChar (h : firstChar bytes = some c) :
    ∃ more, bytes = String.utf8EncodeChar c ++ more := by
  obtain ⟨l, hl⟩ := ByteArray.exists_of_utf8DecodeChar?_eq_some h
  refine ⟨l.data.toList, ?_⟩
  have hdata := congrArg (fun a : ByteArray => a.data.toList) hl
  simpa using hdata

theorem not_firstByte_of_isTail (h : isTail b) : ¬b.IsUTF8FirstByte := by
  have hall : ∀ n < 256, isTail (UInt8.ofNat n) → ¬(UInt8.ofNat n).IsUTF8FirstByte := by
    decide +kernel
  have hb := hall b.toNat b.toNat_lt
  rw [UInt8.ofNat_toNat] at hb
  exact hb h

theorem isTail_of_secondBytes {low high b₁ : UInt8} (h : secondBytes b = some (low, high))
    (hlow : low ≤ b₁) (hhigh : b₁ ≤ high) : isTail b₁ := by
  unfold secondBytes at h
  split at h
  · exact absurd h nofun
  obtain ⟨rfl, rfl⟩ := Prod.mk.inj (Option.some.inj h)
  have hlow' : 0x80 ≤ b₁ := UInt8.le_trans (by split_ifs <;> decide) hlow
  have hhigh' : b₁ ≤ 0xBF := UInt8.le_trans hhigh (by split_ifs <;> decide)
  rw [isTail, decide_eq_true hlow', decide_eq_true hhigh']
  rfl

/-- What a part that belongs to no character goes on with. -/
theorem isTail_of_mem_maximalSubpart {x : UInt8}
    (h : x ∈ (bytes.take (maximalSubpart bytes)).drop 1) : isTail x := by
  unfold maximalSubpart at h
  split at h
  · rename_i b b₁ rest
    split at h
    · rename_i low high hsecond
      split_ifs at h with hrange hthree
      · rw [Bool.and_eq_true, decide_eq_true_eq, decide_eq_true_eq] at hrange
        rw [Bool.and_eq_true] at hthree
        obtain ⟨b₂, rest, rfl⟩ : ∃ b₂ rest', rest = b₂ :: rest' := by
          cases rest with
          | nil => exact absurd hthree.2 nofun
          | cons b₂ rest => exact ⟨b₂, rest, rfl⟩
        have hx : x = b₁ ∨ x = b₂ := by simpa using h
        rcases hx with rfl | rfl
        · exact isTail_of_secondBytes hsecond hrange.1 hrange.2
        · simpa using hthree.2
      · rw [Bool.and_eq_true, decide_eq_true_eq, decide_eq_true_eq] at hrange
        have hx : x = b₁ := by simpa using h
        exact hx ▸ isTail_of_secondBytes hsecond hrange.1 hrange.2
      · simp at h
    · simp at h
  · cases bytes <;> simp at h

theorem maximalSubpart_le (h : bytes ≠ []) : maximalSubpart bytes ≤ bytes.length := by
  obtain ⟨b, bytes, rfl⟩ := List.exists_cons_of_ne_nil h
  cases bytes with
  | nil => exact Nat.le_refl 1
  | cons b₁ rest =>
    rw [maximalSubpart]
    split
    · split_ifs with hrange hthree
      · cases rest with
        | nil => simp at hthree
        | cons b₂ rest => simp
      · simp
      · simp
    · simp

/-- Behind the first byte of a unit no character starts. -/
theorem not_firstByte_of_mem_unit {x : UInt8}
    (h : x ∈ (bytes.take (unitLength bytes)).drop 1) : ¬x.IsUTF8FirstByte := by
  unfold unitLength at h
  split at h
  · rename_i c hfirst
    obtain ⟨more, rfl⟩ := exists_of_firstChar hfirst
    rw [← String.length_utf8EncodeChar, List.take_left] at h
    have hchar : (String.utf8EncodeChar c).take 1 ++ (String.utf8EncodeChar c).drop 1 =
        String.utf8EncodeChar c := List.take_append_drop 1 _
    refine not_firstByte_of_mem hchar (fun hnil => ?_) h
    have hlength := congrArg List.length hnil
    have hpos := c.utf8Size_pos
    rw [List.length_take, String.length_utf8EncodeChar, List.length_nil] at hlength
    omega
  · exact not_firstByte_of_isTail (isTail_of_mem_maximalSubpart h)

theorem unitLength_le (h : bytes ≠ []) : unitLength bytes ≤ bytes.length := by
  unfold unitLength
  split
  · rename_i c hfirst
    obtain ⟨more, rfl⟩ := exists_of_firstChar hfirst
    rw [List.length_append, String.length_utf8EncodeChar]
    exact Nat.le_add_right _ _
  · exact maximalSubpart_le h

theorem maximalSubpart_append (h : maximalSubpart (pre ++ rest) ≤ pre.length) :
    maximalSubpart pre = maximalSubpart (pre ++ rest) := by
  have hpos := maximalSubpart_pos (pre ++ rest)
  match pre, h with
  | [], h =>
    rw [List.length_nil] at h
    omega
  | [b], h =>
    have hone : maximalSubpart [b] = 1 := rfl
    rw [List.length_singleton] at h
    omega
  | [b, b₁], h =>
    have hle : maximalSubpart (b :: b₁ :: rest) ≤ 2 := h
    change maximalSubpart [b, b₁] = maximalSubpart (b :: b₁ :: rest)
    rw [maximalSubpart] at hle
    rw [maximalSubpart, maximalSubpart]
    cases hsecond : secondBytes b with
    | none => rfl
    | some range =>
      obtain ⟨low, high⟩ := range
      rw [hsecond] at hle
      dsimp only at hle ⊢
      by_cases hrange : (decide (low ≤ b₁) && decide (b₁ ≤ high)) = true
      · rw [if_pos hrange] at hle
        rw [if_pos hrange, if_pos hrange]
        by_cases hthree : (decide (0xF0 ≤ b) && rest.head?.any isTail) = true
        · rw [if_pos hthree] at hle
          omega
        · rw [if_neg hthree, if_neg (by simp)]
      · rw [if_neg hrange, if_neg hrange]
  | b :: b₁ :: b₂ :: bytes, _ => rfl

/-- The unit that the whole starts with, when it is not cut. -/
theorem firstChar_of_append (h : unitLength (pre ++ rest) ≤ pre.length) :
    firstChar pre = firstChar (pre ++ rest) := by
  unfold unitLength at h
  cases hwhole : firstChar (pre ++ rest) with
  | some c =>
    rw [hwhole] at h
    obtain ⟨more, hmore⟩ := exists_of_firstChar hwhole
    obtain ⟨more', rfl⟩ : ∃ more', pre = String.utf8EncodeChar c ++ more' := by
      have hlength : (String.utf8EncodeChar c).length ≤ pre.length :=
        (String.length_utf8EncodeChar c).trans_le h
      exact ⟨_, (List.prefix_iff_eq_append.mp (List.prefix_of_prefix_length_le
        (hmore ▸ List.prefix_append _ _) (List.prefix_append pre rest) hlength)).symm⟩
    exact firstChar_append c more'
  | none =>
    rw [← Option.not_isSome_iff_eq_none]
    intro hsome
    obtain ⟨c, hc⟩ := Option.isSome_iff_exists.mp hsome
    have happend := ByteArray.utf8DecodeChar?_append_eq_some hc rest.toByteArray
    rw [← List.toByteArray_append] at happend
    exact absurd (hwhole.symm.trans happend) nofun

theorem unitLength_of_append (h : unitLength (pre ++ rest) ≤ pre.length) :
    unitLength pre = unitLength (pre ++ rest) := by
  have hfirst := firstChar_of_append h
  unfold unitLength at h ⊢
  rw [hfirst]
  cases hwhole : firstChar (pre ++ rest) with
  | some c => rfl
  | none =>
    rw [hwhole] at h
    exact maximalSubpart_append h

/-- The cut after `pre` is between two units of the whole. -/
inductive Between : List UInt8 → List UInt8 → Prop where
  | start (rest : List UInt8) : Between [] rest
  | unit {pre rest : List UInt8} : pre ≠ [] → unitLength (pre ++ rest) ≤ pre.length →
      Between (pre.drop (unitLength (pre ++ rest))) rest → Between pre rest

theorem between_iff (hne : pre ≠ []) : Between pre rest ↔
    unitLength (pre ++ rest) ≤ pre.length ∧
      Between (pre.drop (unitLength (pre ++ rest))) rest := by
  refine ⟨fun h => ?_, fun ⟨hle, h⟩ => .unit hne hle h⟩
  cases h with
  | start => exact absurd rfl hne
  | unit _ hle h => exact ⟨hle, h⟩

/-- A cut between units leaves the text as it is; a cut within one leaves too many characters. -/
theorem decode_cut_cases (pre rest : List UInt8) :
    (Between pre rest ∧ decode (pre ++ rest) = decode pre ++ decode rest) ∨
      (¬Between pre rest ∧ (decode (pre ++ rest)).length <
        (decode pre).length + (decode rest).length) := by
  induction hn : pre.length using Nat.strong_induction_on generalizing pre with
  | _ n ih =>
  by_cases hne : pre = []
  · subst hne
    exact .inl ⟨.start rest, rfl⟩
  have hwhole : pre ++ rest ≠ [] := fun h => hne (List.append_eq_nil_iff.mp h).1
  have hpos := unitLength_pos (pre ++ rest)
  rw [between_iff hne, decode_unit hwhole, decode_unit hne]
  by_cases hle : unitLength (pre ++ rest) ≤ pre.length
  · have hchar : unitChar pre = unitChar (pre ++ rest) := by
      rw [unitChar, firstChar_of_append hle, unitChar]
    have hshort : (pre.drop (unitLength (pre ++ rest))).length < n := by
      have hlength := List.length_pos_iff.mpr hne
      rw [List.length_drop]
      omega
    rw [unitLength_of_append hle, hchar, List.drop_append_of_le_length hle]
    obtain ⟨hcut, heq⟩ | ⟨hcut, hlt⟩ := ih _ hshort _ rfl
    · exact .inl ⟨⟨hle, hcut⟩, by rw [heq]; rfl⟩
    · refine .inr ⟨fun h => hcut h.2, ?_⟩
      rw [List.length_cons, List.length_cons]
      omega
  · refine .inr ⟨fun h => hle h.1, ?_⟩
    -- the rest begins with the end of the unit
    have htail : decode rest = List.replicate (unitLength (pre ++ rest) - pre.length) replacement ++
        decode ((pre ++ rest).drop (unitLength (pre ++ rest))) := by
      have htotal := unitLength_le hwhole
      obtain ⟨k, hk⟩ := Nat.exists_eq_add_of_le (Nat.le_of_not_le hle)
      rw [List.length_append] at htotal
      have htake : rest.take k =
          ((pre ++ rest).take (unitLength (pre ++ rest))).drop pre.length := by
        rw [hk, List.take_length_add_append, List.drop_left]
      have htails : ∀ b ∈ rest.take k, ¬b.IsUTF8FirstByte := by
        intro b hb
        refine not_firstByte_of_mem_unit (List.drop_subset_drop_left _ ?_ (htake ▸ hb))
        exact List.length_pos_iff.mpr hne
      have hdrop : (pre ++ rest).drop (unitLength (pre ++ rest)) = rest.drop k := by
        rw [hk, List.drop_length_add_append]
      rw [hdrop, hk, Nat.add_sub_cancel_left]
      conv_lhs => rw [← List.take_append_drop k rest, decode_append htails]
      rw [List.length_take, min_eq_left (by omega)]
    rw [htail]
    simp only [List.length_cons, List.length_append, List.length_replicate]
    omega

theorem decode_append_iff (pre rest : List UInt8) :
    decode (pre ++ rest) = decode pre ++ decode rest ↔ Between pre rest := by
  obtain ⟨hcut, heq⟩ | ⟨hcut, hlt⟩ := decode_cut_cases pre rest
  · exact iff_of_true heq hcut
  · refine iff_of_false (fun heq => ?_) hcut
    rw [heq, List.length_append] at hlt
    omega

theorem length_decode_append_le (pre rest : List UInt8) :
    (decode (pre ++ rest)).length ≤ (decode pre).length + (decode rest).length := by
  obtain ⟨-, heq⟩ | ⟨-, hlt⟩ := decode_cut_cases pre rest
  · rw [heq, List.length_append]
  · exact Nat.le_of_lt hlt

/-- A cut further on, in the whole and in what is left after a first cut. -/
theorem Between.append_iff {more : List UInt8} (h : Between pre more)
    (hmore : more = part ++ rest) : Between (pre ++ part) rest ↔ Between part rest := by
  induction h with
  | start more => exact Iff.rfl
  | @unit pre more hne hle _ ih =>
    subst hmore
    have hnext := ih rfl
    have hne' : pre ++ part ≠ [] := fun h => hne (List.append_eq_nil_iff.mp h).1
    rw [between_iff hne', List.append_assoc, List.drop_append_of_le_length hle, hnext,
      List.length_append]
    exact and_iff_right (by omega)

theorem length_decode_flatten_le (parts : List (List UInt8)) :
    (decode parts.flatten).length ≤ (parts.flatMap decode).length := by
  induction parts with
  | nil => exact Nat.le_refl _
  | cons part parts ih =>
    have hle := length_decode_append_le part parts.flatten
    rw [List.flatten_cons, List.flatMap_cons, List.length_append]
    omega

/-- Parts give the text of the whole exactly when each cut is between two units of the whole. -/
theorem decode_parts_iff (parts : List (List UInt8)) :
    parts.flatMap decode = decode parts.flatten ↔
      ∀ pre suf, parts = pre ++ suf → Between pre.flatten suf.flatten := by
  induction parts with
  | nil =>
    refine iff_of_true rfl fun pre suf h => ?_
    obtain ⟨rfl, rfl⟩ := List.append_eq_nil_iff.mp h.symm
    exact .start _
  | cons part parts ih =>
    rw [List.flatMap_cons, List.flatten_cons]
    constructor
    · intro heq pre suf hsplit
      have hlength := congrArg List.length heq
      have hle := length_decode_append_le part parts.flatten
      have hrest := length_decode_flatten_le parts
      rw [List.length_append] at hlength
      obtain ⟨hcut, happend⟩ | ⟨-, hlt⟩ := decode_cut_cases part parts.flatten
      · have hparts : parts.flatMap decode = decode parts.flatten :=
          List.append_cancel_left (heq.trans happend)
        obtain ⟨rfl, -⟩ | ⟨pre', rfl, rfl⟩ := List.cons_eq_append_iff.mp hsplit
        · exact .start _
        · rw [List.flatten_cons]
          refine (hcut.append_iff List.flatten_append).mpr ?_
          exact ih.mp hparts pre' suf rfl
      · omega
    · intro hcuts
      have hcut : Between part parts.flatten := by
        have hfirst := hcuts [part] parts rfl
        rwa [List.flatten_singleton] at hfirst
      rw [(decode_append_iff part parts.flatten).mpr hcut]
      refine congrArg _ (ih.mpr fun pre suf hsplit => ?_)
      have hwhole := hcuts (part :: pre) suf (by rw [hsplit]; rfl)
      rw [List.flatten_cons] at hwhole
      exact (hcut.append_iff (by rw [hsplit, List.flatten_append])).mp hwhole

end Agyn.Utf8
