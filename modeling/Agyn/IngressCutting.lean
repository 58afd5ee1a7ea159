import Mathlib.Tactic.Common
import Agyn.IngressText

/-!
The decoding of a stream that comes in pieces. The encoding is detected on the bytes seen so far
and then kept, so the text depends on the bytes alone when each start of the stream on which the
detection settles has the encoding of the whole; else two cuttings differ.
-/
namespace Agyn.IngressText

variable {δ : Type} (iconv : Iconv δ)

/-- What a decoder makes of chunks written one after the other. -/
def Iconv.decodeFrom (iconv : Iconv δ) : δ → List Bytes → Text
  | decoder, [] => iconv.finish decoder
  | decoder, chunk :: chunks =>
    let (text, decoder) := iconv.write decoder chunk
    text ++ iconv.decodeFrom decoder chunks

structure IsCutting (bytes : Bytes) (chunks : List Bytes) : Prop where
  flatten : chunks.flatten = bytes
  nonempty : ∀ chunk ∈ chunks, chunk ≠ []

/-- The text of a new decoder depends on the bytes only. -/
def Iconv.ChunkIndependent (iconv : Iconv δ) : Prop :=
  ∀ encoding bytes chunks chunks', IsCutting bytes chunks → IsCutting bytes chunks' →
    iconv.decodeFrom (iconv.decodeStream encoding) chunks =
      iconv.decodeFrom (iconv.decodeStream encoding) chunks'

def decodeIngressChunks : IngressDecodeStreamState δ → List Bytes → Text × IngressDecoderEncoding
  | state, [] => (flushIngressDecoder iconv state, state.encoding)
  | state, chunk :: chunks =>
    let (text, state) := decodeIngressChunk iconv state chunk
    let (rest, encoding) := decodeIngressChunks state chunks
    (text ++ rest, encoding)

def CutAlike (bytes : Bytes) : Prop :=
  ∀ chunks chunks', IsCutting bytes chunks → IsCutting bytes chunks' →
    decodeIngressChunks iconv (createIngressDecodeStreamState iconv) chunks =
      decodeIngressChunks iconv (createIngressDecodeStreamState iconv) chunks'

/-- The encoding that a detection leaves, UTF-8 if it finds none. -/
def detected (buffer : Bytes) : IngressDecoderEncoding :=
  (detectEncoding buffer).elim .utf8 Detection.encoding

def detectedBom (buffer : Bytes) : ℕ := (detectEncoding buffer).elim 0 Detection.bomBytes

def buffered (buffer : Bytes) : Bool := shouldBufferForDetection buffer (detectEncoding buffer)

/-- Each start of the bytes that is not held back has the encoding of the whole. -/
def Settled (bytes : Bytes) : Prop :=
  ∀ start, start <+: bytes → start ≠ [] → buffered start = false → detected start = detected bytes

variable {iconv} {bytes start buffer pending : Bytes} {chunks : List Bytes}
  {state : IngressDecodeStreamState δ}

theorem detected_of_buffered (h : buffered buffer = true) :
    detected buffer = .utf8 ∧ detectedBom buffer = 0 := by
  unfold buffered shouldBufferForDetection at h
  cases hdetection : detectEncoding buffer with
  | none => simp [detected, detectedBom, hdetection]
  | some detection => simp [hdetection] at h

/-- A part of a byte order mark is held back. -/
theorem buffered_of_bom {bom : Bytes} (hbom : bom ∈ BOM_PREFIXES) (hstart : start <+: bom)
    (hne : start ≠ []) (hshort : start ≠ bom) : buffered start = true := by
  obtain ⟨n, hn, rfl⟩ : ∃ n, n ≤ 3 ∧ bom.take n = start := by
    refine ⟨start.length, ?_, (List.prefix_iff_eq_take.mp hstart).symm⟩
    have hlength := hstart.length_le
    simp only [BOM_PREFIXES, UTF8_BOM, UTF16LE_BOM, UTF16BE_BOM, List.mem_cons,
      List.not_mem_nil, or_false] at hbom
    rcases hbom with rfl | rfl | rfl <;> exact Nat.le_trans hlength (by decide)
  revert hne hshort
  clear hstart
  revert bom n
  decide

theorem bom_prefix_iff (bom : Bytes) (hbom : bom ∈ BOM_PREFIXES) (hstart : start <+: bytes)
    (hne : start ≠ []) (hsettled : buffered start = false) : bom <+: bytes ↔ bom <+: start := by
  refine ⟨fun h => ?_, fun h => h.trans hstart⟩
  rcases List.prefix_or_prefix_of_prefix h hstart with h | h
  · exact h
  · by_cases heq : start = bom
    · exact heq ▸ List.prefix_rfl
    · rw [buffered_of_bom hbom h hne heq] at hsettled
      cases hsettled

theorem detectedBom_eq (buffer : Bytes) :
    detectedBom buffer =
      if UTF8_BOM <+: buffer then 3
      else if UTF16LE_BOM <+: buffer ∨ UTF16BE_BOM <+: buffer then 2
      else 0 := by
  unfold detectedBom detectEncoding
  by_cases h8 : UTF8_BOM <+: buffer
  · simp only [h8, if_true]
    rfl
  · by_cases hle : UTF16LE_BOM <+: buffer
    · simp only [h8, hle, if_false, if_true, true_or]
      rfl
    · by_cases hbe : UTF16BE_BOM <+: buffer
      · simp only [h8, hle, hbe, if_false, if_true, or_true]
        rfl
      · simp only [h8, hle, hbe, if_false, or_self]
        cases detectBomlessUtf16 buffer <;> rfl

/-- A start that is not held back has the byte order mark of the whole. -/
theorem detectedBom_of_prefix (hstart : start <+: bytes) (hne : start ≠ [])
    (hsettled : buffered start = false) : detectedBom bytes = detectedBom start := by
  simp only [detectedBom_eq,
    bom_prefix_iff UTF8_BOM (by decide) hstart hne hsettled,
    bom_prefix_iff UTF16LE_BOM (by decide) hstart hne hsettled,
    bom_prefix_iff UTF16BE_BOM (by decide) hstart hne hsettled]

theorem detectedBom_le_length (buffer : Bytes) : detectedBom buffer ≤ buffer.length := by
  rw [detectedBom_eq]
  split_ifs with h8 h16
  · exact h8.length_le
  · exact h16.elim List.IsPrefix.length_le List.IsPrefix.length_le
  · omega

theorem isCutting_nil (h : IsCutting [] chunks) : chunks = [] := by
  cases chunks with
  | nil => rfl
  | cons chunk chunks =>
    have hflatten := h.flatten
    rw [List.flatten_cons, List.append_eq_nil_iff] at hflatten
    exact absurd hflatten.1 (h.nonempty chunk List.mem_cons_self)

theorem isCutting_singleton (h : bytes ≠ []) : IsCutting bytes [bytes] :=
  ⟨by simp, by simpa using h⟩

theorem exists_isCutting (bytes : Bytes) : ∃ chunks, IsCutting bytes chunks := by
  by_cases h : bytes = []
  · exact ⟨[], h.symm, nofun⟩
  · exact ⟨[bytes], isCutting_singleton h⟩

theorem writeDecoder_of_ne (h : buffer ≠ []) :
    writeDecoder iconv state buffer =
      ((iconv.write state.decoder buffer).1,
        { state with decoder := (iconv.write state.decoder buffer).2 }) := by
  rw [writeDecoder, if_neg h]

/-- Once the detection has settled the chunks are written as they come. -/
theorem decodeIngressChunks_of_inspected (hinspected : state.inspected = true)
    (hchunks : ∀ chunk ∈ chunks, chunk ≠ []) :
    decodeIngressChunks iconv state chunks =
      (iconv.decodeFrom state.decoder chunks, state.encoding) := by
  induction chunks generalizing state with
  | nil => simp [decodeIngressChunks, flushIngressDecoder, Iconv.decodeFrom, hinspected]
  | cons chunk chunks ih =>
    have hchunk := hchunks chunk List.mem_cons_self
    have hstep : decodeIngressChunk iconv state chunk = writeDecoder iconv state chunk := by
      rw [decodeIngressChunk, if_neg hchunk, if_pos hinspected]
    rw [decodeIngressChunks, hstep, writeDecoder_of_ne hchunk]
    dsimp only
    rw [ih (by exact hinspected) fun c hc => hchunks c (List.mem_cons_of_mem chunk hc)]
    rfl

def holding (iconv : Iconv δ) (pending : Option Bytes) : IngressDecodeStreamState δ :=
  ⟨.utf8, iconv.decodeStream .utf8, false, pending⟩

theorem decodeIngressChunk_buffered {held : Option Bytes} {chunk : Bytes} (hchunk : chunk ≠ [])
    (h : buffered (held.getD [] ++ chunk) = true) :
    decodeIngressChunk iconv (holding iconv held) chunk =
      ([], holding iconv (some (held.getD [] ++ chunk))) := by
  unfold buffered at h
  simp [decodeIngressChunk, holding, hchunk, h]

theorem decodeIngressChunk_settled (iconv : Iconv δ) (held : Option Bytes) {chunk : Bytes}
    (hchunk : chunk ≠ [])
    (h : buffered (held.getD [] ++ chunk) = false) :
    let buffer := held.getD [] ++ chunk
    decodeIngressChunk iconv (holding iconv held) chunk =
      writeDecoder iconv ⟨detected buffer, iconv.decodeStream (detected buffer), true, none⟩
        (buffer.drop (detectedBom buffer)) := by
  unfold buffered at h
  dsimp only
  cases hdetection : detectEncoding (held.getD [] ++ chunk) with
  | none =>
    rw [hdetection] at h
    simp [decodeIngressChunk, holding, hchunk, h, hdetection, detected, detectedBom]
  | some detection =>
    rw [hdetection] at h
    rcases detection with ⟨_ | _ | _, bomBytes⟩ <;>
      simp [decodeIngressChunk, holding, hchunk, h, hdetection, detected, detectedBom]

/-- The bytes without their byte order mark go through one decoder, however they are cut. -/
def DecodedAs (iconv : Iconv δ) (bytes start : Bytes) (result : Text × IngressDecoderEncoding) :
    Prop :=
  ∀ chunks, IsCutting (bytes.drop (detectedBom start)) chunks →
    result = (iconv.decodeFrom (iconv.decodeStream (detected start)) chunks, detected start)

/-- The encoding is the one of a start on which the detection settles, or of the whole. -/
theorem decodedAs_start (hiconv : iconv.ChunkIndependent) (held : Option Bytes)
    (hheld : ∀ bytes ∈ held, bytes ≠ [] ∧ buffered bytes = true)
    (hchunks : ∀ chunk ∈ chunks, chunk ≠ []) :
    let bytes := held.getD [] ++ chunks.flatten
    ∃ start, start <+: bytes ∧ (start = bytes ∨ start ≠ [] ∧ buffered start = false) ∧
      DecodedAs iconv bytes start (decodeIngressChunks iconv (holding iconv held) chunks) := by
  induction chunks generalizing held with
  | nil =>
    refine ⟨_, List.prefix_rfl, .inl rfl, fun ws hws => ?_⟩
    cases held with
    | none =>
      have hws : ws = [] := isCutting_nil hws
      subst hws
      rfl
    | some bytes =>
      obtain ⟨hne, hbuffered⟩ := hheld bytes rfl
      obtain ⟨hdetected, hbom⟩ := detected_of_buffered hbuffered
      have hall : [].flatten = ([] : Bytes) := rfl
      rw [hall, List.append_nil, Option.getD_some, hbom, List.drop_zero] at hws
      rw [hall, List.append_nil, Option.getD_some, hdetected,
        hiconv .utf8 bytes ws [bytes] hws (isCutting_singleton hne)]
      simp [decodeIngressChunks, flushIngressDecoder, holding, writeDecoder, hne,
        Iconv.decodeFrom]
  | cons chunk chunks ih =>
    have hchunk := hchunks chunk List.mem_cons_self
    have hrest : ∀ c ∈ chunks, c ≠ [] := fun c hc => hchunks c (List.mem_cons_of_mem chunk hc)
    have hne : held.getD [] ++ chunk ≠ [] := by simp [hchunk]
    dsimp only
    rw [List.flatten_cons, ← List.append_assoc]
    cases hbuffered : buffered (held.getD [] ++ chunk) with
    | true =>
      obtain ⟨start, hstart, hcase, hdecoded⟩ :=
        ih (some (held.getD [] ++ chunk)) (by simpa [hchunk] using hbuffered) hrest
      refine ⟨start, hstart, hcase, ?_⟩
      rw [decodeIngressChunks, decodeIngressChunk_buffered hchunk hbuffered]
      exact hdecoded
    | false =>
      refine ⟨_, List.prefix_append _ _, .inr ⟨hne, hbuffered⟩, fun ws hws => ?_⟩
      rw [List.drop_append_of_le_length (detectedBom_le_length _)] at hws
      rw [decodeIngressChunks, decodeIngressChunk_settled iconv held hchunk hbuffered]
      generalize held.getD [] ++ chunk = buffer at *
      by_cases hmark : buffer.drop (detectedBom buffer) = []
      · rw [hmark, List.nil_append] at hws
        rw [hmark, hiconv _ _ ws chunks hws ⟨rfl, hrest⟩, writeDecoder, if_pos rfl]
        dsimp only
        rw [decodeIngressChunks_of_inspected rfl hrest]
        rfl
      · rw [hiconv _ _ ws (buffer.drop (detectedBom buffer) :: chunks) hws
          ⟨rfl, List.forall_mem_cons.mpr ⟨hmark, hrest⟩⟩, writeDecoder_of_ne hmark]
        dsimp only
        rw [decodeIngressChunks_of_inspected rfl hrest]
        rfl

/-- The cutting after a start has the encoding of the start. -/
theorem encoding_of_start (iconv : Iconv δ) (hstart : start <+: bytes) (hne : start ≠ [])
    (hsettled : buffered start = false) :
    ∃ chunks, IsCutting bytes chunks ∧
      (decodeIngressChunks iconv (createIngressDecodeStreamState iconv) chunks).2 =
        detected start := by
  obtain ⟨rest, rfl⟩ := hstart
  obtain ⟨chunks, hchunks⟩ := exists_isCutting rest
  refine ⟨start :: chunks, ⟨?_, List.forall_mem_cons.mpr ⟨hne, hchunks.nonempty⟩⟩, ?_⟩
  · rw [List.flatten_cons, hchunks.flatten]
  · have hfirst := decodeIngressChunk_settled iconv none hne hsettled
    show (decodeIngressChunks iconv (holding iconv none) (start :: chunks)).2 = _
    rw [decodeIngressChunks, hfirst]
    by_cases hmark : start.drop (detectedBom start) = []
    · rw [writeDecoder, Option.getD_none, List.nil_append, if_pos hmark]
      dsimp only
      rw [decodeIngressChunks_of_inspected rfl hchunks.nonempty]
    · rw [Option.getD_none, List.nil_append, writeDecoder_of_ne hmark]
      dsimp only
      rw [decodeIngressChunks_of_inspected rfl hchunks.nonempty]

/-- The text and the encoding do not depend on the cutting exactly when the encoding of the whole
is also the one of each start on which the detection settles. -/
theorem cutAlike_iff (hiconv : iconv.ChunkIndependent) (bytes : Bytes) :
    CutAlike iconv bytes ↔ Settled bytes := by
  refine ⟨fun halike start hstart hne hsettled => ?_, fun hall => ?_⟩
  · have hbytes : bytes ≠ [] := fun h => hne (List.prefix_nil.mp (h ▸ hstart))
    obtain ⟨chunks, hchunks, hencoding⟩ := encoding_of_start iconv hstart hne hsettled
    rw [halike chunks [bytes] hchunks (isCutting_singleton hbytes)] at hencoding
    rw [← hencoding]
    cases hbuffered : buffered bytes with
    | true =>
      have hheld : decodeIngressChunk iconv (holding iconv none) bytes =
          ([], holding iconv (some bytes)) := decodeIngressChunk_buffered hbytes hbuffered
      show (decodeIngressChunks iconv (holding iconv none) [bytes]).2 = _
      rw [decodeIngressChunks, hheld, (detected_of_buffered hbuffered).1]
      rfl
    | false =>
      obtain ⟨chunks', hchunks', hwhole⟩ :=
        encoding_of_start iconv List.prefix_rfl hbytes hbuffered
      rw [halike [bytes] chunks' (isCutting_singleton hbytes) hchunks', hwhole]
  · have hdecoded : ∀ chunks, IsCutting bytes chunks → DecodedAs iconv bytes bytes
        (decodeIngressChunks iconv (createIngressDecodeStreamState iconv) chunks) := by
      intro chunks hchunks
      obtain ⟨start, hstart, hcase, hresult⟩ :=
        decodedAs_start hiconv none (by nofun) hchunks.nonempty
      rw [Option.getD_none, List.nil_append, hchunks.flatten] at hstart hcase hresult
      rcases hcase with rfl | ⟨hne, hsettled⟩
      · exact hresult
      · rw [DecodedAs, hall start hstart hne hsettled,
          ← detectedBom_of_prefix hstart hne hsettled] at hresult
        exact hresult
    intro chunks chunks' hchunks hchunks'
    obtain ⟨ws, hws⟩ := exists_isCutting (bytes.drop (detectedBom bytes))
    exact (hdecoded chunks hchunks ws hws).trans (hdecoded chunks' hchunks' ws hws).symm

def unitDecoder : Iconv (IngressDecoderEncoding × Option UInt8) where
  decodeStream encoding := (encoding, none)
  write := go
  finish _ := []
where
  next : IngressDecoderEncoding × Option UInt8 → UInt8 →
      Text × IngressDecoderEncoding × Option UInt8
    | (.utf8, _), b => ([b.toUInt16], .utf8, none)
    | (encoding, none), b => ([], encoding, some b)
    | (.utf16le, some a), b => ([b.toUInt16 * 256 + a.toUInt16], .utf16le, none)
    | (.utf16be, some a), b => ([a.toUInt16 * 256 + b.toUInt16], .utf16be, none)
  go : IngressDecoderEncoding × Option UInt8 → Bytes →
      Text × IngressDecoderEncoding × Option UInt8
    | decoder, [] => ([], decoder)
    | decoder, b :: bytes =>
      let (text, decoder) := next decoder b
      let (rest, decoder) := go decoder bytes
      (text ++ rest, decoder)

theorem unitDecoder_go_append (decoder : IngressDecoderEncoding × Option UInt8)
    (bytes bytes' : Bytes) :
    unitDecoder.go decoder (bytes ++ bytes') =
      ((unitDecoder.go decoder bytes).1 ++
          (unitDecoder.go (unitDecoder.go decoder bytes).2 bytes').1,
        (unitDecoder.go (unitDecoder.go decoder bytes).2 bytes').2) := by
  induction bytes generalizing decoder with
  | nil => rfl
  | cons b bytes ih => simp [unitDecoder.go, ih]

theorem unitDecoder_decodeFrom (decoder : IngressDecoderEncoding × Option UInt8)
    (chunks : List Bytes) :
    unitDecoder.decodeFrom decoder chunks = (unitDecoder.go decoder chunks.flatten).1 := by
  induction chunks generalizing decoder with
  | nil => rfl
  | cons chunk chunks ih =>
    rw [Iconv.decodeFrom, List.flatten_cons, unitDecoder_go_append]
    dsimp only
    rw [ih]
    rfl

theorem chunkIndependent_unitDecoder : unitDecoder.ChunkIndependent := by
  intro encoding bytes chunks chunks' hchunks hchunks'
  rw [unitDecoder_decodeFrom, unitDecoder_decodeFrom, hchunks.flatten, hchunks'.flatten]

/-- `"hi"` in any cutting. -/
theorem cutAlike_iff_hi : CutAlike unitDecoder [0x68, 0x69] := by
  refine (cutAlike_iff chunkIndependent_unitDecoder _).mpr fun start hstart _ _ => ?_
  obtain ⟨n, rfl⟩ : ∃ n, start = [0x68, 0x69].take n := ⟨_, List.prefix_iff_eq_take.mp hstart⟩
  match n with
  | 0 => decide
  | 1 => decide
  | n + 2 => rw [List.take_of_length_le (by simp)]

/-- The four bytes look like UTF-16 together, and like UTF-8 after two of them. -/
theorem cut_apart :
    unitDecoder.ChunkIndependent ∧ ¬CutAlike unitDecoder [0x41, 0x42, 0x43, 0x00] := by
  refine ⟨chunkIndependent_unitDecoder, fun halike => ?_⟩
  have hsame := halike [[0x41, 0x42, 0x43, 0x00]] [[0x41, 0x42], [0x43, 0x00]]
    ⟨rfl, by decide⟩ ⟨rfl, by decide⟩
  exact absurd hsame (by decide)

end Agyn.IngressText
