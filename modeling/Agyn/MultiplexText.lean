import Mathlib.Algebra.Ring.Nat
import Agyn.Utf8Boundaries

/-!
The output of a terminal session: the bytes of the exec as the runtime sends them, in frames with a
header of eight bytes each. The handler of the stream takes the headers off, keeps an unfinished
frame for the next chunk and sends what it has as text; bytes that do not look like frames are
passed on as they are. What a terminal shows of framed output. However the stream is cut, the
handler finds the frames that are complete and keeps the rest, so that it sends the bytes of the
payloads and no others; each message is decoded on its own, which leaves the text as it is unless a
message ends in a character.
-/
namespace Agyn.MultiplexOutput

open Utf8

section Handler

abbrev Buffer := List UInt8

structure Demultiplexed where
  payloads : List Buffer
  remainder : Option Buffer
  stripped : Bool
  treatAsPlain : Bool

/-- `readUInt32BE`. -/
def readUInt32BE : Buffer → ℕ
  | b₀ :: b₁ :: b₂ :: b₃ :: _ =>
    ((b₀.toNat * 256 + b₁.toNat) * 256 + b₂.toNat) * 256 + b₃.toNat
  | _ => 0

def headerLooksValid : Buffer → Bool
  | streamId :: b₁ :: b₂ :: b₃ :: _ =>
    (streamId = 0 || streamId = 1 || streamId = 2) && b₁ = 0 && b₂ = 0 && b₃ = 0
  | _ => false

/-- What the loop returns, or where it is done: the frames and the rest of the buffer. -/
inductive LoopResult where
  | returned (result : Demultiplexed)
  | done (frames : List Buffer) (rest : Buffer) (stripped : Bool)

def frameLoop : ℕ → Buffer → List Buffer → Bool → LoopResult
  | 0, rest, frames, stripped => .done frames rest stripped
  | n + 1, rest, frames, stripped =>
    if rest.length < 8 then .done frames rest stripped
    else if !headerLooksValid rest then
      -- without a frame before it, the rest is the whole buffer
      if frames = [] then .returned ⟨[rest], none, false, true⟩
      else .returned ⟨frames ++ [rest], none, true, false⟩
    else
      let frameEnd := 8 + readUInt32BE (rest.drop 4)
      if rest.length < frameEnd then .returned ⟨frames, some rest, stripped, false⟩
      else frameLoop n (rest.drop frameEnd) (frames ++ [(rest.take frameEnd).drop 8]) true

def decodeDockerMultiplex (buffer : Buffer) (hadPending : Bool) : Demultiplexed :=
  match frameLoop buffer.length buffer [] false with
  | .returned result => result
  | .done frames rest stripped =>
    if frames = [] ∧ !stripped then
      if hadPending then ⟨[], some buffer, false, false⟩
      else ⟨[buffer], none, false, true⟩
    else if rest ≠ [] then ⟨frames, some rest, stripped, false⟩
    else ⟨frames, none, stripped, false⟩

/-- The variables of the handler. -/
structure Stdout where
  muxRemainder : Option Buffer
  muxStrippedLogged : Bool

def Stdout.opened : Stdout := ⟨none, false⟩

/-- The handler of a chunk; it gives the data of the message that it sends, if it sends one. -/
def Stdout.onData (s : Stdout) (chunk : Buffer) : Stdout × Option String :=
  let combined := s.muxRemainder.getD [] ++ chunk
  let potentialHeaderByte := combined.head?
  if s.muxRemainder = none ∧ 0 < combined.length ∧ combined.length < 8 ∧
      (potentialHeaderByte = some 0 ∨ potentialHeaderByte = some 1 ∨
        potentialHeaderByte = some 2) then
    ({ s with muxRemainder := some combined }, none)
  else
    let d := decodeDockerMultiplex combined s.muxRemainder.isSome
    let s : Stdout := ⟨d.remainder, s.muxStrippedLogged || d.stripped⟩
    if d.payloads = [] then (s, none)
    else
      let payloadBuffer := if d.treatAsPlain then d.payloads.headD [] else d.payloads.flatten
      let data := String.ofList (decode payloadBuffer)
      (s, if data = "" then none else some data)

def Stdout.messages : Stdout → List Buffer → List String
  | _, [] => []
  | s, chunk :: chunks => (s.onData chunk).2.toList ++ (s.onData chunk).1.messages chunks

structure Frame where
  streamId : UInt8
  payload : Buffer
  streamId_le : streamId ≤ 2
  length_lt : payload.length < 2 ^ 32

def writeUInt32BE (n : ℕ) : Buffer :=
  [UInt8.ofNat (n / 256 / 256 / 256), UInt8.ofNat (n / 256 / 256 % 256),
    UInt8.ofNat (n / 256 % 256), UInt8.ofNat (n % 256)]

def Frame.bytes (f : Frame) : Buffer :=
  [f.streamId, 0, 0, 0] ++ writeUInt32BE f.payload.length ++ f.payload

def streamBytes (frames : List Frame) : Buffer := frames.flatMap Frame.bytes

def payloadBytes (frames : List Frame) : Buffer := frames.flatMap Frame.payload

def completeFrames : List Frame → ℕ → List Frame
  | [], _ => []
  | f :: frames, n =>
    if f.bytes.length ≤ n then f :: completeFrames frames (n - f.bytes.length) else []

end Handler

section Shown

variable {f : Frame} {frames fs : List Frame} {buffer rest more : Buffer} {n : ℕ}

theorem length_bytes (f : Frame) : f.bytes.length = 8 + f.payload.length := by
  simp [Frame.bytes, writeUInt32BE]
  omega

theorem readUInt32BE_write (hn : n < 2 ^ 32) (rest : Buffer) :
    readUInt32BE (writeUInt32BE n ++ rest) = n := by
  have hbyte : ∀ k, k < 256 → (UInt8.ofNat k).toNat = k := fun k hk =>
    UInt8.toNat_ofNat_of_lt hk
  have hread : readUInt32BE (writeUInt32BE n ++ rest) =
      (((UInt8.ofNat (n / 256 / 256 / 256)).toNat * 256 +
        (UInt8.ofNat (n / 256 / 256 % 256)).toNat) * 256 +
          (UInt8.ofNat (n / 256 % 256)).toNat) * 256 + (UInt8.ofNat (n % 256)).toNat := rfl
  rw [hread, hbyte _ (by omega), hbyte _ (by omega), hbyte _ (by omega), hbyte _ (by omega)]
  omega

/-- The first bytes of a frame, when there are eight of them. -/
theorem exists_header (h : buffer ++ more = f.bytes ++ rest) (hlength : 8 ≤ buffer.length) :
    ∃ body, buffer = [f.streamId, 0, 0, 0] ++ writeUInt32BE f.payload.length ++ body ∧
      body ++ more = f.payload ++ rest := by
  rw [Frame.bytes, List.append_assoc _ f.payload] at h
  obtain ⟨body, rfl⟩ : [f.streamId, 0, 0, 0] ++ writeUInt32BE f.payload.length <+: buffer :=
    List.prefix_of_prefix_length_le (h ▸ List.prefix_append _ _) (List.prefix_append buffer more)
      hlength
  rw [List.append_assoc] at h
  exact ⟨body, rfl, List.append_cancel_left h⟩

theorem streamId_cases (f : Frame) : f.streamId = 0 ∨ f.streamId = 1 ∨ f.streamId = 2 := by
  have hall : ∀ n < 256, UInt8.ofNat n ≤ 2 →
      UInt8.ofNat n = 0 ∨ UInt8.ofNat n = 1 ∨ UInt8.ofNat n = 2 := by
    decide +kernel
  have hid := hall f.streamId.toNat f.streamId.toNat_lt
  rw [UInt8.ofNat_toNat] at hid
  exact hid f.streamId_le

theorem headerLooksValid_frame (f : Frame) (rest : Buffer) :
    headerLooksValid ([f.streamId, 0, 0, 0] ++ rest) = true := by
  have hid := streamId_cases f
  simpa [headerLooksValid, or_assoc] using hid

theorem completeFrames_of_short (h : n < 8) : completeFrames frames n = [] := by
  cases frames with
  | nil => rfl
  | cons f frames =>
    rw [completeFrames, if_neg]
    rw [length_bytes]
    omega

theorem completeFrames_firstFrames (frames : List Frame) (n : ℕ) :
    completeFrames frames n <+: frames := by
  induction frames generalizing n with
  | nil => exact List.prefix_rfl
  | cons f frames ih =>
    unfold completeFrames
    split_ifs
    · exact (List.prefix_cons_inj f).mpr (ih _)
    · exact List.nil_prefix

theorem length_complete_le (frames : List Frame) (n : ℕ) :
    (streamBytes (completeFrames frames n)).length ≤ n := by
  induction frames generalizing n with
  | nil => exact Nat.zero_le n
  | cons f frames ih =>
    unfold completeFrames
    split_ifs with hle
    · have hrest := ih (n - f.bytes.length)
      simp only [streamBytes, List.flatMap_cons, List.length_append] at hrest ⊢
      omega
    · exact Nat.zero_le n

/-- The frames that are complete with some more bytes. -/
theorem completeFrames_add (frames : List Frame) (m k : ℕ) :
    completeFrames frames (m + k) = completeFrames frames m ++
      completeFrames (frames.drop (completeFrames frames m).length)
        (m - (streamBytes (completeFrames frames m)).length + k) := by
  induction frames generalizing m with
  | nil => rfl
  | cons f frames ih =>
    by_cases hle : f.bytes.length ≤ m
    · have hsum : m + k - f.bytes.length = m - f.bytes.length + k := by omega
      have hsub : m - (streamBytes (f :: completeFrames frames (m - f.bytes.length))).length =
          m - f.bytes.length -
            (streamBytes (completeFrames frames (m - f.bytes.length))).length := by
        rw [streamBytes, List.flatMap_cons, List.length_append, Nat.sub_add_eq]
        rfl
      rw [completeFrames, if_pos (by omega), hsum, ih, completeFrames, if_pos hle, hsub]
      rfl
    · have hnone : completeFrames (f :: frames) m = [] := by rw [completeFrames, if_neg hle]
      rw [hnone]
      rfl

theorem completeFrames_all (frames : List Frame) :
    completeFrames frames (streamBytes frames).length = frames := by
  induction frames with
  | nil => rfl
  | cons f frames ih =>
    rw [streamBytes, List.flatMap_cons, List.length_append, completeFrames, if_pos (by omega),
      Nat.add_sub_cancel_left]
    exact congrArg _ ih

def Frame.header (f : Frame) : Buffer :=
  [f.streamId, 0, 0, 0] ++ writeUInt32BE f.payload.length

theorem length_header (f : Frame) : f.header.length = 8 := rfl

theorem readUInt32BE_header (f : Frame) (body : Buffer) :
    readUInt32BE ((f.header ++ body).drop 4) = f.payload.length :=
  readUInt32BE_write f.length_lt body

/-- The loop at a frame of which some bytes are missing. -/
theorem frameLoop_open (f : Frame) (body : Buffer) (payloads : List Buffer) (stripped : Bool)
    (h : body.length < f.payload.length) :
    frameLoop (n + 1) (f.header ++ body) payloads stripped =
      .returned ⟨payloads, some (f.header ++ body), stripped, false⟩ := by
  have hlength : ¬(f.header ++ body).length < 8 := by
    rw [List.length_append, length_header]
    omega
  have hvalid : headerLooksValid (f.header ++ body) = true :=
    headerLooksValid_frame f (writeUInt32BE f.payload.length ++ body)
  have hmissing : (f.header ++ body).length < 8 + f.payload.length := by
    rw [List.length_append, length_header]
    omega
  rw [frameLoop, if_neg hlength, hvalid, readUInt32BE_header]
  exact if_pos hmissing

/-- The loop at a frame that is complete. -/
theorem frameLoop_frame (f : Frame) (body : Buffer) (payloads : List Buffer) (stripped : Bool) :
    frameLoop (n + 1) (f.bytes ++ body) payloads stripped =
      frameLoop n body (payloads ++ [f.payload]) true := by
  have hbytes : f.bytes ++ body = f.header ++ (f.payload ++ body) := List.append_assoc _ _ _
  have hlength : ¬(f.bytes ++ body).length < 8 := by
    rw [List.length_append, length_bytes]
    omega
  have hvalid : headerLooksValid (f.bytes ++ body) = true := by
    rw [hbytes]
    exact headerLooksValid_frame f (writeUInt32BE f.payload.length ++ (f.payload ++ body))
  have hread : readUInt32BE ((f.bytes ++ body).drop 4) = f.payload.length := by
    rw [hbytes, readUInt32BE_header]
  have hend : ¬(f.bytes ++ body).length < 8 + f.payload.length := by
    rw [List.length_append, length_bytes]
    omega
  have hpayload : ((f.bytes ++ body).take (8 + f.payload.length)).drop 8 = f.payload := by
    rw [← length_bytes, List.take_left]
    rfl
  have hdrop : (f.bytes ++ body).drop (8 + f.payload.length) = body := by
    rw [← length_bytes, List.drop_left]
  rw [frameLoop, if_neg hlength, hvalid, hread]
  dsimp only
  rw [hpayload, hdrop]
  exact if_neg hend

/-- Where the loop stops: the frames that are complete have been taken. -/
theorem frameLoop_eq (hrest : rest ++ more = streamBytes fs) (hn : rest.length ≤ n)
    (payloads : List Buffer) (stripped : Bool) :
    frameLoop n rest payloads stripped =
      if (rest.drop (streamBytes (completeFrames fs rest.length)).length).length < 8 then
        .done (payloads ++ (completeFrames fs rest.length).map Frame.payload)
          (rest.drop (streamBytes (completeFrames fs rest.length)).length)
          (stripped || !(completeFrames fs rest.length).isEmpty)
      else .returned ⟨payloads ++ (completeFrames fs rest.length).map Frame.payload,
        some (rest.drop (streamBytes (completeFrames fs rest.length)).length),
        stripped || !(completeFrames fs rest.length).isEmpty, false⟩ := by
  induction n generalizing rest fs payloads stripped with
  | zero =>
    obtain rfl : rest = [] := List.length_eq_zero_iff.mp (Nat.le_zero.mp hn)
    rw [List.length_nil, completeFrames_of_short (by omega)]
    simp [frameLoop]
  | succ n ih =>
    by_cases hshort : rest.length < 8
    · rw [completeFrames_of_short hshort]
      simp [frameLoop, hshort, streamBytes]
    · obtain ⟨f, fs, rfl⟩ : ∃ f fs', fs = f :: fs' := by
        cases fs with
        | nil =>
          obtain ⟨rfl, -⟩ := List.append_eq_nil_iff.mp hrest
          exact absurd (Nat.zero_lt_succ 7) hshort
        | cons f fs => exact ⟨f, fs, rfl⟩
      rw [streamBytes, List.flatMap_cons] at hrest
      obtain ⟨body, hheader, hbody⟩ := exists_header hrest (by omega)
      have hlength : rest.length = 8 + body.length := by rw [hheader, List.length_append]; rfl
      by_cases hle : f.payload.length ≤ body.length
      · obtain ⟨body, rfl⟩ : f.payload <+: body :=
          List.prefix_of_prefix_length_le (hbody ▸ List.prefix_append _ _)
            (List.prefix_append body more) hle
        obtain rfl : rest = f.bytes ++ body := by
          rw [hheader, Frame.bytes, List.append_assoc _ f.payload]
        rw [List.append_assoc] at hbody
        have hcomplete : completeFrames (f :: fs) (f.bytes ++ body).length =
            f :: completeFrames fs body.length := by
          rw [completeFrames, List.length_append, if_pos (Nat.le_add_right _ _),
            Nat.add_sub_cancel_left]
        have hdrop : (f.bytes ++ body).drop
            (streamBytes (f :: completeFrames fs body.length)).length =
            body.drop (streamBytes (completeFrames fs body.length)).length := by
          rw [streamBytes, List.flatMap_cons, List.length_append, List.drop_length_add_append]
          rfl
        have hn' : body.length ≤ n := by
          rw [List.length_append, length_bytes] at hn
          omega
        rw [frameLoop_frame, ih (List.append_cancel_left hbody) hn', hcomplete, hdrop]
        simp
      · have hnone : completeFrames (f :: fs) rest.length = [] := by
          rw [completeFrames, if_neg]
          rw [length_bytes]
          omega
        rw [hnone, hheader]
        change frameLoop (n + 1) (f.header ++ body) payloads stripped = _
        rw [frameLoop_open f body payloads stripped (by omega)]
        change _ = if (f.header ++ body).length < 8 then _ else _
        rw [if_neg (by rw [List.length_append, length_header]; omega)]
        simp [streamBytes, Frame.header]

def pending (left : Buffer) : Option Buffer := if left = [] then none else some left

theorem pending_of_ne {left : Buffer} (h : left ≠ []) : pending left = some left := if_neg h

theorem getD_pending (left : Buffer) : (pending left).getD [] = left := by
  unfold pending
  split_ifs with hnil
  · exact hnil.symm
  · rfl

theorem head_of_stream (h : buffer ++ more = streamBytes fs) (hne : buffer ≠ []) :
    buffer.head? = some 0 ∨ buffer.head? = some 1 ∨ buffer.head? = some 2 := by
  obtain ⟨b, buffer, rfl⟩ := List.exists_cons_of_ne_nil hne
  cases fs with
  | nil => exact absurd h nofun
  | cons f fs =>
    obtain ⟨rfl, -⟩ := List.cons.inj (show b :: (buffer ++ more) = f.streamId :: _ from h)
    simpa using streamId_cases f

theorem decodeDockerMultiplex_short (h : buffer.length < 8) (hadPending : Bool) :
    decodeDockerMultiplex buffer hadPending =
      if hadPending then ⟨[], some buffer, false, false⟩ else ⟨[buffer], none, false, true⟩ := by
  have hloop : frameLoop buffer.length buffer [] false = .done [] buffer false := by
    cases buffer with
    | nil => rfl
    | cons b buffer =>
      exact if_pos h
  rw [decodeDockerMultiplex, hloop]
  rfl

theorem decodeDockerMultiplex_long (h : buffer ++ more = streamBytes fs) (hlong : 8 ≤ buffer.length)
    (hadPending : Bool) :
    decodeDockerMultiplex buffer hadPending =
      ⟨(completeFrames fs buffer.length).map Frame.payload,
        pending (buffer.drop (streamBytes (completeFrames fs buffer.length)).length),
        !(completeFrames fs buffer.length).isEmpty, false⟩ := by
  rw [decodeDockerMultiplex, frameLoop_eq h (Nat.le_refl _)]
  obtain ⟨left, hleft⟩ : ∃ left,
    buffer.drop (streamBytes (completeFrames fs buffer.length)).length = left := ⟨_, rfl⟩
  rw [hleft]
  by_cases hshort : left.length < 8
  · -- a short rest of a long buffer comes after a frame
    have hne : completeFrames fs buffer.length ≠ [] := fun hnil => by
      rw [hnil, streamBytes, List.flatMap_nil, List.length_nil, List.drop_zero] at hleft
      rw [hleft] at hlong
      omega
    have hmap : (completeFrames fs buffer.length).map Frame.payload ≠ [] := by simpa using hne
    rw [if_pos hshort]
    simp only [List.nil_append, Bool.false_or]
    rw [if_neg fun h => hmap h.1]
    by_cases hnil : left = []
    · rw [if_neg (not_not.mpr hnil), hnil]
      rfl
    · rw [if_pos hnil, pending_of_ne hnil]
  · have hnil : left ≠ [] := fun hnil => by
      rw [hnil] at hshort
      exact hshort (Nat.zero_lt_succ 7)
    rw [if_neg hshort, pending_of_ne hnil]
    simp

theorem toList_message (buffer : Buffer) :
    (if String.ofList (decode buffer) = "" then none
      else some (String.ofList (decode buffer))).toList.flatMap String.toList = decode buffer := by
  split_ifs with hempty
  · have hnil : decode buffer = [] := by
      rw [← String.toList_ofList (l := decode buffer), hempty]
      rfl
    rw [hnil]
    rfl
  · simp

/-- A chunk completes some frames; their payloads are sent as text, and what is left is kept. -/
theorem onData_spec {s : Stdout} {left chunk : Buffer} (hs : s.muxRemainder = pending left)
    (h : left ++ chunk ++ more = streamBytes fs) :
    (s.onData chunk).1.muxRemainder = pending ((left ++ chunk).drop
        (streamBytes (completeFrames fs (left ++ chunk).length)).length) ∧
      (s.onData chunk).2.toList.flatMap String.toList =
        decode (payloadBytes (completeFrames fs (left ++ chunk).length)) := by
  obtain ⟨combined, hcombined⟩ : ∃ combined, left ++ chunk = combined := ⟨_, rfl⟩
  unfold Stdout.onData
  rw [hs, getD_pending, hcombined]
  rw [hcombined] at h
  dsimp only
  by_cases hshort : combined.length < 8
  · rw [completeFrames_of_short hshort, decodeDockerMultiplex_short hshort]
    change _ = pending combined ∧ _ = []
    by_cases hnil : combined = []
    · obtain ⟨rfl, rfl⟩ := List.append_eq_nil_iff.mp (hcombined.trans hnil)
      subst hnil
      exact ⟨rfl, rfl⟩
    · have hpos := List.length_pos_iff.mpr hnil
      rw [pending_of_ne hnil]
      by_cases hleft : left = []
      · subst hleft
        rw [if_pos ⟨rfl, hpos, hshort, head_of_stream h hnil⟩]
        exact ⟨rfl, rfl⟩
      · rw [pending_of_ne hleft, if_neg fun hhold => absurd hhold.1 nofun]
        exact ⟨rfl, rfl⟩
  · rw [if_neg fun hhold => hshort hhold.2.2.1,
      decodeDockerMultiplex_long h (Nat.le_of_not_lt hshort)]
    dsimp only
    by_cases hnone : (completeFrames fs combined.length).map Frame.payload = []
    · rw [if_pos hnone, List.map_eq_nil_iff.mp hnone]
      exact ⟨rfl, rfl⟩
    · rw [if_neg hnone, if_neg Bool.false_ne_true, payloadBytes, List.flatMap_def]
      exact ⟨rfl, toList_message _⟩

/-- The payloads that each chunk completes, with what is left of the chunks before. -/
def pieces : List Frame → Buffer → List Buffer → List Buffer
  | _, _, [] => []
  | fs, left, chunk :: chunks =>
    let complete := completeFrames fs (left ++ chunk).length
    payloadBytes complete :: pieces (fs.drop complete.length)
      ((left ++ chunk).drop (streamBytes complete).length) chunks

theorem drop_stream (h : buffer ++ more = streamBytes fs) (n : ℕ) (hn : n = buffer.length) :
    buffer.drop (streamBytes (completeFrames fs n)).length ++ more =
      streamBytes (fs.drop (completeFrames fs n).length) := by
  subst hn
  obtain ⟨later, hlater⟩ := completeFrames_firstFrames fs buffer.length
  have hle := length_complete_le fs buffer.length
  obtain ⟨complete, hcomplete⟩ : ∃ complete, completeFrames fs buffer.length = complete := ⟨_, rfl⟩
  rw [hcomplete] at hlater hle ⊢
  rw [← hlater, streamBytes, List.flatMap_append] at h
  rw [← hlater, List.drop_left]
  have hdrop := congrArg (List.drop (streamBytes complete).length) h
  rw [List.drop_append_of_le_length hle] at hdrop
  exact hdrop.trans List.drop_left

theorem messages_eq (more : Buffer) {s : Stdout} {left : Buffer} {chunks : List Buffer}
    (hs : s.muxRemainder = pending left) (h : left ++ chunks.flatten ++ more = streamBytes fs) :
    (s.messages chunks).flatMap String.toList = (pieces fs left chunks).flatMap decode := by
  induction chunks generalizing s left fs with
  | nil => rfl
  | cons chunk chunks ih =>
    have hchunk : left ++ chunk ++ (chunks.flatten ++ more) = streamBytes fs := by
      rw [← h, List.flatten_cons]
      simp only [List.append_assoc]
    obtain ⟨hkept, hsent⟩ := onData_spec hs hchunk
    have hrest := drop_stream hchunk _ rfl
    rw [Stdout.messages, List.flatMap_append, hsent, ih hkept (by rw [List.append_assoc, hrest]),
      pieces, List.flatMap_cons]

/-- What some chunks complete together, whatever the cuts between them are. -/
theorem flatten_take_pieces {left : Buffer} {chunks : List Buffer}
    (hleft : completeFrames fs left.length = []) (k : ℕ) :
    ((pieces fs left chunks).take k).flatten =
      payloadBytes (completeFrames fs (left.length + ((chunks.take k).flatten).length)) := by
  induction chunks generalizing fs left k with
  | nil =>
    rw [pieces, List.take_nil]
    change _ = payloadBytes (completeFrames fs left.length)
    rw [hleft]
    rfl
  | cons chunk chunks ih =>
    cases k with
    | zero =>
      change _ = payloadBytes (completeFrames fs left.length)
      rw [hleft]
      rfl
    | succ k =>
      obtain ⟨n, hn⟩ : ∃ n, (left ++ chunk).length = n := ⟨_, rfl⟩
      have hrest : completeFrames (fs.drop (completeFrames fs n).length)
          ((left ++ chunk).drop (streamBytes (completeFrames fs n)).length).length = [] := by
        have hadd := completeFrames_add fs n 0
        rw [Nat.add_zero, Nat.add_zero, List.self_eq_append_right] at hadd
        rw [List.length_drop, hn]
        exact hadd
      have hsum : left.length + (((chunk :: chunks).take (k + 1)).flatten).length =
          n + ((chunks.take k).flatten).length := by
        rw [List.take_succ_cons, List.flatten_cons, List.length_append, ← hn, List.length_append]
        omega
      have hadd := completeFrames_add fs n ((chunks.take k).flatten).length
      rw [pieces, hn, List.take_succ_cons, List.flatten_cons, ih hrest, hsum, hadd, payloadBytes,
        payloadBytes, payloadBytes, List.flatMap_append, List.length_drop, hn]

theorem length_pieces (fs : List Frame) (left : Buffer) (chunks : List Buffer) :
    (pieces fs left chunks).length = chunks.length := by
  induction chunks generalizing fs left with
  | nil => rfl
  | cons chunk chunks ih => rw [pieces, List.length_cons, List.length_cons, ih]

/-- What has been sent after some bytes of the stream, and what has not. -/
def sentBytes (frames : List Frame) (n : ℕ) : Buffer := payloadBytes (completeFrames frames n)

def unsentBytes (frames : List Frame) (n : ℕ) : Buffer :=
  payloadBytes (frames.drop (completeFrames frames n).length)

theorem sent_append_unsent (frames : List Frame) (n : ℕ) :
    sentBytes frames n ++ unsentBytes frames n = payloadBytes frames := by
  have hsplit : completeFrames frames n ++ frames.drop (completeFrames frames n).length = frames :=
    List.prefix_iff_eq_append.mp (completeFrames_firstFrames frames n)
  rw [sentBytes, unsentBytes, payloadBytes, payloadBytes, ← List.flatMap_append, hsplit]
  rfl

/-- The messages are the text of the payloads exactly when no chunk ends, in the payloads that are
complete by then, within a character. -/
theorem messages_iff (frames : List Frame) (chunks : List Buffer)
    (h : chunks.flatten = streamBytes frames) :
    (Stdout.opened.messages chunks).flatMap String.toList = decode (payloadBytes frames) ↔
      ∀ pre post, chunks = pre ++ post →
        Between (sentBytes frames pre.flatten.length) (unsentBytes frames pre.flatten.length) := by
  have hnone : completeFrames frames ([] : Buffer).length = [] :=
    completeFrames_of_short (Nat.zero_lt_succ 7)
  have hmessages : (Stdout.opened.messages chunks).flatMap String.toList =
      (pieces frames [] chunks).flatMap decode :=
    messages_eq [] rfl (by rw [List.nil_append, List.append_nil, h])
  have htake : ∀ pre post, chunks = pre ++ post →
      ((pieces frames [] chunks).take pre.length).flatten =
        sentBytes frames pre.flatten.length := by
    rintro pre post rfl
    rw [flatten_take_pieces hnone, List.take_left, List.length_nil, Nat.zero_add, sentBytes]
  have hall : (pieces frames [] chunks).flatten = payloadBytes frames := by
    have hwhole := htake chunks [] (List.append_nil chunks).symm
    rwa [← length_pieces frames [] chunks, List.take_length, h, sentBytes,
      completeFrames_all] at hwhole
  have hdrop : ∀ pre post, chunks = pre ++ post →
      ((pieces frames [] chunks).drop pre.length).flatten =
        unsentBytes frames pre.flatten.length := by
    intro pre post hsplit
    have hparts :=
      congrArg List.flatten (List.take_append_drop pre.length (pieces frames [] chunks))
    rw [List.flatten_append, htake pre post hsplit, hall, ← sent_append_unsent frames
      pre.flatten.length] at hparts
    exact List.append_cancel_left hparts
  rw [hmessages, ← hall, decode_parts_iff]
  constructor
  · intro hcuts pre post hsplit
    rw [← htake pre post hsplit, ← hdrop pre post hsplit]
    exact hcuts _ _ (List.take_append_drop _ _).symm
  · intro hcuts pre post hsplit
    have hlength := length_pieces frames [] chunks
    rw [hsplit, List.length_append] at hlength
    have hchunks := (List.take_append_drop pre.length chunks).symm
    have hk : (chunks.take pre.length).length = pre.length := by
      rw [List.length_take]
      omega
    have hcut := hcuts _ _ hchunks
    rw [← htake _ _ hchunks, ← hdrop _ _ hchunks, hk, hsplit, List.take_left,
      List.drop_left] at hcut
    exact hcut

def halves : List Frame :=
  [⟨1, [0xC3], by decide, by decide⟩, ⟨1, [0xBC], by decide, by decide⟩]

def cutHeader : List Buffer := [(streamBytes halves).take 12, (streamBytes halves).drop 12]

theorem messages_iff_cutHeader :
    (Stdout.opened.messages cutHeader).flatMap String.toList = decode (payloadBytes halves) ↔
      ∀ pre post, cutHeader = pre ++ post → Between
        (sentBytes halves pre.flatten.length) (unsentBytes halves pre.flatten.length) :=
  messages_iff halves cutHeader (by simp [cutHeader])

theorem messages_ne_halves :
    (halves.map Frame.bytes).flatten = streamBytes halves ∧
      (Stdout.opened.messages (halves.map Frame.bytes)).flatMap String.toList ≠
        decode (payloadBytes halves) := by
  decide +kernel

end Shown

end Agyn.MultiplexOutput
