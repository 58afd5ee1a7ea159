import Agyn.ContainerEvents
import Agyn.TerminatedLines
import Agyn.Utf8Decoding
import Mathlib.Data.List.Induction

/-!
The watcher of container events: the text of what has arrived, chunk by chunk, and the loop that
takes the complete lines off it, parses them and hands the events to the processor. What has been
handed on is what the stream says exactly when its last line is ended and no chunk ends within a
character.
-/
namespace Agyn.EventsWatcher

open ContainerEvents TerminatedLines Utf8

structure DockerWorkspaceEventsWatcher where
  buffer : List Char
  lastEventSeconds : Option ℤ
  /-- The events that the processor has been handed. -/
  enqueued : List DockerEventMessage

-- `JSON.parse`; it gives nothing for a text that it throws on, nor for `null`, which has no fields
variable (parse : String → Option DockerEventMessage)

def extractSince (event : DockerEventMessage) : Option ℤ :=
  (event.time.filter (0 < ·)).or ((event.timeNano.filter (0 < ·)).map (· / 1000000000))

/-- A line that has been taken off the buffer; one that cannot be parsed is logged only. -/
def handleLine (w : DockerWorkspaceEventsWatcher) (line : List Char) :
    DockerWorkspaceEventsWatcher :=
  let raw := trim (String.ofList line)
  if raw = "" then w
  else match parse raw with
    | none => w
    | some event =>
      { w with
        lastEventSeconds := ((extractSince event).filter (· ≠ 0)).or w.lastEventSeconds
        enqueued := w.enqueued ++ [event] }

/-- The loop of `handleChunk`; each round takes a line off the buffer. -/
def takeLines : ℕ → DockerWorkspaceEventsWatcher → DockerWorkspaceEventsWatcher
  | 0, w => w
  | rounds + 1, w =>
    match w.buffer.idxOf? '\n' with
    | none => w
    | some newlineIdx =>
      takeLines rounds (handleLine parse { w with buffer := w.buffer.drop (newlineIdx + 1) }
        (w.buffer.take newlineIdx))

def handleChunk (w : DockerWorkspaceEventsWatcher) (chunk : List UInt8) :
    DockerWorkspaceEventsWatcher :=
  let buffer := w.buffer ++ decode chunk
  takeLines parse (buffer.length + 1) { w with buffer }

def connected (lastEventSeconds : Option ℤ) : DockerWorkspaceEventsWatcher :=
  ⟨[], lastEventSeconds, []⟩

/-- What a stream leaves; its end takes nothing more off the buffer. -/
def watched (lastEventSeconds : Option ℤ) (chunks : List (List UInt8)) :
    DockerWorkspaceEventsWatcher :=
  chunks.foldl (handleChunk parse) (connected lastEventSeconds)

def lineEvent (line : List Char) : Option DockerEventMessage :=
  let raw := trim (String.ofList line)
  if raw = "" then none else parse raw

/-- The text of a JSON object on one line. -/
structure EventText where
  inner : List Char
  oneLine : '\n' ∉ inner

structure EventLine where
  text : EventText
  crlf : Bool

def EventText.chars (e : EventText) : List Char := '{' :: (e.inner ++ ['}'])

def EventLine.chars (l : EventLine) : List Char :=
  l.text.chars ++ (if l.crlf then ['\r'] else [])

def streamText (events : List EventLine) (last : Option EventText) : List Char :=
  events.flatMap (fun l => l.chars ++ ['\n']) ++ (last.map EventText.chars).getD []

def streamEvents (events : List EventLine) (last : Option EventText) :
    List DockerEventMessage :=
  (events.map (·.text) ++ last.toList).filterMap fun e => parse (String.ofList e.chars)

section Lines

variable {parse} {w : DockerWorkspaceEventsWatcher} {line : List Char} {rounds : ℕ}

@[simp] theorem buffer_handleLine : (handleLine parse w line).buffer = w.buffer := by
  unfold handleLine
  dsimp only
  split_ifs
  · rfl
  · cases parse (trim (String.ofList line)) <;> rfl

theorem enqueued_handleLine :
    (handleLine parse w line).enqueued = w.enqueued ++ (lineEvent parse line).toList := by
  unfold handleLine lineEvent
  dsimp only
  split_ifs
  · simp
  · cases parse (trim (String.ofList line)) <;> simp

/-- The loop takes all complete lines off the buffer. -/
theorem takeLines_eq (hrounds : w.buffer.length < rounds) :
    (takeLines parse rounds w).buffer = rest '\n' w.buffer ∧
      (takeLines parse rounds w).enqueued =
        w.enqueued ++ (lines '\n' w.buffer).filterMap (lineEvent parse) := by
  induction rounds generalizing w with
  | zero => omega
  | succ rounds ih =>
    rw [takeLines]
    cases hidx : w.buffer.idxOf? '\n' with
    | none =>
      have hmem : '\n' ∉ w.buffer := List.idxOf?_eq_none_iff.mp hidx
      rw [rest_of_not_mem hmem, lines_of_not_mem hmem]
      simp
    | some newlineIdx =>
      obtain ⟨hbuffer, hline⟩ := eq_line_of_idxOf? hidx
      have hlt : newlineIdx < w.buffer.length := (List.idxOf?_eq_some_iff.mp hidx).1
      have hshort : (handleLine parse { w with buffer := w.buffer.drop (newlineIdx + 1) }
          (w.buffer.take newlineIdx)).buffer.length < rounds := by
        rw [buffer_handleLine, List.length_drop]
        omega
      obtain ⟨hrest, henqueued⟩ := ih hshort
      rw [buffer_handleLine] at hrest henqueued
      have hlines : lines '\n' w.buffer =
          w.buffer.take newlineIdx :: lines '\n' (w.buffer.drop (newlineIdx + 1)) := by
        conv_lhs => rw [hbuffer]
        exact lines_cons_line hline
      have hleft : rest '\n' w.buffer = rest '\n' (w.buffer.drop (newlineIdx + 1)) := by
        conv_lhs => rw [hbuffer]
        exact rest_cons_line hline
      refine ⟨hrest.trans hleft.symm, ?_⟩
      rw [henqueued, enqueued_handleLine, hlines, List.filterMap_cons, List.append_assoc]
      cases lineEvent parse (w.buffer.take newlineIdx) <;> rfl

theorem handleChunk_eq (parse : String → Option DockerEventMessage)
    (w : DockerWorkspaceEventsWatcher) (chunk : List UInt8) :
    (handleChunk parse w chunk).buffer = rest '\n' (w.buffer ++ decode chunk) ∧
      (handleChunk parse w chunk).enqueued = w.enqueued ++
        (lines '\n' (w.buffer ++ decode chunk)).filterMap (lineEvent parse) :=
  takeLines_eq (Nat.lt_succ_self _)

/-- The lines of the chunks, each decoded on its own. -/
theorem watched_eq (parse : String → Option DockerEventMessage) (since : Option ℤ)
    (chunks : List (List UInt8)) :
    (watched parse since chunks).buffer = rest '\n' (chunks.flatMap decode) ∧
      (watched parse since chunks).enqueued =
        (lines '\n' (chunks.flatMap decode)).filterMap (lineEvent parse) := by
  induction chunks using List.reverseRecOn with
  | nil => exact ⟨rfl, rfl⟩
  | append_singleton chunks chunk ih =>
    have hlast : watched parse since (chunks ++ [chunk]) =
        handleChunk parse (watched parse since chunks) chunk := by
      rw [watched, List.foldl_append]
      rfl
    obtain ⟨hbuffer, henqueued⟩ := handleChunk_eq parse (watched parse since chunks) chunk
    have htext : (chunks ++ [chunk]).flatMap decode = chunks.flatMap decode ++ decode chunk := by
      simp
    rw [hlast, htext]
    constructor
    · rw [hbuffer, ih.1, ← rest_append]
    · rw [henqueued, ih.1, ih.2, lines_append (chunks.flatMap decode), List.filterMap_append]

end Lines

section Events

variable {parse : String → Option DockerEventMessage} {left : List Char} {e : EventText}
  {l : EventLine} {events : List EventLine} {last : Option EventText}

theorem newline_not_mem_chars (e : EventText) : '\n' ∉ e.chars := by
  have h := e.oneLine
  simp [EventText.chars, h]

theorem newline_not_mem_line (l : EventLine) : '\n' ∉ l.chars := by
  have h := newline_not_mem_chars l.text
  rw [EventLine.chars, List.mem_append, not_or]
  refine ⟨h, ?_⟩
  split_ifs <;> simp

/-- The end of a line is not part of its text. -/
theorem trim_line (l : EventLine) :
    trim (String.ofList l.chars) = String.ofList l.text.chars := by
  have hopen : isTrimmed '{' = false := by decide
  have hclose : isTrimmed '}' = false := by decide
  have hcr : isTrimmed '\r' = true := by decide
  cases hcrlf : l.crlf <;>
    simp [trim, EventLine.chars, EventText.chars, hcrlf, hopen, hclose, hcr]

theorem lineEvent_line (l : EventLine) :
    lineEvent parse l.chars = parse (String.ofList l.text.chars) := by
  have hne : String.ofList l.text.chars ≠ "" := by
    intro hnil
    have hchars := congrArg String.toList hnil
    simp [EventText.chars] at hchars
  rw [lineEvent, trim_line]
  exact if_neg hne

theorem streamText_cons :
    streamText (l :: events) last = l.chars ++ '\n' :: streamText events last := by
  simp [streamText]

theorem lines_streamText (events : List EventLine) :
    lines '\n' (streamText events none) = events.map EventLine.chars := by
  induction events with
  | nil => rfl
  | cons l events ih =>
    rw [streamText_cons, lines_cons_line (newline_not_mem_line l), ih, List.map_cons]

/-- Damage leaves a text on one line, between its braces. -/
theorem damaged_chars (h : Damaged e.chars left) : ∃ e' : EventText, left = e'.chars := by
  have hopen : ('{').utf8Size = 1 := by decide
  have hclose : ('}').utf8Size = 1 := by decide
  have hchars : Damaged ([] ++ '{' :: (e.inner ++ '}' :: [])) left := h
  obtain ⟨left₁, left₂, rfl, h₁, h₂⟩ := hchars.split hopen
  obtain ⟨inner, left₃, rfl, hinner, h₃⟩ := h₂.split hclose
  cases h₁
  cases h₃
  exact ⟨⟨inner, hinner.not_mem (by decide) e.oneLine⟩, rfl⟩

theorem damaged_line (h : Damaged l.chars left) :
    ∃ l' : EventLine, left = l'.chars ∧ l'.crlf = l.crlf := by
  cases hcrlf : l.crlf with
  | false =>
    rw [EventLine.chars, hcrlf] at h
    obtain ⟨e', rfl⟩ := damaged_chars (by simpa using h)
    exact ⟨⟨e', false⟩, by simp [EventLine.chars], rfl⟩
  | true =>
    have hcr : ('\r').utf8Size = 1 := by decide
    rw [EventLine.chars, hcrlf, if_pos rfl] at h
    obtain ⟨left₁, left₂, rfl, h₁, h₂⟩ := h.split hcr
    obtain ⟨e', rfl⟩ := damaged_chars h₁
    cases h₂
    exact ⟨⟨e', true⟩, rfl, rfl⟩

/-- A stream with damaged characters has as many lines as before, and the intact stream is told by
the texts of its lines. -/
theorem damaged_stream (h : Damaged (streamText events last) left) :
    ∃ texts : List EventText, texts.length = events.length ∧
      (∀ parse, (lines '\n' left).filterMap (lineEvent parse) =
        texts.filterMap fun e => parse (String.ofList e.chars)) ∧
      (texts.map EventText.chars = events.map (·.text.chars) → last = none →
        left = streamText events none) := by
  induction events generalizing left with
  | nil =>
    cases last with
    | none =>
      cases h
      exact ⟨[], rfl, fun _ => rfl, fun _ _ => rfl⟩
    | some e =>
      obtain ⟨e', rfl⟩ := damaged_chars (e := e) (by simpa [streamText] using h)
      rw [lines_of_not_mem (newline_not_mem_chars e')]
      exact ⟨[], rfl, fun _ => rfl, by simp⟩
  | cons l events ih =>
    have hnewline : ('\n').utf8Size = 1 := by decide
    rw [streamText_cons] at h
    obtain ⟨line, left, rfl, hline, hleft⟩ := h.split hnewline
    obtain ⟨l', rfl, hcrlf⟩ := damaged_line hline
    obtain ⟨texts, hlength, hlines, htexts⟩ := ih hleft
    rw [lines_cons_line (newline_not_mem_line l')]
    refine ⟨l'.text :: texts, by simp [hlength], fun parse => ?_, fun heq hlast => ?_⟩
    · rw [List.filterMap_cons, List.filterMap_cons, lineEvent_line, hlines]
    · rw [List.map_cons, List.map_cons, List.cons.injEq] at heq
      rw [streamText_cons, htexts heq.2 hlast, EventLine.chars, EventLine.chars, hcrlf, heq.1]

def textEvent (text : String) : DockerEventMessage :=
  ⟨some text, none, none, none, none, none, none, none⟩

theorem map_textEvent_inj {xs ys : List EventText}
    (h : xs.map (fun e => textEvent (String.ofList e.chars)) =
      ys.map fun e => textEvent (String.ofList e.chars)) :
    xs.map EventText.chars = ys.map EventText.chars := by
  have hstatus := congrArg (List.map fun m => (m.status.getD "").toList) h
  simpa [textEvent, Function.comp_def] using hstatus

end Events

/-- The processor is handed the events of the stream, whatever they say, exactly when the last line
is ended and every chunk is the text of whole characters. -/
theorem watched_iff (since : Option ℤ) (events : List EventLine) (last : Option EventText)
    (chunks : List (List UInt8)) (hchunks : chunks.flatten = encode (streamText events last)) :
    (∀ parse, (watched parse since chunks).enqueued = streamEvents parse events last) ↔
      last = none ∧ ∀ chunk ∈ chunks, Whole chunk := by
  obtain ⟨hdamaged, hwhole⟩ := decode_chunks hchunks
  constructor
  · intro hall
    obtain ⟨texts, hlength, hlines, hintact⟩ := damaged_stream hdamaged
    have htexts := hall fun text => some (textEvent text)
    have hmap (xs : List EventText) :
        xs.filterMap (fun e => some (textEvent (String.ofList e.chars))) =
          xs.map fun e => textEvent (String.ofList e.chars) := by
      simp
    rw [(watched_eq _ since chunks).2, hlines, streamEvents, hmap, hmap] at htexts
    have hsame := map_textEvent_inj htexts
    have hcount := congrArg List.length hsame
    simp only [List.length_map, List.length_append, hlength] at hcount
    have hlast : last = none := by
      cases last with
      | none => rfl
      | some e => simp at hcount
    subst hlast
    refine ⟨rfl, hwhole.mp (hintact ?_ rfl)⟩
    rw [hsame]
    simp
  · rintro ⟨rfl, hchars⟩ parse
    rw [(watched_eq parse since chunks).2, hwhole.mpr hchars, lines_streamText, streamEvents,
      List.filterMap_map]
    simp only [Function.comp_def, lineEvent_line, Option.toList_none, List.append_nil,
      List.filterMap_map]

/-- `JSON.parse` on a text that has an id and nothing else. -/
def parseId (text : String) : Option DockerEventMessage :=
  let cs := text.toList
  if "\x7b\"id\":\"".toList <+: cs then
    some ⟨none, none, none, some (String.ofList ((cs.drop 7).take (cs.length - 9))), none, none,
      none, none⟩
  else none

def idText (id : String) (h : '\n' ∉ ("\"id\":\"" ++ id ++ "\"").toList := by decide +kernel) :
    EventText :=
  ⟨("\"id\":\"" ++ id ++ "\"").toList, h⟩

def crLfChunks : List (List UInt8) :=
  [encode (EventLine.chars ⟨idText "ü", true⟩),
    encode ('\n' :: EventLine.chars ⟨idText "b", false⟩ ++ ['\n'])]

theorem watched_crLf : (watched parseId none crLfChunks).enqueued =
    streamEvents parseId [⟨idText "ü", true⟩, ⟨idText "b", false⟩] none := by
  have hflat : crLfChunks.flatten =
      encode (streamText [⟨idText "ü", true⟩, ⟨idText "b", false⟩] none) := by
    decide +kernel
  exact (watched_iff none _ none crLfChunks hflat).mpr ⟨rfl, by decide +kernel⟩ parseId

/-- The first chunk ends within the `ü`. -/
def cutChunks : List (List UInt8) :=
  let bytes := encode (EventLine.chars ⟨idText "ü", false⟩ ++ ['\n'])
  [bytes.take 8, bytes.drop 8]

theorem umlaut_lost : cutChunks.flatten = encode (streamText [⟨idText "ü", false⟩] none) ∧
    ¬(watched parseId none cutChunks).enqueued =
      streamEvents parseId [⟨idText "ü", false⟩] none := by
  refine ⟨by decide +kernel, fun h => ?_⟩
  have hids := congrArg (List.map (·.id)) h
  have hleft : (watched parseId none cutChunks).enqueued.map (·.id) ≠ [some "ü"] := by
    decide +kernel
  have hright : (streamEvents parseId [⟨idText "ü", false⟩] none).map (·.id) = [some "ü"] := by
    decide +kernel
  exact hleft (hids.trans hright)

end Agyn.EventsWatcher
