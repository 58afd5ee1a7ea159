import Mathlib.Data.Int.Notation
import Mathlib.Data.Nat.Notation
import Mathlib.Data.String.Basic
import Mathlib.Logic.Function.Basic
import Agyn.ChunkPolling
import Agyn.GuardedRuns

/-!
The output of a running tool as the run screen shows it. The server numbers the chunks of an
execution, stores them and publishes them to a socket; the screen appends what the socket delivers
in order, and fetches a snapshot of what is stored at first, after a gap and after a reconnect.
The socket may lose, repeat and reorder what is published, and answers may come late.
-/
namespace Agyn.OutputStreaming

open RunEvents

inductive ToolOutputStatus where
  | success
  | error
  | timeout
  | idleTimeout
  | cancelled
  deriving DecidableEq

structure ToolOutputTerminal where
  runId : String
  threadId : String
  eventId : String
  exitCode : Option ℤ
  status : ToolOutputStatus
  bytesStdout : ℤ
  bytesStderr : ℤ
  totalChunks : ℤ
  droppedChunks : ℤ
  savedPath : Option String
  message : Option String
  ts : String
  deriving DecidableEq

structure ToolOutputChunkArgs where
  runId : String
  threadId : String
  eventId : String
  seqGlobal : ℤ
  seqStream : ℤ
  source : ToolOutputSource
  data : String
  ts : ℤ
  numbered : 1 ≤ seqGlobal

abbrev Payload := ToolOutputChunkPayload String

abbrev Database := Tables String ToolOutputTerminal

abbrev Snapshot := ToolOutputSnapshot String ToolOutputTerminal

/-- One decoder artefact at the start and one mark after it are dropped, and every null. -/
def sanitizeToolOutputText (value : String) : String :=
  let current := value.toList
  let current := if ['\uFFFD', '\uFFFD'].isPrefixOf current then current.drop 2 else current
  let current := if current.head? = some '\uFEFF' then current.drop 1 else current
  String.ofList (current.filter (· ≠ '\x00'))

def ToolOutputChunkArgs.record (args : ToolOutputChunkArgs) : ToolOutputChunk String where
  eventId := args.eventId
  seqGlobal := args.seqGlobal
  seqStream := args.seqStream
  source := args.source
  data := sanitizeToolOutputText args.data
  ts := args.ts
  numbered := args.numbered

def ToolOutputChunkArgs.payload (dates : Dates) (args : ToolOutputChunkArgs) : Payload :=
  ⟨args.runId, args.threadId, args.eventId, args.seqGlobal, args.seqStream, args.source,
    dates.toISOString args.ts, sanitizeToolOutputText args.data⟩

/-- The row is refused where its number is taken. -/
def createChunk (db : Database) (row : ToolOutputChunk String) : Option Database :=
  if h : (row.eventId, row.seqGlobal) ∈ db.chunks.map fun c => (c.eventId, c.seqGlobal) then none
  else some { db with
    chunks := db.chunks ++ [row]
    chunks_nodup := by
      rw [List.map_append]
      exact List.nodup_append'.mpr ⟨db.chunks_nodup, List.nodup_singleton _, by simpa using h⟩ }

/-- A chunk is published also when it could not be stored. -/
def appendToolOutputChunk (dates : Dates) (db : Database) (args : ToolOutputChunkArgs)
    (available : Bool) : Database × Payload :=
  match if available then createChunk db args.record else none with
  | some db => (db, args.payload dates)
  | none => (db, args.payload dates)

def finalizeToolOutputTerminal (db : Database) (args : ToolOutputTerminal) (available : Bool) :
    Database × ToolOutputTerminal :=
  let payload := { args with
    bytesStdout := max 0 args.bytesStdout
    bytesStderr := max 0 args.bytesStderr
    totalChunks := max 0 args.totalChunks
    droppedChunks := max 0 args.droppedChunks
    message := args.message.map sanitizeToolOutputText }
  if available then
    ({ db with terminals := Function.update db.terminals args.eventId (some payload) }, payload)
  else (db, payload)

structure StreamState where
  text : String
  stdoutText : String
  stderrText : String
  chunks : List Payload
  lastSeq : ℤ
  terminal : Option ToolOutputTerminal
  hydrated : Bool

def INITIAL_STATE : StreamState := ⟨"", "", "", [], 0, none, false⟩

/-- A number that is missing or zero asks for everything. -/
def fromStart (sinceSeq : Option ℤ) : Bool := sinceSeq.getD 0 = 0

def appends (sinceSeq : Option ℤ) : Bool := 0 < sinceSeq.getD 0

namespace StreamState

def concat (s : StreamState) (chunk : Payload) : StreamState :=
  { s with
    text := s.text ++ chunk.data
    stdoutText := if chunk.source = .stdout then s.stdoutText ++ chunk.data else s.stdoutText
    stderrText := if chunk.source = .stderr then s.stderrText ++ chunk.data else s.stderrText
    chunks := s.chunks ++ [chunk]
    lastSeq := chunk.seqGlobal }

/-- The body of the loop over the items of a snapshot. -/
def push (s : StreamState) (chunk : Payload) : StreamState :=
  if chunk.seqGlobal ≤ s.lastSeq then s else s.concat chunk

def base (s : StreamState) (sinceSeq : Option ℤ) : StreamState :=
  if appends sinceSeq then s else INITIAL_STATE

def applySnapshot (s : StreamState) (sinceSeq : Option ℤ) (snapshot : Snapshot) : StreamState :=
  let base := s.base sinceSeq
  { snapshot.items.foldl push base with
    terminal := snapshot.terminal.or base.terminal
    hydrated := true }

def onChunk (s : StreamState) (payload : Payload) : StreamState × Option ℤ :=
  if payload.seqGlobal ≤ s.lastSeq then (s, none)
  else if s.lastSeq + 1 < payload.seqGlobal then (s, some s.lastSeq)
  else ({ s.concat payload with hydrated := true }, none)

def onTerminal (dates : Dates) (s : StreamState) (payload : ToolOutputTerminal) : StreamState :=
  match s.terminal with
  | none => { s with terminal := some payload }
  | some terminal =>
    if (dates.parse payload.ts).getD 0 ≤ (dates.parse terminal.ts).getD 0 then s
    else { s with terminal := some payload }

end StreamState

/-- A request in flight, with the answer of the server once there is one. -/
structure Request where
  runId : String
  eventId : String
  sinceSeq : Option ℤ
  catchup : Bool
  answer : Option Snapshot

def Request.params (r : Request) : SnapshotParams String :=
  ⟨r.runId, r.eventId, if appends r.sinceSeq then r.sinceSeq else none, none, some .asc⟩

structure Hook where
  runId : String
  eventId : String
  enabled : Bool
  state : StreamState
  loading : Bool
  error : Option String
  lastSeqRef : ℤ
  catchupRef : Bool
  requests : List Request

namespace Hook

def applyState (h : Hook) (next : StreamState) : Hook :=
  { h with state := next, lastSeqRef := next.lastSeq }

def fetchSnapshot (h : Hook) (sinceSeq : Option ℤ) (catchup : Bool) : Hook :=
  if !h.enabled then h
  else if h.runId = "" ∨ h.eventId = "" then h
  else { h with
    loading := fromStart sinceSeq || h.loading
    requests := h.requests ++ [⟨h.runId, h.eventId, sinceSeq, catchup, none⟩] }

def requestCatchup (h : Hook) (fromSeq : ℤ) : Hook :=
  if !h.enabled then h
  else if h.runId = "" ∨ h.eventId = "" then h
  else if h.catchupRef then h
  else { h.fetchSnapshot (some fromSeq) true with catchupRef := true }

def reset (h : Hook) : Hook :=
  let h := { h.applyState INITIAL_STATE with error := none, loading := h.enabled }
  if !h.enabled || h.runId = "" || h.eventId = "" then h else h.fetchSnapshot none false

def mount (runId eventId : String) (enabled : Bool) : Hook :=
  reset ⟨runId, eventId, enabled, INITIAL_STATE, enabled, none, 0, false, []⟩

/-- The effect runs when an option has changed; requests and refs stay. -/
def render (h : Hook) (runId eventId : String) (enabled : Bool) : Hook :=
  if h.runId = runId ∧ h.eventId = eventId ∧ h.enabled = enabled then h
  else reset { h with runId, eventId, enabled }

def receiveChunk (h : Hook) (payload : Payload) : Hook :=
  if !h.enabled then h
  else if payload.runId ≠ h.runId ∨ payload.eventId ≠ h.eventId then h
  else
    let next := h.state.onChunk payload
    let h := h.applyState next.1
    match next.2 with
    | some fromSeq => h.requestCatchup fromSeq
    | none => h

def receiveTerminal (dates : Dates) (h : Hook) (payload : ToolOutputTerminal) : Hook :=
  if !h.enabled then h
  else if payload.runId ≠ h.runId ∨ payload.eventId ≠ h.eventId then h
  else h.applyState (h.state.onTerminal dates payload)

def reconnected (h : Hook) : Hook := if !h.enabled then h else h.requestCatchup h.lastSeqRef

/-- The end of a request; `requests` has it no longer. -/
def finish (h : Hook) (r : Request) (requests : List Request) : Hook :=
  { h with
    loading := !fromStart r.sinceSeq && h.loading
    catchupRef := !r.catchup && h.catchupRef
    requests }

/-- The answer is applied whatever the options are by now. -/
def fulfil (h : Hook) (r : Request) (snapshot : Snapshot) (requests : List Request) : Hook :=
  ({ h with error := none }.applyState (h.state.applySnapshot r.sinceSeq snapshot)).finish r
    requests

def reject (h : Hook) (r : Request) (message : String) (requests : List Request) : Hook :=
  { h with error := if fromStart r.sinceSeq then some message else h.error }.finish r requests

end Hook

structure World where
  db : Database
  /-- The last number of each execution. -/
  numbers : String → ℕ
  sent : List Payload
  sentTerminals : List ToolOutputTerminal
  hook : Hook

inductive Action where
  | appendChunk (event : RunEvent String) (seqStream : ℤ) (source : ToolOutputSource)
      (data : String) (ts : ℤ) (available : Bool)
  | finalize (args : ToolOutputTerminal) (available : Bool)
  | deliverChunk (payload : Payload)
  | deliverTerminal (payload : ToolOutputTerminal)
  | reconnected
  | render (runId eventId : String) (enabled : Bool)
  | serve (i : ℕ)
  | receive (i : ℕ)
  | fail (i : ℕ) (message : String)

def World.chunkArgs (w : World) (event : RunEvent String) (seqStream : ℤ)
    (source : ToolOutputSource) (data : String) (ts : ℤ) : ToolOutputChunkArgs where
  runId := event.runId
  threadId := event.threadId
  eventId := event.id
  seqGlobal := (w.numbers event.id : ℤ) + 1
  seqStream := seqStream
  source := source
  data := data
  ts := ts
  numbered := by omega

def step (dates : Dates) (w : World) : Action → Option World
  | .appendChunk event seqStream source data ts available =>
    if event ∈ w.db.events then
      let appended := appendToolOutputChunk dates w.db
        (w.chunkArgs event seqStream source data ts) available
      some { w with
        db := appended.1
        numbers := Function.update w.numbers event.id (w.numbers event.id + 1)
        sent := w.sent ++ [appended.2] }
    else none
  | .finalize args available =>
    let finalized := finalizeToolOutputTerminal w.db args available
    some { w with db := finalized.1, sentTerminals := w.sentTerminals ++ [finalized.2] }
  | .deliverChunk payload =>
    if payload ∈ w.sent then some { w with hook := w.hook.receiveChunk payload } else none
  | .deliverTerminal payload =>
    if payload ∈ w.sentTerminals then
      some { w with hook := w.hook.receiveTerminal dates payload }
    else none
  | .reconnected => some { w with hook := w.hook.reconnected }
  | .render runId eventId enabled => some { w with hook := w.hook.render runId eventId enabled }
  | .serve i =>
    match w.hook.requests[i]? with
    | none => none
    | some r =>
      if r.answer.isSome then none
      else
        (getToolOutputSnapshot dates w.db r.params).map fun snapshot =>
          { w with hook := { w.hook with
            requests := w.hook.requests.set i { r with answer := some snapshot } } }
  | .receive i =>
    match w.hook.requests[i]? with
    | none => none
    | some r =>
      r.answer.map fun snapshot =>
        { w with hook := w.hook.fulfil r snapshot (w.hook.requests.eraseIdx i) }
  | .fail i message =>
    match w.hook.requests[i]? with
    | none => none
    | some r => some { w with hook := w.hook.reject r message (w.hook.requests.eraseIdx i) }

/-- Nothing is stored or published when the screen is first rendered. -/
def World.start (events : List (RunEvent String)) (h : (events.map RunEvent.id).Nodup)
    (hook : Hook) : World :=
  ⟨⟨events, [], fun _ => none, h, List.nodup_nil⟩, fun _ => 0, [], [], hook⟩

end Agyn.OutputStreaming
