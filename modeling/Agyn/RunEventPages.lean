import Mathlib.Data.Int.Order.Basic
import Mathlib.Order.Lattice

/-!
The pages of the run events service: the events of a run by time and id, with a cursor and a row
that is looked ahead, and the chunks of a tool execution by their numbers, polled from the number
that the last snapshot came with.
-/
namespace Agyn.RunEvents

inductive RunEventType where
  | invocationMessage
  | injection
  | llmCall
  | toolExecution
  | summarization
  deriving DecidableEq

inductive RunEventStatus where
  | pending
  | running
  | success
  | error
  | cancelled
  deriving DecidableEq

inductive Order where
  | asc
  | desc
  deriving DecidableEq

/-- A row of the table of events. Times are in milliseconds. -/
structure RunEvent (ι : Type) where
  id : ι
  runId : String
  threadId : String
  type : RunEventType
  status : RunEventStatus
  ts : ℤ
  deriving DecidableEq

inductive ToolOutputSource where
  | stdout
  | stderr
  deriving DecidableEq

structure ToolOutputChunk (ι : Type) where
  eventId : ι
  seqGlobal : ℤ
  seqStream : ℤ
  source : ToolOutputSource
  data : String
  ts : ℤ
  numbered : 1 ≤ seqGlobal

/-- The tables that are read, with the unique columns of their schema. -/
structure Tables (ι τ : Type) where
  events : List (RunEvent ι)
  chunks : List (ToolOutputChunk ι)
  terminals : ι → Option τ
  events_nodup : (events.map RunEvent.id).Nodup
  chunks_nodup : (chunks.map fun c => (c.eventId, c.seqGlobal)).Nodup

/-- The `Date` of the language: how a time is written, and what a text is read as. -/
structure Dates where
  toISOString : ℤ → String
  parse : String → Option ℤ

/-- The time of a cursor, a `Date` (that may be invalid) or a text. -/
inductive CursorTs where
  | date (time : Option ℤ)
  | text (text : String)
  deriving DecidableEq

/-- An id that is an empty string counts as none. -/
structure EventCursor (ι : Type) where
  ts : CursorTs
  id : Option ι
  deriving DecidableEq

structure ListParams (ι : Type) where
  runId : String
  types : List RunEventType
  statuses : List RunEventStatus
  limit : Option ℤ
  order : Option Order
  cursor : Option (EventCursor ι)

structure EventPage (ι : Type) where
  items : List (RunEvent ι)
  nextCursor : Option (EventCursor ι)

variable {ι τ : Type} [LinearOrder ι]

/-- The order that a parameter stands for. -/
def orderOf (order : Option Order) : Order := if order = some .desc then .desc else .asc

def CursorTs.time (dates : Dates) : CursorTs → Option ℤ
  | .date time => time
  | .text raw => if raw = "" then none else dates.parse raw

def cursorCondition (order : Order) (cursorTs : ℤ) (id : Option ι) (e : RunEvent ι) : Bool :=
  match order, id with
  | .desc, some id => e.ts < cursorTs ∨ (e.ts = cursorTs ∧ e.id < id)
  | .desc, none => e.ts < cursorTs
  | .asc, some id => cursorTs < e.ts ∨ (e.ts = cursorTs ∧ id < e.id)
  | .asc, none => cursorTs < e.ts

def ListParams.wants (p : ListParams ι) (e : RunEvent ι) : Bool :=
  e.runId = p.runId ∧ (p.types = [] ∨ e.type ∈ p.types) ∧ (p.statuses = [] ∨ e.status ∈ p.statuses)

/-- The `orderBy` of the query: by time, and by id at the same time. -/
def orderBy : Order → RunEvent ι → RunEvent ι → Bool
  | .asc, a, b => a.ts < b.ts ∨ (a.ts = b.ts ∧ a.id ≤ b.id)
  | .desc, a, b => b.ts < a.ts ∨ (a.ts = b.ts ∧ b.id ≤ a.id)

/-- An integer that is missing or zero is the default. -/
def eventLimit : Option ℤ → ℕ
  | none => 100
  | some limit => if limit = 0 then 100 else (max 1 (min 1000 limit)).toNat

/-- The rows of the `where` of the query; a cursor without a valid time is left out. -/
def matchingRows (dates : Dates) (rows : List (RunEvent ι)) (p : ListParams ι) :
    List (RunEvent ι) :=
  match p.cursor with
  | none => rows.filter p.wants
  | some cursor =>
    match cursor.ts.time dates with
    | none => rows.filter p.wants
    | some cursorTs =>
      (rows.filter p.wants).filter (cursorCondition (orderOf p.order) cursorTs cursor.id)

def listRunEvents (dates : Dates) (rows : List (RunEvent ι)) (p : ListParams ι) : EventPage ι :=
  let limit := eventLimit p.limit
  let rows := (matchingRows dates rows p).mergeSort (orderBy (orderOf p.order))
  let events := rows.take (limit + 1)
  let hasMore := limit < events.length
  let pageItems := if hasMore then events.take limit else events
  let nextCursor := if hasMore then
      pageItems.getLast?.map fun e => ⟨.text (dates.toISOString e.ts), some e.id⟩
    else none
  ⟨pageItems, nextCursor⟩

structure SnapshotParams (ι : Type) where
  runId : String
  eventId : ι
  sinceSeq : Option ℤ
  limit : Option ℤ
  order : Option Order

structure ToolOutputChunkPayload (ι : Type) where
  runId : String
  threadId : String
  eventId : ι
  seqGlobal : ℤ
  seqStream : ℤ
  source : ToolOutputSource
  ts : String
  data : String
  deriving DecidableEq

structure ToolOutputSnapshot (ι τ : Type) where
  items : List (ToolOutputChunkPayload ι)
  terminal : Option τ
  nextSeq : Option ℤ

def chunkLimit : Option ℤ → ℕ
  | none => 1000
  | some limit => if limit = 0 then 1000 else (min (max 1 limit) 5000).toNat

def chunkPayload (dates : Dates) (event : RunEvent ι) (row : ToolOutputChunk ι) :
    ToolOutputChunkPayload ι :=
  ⟨event.runId, event.threadId, event.id, row.seqGlobal, row.seqStream, row.source,
    dates.toISOString row.ts, row.data⟩

/-- A number that is zero counts as none. -/
def sinceCondition (sinceSeq : Option ℤ) (row : ToolOutputChunk ι) : Bool :=
  match sinceSeq with
  | some since => since = 0 ∨ since < row.seqGlobal
  | none => true

def seqOrder : Order → ToolOutputChunk ι → ToolOutputChunk ι → Bool
  | .asc, a, b => a.seqGlobal ≤ b.seqGlobal
  | .desc, a, b => b.seqGlobal ≤ a.seqGlobal

def nextSeq : List (ToolOutputChunkPayload ι) → Option ℤ
  | [] => none
  | first :: items =>
    some ((first :: items).foldl
      (fun max item => if max < item.seqGlobal then item.seqGlobal else max) first.seqGlobal)

def getToolOutputSnapshot (dates : Dates) (db : Tables ι τ) (p : SnapshotParams ι) :
    Option (ToolOutputSnapshot ι τ) :=
  match db.events.find? fun e => e.id = p.eventId with
  | none => none
  | some event =>
    if event.runId ≠ p.runId then none
    else
      let rows := db.chunks.filter fun row =>
        row.eventId = p.eventId && sinceCondition p.sinceSeq row
      let records := (rows.mergeSort (seqOrder (orderOf p.order))).take (chunkLimit p.limit)
      let items := records.map (chunkPayload dates event)
      some ⟨items, db.terminals p.eventId, nextSeq items⟩

end Agyn.RunEvents
