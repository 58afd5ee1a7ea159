import Mathlib.Data.List.Perm.Basic
import Agyn.CallLinking
import Agyn.RunLifecycle

/-!
The link of a child run as it is stored on the tool event of the call, with its nested fields
and the flat ones kept beside them. The linking service writes it when the call is registered;
the persistence of agents updates it in the transactions that begin the child run, record its
messages and complete it. The startup recovery terminates runs without a look at the links.
-/
namespace Agyn.ChildLinks

open CallLinking (CanonicalToolName canonicalizeToolName toolSearchNames linkableToolNames)

inductive ChildRunStatus where
  | queued
  | run (status : RunStatus)
  deriving DecidableEq

structure ChildRunLink where
  id : Option String
  status : ChildRunStatus
  linkEnabled : Bool
  latestMessageId : Option String
  deriving DecidableEq

/-- The metadata in memory; the flat fields may be missing. -/
structure CallAgentLinkMetadata where
  tool : CanonicalToolName
  parentThreadId : String
  childThreadId : String
  childRun : ChildRunLink
  childRunId : Option String
  childRunStatus : Option ChildRunStatus
  childRunLinkEnabled : Option Bool
  childMessageId : Option String

structure LinkObject where
  tool : CanonicalToolName
  parentThreadId : String
  childThreadId : String
  childRun : ChildRunLink
  childRunId : Option String
  childRunStatus : ChildRunStatus
  childRunLinkEnabled : Bool
  childMessageId : Option String
  deriving DecidableEq

def serializeMetadata (m : CallAgentLinkMetadata) : LinkObject where
  tool := m.tool
  parentThreadId := m.parentThreadId
  childThreadId := m.childThreadId
  childRun := m.childRun
  childRunId := m.childRunId.or m.childRun.id
  childRunStatus := m.childRunStatus.getD m.childRun.status
  childRunLinkEnabled := m.childRunLinkEnabled.getD m.childRun.linkEnabled
  childMessageId := m.childMessageId.or m.childRun.latestMessageId

def CallAgentLinkMetadata.withChildRun (m : CallAgentLinkMetadata) (childRun : ChildRunLink) :
    CallAgentLinkMetadata :=
  { m with
    childRun
    childRunId := childRun.id
    childRunStatus := some childRun.status
    childRunLinkEnabled := some childRun.linkEnabled
    childMessageId := childRun.latestMessageId }

/-- The flat fields, where they are there, have the last word; only the id yields to the nested
one. Metadata without thread ids is none. -/
def parseMetadata (raw : LinkObject) : Option CallAgentLinkMetadata :=
  if raw.parentThreadId = "" ∨ raw.childThreadId = "" then none
  else
    let childRun : ChildRunLink :=
      { id := if raw.childRun.id.getD "" = "" then raw.childRunId.or raw.childRun.id
          else raw.childRun.id
        status := raw.childRunStatus
        linkEnabled := raw.childRun.linkEnabled || raw.childRunLinkEnabled
        latestMessageId := raw.childMessageId.or raw.childRun.latestMessageId }
    some <| CallAgentLinkMetadata.withChildRun
      ⟨raw.tool, raw.parentThreadId, raw.childThreadId, childRun, none, none, none, none⟩ childRun

def queuedLink : ChildRunLink := ⟨none, .queued, false, none⟩

def buildInitialMetadata (tool : CanonicalToolName) (parentThreadId childThreadId : String) :
    CallAgentLinkMetadata :=
  CallAgentLinkMetadata.withChildRun
    ⟨tool, parentThreadId, childThreadId, queuedLink, none, none, none, none⟩ queuedLink

def onChildRunStarted (runId : String) (latestMessageId : Option String)
    (current : CallAgentLinkMetadata) : CallAgentLinkMetadata :=
  current.withChildRun ⟨some runId, .run .running, true, latestMessageId⟩

def onChildRunMessage (runId : String) (latestMessageId : Option String)
    (current : CallAgentLinkMetadata) : CallAgentLinkMetadata :=
  current.withChildRun
    { id := current.childRun.id.or (some runId)
      status := current.childRun.status
      linkEnabled := current.childRun.linkEnabled || decide (runId ≠ "")
      latestMessageId := latestMessageId.or current.childRun.latestMessageId }

def onChildRunCompleted (runId : String) (status : RunStatus) (current : CallAgentLinkMetadata) :
    CallAgentLinkMetadata :=
  current.withChildRun
    { id := current.childRun.id.or (some runId)
      status := .run status
      linkEnabled := true
      latestMessageId := current.childRun.latestMessageId }

inductive MessageKind where
  | user
  | assistant
  | system
  | tool
  deriving DecidableEq

/-- The messages that one transaction persists for a run, by their ids. The input messages are
created at once; `createdMessages` lists them in the order in which this came to its end. -/
inductive Batch where
  | input (messages createdMessages : List String)
  | injected (messages : List String)
  | transport (message : String)
  | output (messages : List String)
  deriving DecidableEq

def Batch.messages : Batch → List String
  | .input messages _ => messages
  | .injected messages => messages
  | .transport message => [message]
  | .output messages => messages

structure ChildRun where
  id : String
  threadId : String
  status : RunStatus
  batches : List Batch
  deriving DecidableEq

def ChildRun.messages (run : ChildRun) : List String := run.batches.flatMap Batch.messages

def ChildRun.persist (run : ChildRun) (batch : Batch) : ChildRun :=
  { run with batches := run.batches ++ [batch] }

structure ToolEvent where
  id : ℕ
  runId : String
  toolName : String
  startedAt : ℕ
  ts : ℕ
  metadata : Option LinkObject
  deriving DecidableEq

/-- The event is among those that satisfy `matching`, and none of these is later by `key`. -/
def isLatest (matching : ToolEvent → Bool) (key : ToolEvent → ℕ) (events : List ToolEvent)
    (e : ToolEvent) : Bool :=
  matching e && events.all fun e' => !matching e' || key e' ≤ key e

/-- What the database answers to a search: the event of that id, when it is the latest one, or
none, when none matches. Any other answer is not possible. -/
def findFirst (matching : ToolEvent → Bool) (key : ToolEvent → ℕ) (events : List ToolEvent) :
    Option ℕ → Option (Option ToolEvent)
  | some event => (events.find? fun e => e.id = event && isLatest matching key events e).map some
  | none => if events.any matching then none else some none

def findLatestToolEvent (runId : String) (toolNames : List String) :
    List ToolEvent → Option ℕ → Option (Option ToolEvent) :=
  findFirst (fun e => e.runId = runId && toolNames.contains e.toolName) ToolEvent.startedAt

def findParentEventByChildThread (childThreadId : String) :
    List ToolEvent → Option ℕ → Option (Option ToolEvent) :=
  findFirst (fun e => linkableToolNames.contains e.toolName &&
    e.metadata.any fun m => m.childThreadId = childThreadId) ToolEvent.ts

def findParentEventByRun (runId : String) :
    List ToolEvent → Option ℕ → Option (Option ToolEvent) :=
  findFirst (fun e => linkableToolNames.contains e.toolName &&
    e.metadata.any fun m => m.childRunId = some runId) ToolEvent.ts

def saveMetadata (event : ℕ) (metadata : CallAgentLinkMetadata) (events : List ToolEvent) :
    List ToolEvent :=
  events.map fun e =>
    if e.id = event then { e with metadata := some (serializeMetadata metadata) } else e

def updateLink (update : CallAgentLinkMetadata → CallAgentLinkMetadata) (events : List ToolEvent)
    (found : Option ToolEvent) : List ToolEvent :=
  match found.bind fun e => (e.metadata.bind parseMetadata).map (e.id, ·) with
  | some (event, current) => saveMetadata event (update current) events
  | none => events

structure State where
  events : List ToolEvent
  runs : List ChildRun
  deriving DecidableEq

def State.init : State := ⟨[], []⟩

/-- Each call comes with the answer to its search for an event. -/
inductive Action where
  | startToolExecution (id : ℕ) (runId toolName : String) (startedAt ts : ℕ)
  | registerParentToolExecution (runId parentThreadId childThreadId toolName : String)
      (event : Option ℕ)
  | beginRunThread (threadId runId : String) (messages createdMessages : List String)
      (event : Option ℕ)
  | recordInjected (runId : String) (messages : List String) (event : Option ℕ)
  | recordTransportAssistantMessage (threadId runId message : String) (event : Option ℕ)
  | completeRun (runId : String) (status : RunStatus) (outputs : List (MessageKind × String))
      (event : Option ℕ)
  | terminateRunningRuns

def State.Unused (s : State) (messages : List String) : Prop :=
  messages.Nodup ∧ ∀ run ∈ s.runs, ∀ m ∈ messages, m ∉ run.messages

instance (s : State) (messages : List String) : Decidable (s.Unused messages) :=
  inferInstanceAs (Decidable (_ ∧ _))

def persistedOutputs (outputs : List (MessageKind × String)) : List String :=
  (outputs.filter fun output => output.1 ≠ .tool).map Prod.snd

def State.findRun (s : State) (runId : String) : Option ChildRun :=
  s.runs.find? fun run => run.id = runId

def State.saveRun (s : State) (run : ChildRun) : List ChildRun :=
  s.runs.map fun r => if r.id = run.id then run else r

def recover (run : ChildRun) : ChildRun :=
  if run.status = .running then { run with status := .terminated } else run

/-- A step that throws or that the database excludes has no result. The callers complete a run
as finished or as terminated. -/
def step (s : State) : Action → Option State
  | .startToolExecution id runId toolName startedAt ts =>
    if id ∈ s.events.map ToolEvent.id then none
    else some { s with events := s.events ++ [⟨id, runId, toolName, startedAt, ts, none⟩] }
  | .registerParentToolExecution runId parentThreadId childThreadId toolName event =>
    match canonicalizeToolName toolName with
    | none => some s
    | some tool =>
      (findLatestToolEvent runId (toolSearchNames tool) s.events event).map fun
        | none => s
        | some e =>
          let metadata := buildInitialMetadata tool parentThreadId childThreadId
          { s with events := saveMetadata e.id metadata s.events }
  | .beginRunThread threadId runId messages createdMessages event =>
    if (runId ∉ s.runs.map ChildRun.id ∧ s.Unused messages) ∧ createdMessages.Perm messages then
      (findParentEventByChildThread threadId s.events event).map fun found =>
        { events := updateLink (onChildRunStarted runId createdMessages.head?) s.events found
          runs := s.runs ++ [⟨runId, threadId, .running, [.input messages createdMessages]⟩] }
    else none
  | .recordInjected runId messages event =>
    if messages = [] then some s
    else if s.Unused messages then
      (s.findRun runId).bind fun run =>
        (findParentEventByRun runId s.events event).map fun found =>
          { events := updateLink (onChildRunMessage runId messages.head?) s.events found
            runs := s.saveRun (run.persist (.injected messages)) }
    else none
  | .recordTransportAssistantMessage threadId runId message event =>
    if s.Unused [message] then
      (s.findRun runId).bind fun run =>
        if run.threadId ≠ threadId then none
        else
          (findParentEventByRun runId s.events event).map fun found =>
            { events := updateLink (onChildRunMessage runId (some message)) s.events found
              runs := s.saveRun (run.persist (.transport message)) }
    else none
  | .completeRun runId status outputs event =>
    if status ≠ .running ∧ s.Unused (persistedOutputs outputs) then
      (s.findRun runId).bind fun run =>
        (findParentEventByRun runId s.events event).map fun found =>
          { events := updateLink (onChildRunCompleted runId status) s.events found
            runs := s.saveRun { run.persist (.output (persistedOutputs outputs)) with status } }
    else none
  | .terminateRunningRuns => some { s with runs := s.runs.map recover }

end Agyn.ChildLinks
