import Mathlib.Data.Nat.Notation
import Mathlib.Logic.Function.Basic
import Agyn.GuardedRuns

/-!
How the calls of sub-agents are linked to their tool events. A call records an event, resolves
the child thread, looks up the latest event of its run with a name of its tool, writes the link
there, and invokes the child, whose run is linked to the latest event of the child thread. A call
whose tool has another name than these invokes its child without a look-up. All of this
interleaves over the calls. A call is a number; its event is named by it.
-/
namespace Agyn.CallLinking

inductive CanonicalToolName where
  | callAgent
  | callEngineer
  | manage
  deriving DecidableEq

def canonicalizeToolName (toolName : String) : Option CanonicalToolName :=
  if toolName = "call_agent" then some .callAgent
  else if toolName = "call_engineer" then some .callEngineer
  else if toolName = "manage" ∨ toolName = "manage_agent" then some .manage
  else none

def toolSearchNames : CanonicalToolName → List String
  | .callAgent => ["call_agent"]
  | .callEngineer => ["call_engineer"]
  | .manage => ["manage", "manage_agent"]

def linkableToolNames : List String := ["call_agent", "call_engineer", "manage", "manage_agent"]

/-- What a call passes on: its run and tool, its thread and the thread its alias resolves to. -/
structure AgentCall where
  runId : String
  toolName : String
  parentThreadId : String
  childThreadId : String

structure ChildRunLink where
  id : Option String
  status : String
  linkEnabled : Bool
  latestMessageId : Option String
  deriving DecidableEq

structure LinkMetadata where
  tool : CanonicalToolName
  parentThreadId : String
  childThreadId : String
  childRun : ChildRunLink
  deriving DecidableEq

def buildInitialMetadata (tool : CanonicalToolName) (call : AgentCall) : LinkMetadata :=
  ⟨tool, call.parentThreadId, call.childThreadId, ⟨none, "queued", false, none⟩⟩

/-- A tool-execution event; `startedAt` is taken by the process, `ts` by the database. -/
structure ToolEvent where
  call : ℕ
  runId : String
  toolName : String
  startedAt : ℕ
  ts : ℕ
  metadata : Option LinkMetadata
  deriving DecidableEq

/-- How far a call has come; `found` and `runFound` hold what a look-up has read. -/
inductive CallPhase where
  | idle
  | starting (startedAt : ℕ)
  | started
  | found (event : ℕ)
  | linked
  | unlinked
  | runFound (runId : String) (event : ℕ) (metadata : LinkMetadata) (messageId : Option String)
  | running (runId : String)
  | runUnlinked
  deriving DecidableEq

structure LinkState where
  clock : ℕ
  events : List ToolEvent
  phase : ℕ → CallPhase
  /-- Every run of a child, with the call that created it. -/
  runs : List (String × ℕ)

def LinkState.initial : LinkState := ⟨0, [], fun _ => .idle, []⟩

inductive LinkStep where
  | tick
  | start (call : ℕ)
  | record (call : ℕ)
  | recordFailed (call : ℕ)
  | lookUp (call event : ℕ)
  | lookUpFailed (call : ℕ)
  | notRegistered (call : ℕ)
  | save (call : ℕ)
  | saveFailed (call : ℕ)
  | runLookUp (call : ℕ) (runId : String) (event : ℕ) (messageId : Option String)
  | runLookUpFailed (call : ℕ) (runId : String)
  | runSave (call : ℕ)
  | runSaveFailed (call : ℕ)
  | runMessage (runId : String) (event : ℕ) (messageId : Option String)
  | runCompleted (runId : String) (event : ℕ) (status : String)

/-- The event is among those that satisfy `matching`, and none of these is later by `key`; the
database may return any such event. -/
def isLatest (matching : ToolEvent → Bool) (key : ToolEvent → ℕ) (events : List ToolEvent)
    (e : ToolEvent) : Bool :=
  matching e && events.all fun e' => !matching e' || key e' ≤ key e

def findLatest (matching : ToolEvent → Bool) (key : ToolEvent → ℕ) (events : List ToolEvent)
    (event : ℕ) : Option ToolEvent :=
  events.find? fun e => e.call = event && isLatest matching key events e

/-- The events that `findLatestToolEvent` selects from. -/
def isToolEvent (call : AgentCall) (tool : CanonicalToolName) (e : ToolEvent) : Bool :=
  e.runId = call.runId && (toolSearchNames tool).contains e.toolName

/-- The events that `findParentEventByChildThread` selects from. -/
def isEventOfChild (childThreadId : String) (e : ToolEvent) : Bool :=
  linkableToolNames.contains e.toolName &&
    e.metadata.any fun m => m.childThreadId = childThreadId

/-- The events that `findParentEventByRun` selects from. -/
def isEventOfRun (runId : String) (e : ToolEvent) : Bool :=
  linkableToolNames.contains e.toolName &&
    e.metadata.any fun m => m.childRun.id = some runId

def saveMetadata (event : ℕ) (metadata : LinkMetadata) (events : List ToolEvent) :
    List ToolEvent :=
  events.map fun e => if e.call = event then { e with metadata := some metadata } else e

namespace LinkState

def setPhase (s : LinkState) (call : ℕ) (phase : CallPhase) : LinkState :=
  { s with phase := Function.update s.phase call phase }

/-- A call may create a child run once it tried to link its event. -/
def mayInvoke (s : LinkState) (call : ℕ) (runId : String) : Prop :=
  (s.phase call = .linked ∨ s.phase call = .unlinked) ∧ runId ∉ s.runs.map Prod.fst

instance (s : LinkState) (call : ℕ) (runId : String) : Decidable (s.mayInvoke call runId) :=
  inferInstanceAs (Decidable (_ ∧ _))

def updateChildRun (s : LinkState) (runId : String) (event : ℕ)
    (update : ChildRunLink → ChildRunLink) : Option LinkState :=
  (findLatest (isEventOfRun runId) ToolEvent.ts s.events event).bind fun e =>
    e.metadata.map fun m =>
      { s with events := saveMetadata e.call { m with childRun := update m.childRun } s.events }

variable (calls : ℕ → AgentCall)

def step (s : LinkState) : LinkStep → Option LinkState
  | .tick => some { s with clock := s.clock + 1 }
  | .start i => if s.phase i = .idle then some (s.setPhase i (.starting s.clock)) else none
  | .record i =>
    match s.phase i with
    | .starting t =>
      some { s.setPhase i .started with
        events := s.events ++ [⟨i, (calls i).runId, (calls i).toolName, t, s.clock, none⟩] }
    | _ => none
  | .recordFailed i =>
    match s.phase i with
    | .starting _ => some (s.setPhase i .started)
    | _ => none
  | .lookUp i event =>
    match s.phase i, canonicalizeToolName (calls i).toolName with
    | .started, some tool =>
      (findLatest (isToolEvent (calls i) tool) ToolEvent.startedAt s.events event).map fun e =>
        s.setPhase i (.found e.call)
    | _, _ => none
  | .lookUpFailed i =>
    match s.phase i, canonicalizeToolName (calls i).toolName with
    | .started, some _ => some (s.setPhase i .unlinked)
    | _, _ => none
  | .notRegistered i =>
    -- `registerParentToolExecution` returns before its look-up
    match s.phase i, canonicalizeToolName (calls i).toolName with
    | .started, none => some (s.setPhase i .unlinked)
    | _, _ => none
  | .save i =>
    match s.phase i, canonicalizeToolName (calls i).toolName with
    | .found event, some tool =>
      some { s.setPhase i .linked with
        events := saveMetadata event (buildInitialMetadata tool (calls i)) s.events }
    | _, _ => none
  | .saveFailed i =>
    match s.phase i with
    | .found _ => some (s.setPhase i .unlinked)
    | _ => none
  | .runLookUp i runId event messageId =>
    if s.mayInvoke i runId then
      (findLatest (isEventOfChild (calls i).childThreadId) ToolEvent.ts s.events event).bind
        fun e => e.metadata.map fun m =>
          { s.setPhase i (.runFound runId e.call m messageId) with
            runs := s.runs ++ [(runId, i)] }
    else none
  | .runLookUpFailed i runId =>
    if s.mayInvoke i runId then
      some { s.setPhase i .runUnlinked with runs := s.runs ++ [(runId, i)] }
    else none
  | .runSave i =>
    match s.phase i with
    | .runFound runId event m messageId =>
      let metadata := { m with childRun := ⟨some runId, "running", true, messageId⟩ }
      some { s.setPhase i (.running runId) with events := saveMetadata event metadata s.events }
    | _ => none
  | .runSaveFailed i =>
    match s.phase i with
    | .runFound _ _ _ _ => some (s.setPhase i .runUnlinked)
    | _ => none
  | .runMessage runId event messageId =>
    s.updateChildRun runId event fun childRun =>
      { childRun with
        linkEnabled := true
        latestMessageId := messageId.or childRun.latestMessageId }
  | .runCompleted runId event status =>
    s.updateChildRun runId event fun childRun => { childRun with status, linkEnabled := true }

end LinkState

end Agyn.CallLinking
