import Mathlib.Data.Int.Notation
import Mathlib.Data.Nat.Notation
import Mathlib.Tactic.SplitIfs
import Agyn.PersistedGraph

/-!
The events of a container runtime as they arrive, what is read from them, and the reason and the
status that an event stands for. Letters are folded as those of ASCII are.
-/
namespace Agyn.ContainerEvents

inductive ContainerStatus where
  | running
  | stopped
  | terminating
  | failed
  deriving DecidableEq, Repr

inductive ContainerHealthStatus where
  | healthy
  | unhealthy
  | starting
  deriving DecidableEq, Repr

inductive ContainerEventType where
  | create
  | start
  | stop
  | die
  | kill
  | destroy
  | restart
  | oom
  | healthStatus
  deriving DecidableEq, Repr

inductive ContainerEventReason where
  | containerCreated
  | containerStarted
  | containerRestarted
  | containerStopped
  | containerDestroyed
  | healthStatusHealthy
  | healthStatusUnhealthy
  | healthStatusStarting
  | healthStatusUnknown
  | oomKilled
  | sigterm
  | sigkill
  | sigint
  | exitedNormally
  | exitedWithError
  deriving DecidableEq, Repr

structure DockerActor where
  id : Option String
  attributes : List (String × String)

/-- `DockerEventMessage`; an actor without attributes has none in its list. -/
structure DockerEventMessage where
  status : Option String
  action : Option String
  type : Option String
  id : Option String
  Id : Option String
  time : Option ℤ
  timeNano : Option ℤ
  actor : Option DockerActor

/-- What `handle` reads from a message. -/
structure ContainerEvent where
  dockerId : String
  eventType : ContainerEventType
  exitCode : Option ℤ
  signal : Option String
  health : Option ContainerHealthStatus
  autoRemoved : Bool
  /-- The label that names the thread. -/
  threadId : Option String
  message : Option String
  timestampMs : ℤ
  deriving DecidableEq

def toLowerCase (s : String) : String := String.ofList (s.toList.map Char.toLower)

def toUpperCase (s : String) : String := String.ofList (s.toList.map Char.toUpper)

/-- A string that is missing or empty counts as none in a condition. -/
def truthy : Option String → Option String
  | some "" => none
  | s => s

def actionToEventType (action : String) : Option ContainerEventType :=
  match action with
  | "create" => some .create
  | "start" => some .start
  | "stop" => some .stop
  | "die" => some .die
  | "kill" => some .kill
  | "destroy" => some .destroy
  | "restart" => some .restart
  | "oom" => some .oom
  | "health_status" => some .healthStatus
  | _ => none

namespace DockerEventMessage

def attributes (event : DockerEventMessage) : List (String × String) :=
  match event.actor with
  | some actor => actor.attributes
  | none => []

/-- The action if it is known, otherwise the status up to its colon. -/
def resolveEventType (event : DockerEventMessage) : Option ContainerEventType :=
  match actionToEventType (toLowerCase (event.action.getD "")) with
  | some eventType => some eventType
  | none =>
    let status := toLowerCase (event.status.getD "")
    actionToEventType (trim (String.ofList (status.toList.takeWhile (· ≠ ':'))))

/-- `event.id ?? event.Id ?? event.Actor?.ID`, if it is not empty. -/
def dockerId (event : DockerEventMessage) : Option String :=
  truthy (event.id.or (event.Id.or (event.actor.bind DockerActor.id)))

/-- Milliseconds; `now` is the clock when the event is handled. -/
def eventTimestampMs (event : DockerEventMessage) (now : ℤ) : ℤ :=
  match event.timeNano.filter (0 < ·), event.time.filter (0 < ·) with
  | some timeNano, _ => timeNano / 1000000
  | none, some time => time * 1000
  | none, none => now

end DockerEventMessage

/-- The digits at the start, with their sign; exact also above `2 ^ 53`, where a double is not. -/
def parseInt (s : String) : Option ℤ :=
  let read (sign : ℤ) (cs : List Char) : Option ℤ :=
    match cs.takeWhile Char.isDigit with
    | [] => none
    | digits => some (sign * digits.foldl (fun n c => 10 * n + (c.toNat - '0'.toNat : ℕ)) 0)
  match s.toList.dropWhile isTrimmed with
  | '-' :: cs => read (-1) cs
  | '+' :: cs => read 1 cs
  | cs => read 1 cs

def parseExitCode (attrs : List (String × String)) : Option ℤ :=
  ((attrs.lookup "exitCode").or (attrs.lookup "ExitCode")).bind parseInt

def parseSignal (attrs : List (String × String)) : Option String :=
  truthy ((attrs.lookup "signal").or (attrs.lookup "Signal"))

def normalizeHealthString (value : Option String) : Option ContainerHealthStatus :=
  match toLowerCase (trim (value.getD "")) with
  | "healthy" => some .healthy
  | "unhealthy" => some .unhealthy
  | "starting" => some .starting
  | _ => none

def healthPart (status : String) : Option String :=
  match status.toList.dropWhile (· ≠ ':') with
  | [] => none
  | _ :: rest => some (String.ofList (rest.takeWhile (· ≠ ':')))

def parseHealthStatus (attrs : List (String × String)) (event : DockerEventMessage) :
    Option ContainerHealthStatus :=
  let direct := (attrs.lookup "health_status").or
    ((attrs.lookup "Health_status").or (attrs.lookup "healthStatus"))
  (normalizeHealthString direct).or (normalizeHealthString (event.status.bind healthPart))

def parseAutoRemoved (attrs : List (String × String)) : Bool :=
  let candidate := (attrs.lookup "autoRemove").or ((attrs.lookup "AutoRemove").or
    ((attrs.lookup "autoremove").or (attrs.lookup "auto_remove")))
  match candidate with
  | some candidate => toLowerCase (trim candidate) ∈ ["1", "true", "yes"]
  | none => false

def healthText : ContainerHealthStatus → String
  | .healthy => "healthy"
  | .unhealthy => "unhealthy"
  | .starting => "starting"

def buildMessage (event : DockerEventMessage) (exitCode : Option ℤ) (signal : Option String)
    (health : Option ContainerHealthStatus) : Option String :=
  (truthy (event.attributes.lookup "error")).or <|
    (truthy event.status).or <|
    (truthy event.action).or <|
    (exitCode.map fun code => "exitCode=" ++ toString code).or <|
    (signal.map fun signal => "signal=" ++ signal).or <|
    health.map fun health => "health=" ++ healthText health

/-- The start of `handle`: a message about something else, of no known type or without an id is
ignored. -/
def parse (event : DockerEventMessage) (now : ℤ) : Option ContainerEvent :=
  if (truthy event.type).all fun type => toLowerCase type = "container" then
    match event.resolveEventType, event.dockerId with
    | some eventType, some dockerId =>
      let attributes := event.attributes
      let exitCode := parseExitCode attributes
      let signal := parseSignal attributes
      let health := if eventType = .healthStatus then parseHealthStatus attributes event else none
      some {
        dockerId, eventType, exitCode, signal, health
        autoRemoved := eventType = .destroy && parseAutoRemoved attributes
        threadId := truthy (attributes.lookup "hautech.ai/thread_id")
        message := buildMessage event exitCode signal health
        timestampMs := event.eventTimestampMs now }
    | _, _ => none
  else none

structure ContainerReasonContext where
  eventType : ContainerEventType
  exitCode : Option ℤ
  signal : Option String
  hadRecentOom : Bool
  health : Option ContainerHealthStatus

def signalToReason (signal : String) : Option ContainerEventReason :=
  match signal with
  | "SIGTERM" => some .sigterm
  | "TERM" => some .sigterm
  | "15" => some .sigterm
  | "SIGKILL" => some .sigkill
  | "KILL" => some .sigkill
  | "9" => some .sigkill
  | "SIGINT" => some .sigint
  | "INT" => some .sigint
  | "2" => some .sigint
  | _ => none

def healthReason : Option ContainerHealthStatus → ContainerEventReason
  | some .healthy => .healthStatusHealthy
  | some .unhealthy => .healthStatusUnhealthy
  | some .starting => .healthStatusStarting
  | none => .healthStatusUnknown

def killReason (signal : Option String) : ContainerEventReason :=
  ((signal.map fun signal => toUpperCase (trim signal)).bind signalToReason).getD .exitedWithError

def dieReason (exitCode : Option ℤ) (hadRecentOom : Bool) : ContainerEventReason :=
  if exitCode = some 0 then .exitedNormally
  else if exitCode = some 137 then if hadRecentOom then .oomKilled else .sigkill
  else if exitCode = some 143 then .sigterm
  else if exitCode = some 130 then .sigint
  else .exitedWithError

def mapContainerEventReason (context : ContainerReasonContext) : ContainerEventReason :=
  match context.eventType with
  | .create => .containerCreated
  | .start => .containerStarted
  | .restart => .containerRestarted
  | .stop => .containerStopped
  | .destroy => .containerDestroyed
  | .healthStatus => healthReason context.health
  | .oom => .oomKilled
  | .kill => killReason context.signal
  | .die => dieReason context.exitCode context.hadRecentOom

def statusForEvent (eventType : ContainerEventType) (reason : ContainerEventReason) :
    Option ContainerStatus :=
  match eventType with
  | .create => some .running
  | .start => some .running
  | .restart => some .running
  | .stop => some .stopped
  | .oom => some .failed
  | .kill => some .terminating
  | .die => if reason = .exitedNormally ∨ reason = .sigterm then some .stopped else some .failed
  | .destroy => none
  | .healthStatus => none

/-- A recent lack of memory changes the reason of an exit, not its status. -/
theorem statusForEvent_die (exitCode : Option ℤ) (hadRecentOom : Bool) :
    statusForEvent .die (dieReason exitCode hadRecentOom) =
      statusForEvent .die (dieReason exitCode false) := by
  unfold dieReason
  split_ifs <;> rfl

end Agyn.ContainerEvents
