import Mathlib.Data.Int.Order.Basic
import Mathlib.Data.Int.ConditionallyCompleteOrder
import Mathlib.Order.ConditionallyCompleteLattice.Basic
import Mathlib.Logic.Function.Basic
import Agyn.ContainerRegistry
import Agyn.HighWater

/-!
The processor of container events. It records every event of a container that it knows, and
updates the row of the container unless the event is older than the last one that did. A row is
found by the id of its container, which every writer stores as its docker id as well.
-/
namespace Agyn.ContainerEventProcessor

open ContainerEvents ContainerRegistry

structure ContainerEventRow where
  eventType : ContainerEventType
  exitCode : Option ℤ
  signal : Option String
  reason : ContainerEventReason
  message : Option String
  createdAt : ℤ
  health : Option ContainerHealthStatus
  deriving DecidableEq

structure ContainerUpdate where
  status : Option ContainerStatus
  terminationReason : Option (Option TerminationReason)
  dockerContainerId : Option String
  threadId : Option String
  metadata : Option ContainerMetadata

def ContainerUpdate.apply (data : ContainerUpdate) (row : ContainerRow) : ContainerRow :=
  { row with
    status := data.status.getD row.status
    terminationReason := data.terminationReason.getD row.terminationReason
    dockerContainerId := data.dockerContainerId.getD row.dockerContainerId
    threadId := data.threadId.or row.threadId
    metadata := data.metadata.getD row.metadata }

/-- What the processor knows of one container: its row, the time of its last lack of memory, and
its rows in the event table. -/
structure Tracked where
  container : Option ContainerRow
  lastOom : Option ℤ
  containerEvents : List ContainerEventRow

def recentOomWindowMs : ℤ := 15000

def hasRecentOom (lastOom : Option ℤ) (eventTimeMs : ℤ) : Bool :=
  lastOom.any fun last => eventTimeMs - last ≤ recentOomWindowMs

def isStale (row : ContainerRow) (event : ContainerEvent) : Bool :=
  row.metadata.lastEventAt.any fun last => event.timestampMs < last

def reasonOf (event : ContainerEvent) (lastOom : Option ℤ) : ContainerEventReason :=
  mapContainerEventReason {
    eventType := event.eventType
    exitCode := event.exitCode
    signal := event.signal
    hadRecentOom := hasRecentOom lastOom event.timestampMs
    health := event.health }

def canTransition (status next : ContainerStatus) (eventType : ContainerEventType) : Bool :=
  !(next = .terminating && status ≠ .running && status ≠ .terminating ||
    next = .stopped && status = .failed && eventType = .stop)

-- `validate` of the package that makes the ids
variable (validateUuid : String → Bool)

def resolveThreadId (storedThreadId : Option String) (candidate : Option String) :
    Option String :=
  (storedThreadId.filter validateUuid).or (candidate.filter validateUuid)

def nextStatus (row : ContainerRow) (event : ContainerEvent) (reason : ContainerEventReason) :
    Option ContainerStatus :=
  (statusForEvent event.eventType reason).filter fun next =>
    canTransition row.status next event.eventType

def nextReason (event : ContainerEvent) (reason : ContainerEventReason) (statusApplied : Bool) :
    Option (Option TerminationReason) :=
  match event.eventType with
  | .create => some none
  | .start => some none
  | .restart => some none
  | .kill => some (some (.event reason))
  | .die => some (some (.event reason))
  | .oom => some (some (.event reason))
  | .stop => if statusApplied then some (some (.event reason)) else none
  | .destroy => none
  | .healthStatus => none

def nextMetadata (metadata : ContainerMetadata) (event : ContainerEvent) : ContainerMetadata :=
  { metadata with
    lastEventAt := some event.timestampMs
    autoRemoved :=
      if event.eventType = .destroy ∧ event.autoRemoved then some true else metadata.autoRemoved
    health := if event.eventType = .healthStatus then event.health.or metadata.health
      else metadata.health }

def updateData (row : ContainerRow) (event : ContainerEvent) (reason : ContainerEventReason) :
    ContainerUpdate :=
  let status := nextStatus row event reason
  let metadata := nextMetadata row.metadata event
  { status
    terminationReason := nextReason event reason status.isSome
    dockerContainerId :=
      if row.dockerContainerId ≠ event.dockerId then some event.dockerId else none
    threadId :=
      (resolveThreadId validateUuid row.threadId event.threadId).filter (row.threadId ≠ some ·)
    metadata := if metadata ≠ row.metadata then some metadata else none }

def recordOf (event : ContainerEvent) (reason : ContainerEventReason) : ContainerEventRow :=
  ⟨event.eventType, event.exitCode, event.signal, reason, event.message, event.timestampMs,
    event.health⟩

/-- `recordOom` for a lack of memory; an exit consumes the record. -/
def nextOom (event : ContainerEvent) (lastOom : Option ℤ) : Option ℤ :=
  match event.eventType with
  | .oom => some event.timestampMs
  | .die => none
  | _ => lastOom

def Tracked.handle (t : Tracked) (event : ContainerEvent) : Tracked :=
  match t.container with
  | none =>
    if event.eventType = .oom then { t with lastOom := some event.timestampMs } else t
  | some row =>
    let reason := reasonOf event t.lastOom
    let t := { t with containerEvents := t.containerEvents ++ [recordOf event reason] }
    if isStale row event then t
    else { t with
      lastOom := nextOom event t.lastOom
      container := some ((updateData validateUuid row event reason).apply row) }

/-- An event as it is delivered, with the clock when it is handled. -/
structure Delivery where
  event : DockerEventMessage
  now : ℤ

def Delivery.parsed (d : Delivery) : Option ContainerEvent := parse d.event d.now

abbrev Processor := String → Tracked

def handle (s : Processor) (d : Delivery) : Processor :=
  match d.parsed with
  | none => s
  | some event => Function.update s event.dockerId ((s event.dockerId).handle validateUuid event)

def process (s : Processor) (ds : List Delivery) : Processor := ds.foldl (handle validateUuid) s

end Agyn.ContainerEventProcessor
