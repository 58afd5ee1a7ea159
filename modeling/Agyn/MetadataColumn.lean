import Mathlib.Data.List.DropRight
import Mathlib.Data.Rat.Defs
import Mathlib.Algebra.Order.Ring.Unbundled.Rat
import Agyn.ContainerRegistry
import Agyn.InsertionMap
import Agyn.PrismaJson

/-!
The metadata column of a container as JSON. The registry and the service that terminates the
containers of a thread each read it through a normalizer of their own and write the whole object
back; the processor of events changes a copy of it. The calls run one after the other.
-/
namespace Agyn.MetadataColumn

open ContainerEvents JsValue

abbrev Json := JsValue ℚ

structure ContainerMount where
  source : String
  destination : String
  deriving DecidableEq

/-- The object as the code has it; a property that is `none` is undefined. -/
structure ContainerMetadata where
  labels : Json
  platform : Option String
  ttlSeconds : ℚ
  lastError : Option String
  retryAfter : Option String
  terminationAttempts : Option ℚ
  claimId : Option String
  mounts : Option (List ContainerMount)
  autoRemoved : Option Bool
  health : Option String
  lastEventAt : Option String

def asString : Json → Option String
  | .str s => some s
  | _ => none

def asNumber : Json → Option ℚ
  | .num n => some n
  | _ => none

def asBoolean : Json → Option Bool
  | .bool b => some b
  | _ => none

def isHealthStatus (value : String) : Bool :=
  value = "healthy" ∨ value = "unhealthy" ∨ value = "starting"

def mountJson (mount : ContainerMount) : Json :=
  .record [("source", .str mount.source), ("destination", .str mount.destination)]

def optional {α : Type} (value : Option α) (toJson : α → Json) : Json :=
  (value.map toJson).getD .undefined

def ContainerMetadata.field (m : ContainerMetadata) (key : String) : Json :=
  match key with
  | "labels" => m.labels
  | "platform" => optional m.platform .str
  | "ttlSeconds" => .num m.ttlSeconds
  | "lastError" => optional m.lastError .str
  | "retryAfter" => optional m.retryAfter .str
  | "terminationAttempts" => optional m.terminationAttempts .num
  | "claimId" => optional m.claimId .str
  | "mounts" => optional m.mounts fun mounts => .arr (mounts.map mountJson)
  | "autoRemoved" => optional m.autoRemoved .bool
  | "health" => optional m.health .str
  | "lastEventAt" => optional m.lastEventAt .str
  | _ => .undefined

def metadataKeys : List String :=
  ["labels", "platform", "ttlSeconds", "lastError", "retryAfter", "terminationAttempts", "claimId",
    "mounts", "autoRemoved", "health", "lastEventAt"]

/-- The object as it is stored, without its undefined properties. -/
def ContainerMetadata.toJson (m : ContainerMetadata) : Json :=
  .record ((metadataKeys.map fun key => (key, m.field key)).filter fun e => e.2.isDefined)

def sanitizeMount (entry : Json) : Option ContainerMount :=
  let source := trim ((asString (entry.get "source")).getD "")
  let destination := trim ((asString (entry.get "destination")).getD "")
  if source = "" ∨ destination = "" then none else some ⟨source, destination⟩

def sanitizeContainerMounts : Json → List ContainerMount
  | .arr items => items.filterMap sanitizeMount
  | _ => []

def nonEmpty (mounts : List ContainerMount) : Option (List ContainerMount) :=
  if mounts = [] then none else some mounts

def defaultTtlSeconds : ℚ := 86400

/-- An object, or an array, which is one by `typeof`; anything else is replaced by `{}`. -/
def asObject : Json → Json
  | .obj isPlain entries => .obj isPlain entries
  | .arr items => .arr items
  | _ => .record []

/-- `normalizeMetadata` of the registry. -/
def normalizeMetadata (m : Json) : ContainerMetadata where
  labels := asObject (m.get "labels")
  platform := asString (m.get "platform")
  ttlSeconds := (asNumber (m.get "ttlSeconds")).getD defaultTtlSeconds
  lastError := asString (m.get "lastError")
  retryAfter := asString (m.get "retryAfter")
  terminationAttempts := asNumber (m.get "terminationAttempts")
  claimId := asString (m.get "claimId")
  mounts := nonEmpty (sanitizeContainerMounts (m.get "mounts"))
  autoRemoved := asBoolean (m.get "autoRemoved")
  health := (asString (m.get "health")).filter isHealthStatus
  lastEventAt := asString (m.get "lastEventAt")

/-- `Object.entries`. -/
def ownEntries : Json → List (String × Json)
  | .obj _ entries => entries
  | .arr items => items.zipIdx.map fun item => (toString item.2, item.1)
  | _ => []

def putLabel (labels : JsObject ℚ) (entry : String × Json) : JsObject ℚ :=
  match entry.2 with
  | .str v => putProperty labels entry.1 (.str v)
  | _ => labels

def stringLabels (labelsRaw : Json) : Json :=
  let labels := (ownEntries labelsRaw).foldl putLabel (true, [])
  .obj labels.1 labels.2

/-- `normalizeMetadata` of the service that terminates the containers of a thread. -/
def normalizeThreadMetadata (m : Json) : ContainerMetadata where
  labels := stringLabels (m.get "labels")
  platform := asString (m.get "platform")
  ttlSeconds := (asNumber (m.get "ttlSeconds")).getD defaultTtlSeconds
  lastError := asString (m.get "lastError")
  retryAfter := asString (m.get "retryAfter")
  terminationAttempts := asNumber (m.get "terminationAttempts")
  claimId := asString (m.get "claimId")
  mounts := none
  autoRemoved := none
  health := none
  lastEventAt := none

structure ContainerRow where
  threadId : Option String
  status : ContainerStatus
  terminationReason : Option String
  deletedAt : Option ℤ
  metadata : Json

abbrev Containers := InsMap String ContainerRow

def updateRow (s : Containers) (containerId : String) (f : ContainerRow → ContainerRow) :
    Containers :=
  match s.get containerId with
  | none => s
  | some row => s.set containerId (f row)

structure StartArgs where
  containerId : String
  threadId : String
  name : String
  labels : Option (InsMap String String)
  platform : Option String
  ttlSeconds : Option ℚ
  mounts : Option (List ContainerMount)

def labelsJson (labels : InsMap String String) : Json :=
  .record (labels.entries.map fun e => (e.1, .str e.2))

/-- The upsert of `registerStart`; a name that is empty throws before it. -/
def registerStart (s : Containers) (args : StartArgs) (nowIso : String) : Containers :=
  let mounts := sanitizeContainerMounts
    (optional args.mounts fun mounts => .arr (mounts.map mountJson))
  match ContainerRegistry.sanitizeName args.name with
  | .error _ => s
  | .ok _ =>
    s.set args.containerId {
      threadId := truthy (some args.threadId)
      status := .running
      terminationReason := none
      deletedAt := none
      metadata := ContainerMetadata.toJson {
        labels := labelsJson (args.labels.getD .empty)
        platform := args.platform
        ttlSeconds := args.ttlSeconds.getD defaultTtlSeconds
        lastError := none
        retryAfter := none
        terminationAttempts := none
        claimId := none
        mounts := nonEmpty mounts
        autoRemoved := none
        health := none
        lastEventAt := some nowIso } }

namespace ContainerRow

def markTerminating (row : ContainerRow) (reason : String) (claimId : Option String) :
    ContainerRow :=
  let metadata := normalizeMetadata row.metadata
  { row with
    status := .terminating
    terminationReason := some reason
    metadata := { metadata with claimId := (truthy claimId).or metadata.claimId }.toJson }

def markStopped (row : ContainerRow) (reason nowIso : String) : ContainerRow :=
  { row with
    status := .stopped
    deletedAt := none
    terminationReason := some reason
    metadata := { normalizeMetadata row.metadata with lastEventAt := some nowIso }.toJson }

def markDeleted (row : ContainerRow) (reason nowIso : String) (now : ℤ) : ContainerRow :=
  { row with
    status := .stopped
    deletedAt := some now
    terminationReason := some reason
    metadata := { normalizeMetadata row.metadata with lastEventAt := some nowIso }.toJson }

/-- The row that `claimForTermination` finds is one that runs. -/
def claimForTermination (row : ContainerRow) (claimId : String) : ContainerRow :=
  if row.status = .running then
    { row with
      status := .terminating
      metadata := { normalizeMetadata row.metadata with claimId := some claimId }.toJson }
  else row

/-- `isoAfter` writes the time that is some milliseconds from now. Attempts are counted from
zero. -/
def recordTerminationFailure (row : ContainerRow) (message : String) (isoAfter : ℚ → String) :
    ContainerRow :=
  let metadata := normalizeMetadata row.metadata
  let attempts := metadata.terminationAttempts.getD 0
  let delayMs : ℚ := min (2 ^ attempts.num.toNat * 1000) (15 * 60 * 1000)
  { row with metadata := { metadata with
      lastError := some message
      retryAfter := some (isoAfter delayMs)
      terminationAttempts := some (attempts + 1) }.toJson }

end ContainerRow

/-- What an event sets of the metadata, and when it was. -/
structure EventMetadata where
  timestampMs : ℤ
  createdAtIso : String
  autoRemoved : Bool
  health : Option ContainerHealthStatus

def healthText : ContainerHealthStatus → String
  | .healthy => "healthy"
  | .unhealthy => "unhealthy"
  | .starting => "starting"

/-- `metadata[key] = value`; a property of an array is not stored. -/
def setField (metadata : Json) (key : String) (value : Json) : Json :=
  match metadata with
  | .obj isPlain entries =>
    if entries.any fun e => e.1 = key then
      .obj isPlain (entries.map fun e => if e.1 = key then (key, value) else e)
    else .obj isPlain (entries ++ [(key, value)])
  | other => other

/-- The metadata after an event that is not stale; a value that is there already is written again
without a difference. -/
def eventMetadata (metadata : Json) (event : EventMetadata) : Json :=
  let metadata := setField (asObject metadata) "lastEventAt" (.str event.createdAtIso)
  let metadata :=
    if event.autoRemoved then setField metadata "autoRemoved" (.bool true) else metadata
  match event.health with
  | some health => setField metadata "health" (.str (healthText health))
  | none => metadata

/-- `parseDate` is the one of the language. -/
def isStale (parseDate : String → Option ℤ) (metadata : Json) (event : EventMetadata) : Bool :=
  ((asString (metadata.get "lastEventAt")).bind parseDate).any fun last => event.timestampMs < last

/-- A call of `terminateByThread`: the containers that the runtime finds by their label, the clock,
the claim ids, and the statements that throw. -/
structure ThreadCall where
  threadId : String
  discovered : List String
  nowIso : String
  candidate : String → String
  claimFails : String → Bool
  updateFails : String → Bool

def ThreadCall.lists (call : ThreadCall) (row : ContainerRow) : Bool :=
  row.threadId = some call.threadId && (row.status = .running || row.status = .terminating)

/-- The queue: the containers of the thread that the table has, then those discovered. -/
def ThreadCall.queue (call : ThreadCall) (s : Containers) : List String :=
  (InsSet.ofList (((s.entries.filter fun e => call.lists e.2).map Prod.fst) ++
    call.discovered)).keys

def ThreadCall.claims (call : ThreadCall) (containerId : String) (row : ContainerRow) : Bool :=
  row.status = .running && !call.claimFails containerId

def ThreadCall.claimed (call : ThreadCall) (containerId : String) (row : ContainerRow) :
    ContainerRow :=
  if call.claims containerId row then row.claimForTermination (call.candidate containerId) else row

def ThreadCall.nextMetadata (call : ThreadCall) (containerId : String) (row : ContainerRow) :
    ContainerMetadata :=
  let claimId := if call.claims containerId row then some (call.candidate containerId) else none
  let metadata := normalizeThreadMetadata (call.claimed containerId row).metadata
  { metadata with
    claimId := (truthy claimId).or metadata.claimId
    retryAfter := some call.nowIso }

/-- `processContainer`, on the row of the container. Nothing else writes the row in between, so
that the status that was cached is the one it has. -/
def ThreadCall.processContainer (call : ThreadCall) (containerId : String) (row : ContainerRow) :
    ContainerRow :=
  if call.updateFails containerId then call.claimed containerId row
  else { call.claimed containerId row with
    status := .terminating
    terminationReason := some "thread_closed"
    metadata := (call.nextMetadata containerId row).toJson }

def terminateByThread (s : Containers) (call : ThreadCall) : Containers :=
  (call.queue s).foldl (fun s containerId =>
    if containerId = "" then s
    else updateRow s containerId (call.processContainer containerId)) s

/-- A call that writes the metadata of containers that are there. -/
inductive Write where
  | markTerminating (containerId reason : String) (claimId : Option String)
  | markStopped (containerId reason nowIso : String)
  | markDeleted (containerId reason nowIso : String) (now : ℤ)
  | claimForTermination (containerId claimId : String)
  | recordTerminationFailure (containerId message : String) (isoAfter : ℚ → String)
  | terminateByThread (call : ThreadCall)

def Write.apply (s : Containers) : Write → Containers
  | .markTerminating id reason claimId => updateRow s id (·.markTerminating reason claimId)
  | .markStopped id reason nowIso => updateRow s id (·.markStopped reason nowIso)
  | .markDeleted id reason nowIso now => updateRow s id (·.markDeleted reason nowIso now)
  | .claimForTermination id claimId => updateRow s id (·.claimForTermination claimId)
  | .recordTerminationFailure id message isoAfter =>
    updateRow s id (·.recordTerminationFailure message isoAfter)
  | .terminateByThread call => MetadataColumn.terminateByThread s call

/-- A step of the system. An event may leave any thread, status and reason in its row. -/
inductive Step where
  | registerStart (args : StartArgs) (nowIso : String)
  | handleEvent (containerId : String) (event : EventMetadata) (threadId : Option String)
      (status : ContainerStatus) (terminationReason : Option String)
  | write (w : Write)

def Step.apply (parseDate : String → Option ℤ) (s : Containers) : Step → Containers
  | .registerStart args nowIso => MetadataColumn.registerStart s args nowIso
  | .handleEvent id event threadId status terminationReason =>
    updateRow s id fun row =>
      if isStale parseDate row.metadata event then row
      else { row with
        threadId, status, terminationReason
        metadata := eventMetadata row.metadata event }
  | .write w => w.apply s

def run (parseDate : String → Option ℤ) (steps : List Step) : Containers :=
  steps.foldl (Step.apply parseDate) .empty

end Agyn.MetadataColumn
