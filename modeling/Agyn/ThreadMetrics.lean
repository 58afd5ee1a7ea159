import Agyn.JoinedRows
import Agyn.References
import Agyn.ThreadCleanup

/-!
The metrics of threads. One recursive query joins the threads below each of the asked roots with
their running runs, their pending reminders and their running containers, and counts the joined
rows root by root.
-/
namespace Agyn.ThreadMetrics

open JoinedRows ThreadCleanup References

variable {ι : Type}

inductive RunStatus where
  | running
  | finished
  | terminated
  deriving DecidableEq

structure Run (ι : Type) where
  threadId : ι
  status : RunStatus

structure Reminder (ι : Type) where
  threadId : ι
  completedAt : Option ℤ
  cancelledAt : Option ℤ

inductive ContainerStatus where
  | running
  | stopped
  | terminating
  | failed
  deriving DecidableEq

structure Container (ι : Type) where
  threadId : Option ι
  status : ContainerStatus
  metadata : Option Json

/-- The value of a key, of an object; the operator of the database gives null for anything else. -/
def jsonField (key : String) : Json → Option Json
  | .obj entries => Json.get entries key
  | _ => none

/-- The condition on the role of a container. A role that is missing stands for a workspace, and
only a string can be one of the two. -/
def isSidecar (metadata : Option Json) : Bool :=
  match (metadata.bind (jsonField "labels")).bind (jsonField "hautech.ai/role") with
  | some (.str role) => role = "dind" ∨ role = "sidecar"
  | _ => false

def Run.isRunning (run : Run ι) : Bool := run.status = .running

def Reminder.isPending (rem : Reminder ι) : Bool :=
  rem.completedAt = none ∧ rem.cancelledAt = none

def Container.isCounted (cont : Container ι) : Bool :=
  cont.status = .running && !isSidecar cont.metadata

inductive Activity where
  | working
  | waiting
  | idle
  deriving DecidableEq

structure Metrics where
  remindersCount : ℕ
  containersCount : ℕ
  activity : Activity
  deriving DecidableEq

variable [DecidableEq ι]

structure Tables (ι : Type) [DecidableEq ι] where
  threads : ThreadTable ι
  runs : List (Run ι)
  reminders : List (Reminder ι)
  containers : List (Container ι)

/-- A row of `rec`. -/
structure SubtreeRow (ι : Type) where
  threadId : ι
  parentId : Option ι
  rootId : ι

/-- The first part of `rec`: the threads joined with the asked roots. -/
def Tables.roots (db : Tables ι) (ids : List ι) : List (SubtreeRow ι) :=
  db.threads.rows.flatMap fun t =>
    (ids.filter fun id => t.id = id).map fun _ => ⟨t.id, t.parentId, t.id⟩

/-- The second part of `rec`: the threads joined with the rows found last. -/
def Tables.children (db : Tables ι) (work : List (SubtreeRow ι)) : List (SubtreeRow ι) :=
  db.threads.rows.flatMap fun c =>
    (work.filter fun r => c.parentId = some r.threadId).map fun r => ⟨c.id, c.parentId, r.rootId⟩

def Tables.runningRuns (db : Tables ι) : List ι :=
  (db.runs.filter Run.isRunning).map Run.threadId

def Tables.activeReminders (db : Tables ι) : List ι :=
  (db.reminders.filter Reminder.isPending).map Reminder.threadId

def Tables.countedContainers (db : Tables ι) : List (Option ι) :=
  (db.containers.filter Container.isCounted).map Container.threadId

/-- A row with the columns of the joined tables, of which each may be null. -/
abbrev JoinedRow (ι : Type) := ((SubtreeRow ι × Option ι) × Option ι) × Option (Option ι)

def Tables.joined (db : Tables ι) (rec : List (SubtreeRow ι)) : List (JoinedRow ι) :=
  leftJoin
    (leftJoin (leftJoin rec db.runningRuns fun r threadId => threadId = r.threadId)
      db.activeReminders fun r threadId => threadId = r.1.threadId)
    db.countedContainers fun r threadId => threadId = some r.1.1.threadId

/-- A row of `agg`. -/
structure MetricsRow (ι : Type) where
  rootId : ι
  remindersCount : ℕ
  containersCount : ℕ
  descWorking : Option Bool
  selfWorking : Option Bool

/-- The aggregate `bool_or`, which is null without any row. -/
def boolOr : List Bool → Option Bool
  | [] => none
  | b :: bs => some ((b :: bs).any id)

def metricsRow (rootId : ι) (group : List (JoinedRow ι)) : MetricsRow ι where
  rootId
  remindersCount := (group.filter fun r => r.1.2.isSome).length
  containersCount := (group.filter fun r => r.2.isSome).length
  descWorking := boolOr ((group.filter fun r => r.1.1.1.threadId ≠ r.1.1.1.rootId).map
    fun r => r.1.1.2.isSome)
  selfWorking := boolOr ((group.filter fun r => r.1.1.1.threadId = r.1.1.1.rootId).map
    fun r => r.1.1.2.isSome)

def aggregate (joined : List (JoinedRow ι)) : List (MetricsRow ι) :=
  ((joined.map fun r => r.1.1.1.rootId).dedup).map fun rootId =>
    metricsRow rootId (joined.filter fun r => r.1.1.1.rootId = rootId)

/-- The cast to an integer of the database, which fails when it is out of range. -/
def toInt4 (n : ℕ) : Option ℕ := if n ≤ 2147483647 then some n else none

def MetricsRow.cast (row : MetricsRow ι) : Option (MetricsRow ι) := do
  let remindersCount ← toInt4 row.remindersCount
  let containersCount ← toInt4 row.containersCount
  some { row with remindersCount, containersCount }

def Tables.queryRaw (db : Tables ι) (rec : List (SubtreeRow ι)) : Option (List (MetricsRow ι)) :=
  (aggregate (db.joined rec)).mapM MetricsRow.cast

def MetricsRow.activity (r : MetricsRow ι) : Activity :=
  if r.selfWorking = some true then .working
  else if r.descWorking = some true ∨ 0 < r.remindersCount then .waiting
  else .idle

def MetricsRow.metrics (r : MetricsRow ι) : Metrics :=
  ⟨r.remindersCount, r.containersCount, r.activity⟩

/-- The metrics of the rows; a query that fails is logged and leaves none. -/
def metricsOf : Option (List (MetricsRow ι)) → InsMap ι Metrics
  | none => .empty
  | some rows => rows.foldl (fun out r => out.set r.rootId r.metrics) .empty

/-- The metrics by thread, once the query ends. A client without raw queries, as the tests stub
it, is `none`. -/
def getThreadsMetrics (prisma : Option (Tables ι)) (fuel : ℕ) (ids : List ι) :
    Option (InsMap ι Metrics) :=
  if ids = [] then some .empty
  else
    match prisma with
    | none => some (metricsOf (some (ids.map fun id => ⟨id, 0, 0, some false, some false⟩)))
    | some db =>
      (unionAll db.children fuel (db.roots ids)).map fun rec => metricsOf (db.queryRaw rec)

end Agyn.ThreadMetrics
