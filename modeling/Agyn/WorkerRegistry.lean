import Mathlib.Data.Nat.Notation
import Mathlib.Logic.Function.Basic
import Agyn.GuardedRuns
import Agyn.PersistedGraph

/-!
The workers of a manage tool. Each worker is registered under the name that its configuration had
when it was last looked at; a look-up first brings the registrations of all workers up to date,
one after the other, and stops at the first one whose name is taken.
-/
namespace Agyn.WorkerRegistry

/-- An `AgentNode`. -/
abbrev Worker := ℕ

structure WorkerName where
  name : String
  normalized : String
  deriving DecidableEq

structure ManageToolNode where
  /-- In the order of their insertion. -/
  workers : List Worker
  workerNames : Worker → Option WorkerName
  workersByName : String → Option Worker

def ManageToolNode.initial : ManageToolNode := ⟨[], fun _ => none, fun _ => none⟩

/-- The name in the configuration of a worker, `none` when it has no configuration. A name that
is not a string counts as empty. -/
abbrev Configs := Worker → Option String

-- NFKC and lower case
variable (fold : String → String)

def normalizeKey (value : String) : String := fold (trim value)

def extractWorkerName (config : Option String) : Except String WorkerName :=
  match config with
  | none => .error "ManageToolNode: worker agent missing configuration"
  | some name =>
    let rawName := trim name
    if rawName = "" then .error "ManageToolNode: worker agent requires non-empty name"
    else .ok ⟨rawName, normalizeKey fold rawName⟩

namespace ManageToolNode

/-- Takes a name away from the worker when the worker holds it. -/
def release (m : ManageToolNode) (agent : Worker) (normalized : String) : ManageToolNode :=
  if m.workersByName normalized = some agent then
    { m with workersByName := Function.update m.workersByName normalized none }
  else m

def ensureUniqueName (m : ManageToolNode) (agent : Worker) (info : WorkerName) :
    Except String Unit :=
  match m.workersByName info.normalized with
  | some existing =>
    if existing ≠ agent then
      .error ("ManageToolNode: worker with name \"" ++ info.name ++ "\" already exists")
    else .ok ()
  | none => .ok ()

def register (m : ManageToolNode) (agent : Worker) (info : WorkerName) : ManageToolNode :=
  { m with
    workerNames := Function.update m.workerNames agent (some info)
    workersByName := Function.update m.workersByName info.normalized (some agent) }

variable (configs : Configs)

/-- What it changed before an error stays changed. -/
def syncWorker (m : ManageToolNode) (agent : Worker) : ManageToolNode × Except String WorkerName :=
  match extractWorkerName fold (configs agent) with
  | .error e => (m, .error e)
  | .ok latest =>
    if m.workerNames agent = some latest then (m, .ok latest)
    else
      let m := match m.workerNames agent with
        | some current => m.release agent current.normalized
        | none => m
      match m.ensureUniqueName agent latest with
      | .error e => (m, .error e)
      | .ok _ => (m.register agent latest, .ok latest)

def refreshWorkers (m : ManageToolNode) : List Worker → ManageToolNode × Except String Unit
  | [] => (m, .ok ())
  | agent :: rest =>
    match m.syncWorker fold configs agent with
    | (m, .error e) => (m, .error e)
    | (m, .ok _) => m.refreshWorkers rest

def refreshAllWorkers (m : ManageToolNode) : ManageToolNode × Except String Unit :=
  m.refreshWorkers fold configs m.workers

def addWorker (m : ManageToolNode) (agent : Worker) : ManageToolNode × Except String Unit :=
  let m := if agent ∈ m.workers then m else { m with workers := m.workers ++ [agent] }
  match m.syncWorker fold configs agent with
  | (m, .error e) => ({ m with workers := m.workers.erase agent }, .error e)
  | (m, .ok _) => (m, .ok ())

def removeWorker (m : ManageToolNode) (agent : Worker) : ManageToolNode :=
  let m := { m with workers := m.workers.erase agent }
  match m.workerNames agent with
  | none => m
  | some info =>
    let m := m.release agent info.normalized
    { m with workerNames := Function.update m.workerNames agent none }

def listWorkers (m : ManageToolNode) : ManageToolNode × Except String (List (Option String)) :=
  match m.refreshAllWorkers fold configs with
  | (m, .error e) => (m, .error e)
  | (m, .ok _) => (m, .ok (m.workers.map fun worker => (m.workerNames worker).map (·.name)))

def getWorkerByName (m : ManageToolNode) (name : String) :
    ManageToolNode × Except String (Option Worker) :=
  match m.refreshAllWorkers fold configs with
  | (m, .error e) => (m, .error e)
  | (m, .ok _) =>
    let normalized := normalizeKey fold name
    if normalized = "" then (m, .ok none)
    else
      match m.workersByName normalized with
      | none => (m, .ok none)
      | some agent =>
        match m.syncWorker fold configs agent with
        | (m, .error e) => (m, .error e)
        | (m, .ok _) => (m, .ok (some agent))

end ManageToolNode

/-- A manage tool and the configurations of the agents, which change on their own. -/
structure RegistryWorld where
  node : ManageToolNode
  configs : Configs

inductive RegistryCall where
  | addWorker (agent : Worker)
  | removeWorker (agent : Worker)
  | setConfig (agent : Worker) (name : Option String)
  | listWorkers
  | getWorkerByName (name : String)

namespace RegistryWorld

def initial : RegistryWorld := ⟨.initial, fun _ => none⟩

def setConfig (w : RegistryWorld) (agent : Worker) (name : Option String) : RegistryWorld :=
  { w with configs := Function.update w.configs agent name }

def perform (w : RegistryWorld) : RegistryCall → RegistryWorld
  | .addWorker agent => { w with node := (w.node.addWorker fold w.configs agent).1 }
  | .removeWorker agent => { w with node := w.node.removeWorker agent }
  | .setConfig agent name => w.setConfig agent name
  | .listWorkers => { w with node := (w.node.listWorkers fold w.configs).1 }
  | .getWorkerByName name => { w with node := (w.node.getWorkerByName fold w.configs name).1 }

def step (w : RegistryWorld) (call : RegistryCall) : Option RegistryWorld :=
  some (w.perform fold call)

end RegistryWorld

end Agyn.WorkerRegistry
