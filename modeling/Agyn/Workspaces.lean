import Agyn.GuardedRuns
import Mathlib.Data.List.Perm.Basic

/-!
`DockerWorkspaceRuntimeProvider.ensureWorkspace`, as calls that run at the same time over one
container runtime. A call goes from one await to the next; a find, the label reads of a list of
candidates, a start, a stop and a remove are one step each.
-/
namespace Agyn.Workspaces

/-- `SUPPORTED_PLATFORMS`. -/
inductive Platform where
  | linuxAmd64
  | linuxArm64
  deriving DecidableEq

def Platform.value : Platform → String
  | .linuxAmd64 => "linux/amd64"
  | .linuxArm64 => "linux/arm64"

/-- The base labels of a container: its thread and its node. -/
structure Place where
  threadId : String
  nodeId : String
  deriving DecidableEq

/-- The getter `nodeId` of a node throws while it is empty. -/
structure WorkspaceKey where
  threadId : String
  nodeId : String
  nodeId_ne : nodeId ≠ ""
  platform : Option Platform
  deriving DecidableEq

structure WorkspaceSpec where
  dockerInDocker : Bool
  deriving DecidableEq

def buildBaseLabels (key : WorkspaceKey) : Place := ⟨key.threadId, key.nodeId⟩

/-- A container that is not removed, with its labels. -/
structure Container where
  id : ℕ
  place : Place
  role : Option String
  platform : Option String
  running : Bool
  deriving DecidableEq

/-- What the runner adds: the labels it sets itself and the order of its listings. -/
structure Runner where
  platformLabel : Option Platform → Option String
  sidecarRole : Option String
  listed : List Container → List Container

def isSidecarRole (role : Option String) : Bool := role = some "dind" ∨ role = some "sidecar"

/-- A requested platform becomes the platform label, a sidecar gets a role of its own, and a listing
has the containers that match. -/
structure Runner.Lawful (runner : Runner) : Prop where
  platform : ∀ p : Platform, runner.platformLabel (some p) = some p.value
  sidecar : isSidecarRole runner.sidecarRole
  listed_perm : ∀ containers, (runner.listed containers).Perm containers

/-- A call by its next await, with the locals it still needs: the label read in `deciding`, and the
id of the container that `recreatedForPlatform` is about. -/
inductive Phase where
  | finding
  | findingFallback
  | choosing (candidates : List ℕ)
  | checking (id : ℕ)
  | deciding (id : ℕ) (existingPlatformLabel : Option String)
  | stopping (id : ℕ)
  | removing (id : ℕ)
  | starting (recreated : Option ℕ)
  | registering (id : ℕ) (created : Bool) (recreated : Option ℕ)
  | settled (id : ℕ) (created : Bool) (recreated : Option ℕ)
  deriving DecidableEq

structure Call where
  key : WorkspaceKey
  spec : WorkspaceSpec
  phase : Phase
  deriving DecidableEq

def Call.place (call : Call) : Place := buildBaseLabels call.key

structure State where
  containers : List Container
  nextId : ℕ
  calls : List Call
  deriving DecidableEq

def isWorkspace (c : Container) : Bool := c.role = some "workspace"

def containersAt (containers : List Container) (place : Place) : List Container :=
  containers.filter (·.place = place)

def workspacesAt (containers : List Container) (place : Place) : List Container :=
  (containersAt containers place).filter isWorkspace

variable (runner : Runner)

/-- `findContainerByLabels` with the labels of a workspace; only running containers are listed. -/
def findWorkspace (containers : List Container) (place : Place) : Option ℕ :=
  ((runner.listed ((workspacesAt containers place).filter (·.running))).map (·.id)).head?

/-- `findContainersByLabels` with the base labels. -/
def findCandidates (containers : List Container) (place : Place) : List ℕ :=
  (runner.listed ((containersAt containers place).filter (·.running))).map (·.id)

/-- `getContainerLabels`, which throws on a container that is gone. -/
def getContainer (containers : List Container) (id : ℕ) : Option Container :=
  containers.find? (·.id = id)

/-- The first candidate without the role of a sidecar; labels that cannot be read have no role. -/
def chooseWorkspaceContainer (containers : List Container) (candidates : List ℕ) : Option ℕ :=
  candidates.find? fun id => !isSidecarRole ((getContainer containers id).bind (·.role))

/-- `getContainerPlatformLabel`. -/
def platformLabelOf (containers : List Container) (id : ℕ) : Option String :=
  (getContainer containers id).bind (·.platform)

/-- The labels are read again where no label was found before; a read that fails asks for a new
container. -/
def shouldRecreateForPlatform (containers : List Container) (id : ℕ) (platform : Option Platform)
    (existingPlatformLabel : Option String) : Bool :=
  match platform with
  | none => false
  | some p =>
    match existingPlatformLabel with
    | some label => label ≠ p.value
    | none =>
      match getContainer containers id with
      | some c => c.platform ≠ some p.value
      | none => true

def stopContainer (containers : List Container) (id : ℕ) : List Container :=
  containers.map fun c => if c.id = id then { c with running := false } else c

def removeContainer (containers : List Container) (id : ℕ) : List Container :=
  containers.filter (·.id ≠ id)

/-- The sidecar has the base labels of its workspace and the role that the runner gives it. -/
def startedContainers (nextId : ℕ) (key : WorkspaceKey) (spec : WorkspaceSpec) : List Container :=
  ⟨nextId, buildBaseLabels key, some "workspace", runner.platformLabel key.platform, true⟩ ::
    if spec.dockerInDocker then
      [⟨nextId + 1, buildBaseLabels key, runner.sidecarRole, none, true⟩]
    else []

abbrev Outcome := List Container × ℕ × Phase

def Call.next (containers : List Container) (nextId : ℕ) (call : Call) : Option Outcome :=
  match call.phase with
  | .finding =>
    some (containers, nextId,
      match findWorkspace runner containers call.place with
      | some id => .checking id
      | none => .findingFallback)
  | .findingFallback =>
    some (containers, nextId,
      match findCandidates runner containers call.place with
      | [] => .starting none
      | candidates => .choosing candidates)
  | .choosing candidates =>
    some (containers, nextId,
      match chooseWorkspaceContainer containers candidates with
      | some id => .checking id
      | none => .starting none)
  | .checking id => some (containers, nextId, .deciding id (platformLabelOf containers id))
  | .deciding id label =>
    some (containers, nextId,
      if shouldRecreateForPlatform containers id call.key.platform label then .stopping id
      else .registering id false none)
  | .stopping id => some (stopContainer containers id, nextId, .removing id)
  | .removing id => some (removeContainer containers id, nextId, .starting (some id))
  | .starting recreated =>
    some (containers ++ startedContainers runner nextId call.key call.spec, nextId + 2,
      .registering nextId true recreated)
  | .registering id created recreated => some (containers, nextId, .settled id created recreated)
  | .settled _ _ _ => none

inductive Action where
  | ensureWorkspace (key : WorkspaceKey) (spec : WorkspaceSpec)
  /-- The next step of a call. -/
  | advance (i : ℕ)

def step (s : State) : Action → Option State
  | .ensureWorkspace key spec => some { s with calls := s.calls ++ [⟨key, spec, .finding⟩] }
  | .advance i =>
    match s.calls[i]? with
    | none => none
    | some call =>
      (call.next runner s.containers s.nextId).map fun out =>
        ⟨out.1, out.2.1, s.calls.set i { call with phase := out.2.2 }⟩

def init : State := ⟨[], 0, []⟩

def Phase.replacing : Phase → Bool
  | .stopping _ | .removing _ => true
  | _ => false

/-- The fallback has been read, or the container found is being replaced, and no new one is started
yet. -/
def Phase.creating : Phase → Bool
  | .choosing _ | .stopping _ | .removing _ | .starting _ => true
  | _ => false

/-- The platform of the container found is not settled yet. -/
def Phase.comparing : Phase → Bool
  | .checking _ | .deciding _ _ => true
  | _ => false

/-- What the next step of a call asks of another call of its key. -/
def Phase.LeavesAlone (containers : List Container) (platform : Option Platform) :
    Phase → Phase → Prop
  | .finding, other => other.replacing = false
  | .findingFallback, other => other.creating = false
  | .deciding id label, other =>
    shouldRecreateForPlatform containers id platform label →
      other.creating = false ∧ other.comparing = false
  | _, _ => True

/-- The first find does not run while another call of the key replaces its container, the fallback
find not while another call of the key is creating one, and a container is replaced only while no
other call of the key is creating one or comparing its platform. -/
def StepsAlone (s : State) : Action → Prop
  | .ensureWorkspace _ _ => True
  | .advance i => ∀ call ∈ s.calls[i]?, ∀ other ∈ s.calls.eraseIdx i, other.place = call.place →
      call.phase.LeavesAlone s.containers call.key.platform other.phase

instance (containers : List Container) (platform : Option Platform) :
    ∀ phase other, Decidable (Phase.LeavesAlone containers platform phase other)
  | .finding, other => inferInstanceAs (Decidable (other.replacing = false))
  | .findingFallback, other => inferInstanceAs (Decidable (other.creating = false))
  | .deciding id label, other =>
    inferInstanceAs (Decidable (shouldRecreateForPlatform containers id platform label →
      other.creating = false ∧ other.comparing = false))
  | .choosing _, _ => isTrue trivial
  | .checking _, _ => isTrue trivial
  | .stopping _, _ => isTrue trivial
  | .removing _, _ => isTrue trivial
  | .starting _, _ => isTrue trivial
  | .registering _ _ _, _ => isTrue trivial
  | .settled _ _ _, _ => isTrue trivial

instance : ∀ s a, Decidable (StepsAlone s a)
  | _, .ensureWorkspace _ _ => isTrue trivial
  | s, .advance i =>
    inferInstanceAs (Decidable (∀ call ∈ s.calls[i]?, ∀ other ∈ s.calls.eraseIdx i,
      other.place = call.place → call.phase.LeavesAlone s.containers call.key.platform other.phase))

end Agyn.Workspaces
