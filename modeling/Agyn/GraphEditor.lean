import Agyn.GuardedRuns
import Mathlib.Algebra.Order.Ring.Rat
import Mathlib.Logic.Function.Basic

/-!
The graph editor's hook: its nodes, the references beside them, the timer of the next save and the
save in flight. React runs the updater of `setNodes` at once, when no other update is waiting, or
with the next render; the reference to the nodes follows the render in an effect. What is not saved
of a node is left out, and the hook stays mounted.
-/
namespace Agyn.GraphEditor

/-- A configuration: its entry `title`, if it has one, and its other entries. -/
structure NodeConfig where
  title : Option String
  rest : List (String × String)
  deriving DecidableEq

/-- A title in an object that has no other entries or has some. -/
def setTitle (title : String) (config : Option NodeConfig) : NodeConfig :=
  { config.getD ⟨none, []⟩ with title := some title }

abbrev NodeState := List (String × String)

structure Position where
  x : ℚ
  y : ℚ
  deriving DecidableEq

structure GraphNodeConfig where
  id : String
  template : String
  title : String
  x : ℚ
  y : ℚ
  config : Option NodeConfig
  state : Option NodeState
  deriving DecidableEq

structure GraphNodeMetadata where
  template : String
  config : Option NodeConfig
  state : Option NodeState
  position : Option Position
  deriving DecidableEq

structure GraphPersistedEdge where
  id : Option String
  source : String
  sourceHandle : String
  target : String
  targetHandle : String
  deriving DecidableEq

structure GraphPersistedNode where
  id : String
  template : String
  position : Position
  config : Option NodeConfig
  state : Option NodeState
  deriving DecidableEq

structure GraphUpsertRequest where
  name : String
  version : Option ℕ
  nodes : List GraphPersistedNode
  edges : List GraphPersistedEdge
  deriving DecidableEq

structure SavedGraph where
  name : String
  version : Option ℕ
  edges : List GraphPersistedEdge
  deriving DecidableEq

abbrev Metadata := String → Option GraphNodeMetadata

def toPersistedNode (node : GraphNodeConfig) (entry : GraphNodeMetadata) :
    GraphPersistedNode :=
  ⟨node.id, entry.template, ⟨node.x, node.y⟩, entry.config, entry.state⟩

def persistedNodes (metadata : Metadata) (nodes : List GraphNodeConfig) :
    Option (List GraphPersistedNode) :=
  nodes.mapM fun node => (metadata node.id).map (toPersistedNode node)

def buildGraphSavePayload (name : String) (version : Option ℕ) (nodes : List GraphNodeConfig)
    (metadata : Metadata) (edges : List GraphPersistedEdge) : Option GraphUpsertRequest :=
  (persistedNodes metadata nodes).map fun nodes => ⟨name, version, nodes, edges⟩

/-- What is to change: a config or a state that is the node's own object is no update. -/
structure GraphNodeUpdate where
  title : Option String
  config : Option (Option NodeConfig)
  state : Option NodeState
  x : Option ℚ
  y : Option ℚ
  deriving DecidableEq

/-- A patch keeps the title that the node has had when it brings none. -/
def patchConfig (previous patch : Option NodeConfig) : Option NodeConfig :=
  patch.map fun patch =>
    match patch.title, previous.bind (·.title) with
    | none, some title => { patch with title := some title }
    | _, _ => patch

def updateOne (updates : GraphNodeUpdate) (node : GraphNodeConfig)
    (entry : Option GraphNodeMetadata) : GraphNodeConfig × Option GraphNodeMetadata × Bool :=
  let nextConfig := match updates.config with
    | some patch => patchConfig node.config patch
    | none => node.config
  let metaConfig := match updates.config with
    | some patch => patchConfig node.config patch
    | none => entry.bind (·.config)
  let titled := match updates.title with
    | some title => (some (setTitle title nextConfig), some (setTitle title metaConfig))
    | none => (nextConfig, metaConfig)
  let nextX := updates.x.getD node.x
  let nextY := updates.y.getD node.y
  let positionUpdated := decide (nextX ≠ node.x) || decide (nextY ≠ node.y)
  ({ node with
      title := updates.title.getD node.title
      config := titled.1
      state := updates.state <|> node.state
      x := nextX
      y := nextY },
    entry.map fun entry => { entry with
      config := titled.2
      state := updates.state <|> entry.state
      position := if positionUpdated then some ⟨nextX, nextY⟩ else entry.position },
    updates.config.isSome || updates.title.isSome || positionUpdated)

/-- The updater of `updateNode`, with the metadata that it writes. -/
def updateNodes (nodeId : String) (updates : GraphNodeUpdate) :
    List GraphNodeConfig → Metadata → List GraphNodeConfig × Metadata × Bool
  | [], metadata => ([], metadata, false)
  | node :: nodes, metadata =>
    if node.id ≠ nodeId then
      let next := updateNodes nodeId updates nodes metadata
      (node :: next.1, next.2)
    else
      let updated := updateOne updates node (metadata nodeId)
      let next := updateNodes nodeId updates nodes (Function.update metadata nodeId updated.2.1)
      (updated.1 :: next.1, next.2.1, updated.2.2 || next.2.2)

/-- The updater of `addNode`: a node with the same id is replaced where it stands. -/
def addNodeTo (node : GraphNodeConfig) (nodes : List GraphNodeConfig) : List GraphNodeConfig :=
  match nodes.findIdx? fun existing => existing.id = node.id with
  | some existingIndex => nodes.set existingIndex node
  | none => nodes ++ [node]

def removeNodesFrom (ids : List String) (nodes : List GraphNodeConfig) : List GraphNodeConfig :=
  nodes.filter fun node => !(ids.contains node.id)

/-- An updater of `setNodes` that waits for the next render. -/
inductive Updater where
  | update (nodeId : String) (updates : GraphNodeUpdate)
  | remove (ids : List String)
  | add (node : GraphNodeConfig)
  deriving DecidableEq

inductive SavingStatus where
  | saving
  | saved
  | error (message : String)
  deriving DecidableEq

/-- A save as it was sent, with the version returned before and the edges the user had set. -/
structure Send where
  payload : GraphUpsertRequest
  due : Option ℕ
  userEdges : List GraphPersistedEdge
  deriving DecidableEq

structure Hook where
  /-- The nodes with all updates but the waiting ones, and the nodes of the last render. -/
  nodes : List GraphNodeConfig
  queue : List Updater
  rendered : List GraphNodeConfig
  nodesRef : List GraphNodeConfig
  edges : List GraphPersistedEdge
  metadata : Metadata
  base : SavedGraph
  savingState : SavingStatus
  timer : Bool
  dirty : Bool
  hydrated : Bool
  savingInFlight : Bool
  pendingSave : Bool
  inFlight : List GraphUpsertRequest
  /-- The version returned last, the edges as the user has set them and the saves sent. -/
  returned : Option ℕ
  userEdges : List GraphPersistedEdge
  sends : List Send
  /-- The nodes and edges of the last payload saved, at first those of the graph loaded. -/
  lastSaved : Option (List GraphPersistedNode) × List GraphPersistedEdge

namespace Hook

def loaded (graph : SavedGraph) (nodes : List GraphNodeConfig) (metadata : Metadata) : Hook :=
  ⟨nodes, [], nodes, nodes, graph.edges, metadata, graph, .saved, false, false, false, false, false,
    [], graph.version, graph.edges, [], (persistedNodes metadata nodes, graph.edges)⟩

def content (s : Hook) : Option (List GraphPersistedNode) × List GraphPersistedEdge :=
  (persistedNodes s.metadata s.nodes, s.edges)

def scheduleSave (s : Hook) : Hook :=
  if !s.hydrated then s
  else
    let s := { s with dirty := true, savingState := .saving }
    if s.savingInFlight then { s with pendingSave := true } else { s with timer := true }

/-- `performSave` up to the request; a payload that cannot be built is a failure. -/
def performSave (s : Hook) : Hook :=
  let s := { s with timer := false }
  if !s.dirty then { s with pendingSave := false }
  else if s.savingInFlight then { s with pendingSave := true }
  else
    match buildGraphSavePayload s.base.name s.base.version s.nodesRef s.metadata s.base.edges with
    | some payload =>
      { s with
        savingInFlight := true
        pendingSave := false
        dirty := false
        inFlight := s.inFlight ++ [payload]
        sends := s.sends ++ [⟨payload, s.returned, s.userEdges⟩] }
    | none =>
      { s with
        pendingSave := false
        dirty := true
        savingState := .error ("Missing metadata for node " ++
          ((s.nodesRef.find? fun node => (s.metadata node.id).isNone).elim "" (·.id))) }

/-- The end of a save: a save that waits is made at once. -/
def finish (s : Hook) : Hook :=
  let s := { s with savingInFlight := false }
  if s.pendingSave then { s with pendingSave := false, dirty := true }.performSave else s

def saveSucceeded (payload : GraphUpsertRequest) (result : SavedGraph) (s : Hook) : Hook :=
  { s with
    base := result
    edges := result.edges
    savingState := if s.dirty || s.pendingSave then .saving else .saved
    returned := result.version
    lastSaved := (some payload.nodes, payload.edges) }.finish

def saveFailed (message : String) (s : Hook) : Hook :=
  { s with dirty := true, savingState := .error message }.finish

/-- An updater is run; that of `addNode` writes the reference to the nodes, too. -/
def run (u : Updater) (s : Hook) : Hook :=
  match u with
  | .update nodeId updates =>
    let next := updateNodes nodeId updates s.nodes s.metadata
    let s := { s with nodes := next.1, metadata := next.2.1 }
    if next.2.2 then s.scheduleSave else s
  | .remove ids => { s with nodes := removeNodesFrom ids s.nodes }
  | .add node =>
    let next := addNodeTo node s.nodes
    { s with nodes := next, nodesRef := next }

/-- `setNodes`: the updater is run at once or waits. -/
def setNodes (eager : Bool) (u : Updater) (s : Hook) : Hook :=
  if eager then s.run u else { s with queue := s.queue ++ [u] }

def setEdges (next : List GraphPersistedEdge) (s : Hook) : Hook :=
  { s with base := { s.base with edges := next }, edges := next, userEdges := next }.scheduleSave

def keepEdges (ids : List String) (edges : List GraphPersistedEdge) : List GraphPersistedEdge :=
  edges.filter fun edge => !(ids.contains edge.source) && !(ids.contains edge.target)

/-- `removeNodes` before it schedules a save. -/
def withoutNodes (eager : Bool) (idSet : List String) (s : Hook) : Hook :=
  let next := { s.setNodes eager (.remove idSet) with
    metadata := fun id => if idSet.contains id then none else s.metadata id
    userEdges := keepEdges idSet s.userEdges }
  let filteredEdges := keepEdges idSet s.base.edges
  if filteredEdges.length ≠ s.base.edges.length then
    { next with base := { s.base with edges := filteredEdges }, edges := filteredEdges }
  else next

/-- The nodes count as removed when the updater has run by the end of the call. -/
def removeNodes (eager : Bool) (ids : List String) (s : Hook) : Hook :=
  let idSet := ids.filter fun id => id ≠ ""
  if idSet = [] then s
  else
    let nodesRemoved := eager && decide ((removeNodesFrom idSet s.nodes).length ≠ s.nodes.length)
    let edgesRemoved := decide ((keepEdges idSet s.base.edges).length ≠ s.base.edges.length)
    if !nodesRemoved && !edgesRemoved then s.withoutNodes eager idSet
    else (s.withoutNodes eager idSet).scheduleSave

/-- `addNode`, which throws on an empty id, and then `scheduleSave`. -/
def addNode (eager : Bool) (node : GraphNodeConfig) (metadata : GraphNodeMetadata) (s : Hook) :
    Hook :=
  if node.id = "" then s
  else
    ({ s with
      metadata := Function.update s.metadata node.id (some { metadata with
        config := metadata.config <|> node.config
        state := metadata.state <|> node.state
        position := some (metadata.position.getD ⟨node.x, node.y⟩) }) }.setNodes eager
      (.add node)).scheduleSave

end Hook

inductive Action where
  | hydrate
  | updateNode (eager : Bool) (nodeId : String) (updates : GraphNodeUpdate)
  | setEdges (next : List GraphPersistedEdge)
  | removeNodes (eager : Bool) (ids : List String)
  | addNode (eager : Bool) (node : GraphNodeConfig) (metadata : GraphNodeMetadata)
  | scheduleSave
  /-- A render runs the first updater that waits; with none left it commits, and its effect
  follows. -/
  | evaluate
  | commit
  | effect
  | timer
  | saveSucceeded (result : SavedGraph)
  | saveFailed (message : String)

/-- An updater may be run at once only when no update is waiting for a render. -/
def mayRun (eager : Bool) (s : Hook) : Bool :=
  !eager || (decide (s.queue = []) && decide (s.nodes = s.rendered))

def step (s : Hook) : Action → Option Hook
  | .hydrate =>
    if s.hydrated then none else some { s with hydrated := true, savingState := .saved }
  | .updateNode eager nodeId updates =>
    if mayRun eager s then some (s.setNodes eager (.update nodeId updates)) else none
  | .setEdges next => some (s.setEdges next)
  | .removeNodes eager ids => if mayRun eager s then some (s.removeNodes eager ids) else none
  | .addNode eager node metadata =>
    if mayRun eager s then some (s.addNode eager node metadata) else none
  | .scheduleSave => some s.scheduleSave
  | .evaluate =>
    match s.queue with
    | [] => none
    | u :: queue => some ({ s with queue }.run u)
  | .commit => if s.queue = [] then some { s with rendered := s.nodes } else none
  | .effect => some { s with nodesRef := s.rendered }
  | .timer => if s.timer then some s.performSave else none
  | .saveSucceeded result =>
    match s.inFlight with
    | [] => none
    | payload :: inFlight => some ({ s with inFlight }.saveSucceeded payload result)
  | .saveFailed message =>
    match s.inFlight with
    | [] => none
    | _ :: inFlight => some ({ s with inFlight }.saveFailed message)

/-- An update that changes the state of a node changes something that makes it save, too. -/
def GraphNodeUpdate.saves (updates : GraphNodeUpdate) : Bool :=
  updates.state.isNone || updates.config.isSome || updates.title.isSome

/-- An updater that changes what is to be saved only together with a save. -/
def Updater.harmless (nodes : List GraphNodeConfig) : Updater → Bool
  | .update _ updates => updates.saves
  | .remove ids => nodes.all fun node => !(ids.contains node.id)
  | .add _ => false

/-- The reference to the nodes is up to date, and no node is waiting to come or to go. -/
def SaveReady (s : Hook) : Prop :=
  (∀ u ∈ s.queue, u.harmless s.nodes = true) ∧
    persistedNodes s.metadata s.nodesRef = persistedNodes s.metadata s.nodes

/-- Edits come when the graph is hydrated; a save is built from the nodes as they are; an edit that
does not save by itself comes while a save is due, or changes nothing that is saved; and a save that
succeeds returns the edges as they are then. -/
def KeepsEdits (s : Hook) : Action → Prop
  | .updateNode _ _ updates => s.hydrated = true ∧ (s.dirty = true ∨ updates.saves = true)
  | .setEdges _ => s.hydrated = true
  | .removeNodes eager ids => s.hydrated = true ∧ (s.dirty = true ∨ eager = true ∨
      (Hook.keepEdges (ids.filter fun id => id ≠ "") s.base.edges).length ≠ s.base.edges.length ∨
      ∀ node ∈ s.nodes, node.id ∉ ids.filter fun id => id ≠ "")
  | .addNode _ _ _ => s.hydrated = true
  | .timer => s.dirty = true → s.savingInFlight = false → SaveReady s
  | .saveSucceeded result => result.edges = s.base.edges ∧ (s.pendingSave = true → SaveReady s)
  | .saveFailed _ => s.pendingSave = true → SaveReady s
  | _ => True

instance (s : Hook) : Decidable (SaveReady s) := by
  unfold SaveReady
  infer_instance

instance (s : Hook) (a : Action) : Decidable (KeepsEdits s a) := by
  cases a <;> unfold KeepsEdits <;> infer_instance

theorem persistedNodes_cons (metadata : Metadata) (node : GraphNodeConfig)
    (nodes : List GraphNodeConfig) :
    persistedNodes metadata (node :: nodes) =
      ((metadata node.id).map (toPersistedNode node)).bind fun first =>
        (persistedNodes metadata nodes).map (first :: ·) := by
  rw [persistedNodes, List.mapM_cons]
  cases (metadata node.id).map (toPersistedNode node) with
  | none => rfl
  | some first =>
    show (persistedNodes metadata nodes).bind _ = _
    cases persistedNodes metadata nodes <;> rfl

/-- Only the metadata of the nodes there are is read. -/
theorem persistedNodes_congr {metadata metadata' : Metadata} {nodes : List GraphNodeConfig}
    (h : ∀ node ∈ nodes, metadata' node.id = metadata node.id) :
    persistedNodes metadata' nodes = persistedNodes metadata nodes := by
  induction nodes with
  | nil => rfl
  | cons node nodes ih =>
    rw [persistedNodes_cons, persistedNodes_cons, h node List.mem_cons_self,
      ih fun other hother => h other (List.mem_cons_of_mem _ hother)]

variable {updates : GraphNodeUpdate} {nodeId : String}

@[simp] theorem id_updateOne (node : GraphNodeConfig) (entry : Option GraphNodeMetadata) :
    (updateOne updates node entry).1.id = node.id := rfl

/-- An update of one node that saves nothing leaves what is saved of it. -/
theorem updateOne_quiet (hsaves : updates.saves = true) (node : GraphNodeConfig)
    (entry : Option GraphNodeMetadata) (h : (updateOne updates node entry).2.2 = false) :
    (updateOne updates node entry).2.1 = entry ∧
      ∀ other,
        toPersistedNode (updateOne updates node entry).1 other = toPersistedNode node other := by
  simp only [updateOne, Bool.or_eq_false_iff, decide_eq_false_iff_not, not_not] at h
  obtain ⟨⟨hconfig, htitle⟩, hx, hy⟩ := h
  have hconfig : updates.config = none := by simpa using hconfig
  have htitle : updates.title = none := by simpa using htitle
  have hstate : updates.state = none := by
    simpa [GraphNodeUpdate.saves, hconfig, htitle] using hsaves
  refine ⟨?_, fun other => ?_⟩
  · cases entry with
    | none => rfl
    | some entry => simp [updateOne, hconfig, htitle, hstate, hx, hy]
  · simp [updateOne, toPersistedNode, hx, hy]

/-- An update that saves nothing leaves the metadata and what is saved of the nodes. -/
theorem updateNodes_quiet (hsaves : updates.saves = true) (nodes : List GraphNodeConfig)
    (metadata : Metadata) (h : (updateNodes nodeId updates nodes metadata).2.2 = false) :
    (updateNodes nodeId updates nodes metadata).2.1 = metadata ∧
      persistedNodes metadata (updateNodes nodeId updates nodes metadata).1 =
        persistedNodes metadata nodes := by
  induction nodes with
  | nil => exact ⟨rfl, rfl⟩
  | cons node nodes ih =>
    rw [updateNodes] at h ⊢
    split_ifs at h ⊢ with hid
    · obtain ⟨hmetadata, hnodes⟩ := ih h
      refine ⟨hmetadata, ?_⟩
      rw [persistedNodes_cons, persistedNodes_cons, hnodes]
    · obtain ⟨hone, hrest⟩ := Bool.or_eq_false_iff.mp h
      obtain ⟨hentry, hnode⟩ := updateOne_quiet hsaves node (metadata nodeId) hone
      dsimp only at hrest ⊢
      rw [hentry, Function.update_eq_self] at hrest ⊢
      obtain ⟨hmetadata, hnodes⟩ := ih hrest
      refine ⟨hmetadata, ?_⟩
      rw [persistedNodes_cons, persistedNodes_cons, hnodes, id_updateOne, funext hnode]

theorem map_id_updateNodes (nodes : List GraphNodeConfig) (metadata : Metadata) :
    (updateNodes nodeId updates nodes metadata).1.map (·.id) = nodes.map (·.id) := by
  induction nodes generalizing metadata with
  | nil => rfl
  | cons node nodes ih =>
    rw [updateNodes]
    split_ifs
    · rw [List.map_cons, List.map_cons, ih]
    · rw [List.map_cons, List.map_cons, ih]
      rfl

/-- Whether an updater is harmless depends on the ids of the nodes. -/
theorem harmless_congr {nodes nodes' : List GraphNodeConfig}
    (h : nodes'.map (·.id) = nodes.map (·.id)) (u : Updater) :
    u.harmless nodes' = u.harmless nodes := by
  cases u with
  | remove ids =>
    have hall : ∀ nodes : List GraphNodeConfig,
        Updater.harmless nodes (.remove ids) =
          (nodes.map (·.id)).all fun id => !(ids.contains id) := by
      intro nodes
      rw [List.all_map]
      rfl
    rw [hall, hall, h]
  | update nodeId updates => rfl
  | add node => rfl

/-- Nodes of which none has one of the ids are kept. -/
theorem removeNodesFrom_eq_self {ids : List String} {nodes : List GraphNodeConfig}
    (h : ∀ node ∈ nodes, node.id ∉ ids) : removeNodesFrom ids nodes = nodes := by
  refine List.filter_eq_self.mpr fun node hnode => ?_
  simpa using h node hnode

theorem not_mem_of_removeNodesFrom {ids : List String} {nodes : List GraphNodeConfig}
    (h : (removeNodesFrom ids nodes).length = nodes.length) :
    ∀ node ∈ nodes, node.id ∉ ids := by
  intro node hnode
  have hkept := List.length_filter_eq_length_iff.mp h node hnode
  simpa using hkept

/-- One save at most is in flight, and the base is what was returned last with the user's edges. -/
structure Steady (s : Hook) : Prop where
  single : s.inFlight.length ≤ 1
  idle : s.savingInFlight = false → s.inFlight = []
  version : s.base.version = s.returned
  edges : s.edges = s.base.edges
  user : s.userEdges = s.base.edges
  sends : ∀ r ∈ s.sends, r.payload.version = r.due ∧ r.payload.edges = r.userEdges

/-- Nothing has to be saved but what is on its way. -/
structure Clean (s : Hook) : Prop where
  waiting : ∀ u ∈ s.queue, u.harmless s.nodes = true
  idle : s.inFlight = [] → s.lastSaved = s.content
  onItsWay : ∀ payload ∈ s.inFlight, (some payload.nodes, payload.edges) = s.content

structure Kept (s : Hook) : Prop where
  steady : Steady s
  clean : s.dirty = false → Clean s
  saved : s.savingState = .saved → s.dirty = false ∧ s.inFlight = []
  loading : s.hydrated = false → s.dirty = false ∧ s.inFlight = [] ∧ s.queue = []

variable {s s' : Hook}

theorem kept_loaded (graph : SavedGraph) (nodes : List GraphNodeConfig) (metadata : Metadata) :
    Kept (.loaded graph nodes metadata) where
  steady := ⟨Nat.zero_le _, fun _ => rfl, rfl, rfl, rfl, nofun⟩
  clean _ := ⟨nofun, fun _ => rfl, nofun⟩
  saved _ := ⟨rfl, rfl⟩
  loading _ := ⟨rfl, rfl, rfl⟩

/-- A save that is due covers whatever has been changed. -/
theorem Steady.scheduleSave (h : Steady s) (hhydrated : s.hydrated = true) :
    Kept s.scheduleSave := by
  have hup : ¬ (!s.hydrated) = true := by simp [hhydrated]
  rw [Hook.scheduleSave, if_neg hup]
  dsimp only
  split_ifs
  · exact ⟨⟨h.single, h.idle, h.version, h.edges, h.user, h.sends⟩, nofun, nofun,
      fun hloading => absurd (hhydrated.symm.trans hloading) nofun⟩
  · exact ⟨⟨h.single, h.idle, h.version, h.edges, h.user, h.sends⟩, nofun, nofun,
      fun hloading => absurd (hhydrated.symm.trans hloading) nofun⟩

/-- Nodes, metadata and waiting updaters may change as long as what has to be saved is known. -/
theorem Kept.withNodes (h : Kept s) (nodes : List GraphNodeConfig) (queue : List Updater)
    (rendered nodesRef : List GraphNodeConfig) (metadata : Metadata)
    (hclean : s.dirty = false → Clean { s with nodes, queue, rendered, nodesRef, metadata })
    (hloading : s.hydrated = false → queue = []) :
    Kept { s with nodes, queue, rendered, nodesRef, metadata } where
  steady := ⟨h.steady.single, h.steady.idle, h.steady.version, h.steady.edges, h.steady.user,
    h.steady.sends⟩
  clean := hclean
  saved := h.saved
  loading hload := ⟨(h.loading hload).1, (h.loading hload).2.1, hloading hload⟩

/-- What is on its way or saved is known when what is to be saved stays the same. -/
theorem Clean.congr (h : Clean s) (hcontent : s'.content = s.content)
    (hsaved : s'.lastSaved = s.lastSaved) (hflight : s'.inFlight = s.inFlight)
    (hwaiting : ∀ u ∈ s'.queue, u.harmless s'.nodes = true) : Clean s' where
  waiting := hwaiting
  idle hidle := by
    rw [hsaved, hcontent]
    exact h.idle (hflight ▸ hidle)
  onItsWay payload hpayload := by
    rw [hcontent]
    exact h.onItsWay payload (hflight ▸ hpayload)

theorem Kept.performSave (h : Kept s)
    (hready : s.dirty = true → s.savingInFlight = false → SaveReady s) : Kept s.performSave := by
  have hclean : ∀ timer pendingSave, s.dirty = false →
      Clean { s with timer, pendingSave } := fun _ _ hdirty =>
    (h.clean hdirty).congr rfl rfl rfl (h.clean hdirty).waiting
  have hsteady : ∀ timer pendingSave, Kept { s with timer, pendingSave } := fun timer pendingSave =>
    ⟨⟨h.steady.single, h.steady.idle, h.steady.version, h.steady.edges, h.steady.user,
      h.steady.sends⟩, hclean timer pendingSave, h.saved, h.loading⟩
  unfold Hook.performSave
  dsimp only
  split_ifs with hdirty hflight
  · exact hsteady _ _
  · exact hsteady _ _
  · have hdue : s.dirty = true := by simpa using hdirty
    have hhydrated : s.hydrated = false → False := fun hload =>
      absurd (hdue.symm.trans (h.loading hload).1) nofun
    have hidle : s.inFlight = [] := h.steady.idle (by simpa using hflight)
    have hstatus : s.savingState ≠ .saved := fun hsaved =>
      absurd (hdue.symm.trans (h.saved hsaved).1) nofun
    cases hpayload : buildGraphSavePayload s.base.name s.base.version s.nodesRef s.metadata
        s.base.edges with
    | none =>
      exact ⟨⟨h.steady.single, h.steady.idle, h.steady.version, h.steady.edges, h.steady.user,
        h.steady.sends⟩, nofun, nofun, fun hload => (hhydrated hload).elim⟩
    | some payload =>
      obtain ⟨hwaiting, hnodes⟩ := hready hdue (by simpa using hflight)
      obtain ⟨nodes, hpersisted, rfl⟩ := Option.map_eq_some_iff.mp hpayload
      dsimp only
      rw [hidle, List.nil_append]
      refine ⟨⟨Nat.le_refl _, nofun, h.steady.version, h.steady.edges, h.steady.user, ?_⟩,
        fun _ => ⟨hwaiting, nofun, ?_⟩, fun hsaved => absurd hsaved hstatus,
        fun hload => (hhydrated hload).elim⟩
      · intro r hr
        obtain hr | hr := List.mem_append.mp hr
        · exact h.steady.sends r hr
        · obtain rfl := List.mem_singleton.mp hr
          exact ⟨h.steady.version, h.steady.user.symm⟩
      · intro payload hmem
        obtain rfl := List.mem_singleton.mp hmem
        rw [Hook.content, ← hnodes, hpersisted, h.steady.edges]

/-- A save that has ended is followed by the one that waits. -/
theorem Kept.finish (h : Kept { s with savingInFlight := false })
    (hstatus : s.pendingSave = true → s.savingState ≠ .saved) (hhydrated : s.hydrated = true)
    (hready : s.pendingSave = true → SaveReady s) : Kept s.finish := by
  unfold Hook.finish
  dsimp only
  split_ifs with hpending
  · refine Kept.performSave ⟨⟨h.steady.single, h.steady.idle, h.steady.version, h.steady.edges,
      h.steady.user, h.steady.sends⟩, nofun, fun hsaved => absurd hsaved (hstatus hpending),
      fun hload => absurd (hhydrated.symm.trans hload) nofun⟩ fun _ _ => hready hpending
  · exact h

/-- A request in flight is the only one, and is sent by an editor that has loaded. -/
theorem Kept.single_inFlight (h : Kept s) {payload : GraphUpsertRequest}
    {inFlight : List GraphUpsertRequest} (hflight : s.inFlight = payload :: inFlight) :
    s.hydrated = true ∧ inFlight = [] := by
  constructor
  · by_contra hload
    rw [(h.loading (by simpa using hload)).2.1] at hflight
    cases hflight
  · have hsingle := h.steady.single
    rw [hflight, List.length_cons] at hsingle
    exact List.length_eq_zero_iff.mp (by omega)

theorem Kept.saveSucceeded (h : Kept s) {payload : GraphUpsertRequest}
    {inFlight : List GraphUpsertRequest} (hflight : s.inFlight = payload :: inFlight)
    {result : SavedGraph} (hedges : result.edges = s.base.edges)
    (hready : s.pendingSave = true → SaveReady s) :
    Kept ({ s with inFlight }.saveSucceeded payload result) := by
  obtain ⟨hhydrated, hrest⟩ := h.single_inFlight hflight
  have hcontent : s.content = (persistedNodes s.metadata s.nodes, result.edges) := by
    rw [Hook.content, h.steady.edges, hedges]
  rw [Hook.saveSucceeded]
  refine Kept.finish ⟨⟨?_, fun _ => hrest, rfl, rfl, ?_, h.steady.sends⟩, fun hdirty => ?_,
    fun hsaved => ?_, fun hload => absurd (hhydrated.symm.trans hload) nofun⟩ (fun hpending => ?_)
    hhydrated hready
  · rw [hrest]
    exact Nat.zero_le _
  · exact h.steady.user.trans hedges.symm
  · have hclean := h.clean hdirty
    refine ⟨hclean.waiting, fun _ => ?_, fun other hother => ?_⟩
    · exact (hclean.onItsWay payload (by simp [hflight])).trans hcontent
    · rw [hrest] at hother
      cases hother
  · refine ⟨?_, hrest⟩
    by_contra hdirty
    have hdue : s.dirty = true := by simpa using hdirty
    simp [hdue] at hsaved
  · have hpend : s.pendingSave = true := hpending
    simp [hpend]

theorem Kept.saveFailed (h : Kept s) {payload : GraphUpsertRequest}
    {inFlight : List GraphUpsertRequest} (hflight : s.inFlight = payload :: inFlight)
    (message : String) (hready : s.pendingSave = true → SaveReady s) :
    Kept ({ s with inFlight }.saveFailed message) := by
  obtain ⟨hhydrated, hrest⟩ := h.single_inFlight hflight
  rw [Hook.saveFailed]
  refine Kept.finish ⟨⟨?_, fun _ => hrest, h.steady.version, h.steady.edges, h.steady.user,
    h.steady.sends⟩, nofun, nofun, fun hload => absurd (hhydrated.symm.trans hload) nofun⟩
    (fun _ => nofun) hhydrated hready
  rw [hrest]
  exact Nat.zero_le _

/-- An updater is run that is harmless, or while a save is due. -/
theorem Kept.run (h : Kept s) (hhydrated : s.hydrated = true) {u : Updater}
    (hharmless : s.dirty = true ∨ u.harmless s.nodes = true) : Kept (s.run u) := by
  have hload : s.hydrated = false → s.queue = [] := fun hload => (h.loading hload).2.2
  cases u with
  | update nodeId updates =>
    rw [Hook.run]
    by_cases hsave : (updateNodes nodeId updates s.nodes s.metadata).2.2 = true
    · rw [if_pos hsave]
      exact Steady.scheduleSave ⟨h.steady.single, h.steady.idle, h.steady.version, h.steady.edges,
        h.steady.user, h.steady.sends⟩ hhydrated
    · rw [if_neg hsave]
      refine h.withNodes _ s.queue s.rendered s.nodesRef _ (fun hdirty => ?_) hload
      have hsaves : updates.saves = true :=
        hharmless.resolve_left (by rw [hdirty]; exact Bool.false_ne_true)
      obtain ⟨hmetadata, hnodes⟩ :=
        updateNodes_quiet hsaves s.nodes s.metadata (by simpa using hsave)
      refine (h.clean hdirty).congr ?_ rfl rfl fun u hu => ?_
      · rw [Hook.content, Hook.content, hmetadata, hnodes]
      · rw [harmless_congr (map_id_updateNodes s.nodes s.metadata) u]
        exact (h.clean hdirty).waiting u hu
  | remove ids =>
    refine h.withNodes _ s.queue s.rendered s.nodesRef s.metadata (fun hdirty => ?_) hload
    have hnone := hharmless.resolve_left (by rw [hdirty]; exact Bool.false_ne_true)
    have hself : removeNodesFrom ids s.nodes = s.nodes :=
      removeNodesFrom_eq_self fun node hnode => by simpa using List.all_eq_true.mp hnone node hnode
    rw [hself]
    exact (h.clean hdirty).congr rfl rfl rfl (h.clean hdirty).waiting
  | add node =>
    refine h.withNodes _ s.queue s.rendered _ s.metadata (fun hdirty => ?_) hload
    exact absurd (hharmless.resolve_left (by rw [hdirty]; exact Bool.false_ne_true)) nofun

/-- An updater waits that is harmless, or while a save is due. -/
theorem Kept.wait (h : Kept s) (hhydrated : s.hydrated = true) {u : Updater}
    (hharmless : s.dirty = true ∨ u.harmless s.nodes = true) :
    Kept { s with queue := s.queue ++ [u] } := by
  refine h.withNodes s.nodes _ s.rendered s.nodesRef s.metadata (fun hdirty => ?_)
    fun hload => absurd (hhydrated.symm.trans hload) nofun
  refine (h.clean hdirty).congr rfl rfl rfl fun other hother => ?_
  obtain hother | hother := List.mem_append.mp hother
  · exact (h.clean hdirty).waiting other hother
  · obtain rfl := List.mem_singleton.mp hother
    exact hharmless.resolve_left (by rw [hdirty]; exact Bool.false_ne_true)

theorem Kept.setNodes (h : Kept s) (hhydrated : s.hydrated = true) (eager : Bool) {u : Updater}
    (hharmless : s.dirty = true ∨ u.harmless s.nodes = true) : Kept (s.setNodes eager u) := by
  rw [Hook.setNodes]
  split_ifs
  · exact h.run hhydrated hharmless
  · exact h.wait hhydrated hharmless

theorem Kept.setEdges (h : Kept s) (hhydrated : s.hydrated = true)
    (next : List GraphPersistedEdge) : Kept (s.setEdges next) :=
  Steady.scheduleSave ⟨h.steady.single, h.steady.idle, h.steady.version, rfl, rfl, h.steady.sends⟩
    hhydrated

theorem setNodes_add (s : Hook) (eager : Bool) (node : GraphNodeConfig) :
    s.setNodes eager (.add node) =
      { s with
        nodes := if eager then addNodeTo node s.nodes else s.nodes
        nodesRef := if eager then addNodeTo node s.nodes else s.nodesRef
        queue := if eager then s.queue else s.queue ++ [.add node] } := by
  cases eager <;> rfl

theorem setNodes_remove (s : Hook) (eager : Bool) (ids : List String) :
    s.setNodes eager (.remove ids) =
      { s with
        nodes := if eager then removeNodesFrom ids s.nodes else s.nodes
        queue := if eager then s.queue else s.queue ++ [.remove ids] } := by
  cases eager <;> rfl

theorem Kept.addNode (h : Kept s) (hhydrated : s.hydrated = true) (eager : Bool)
    (node : GraphNodeConfig) (metadata : GraphNodeMetadata) :
    Kept (s.addNode eager node metadata) := by
  rw [Hook.addNode, setNodes_add]
  by_cases hid : node.id = ""
  · rw [if_pos hid]
    exact h
  · rw [if_neg hid]
    exact Steady.scheduleSave ⟨h.steady.single, h.steady.idle, h.steady.version, h.steady.edges,
      h.steady.user, h.steady.sends⟩ hhydrated

theorem keepEdges_eq_self {ids : List String} {edges : List GraphPersistedEdge}
    (h : (Hook.keepEdges ids edges).length = edges.length) : Hook.keepEdges ids edges = edges :=
  List.filter_eq_self.mpr (List.length_filter_eq_length_iff.mp h)

/-- The base has the user's edges before and after nodes are removed. -/
theorem Steady.withoutNodes (h : Steady s) (eager : Bool) (idSet : List String) :
    Steady (s.withoutNodes eager idSet) := by
  have huser : Hook.keepEdges idSet s.userEdges = Hook.keepEdges idSet s.base.edges := by
    rw [h.user]
  rw [Hook.withoutNodes, setNodes_remove]
  dsimp only
  by_cases hedges : (Hook.keepEdges idSet s.base.edges).length = s.base.edges.length
  · rw [if_neg (not_not.mpr hedges)]
    exact ⟨h.single, h.idle, h.version, h.edges, huser.trans (keepEdges_eq_self hedges), h.sends⟩
  · rw [if_pos hedges]
    exact ⟨h.single, h.idle, h.version, rfl, huser, h.sends⟩

theorem hydrated_withoutNodes (s : Hook) (eager : Bool) (idSet : List String) :
    (s.withoutNodes eager idSet).hydrated = s.hydrated := by
  rw [Hook.withoutNodes, setNodes_remove]
  dsimp only
  split_ifs <;> rfl

/-- Nothing that is saved goes when no node and no edge goes. -/
theorem Kept.withoutNodes (h : Kept s) (hhydrated : s.hydrated = true) (eager : Bool)
    {idSet : List String}
    (hedges : (Hook.keepEdges idSet s.base.edges).length = s.base.edges.length)
    (hnodes : s.dirty = true ∨ ∀ node ∈ s.nodes, node.id ∉ idSet) :
    Kept (s.withoutNodes eager idSet) := by
  have huser : Hook.keepEdges idSet s.userEdges = s.userEdges := by
    rw [h.steady.user]
    exact keepEdges_eq_self hedges
  have hharmless : s.dirty = true ∨ (Updater.remove idSet).harmless s.nodes = true := by
    refine hnodes.imp_right fun hnodes => List.all_eq_true.mpr fun node hnode => ?_
    simpa using hnodes node hnode
  have hset := h.setNodes hhydrated eager hharmless
  rw [Hook.withoutNodes, setNodes_remove]
  dsimp only
  rw [if_neg (not_not.mpr hedges), huser]
  rw [setNodes_remove] at hset
  refine hset.withNodes _ _ _ _ _ (fun hdirty => ?_)
    fun hload => absurd (hhydrated.symm.trans hload) nofun
  have hnone := hnodes.resolve_left (by rw [show s.dirty = false from hdirty]; nofun)
  have hself : removeNodesFrom idSet s.nodes = s.nodes := removeNodesFrom_eq_self hnone
  refine (hset.clean hdirty).congr ?_ rfl rfl (hset.clean hdirty).waiting
  rw [Hook.content, Hook.content]
  dsimp only
  rw [hself, ite_self]
  have hkept : ∀ node ∈ s.nodes,
      (if idSet.contains node.id then none else s.metadata node.id) = s.metadata node.id := by
    intro node hnode
    exact if_neg (by simpa using hnone node hnode)
  rw [persistedNodes_congr hkept]

theorem Kept.removeNodes (h : Kept s) (hhydrated : s.hydrated = true) (eager : Bool)
    (ids : List String)
    (hquiet : s.dirty = true ∨ eager = true ∨
      (Hook.keepEdges (ids.filter fun id => id ≠ "") s.base.edges).length ≠ s.base.edges.length ∨
      ∀ node ∈ s.nodes, node.id ∉ ids.filter fun id => id ≠ "") :
    Kept (s.removeNodes eager ids) := by
  rw [Hook.removeNodes]
  dsimp only
  split_ifs with hempty hnone
  · exact h
  · simp only [Bool.and_eq_true, Bool.not_eq_true', Bool.and_eq_false_iff,
      decide_eq_false_iff_not, not_not] at hnone
    obtain ⟨hnodes, hedges⟩ := hnone
    refine h.withoutNodes hhydrated eager hedges ?_
    obtain hdirty | heager | hremoved | habsent := hquiet
    · exact .inl hdirty
    · refine .inr (not_mem_of_removeNodesFrom (hnodes.resolve_left ?_))
      rw [heager]
      nofun
    · exact absurd hedges hremoved
    · exact .inr habsent
  · exact Steady.scheduleSave (h.steady.withoutNodes eager _)
      ((hydrated_withoutNodes s eager _).trans hhydrated)

/-- An update that waits is one of an editor that has loaded, and changes nothing while the editor
is clean. -/
theorem Kept.evaluate (h : Kept s) {u : Updater} {queue : List Updater}
    (hqueue : s.queue = u :: queue) : Kept ({ s with queue }.run u) := by
  have hhydrated : s.hydrated = true := by
    by_contra hload
    rw [(h.loading (by simpa using hload)).2.2] at hqueue
    cases hqueue
  have hrest : Kept { s with queue } :=
    h.withNodes s.nodes queue s.rendered s.nodesRef s.metadata
      (fun hdirty => (h.clean hdirty).congr rfl rfl rfl fun other hother =>
        (h.clean hdirty).waiting other (by rw [hqueue]; exact List.mem_cons_of_mem _ hother))
      fun hload => absurd (hhydrated.symm.trans hload) nofun
  refine hrest.run hhydrated ?_
  cases hdirty : s.dirty with
  | true => exact .inl rfl
  | false => exact .inr ((h.clean hdirty).waiting u (by rw [hqueue]; exact List.mem_cons_self))

theorem Kept.step {a : Action} (h : Kept s) (hkeeps : KeepsEdits s a)
    (hstep : GraphEditor.step s a = some s') : Kept s' := by
  have hquiet : ∀ rendered nodesRef, Kept { s with rendered, nodesRef } := fun rendered nodesRef =>
    h.withNodes s.nodes s.queue rendered nodesRef s.metadata
      (fun hdirty => (h.clean hdirty).congr rfl rfl rfl (h.clean hdirty).waiting)
      fun hload => (h.loading hload).2.2
  cases a with
  | hydrate =>
    rw [GraphEditor.step] at hstep
    split_ifs at hstep with hhydrated
    obtain rfl := Option.some.inj hstep
    have hload := h.loading (by simpa using hhydrated)
    exact ⟨⟨h.steady.single, h.steady.idle, h.steady.version, h.steady.edges, h.steady.user,
      h.steady.sends⟩, fun hdirty => (h.clean hdirty).congr rfl rfl rfl (h.clean hdirty).waiting,
      fun _ => ⟨hload.1, hload.2.1⟩, nofun⟩
  | updateNode eager nodeId updates =>
    rw [GraphEditor.step] at hstep
    split_ifs at hstep
    obtain rfl := Option.some.inj hstep
    exact h.setNodes hkeeps.1 eager hkeeps.2
  | setEdges next =>
    obtain rfl := Option.some.inj hstep
    exact h.setEdges hkeeps next
  | removeNodes eager ids =>
    rw [GraphEditor.step] at hstep
    split_ifs at hstep
    obtain rfl := Option.some.inj hstep
    exact h.removeNodes hkeeps.1 eager ids hkeeps.2
  | addNode eager node metadata =>
    rw [GraphEditor.step] at hstep
    split_ifs at hstep
    obtain rfl := Option.some.inj hstep
    exact h.addNode hkeeps eager node metadata
  | scheduleSave =>
    obtain rfl := Option.some.inj hstep
    by_cases hhydrated : s.hydrated = true
    · exact h.steady.scheduleSave hhydrated
    · rw [Hook.scheduleSave, if_pos (by simpa using hhydrated)]
      exact h
  | evaluate =>
    rw [GraphEditor.step] at hstep
    cases hqueue : s.queue with
    | nil => simp [hqueue] at hstep
    | cons u queue =>
      simp only [hqueue] at hstep
      obtain rfl := Option.some.inj hstep
      exact h.evaluate hqueue
  | commit =>
    rw [GraphEditor.step] at hstep
    split_ifs at hstep
    obtain rfl := Option.some.inj hstep
    exact hquiet s.nodes s.nodesRef
  | effect =>
    obtain rfl := Option.some.inj hstep
    exact hquiet s.rendered s.rendered
  | timer =>
    rw [GraphEditor.step] at hstep
    split_ifs at hstep
    obtain rfl := Option.some.inj hstep
    exact h.performSave hkeeps
  | saveSucceeded result =>
    rw [GraphEditor.step] at hstep
    cases hflight : s.inFlight with
    | nil => simp [hflight] at hstep
    | cons payload inFlight =>
      simp only [hflight] at hstep
      obtain rfl := Option.some.inj hstep
      exact h.saveSucceeded hflight hkeeps.1 hkeeps.2
  | saveFailed message =>
    rw [GraphEditor.step] at hstep
    cases hflight : s.inFlight with
    | nil => simp [hflight] at hstep
    | cons payload inFlight =>
      simp only [hflight] at hstep
      obtain rfl := Option.some.inj hstep
      exact h.saveFailed hflight message hkeeps

/-- In runs that keep the edits one save at most is in flight, each save carries the version
returned before it and the edges the user had set, and with the status saved the last payload saved
has the nodes and the edges of the editor, which are the user's. -/
theorem edits_kept {graph : SavedGraph} {nodes : List GraphNodeConfig} {metadata : Metadata}
    (h : Reached step KeepsEdits (.loaded graph nodes metadata) s) :
    s.inFlight.length ≤ 1 ∧
      (∀ r ∈ s.sends, r.payload.version = r.due ∧ r.payload.edges = r.userEdges) ∧
      (s.savingState = .saved → s.lastSaved = s.content ∧ s.edges = s.userEdges) := by
  have hkept : Kept s := h.invariant (kept_loaded graph nodes metadata)
    fun _ _ _ hinv hkeeps hstep => hinv.step hkeeps hstep
  refine ⟨hkept.steady.single, hkept.steady.sends, fun hsaved => ?_⟩
  obtain ⟨hdirty, hidle⟩ := hkept.saved hsaved
  exact ⟨(hkept.clean hdirty).idle hidle, hkept.steady.edges.trans hkept.steady.user.symm⟩

def agentNode : GraphNodeConfig := ⟨"agent", "agent", "Agent", 0, 0, none, none⟩

def toolNode : GraphNodeConfig := ⟨"tool", "shellTool", "Shell", 40, 0, none, none⟩

def toolEdge : GraphPersistedEdge :=
  ⟨some "agent-tools__tool-$self", "agent", "tools", "tool", "$self"⟩

def twoNodes : Hook :=
  .loaded ⟨"main", some 7, []⟩ [agentNode, toolNode] fun id =>
    if id = "agent" then some ⟨"agent", none, none, some ⟨0, 0⟩⟩
    else if id = "tool" then some ⟨"shellTool", none, none, some ⟨40, 0⟩⟩ else none

def editedApart : List Action :=
  [.hydrate, .updateNode true "agent" ⟨some "Helper", none, none, none, none⟩, .commit, .effect,
    .timer, .saveSucceeded ⟨"main", some 8, []⟩, .setEdges [toolEdge], .timer,
    .saveSucceeded ⟨"main", some 9, [toolEdge]⟩]

theorem edits_kept_apart :
    ∃ s, runFrom step twoNodes editedApart = some s ∧ s.savingState = .saved ∧
      s.userEdges = [toolEdge] ∧ s.lastSaved = s.content ∧ s.edges = s.userEdges := by
  have hmeet : StepsMeet step KeepsEdits twoNodes editedApart := by
    decide +kernel
  have hrun : (runFrom step twoNodes editedApart).map (fun s => (s.savingState, s.userEdges)) =
      some (.saved, [toolEdge]) := by
    decide +kernel
  obtain ⟨s, hs, heq⟩ := Option.map_eq_some_iff.mp hrun
  obtain ⟨hsaved, huser⟩ := Prod.mk.inj heq
  exact ⟨s, hs, hsaved, huser, (edits_kept (Reached.init.run hmeet hs)).2.2 hsaved⟩

/-- The edge is drawn while the save of the title is in flight. -/
def editedInFlight : List Action :=
  [.hydrate, .updateNode true "agent" ⟨some "Helper", none, none, none, none⟩, .commit, .effect,
    .timer, .setEdges [toolEdge], .saveSucceeded ⟨"main", some 8, []⟩,
    .saveSucceeded ⟨"main", some 9, []⟩]

theorem edge_lost :
    ∃ s, Reached step (fun _ _ => True) twoNodes s ∧ s.savingState = .saved ∧
      s.userEdges = [toolEdge] ∧ s.lastSaved.2 = [] ∧ s.edges = [] ∧
        ∃ r ∈ s.sends, r.userEdges = [toolEdge] ∧ r.payload.edges = [] := by
  have hrun : ((runFrom step twoNodes editedInFlight).any fun s =>
      decide (s.savingState = .saved ∧ s.userEdges = [toolEdge] ∧ s.lastSaved.2 = [] ∧
        s.edges = [] ∧ ∃ r ∈ s.sends, r.userEdges = [toolEdge] ∧ r.payload.edges = [])) = true := by
    decide +kernel
  obtain ⟨s, hs, heq⟩ := (Option.any_eq_true _ _).mp hrun
  exact ⟨s, .of_run hs, of_decide_eq_true heq⟩

end Agyn.GraphEditor
