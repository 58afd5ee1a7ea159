import Agyn.AcceptedGraphs
import Agyn.GraphEditor
import Agyn.NodeStateUpsert

/-!
One editor and the store behind it. The store's version is advanced by the saves of the editor and
by updates of node states; the editor hears of the latter through `node_state` events, which carry
the node and its state. A graph is read at once, a request is not given up before the server is done
with it, and the state that the nodes on display hold beside the metadata is set without delay.
-/
namespace Agyn.EditorVersions

open GraphEditor FsGraphRepository

/-- The values of a node that are opaque to the store. -/
inductive NodeValue where
  | config (value : NodeConfig)
  | state (value : NodeState)
  | position (value : Position)
  deriving DecidableEq

def NodeValue.state? : NodeValue → Option NodeState
  | .state value => some value
  | _ => none

abbrev StoredGraph := PersistedGraph NodeValue

def toStoredNode (node : GraphPersistedNode) : PersistedGraphNode NodeValue :=
  ⟨node.id, node.template, node.config.map .config, node.state.map .state,
    some (.position node.position)⟩

def toStoredEdge (edge : GraphPersistedEdge) : PersistedGraphEdge :=
  ⟨edge.id, edge.source, edge.sourceHandle, edge.target, edge.targetHandle⟩

def ofStoredEdge (edge : PersistedGraphEdge) : GraphPersistedEdge :=
  ⟨edge.id, edge.source, edge.sourceHandle, edge.target, edge.targetHandle⟩

/-- The body of `POST /api/graph`, parsed. -/
def toRequest (payload : GraphUpsertRequest) : PersistedGraphUpsertRequest NodeValue where
  name := if payload.name = "" then "main" else payload.name
  version := payload.version
  nodes := payload.nodes.map toStoredNode
  edges := payload.edges.map toStoredEdge
  vars := none

def toSaved (graph : StoredGraph) : SavedGraph :=
  ⟨graph.name, some graph.version, graph.edges.map ofStoredEdge⟩

/-- What `GET /api/graph` answers. -/
def fetchGraph (stored : Option StoredGraph) : SavedGraph :=
  toSaved (stored.getD (emptyGraph "main" "" (some [])))

/-- An upsert that gets the lock and whose writes go through. -/
def upsertStored (schema : List TemplateNodeSchema) (nowIso : String)
    (req : PersistedGraphUpsertRequest NodeValue) (stored : Option StoredGraph) :
    Except (UpsertError NodeValue) StoredGraph :=
  match validatePersistedGraph req schema with
  | .error message => .error (.invalid message)
  | .ok _ => planUpsert nowIso req stored

/-- A call of `NodeStateService.upsertNodeState` that has read the graph. -/
structure StateCall where
  nodeId : String
  merged : NodeState
  base : StoredGraph
  deriving DecidableEq

def StateCall.request (call : StateCall) : PersistedGraphUpsertRequest NodeValue :=
  nodeStateRequest "main" call.nodeId (.state call.merged) call.base

structure World where
  hook : Hook
  stored : Option StoredGraph
  /-- The nodes of the runtime's last graph, with their states. -/
  lastGraph : List (String × Option NodeState)
  /-- The answer to the save in flight, when the server is done with it. -/
  answer : Option (Except (UpsertError NodeValue) SavedGraph)
  calls : List StateCall
  /-- The events that have not been delivered, and all updates of node states committed. -/
  events : List (String × NodeState)
  updated : List (String × NodeState)

def applyNodeState (nodeId : String) (state : NodeState) (s : Hook) : Hook :=
  { s with
    metadata := Function.update s.metadata nodeId
      ((s.metadata nodeId).map fun entry => { entry with state := some state })
    nodes := s.nodes.map fun node =>
      if node.id = nodeId then { node with state := some state } else node }

namespace World

/-- The editor has loaded what is stored; it may show any view of the nodes. -/
def loaded (stored : Option StoredGraph) (nodes : List GraphNodeConfig) (metadata : Metadata)
    (lastGraph : List (String × Option NodeState)) : World :=
  ⟨.loaded (fetchGraph stored) nodes metadata, stored, lastGraph, none, [], [], []⟩

def snapshot (s : World) (nodeId : String) : Option NodeState :=
  (s.lastGraph.find? fun node => node.1 = nodeId).bind (·.2)

/-- `POST /api/graph`; the runtime takes the graph over unless it fails to. -/
def upsertGraph (schema : List TemplateNodeSchema) (nowIso : String) (applied : Bool)
    (payload : GraphUpsertRequest) (s : World) : World :=
  match upsertStored schema nowIso (toRequest payload) s.stored with
  | .error e => { s with answer := some (.error e) }
  | .ok saved =>
    { s with
      stored := some saved
      lastGraph :=
        if applied then saved.nodes.map fun node => (node.id, node.state.bind (·.state?))
        else s.lastGraph
      answer := some (.ok (toSaved saved)) }

/-- The rest of `upsertNodeState` from the upsert on; an upsert that fails is only logged. -/
def writeState (schema : List TemplateNodeSchema) (nowIso : String) (call : StateCall) (s : World) :
    World :=
  match upsertStored schema nowIso call.request s.stored with
  | .error _ => s
  | .ok target =>
    { s with
      stored := some target
      lastGraph := s.lastGraph.modify (s.lastGraph.findIdx fun node => node.1 = call.nodeId)
        fun node => (node.1, some call.merged)
      events := s.events ++ [(call.nodeId, call.merged)]
      updated := s.updated ++ [(call.nodeId, call.merged)] }

end World

inductive Action where
  | edit (a : GraphEditor.Action)
  | upsert (nowIso : String) (applied : Bool)
  /-- The save in flight fails before anything is written. -/
  | refuse (e : UpsertError NodeValue)
  | answer (message : String)
  /-- The answer does not arrive. -/
  | lose (message : String)
  | readState (nodeId : String) (patch : NodeState) (nowIso : String)
  | writeState (i : ℕ) (nowIso : String)
  | dropState (i : ℕ)
  | deliver (i : ℕ)

/-- The end of a request is the server's and not an edit. -/
def isAnswer : GraphEditor.Action → Bool
  | .saveSucceeded _ => true
  | .saveFailed _ => true
  | _ => false

variable (schema : List TemplateNodeSchema) (merge : NodeState → NodeState → NodeState)

def step (s : World) : Action → Option World
  | .edit a =>
    if isAnswer a then none else (GraphEditor.step s.hook a).map fun hook => { s with hook }
  | .upsert nowIso applied =>
    match s.hook.inFlight, s.answer with
    | payload :: _, none => some (s.upsertGraph schema nowIso applied payload)
    | _, _ => none
  | .refuse e =>
    match s.hook.inFlight, s.answer with
    | _ :: _, none => some { s with answer := some (.error e) }
    | _, _ => none
  | .answer message =>
    match s.answer with
    | none => none
    | some (.ok graph) =>
      (GraphEditor.step s.hook (.saveSucceeded graph)).map fun hook =>
        { s with hook, answer := none }
    | some (.error _) =>
      (GraphEditor.step s.hook (.saveFailed message)).map fun hook =>
        { s with hook, answer := none }
  | .lose message =>
    match s.answer with
    | none => none
    | some _ =>
      (GraphEditor.step s.hook (.saveFailed message)).map fun hook =>
        { s with hook, answer := none }
  | .readState nodeId patch nowIso =>
    some { s with
      calls := s.calls ++ [⟨nodeId, merge ((s.snapshot nodeId).getD []) patch,
        s.stored.getD (emptyGraph "main" nowIso none)⟩] }
  | .writeState i nowIso =>
    (s.calls[i]?).map fun call =>
      { s with calls := s.calls.eraseIdx i }.writeState schema nowIso call
  | .dropState i => if i < s.calls.length then some { s with calls := s.calls.eraseIdx i } else none
  | .deliver i =>
    (s.events[i]?).map fun event =>
      { s with hook := applyNodeState event.1 event.2 s.hook, events := s.events.eraseIdx i }

/-- An update of a node state finds the graph changed since it was read or does not pass validation,
and the answer to a save that was committed arrives. -/
def KeepsVersions (s : World) : Action → Prop
  | .writeState i _ => ∀ call ∈ s.calls[i]?,
      ¬ ((validatePersistedGraph call.request schema).isOk = true ∧
        call.base.version = storedVersion s.stored)
  | .lose _ => ∀ result ∈ s.answer, result.isOk = false
  | _ => True

instance (s : World) (a : Action) : Decidable (KeepsVersions schema s a) := by
  cases a <;> unfold KeepsVersions <;> infer_instance

/-- A save would put another state in the place of one that an update has committed. -/
def WritesBack (s : World) (payload : GraphUpsertRequest) : Prop :=
  ∃ node ∈ payload.nodes, ∃ own stored, node.state = some own ∧ own ≠ stored ∧
    (node.id, stored) ∈ s.updated ∧
      stateOf ((s.stored.map (·.nodes)).getD []) node.id = some (.state stored)

def nextPayload (s : Hook) : Option GraphUpsertRequest :=
  buildGraphSavePayload s.base.name s.base.version s.nodesRef s.metadata s.base.edges

/-- The base has the version that is stored; a save made now meets no conflict and writes back no
older state. -/
def Agrees (s : World) : Prop :=
  s.hook.base.version = some (storedVersion s.stored) ∧
    ∀ payload ∈ nextPayload s.hook, ¬ WritesBack s payload ∧
      ∀ nowIso current,
        upsertStored schema nowIso (toRequest payload) s.stored ≠ .error (.versionConflict current)

def flight (s : Hook) : List GraphUpsertRequest × Bool × Option ℕ :=
  (s.inFlight, s.savingInFlight, s.base.version)

section Flight

variable (s : Hook)

@[simp] theorem flight_scheduleSave : flight s.scheduleSave = flight s := by
  unfold Hook.scheduleSave
  by_cases hup : (!s.hydrated) = true
  · rw [if_pos hup]
  · rw [if_neg hup]
    dsimp only
    split <;> rfl

@[simp] theorem flight_run (u : Updater) : flight (s.run u) = flight s := by
  cases u with
  | update nodeId updates =>
    rw [Hook.run]
    split
    · exact flight_scheduleSave _
    · rfl
  | remove ids => rfl
  | add node => rfl

@[simp] theorem flight_setNodes (eager : Bool) (u : Updater) :
    flight (s.setNodes eager u) = flight s := by
  unfold Hook.setNodes
  split
  · exact flight_run s u
  · rfl

@[simp] theorem flight_setEdges (next : List GraphPersistedEdge) :
    flight (s.setEdges next) = flight s := by
  unfold Hook.setEdges
  exact flight_scheduleSave _

theorem flight_withoutNodes (eager : Bool) (idSet : List String) :
    flight (s.withoutNodes eager idSet) = flight s := by
  have hnodes := flight_setNodes s eager (.remove idSet)
  obtain ⟨hflight, hrest⟩ := Prod.mk.inj hnodes
  unfold Hook.withoutNodes
  dsimp only
  split
  · exact Prod.ext hflight (Prod.ext (Prod.mk.inj hrest).1 rfl)
  · exact hnodes

@[simp] theorem flight_removeNodes (eager : Bool) (ids : List String) :
    flight (s.removeNodes eager ids) = flight s := by
  unfold Hook.removeNodes
  dsimp only
  split
  · rfl
  · split
    · exact flight_withoutNodes s eager _
    · rw [flight_scheduleSave, flight_withoutNodes]

@[simp] theorem flight_addNode (eager : Bool) (node : GraphNodeConfig)
    (metadata : GraphNodeMetadata) : flight (s.addNode eager node metadata) = flight s := by
  unfold Hook.addNode
  split
  · rfl
  · rw [flight_scheduleSave, flight_setNodes]
    rfl

end Flight

/-- A save in flight is the only one, and it carries the version of the base. -/
structure Carries (s : Hook) : Prop where
  single : s.inFlight.length ≤ 1
  idle : s.savingInFlight = false → s.inFlight = []
  version : ∀ payload ∈ s.inFlight, payload.version = s.base.version

theorem Carries.congr {s t : Hook} (h : Carries s) (heq : flight t = flight s) : Carries t := by
  obtain ⟨hflight, hrest⟩ := Prod.mk.inj heq
  obtain ⟨hsaving, hversion⟩ := Prod.mk.inj hrest
  exact ⟨by rw [hflight]; exact h.single, by rw [hsaving, hflight]; exact h.idle,
    by rw [hflight, hversion]; exact h.version⟩

theorem Carries.last {s : Hook} (h : Carries s) {payload : GraphUpsertRequest}
    {rest : List GraphUpsertRequest} (hflight : s.inFlight = payload :: rest) : rest = [] := by
  have hsingle : (payload :: rest).length ≤ 1 := hflight ▸ h.single
  exact List.eq_nil_of_length_eq_zero (Nat.le_zero.mp (Nat.le_of_succ_le_succ hsingle))

theorem buildGraphSavePayload_version {name : String} {version : Option ℕ}
    {nodes : List GraphNodeConfig} {metadata : Metadata} {edges : List GraphPersistedEdge}
    {payload : GraphUpsertRequest}
    (h : buildGraphSavePayload name version nodes metadata edges = some payload) :
    payload.version = version := by
  obtain ⟨nodes, -, rfl⟩ := Option.map_eq_some_iff.mp h
  rfl

/-- What a step of the editor does to the saves, short of an answer. -/
structure Sends (s t : Hook) : Prop where
  carries : Carries t
  base : t.base.version = s.base.version
  kept : s.inFlight ≠ [] → t.inFlight = s.inFlight

theorem Sends.of_flight {s t : Hook} (h : Carries s) (heq : flight t = flight s) : Sends s t :=
  ⟨h.congr heq, congrArg (·.2.2) heq, fun _ => congrArg Prod.fst heq⟩

theorem Sends.performSave {s : Hook} (h : Carries s) : Sends s s.performSave := by
  unfold Hook.performSave
  dsimp only
  by_cases hclean : (!s.dirty) = true
  · rw [if_pos hclean]
    exact .of_flight h rfl
  · rw [if_neg hclean]
    by_cases hbusy : s.savingInFlight = true
    · rw [if_pos hbusy]
      exact .of_flight h rfl
    · rw [if_neg hbusy]
      have hnone : s.inFlight = [] := h.idle (by simpa using hbusy)
      cases hpayload : buildGraphSavePayload s.base.name s.base.version s.nodesRef s.metadata
          s.base.edges with
      | none => exact .of_flight h rfl
      | some payload =>
        dsimp only
        rw [hnone]
        refine ⟨⟨Nat.le_refl _, nofun, ?_⟩, rfl, fun hsome => absurd hnone hsome⟩
        intro sent hsent
        rw [List.mem_singleton.mp hsent]
        exact buildGraphSavePayload_version hpayload

/-- After a save a waiting one is made; the base keeps its version meanwhile. -/
theorem Sends.finish {s : Hook} (hnone : s.inFlight = []) : Sends s s.finish := by
  have hcarries : Carries { s with savingInFlight := false } :=
    ⟨by simp [hnone], fun _ => hnone, by simp [hnone]⟩
  unfold Hook.finish
  dsimp only
  split
  · have hsends := Sends.performSave
      (s := { s with savingInFlight := false, pendingSave := false, dirty := true })
      (hcarries.congr rfl)
    exact ⟨hsends.carries, hsends.base, fun hsome => absurd hnone hsome⟩
  · exact ⟨hcarries, rfl, fun hsome => absurd hnone hsome⟩

/-- Only an answer ends a save or changes the version of the base. -/
theorem Sends.edit {s t : Hook} (h : Carries s) {a : GraphEditor.Action}
    (hedit : isAnswer a = false) (hstep : GraphEditor.step s a = some t) : Sends s t := by
  cases a with
  | hydrate =>
    rw [GraphEditor.step] at hstep
    split at hstep
    · cases hstep
    · obtain rfl := Option.some.inj hstep
      exact .of_flight h rfl
  | updateNode eager nodeId updates =>
    rw [GraphEditor.step] at hstep
    split at hstep
    · obtain rfl := Option.some.inj hstep
      exact .of_flight h (flight_setNodes s eager _)
    · cases hstep
  | setEdges next =>
    obtain rfl := Option.some.inj hstep
    exact .of_flight h (flight_setEdges s next)
  | removeNodes eager ids =>
    rw [GraphEditor.step] at hstep
    split at hstep
    · obtain rfl := Option.some.inj hstep
      exact .of_flight h (flight_removeNodes s eager ids)
    · cases hstep
  | addNode eager node metadata =>
    rw [GraphEditor.step] at hstep
    split at hstep
    · obtain rfl := Option.some.inj hstep
      exact .of_flight h (flight_addNode s eager node metadata)
    · cases hstep
  | scheduleSave =>
    obtain rfl := Option.some.inj hstep
    exact .of_flight h (flight_scheduleSave s)
  | evaluate =>
    rw [GraphEditor.step] at hstep
    cases hqueue : s.queue with
    | nil => simp [hqueue] at hstep
    | cons u queue =>
      simp only [hqueue] at hstep
      obtain rfl := Option.some.inj hstep
      exact .of_flight h (flight_run _ u)
  | commit =>
    rw [GraphEditor.step] at hstep
    split at hstep
    · obtain rfl := Option.some.inj hstep
      exact .of_flight h rfl
    · cases hstep
  | effect =>
    obtain rfl := Option.some.inj hstep
    exact .of_flight h rfl
  | timer =>
    rw [GraphEditor.step] at hstep
    split at hstep
    · obtain rfl := Option.some.inj hstep
      exact .performSave h
    · cases hstep
  | saveSucceeded result => cases hedit
  | saveFailed message => cases hedit

/-- The answer ends the save that was in flight. -/
theorem Carries.saveSucceeded {s t : Hook} (h : Carries s) {result : SavedGraph}
    (hstep : GraphEditor.step s (.saveSucceeded result) = some t) :
    Carries t ∧ t.base.version = result.version := by
  rw [GraphEditor.step] at hstep
  cases hflight : s.inFlight with
  | nil => simp [hflight] at hstep
  | cons payload rest =>
    simp only [hflight] at hstep
    obtain rfl := Option.some.inj hstep
    have hsends := Sends.finish (s := { s with
      inFlight := rest
      base := result
      edges := result.edges
      savingState := if s.dirty || s.pendingSave then .saving else .saved
      returned := result.version
      lastSaved := (some payload.nodes, payload.edges) }) (h.last hflight)
    exact ⟨hsends.carries, hsends.base⟩

theorem Carries.saveFailed {s t : Hook} (h : Carries s) {message : String}
    (hstep : GraphEditor.step s (.saveFailed message) = some t) :
    Carries t ∧ t.base.version = s.base.version := by
  rw [GraphEditor.step] at hstep
  cases hflight : s.inFlight with
  | nil => simp [hflight] at hstep
  | cons payload rest =>
    simp only [hflight] at hstep
    obtain rfl := Option.some.inj hstep
    have hsends := Sends.finish (s := { s with
      inFlight := rest, dirty := true, savingState := .error message }) (h.last hflight)
    exact ⟨hsends.carries, hsends.base⟩

variable {schema merge}

theorem upsertStored_ok {nowIso : String} {req : PersistedGraphUpsertRequest NodeValue}
    {stored : Option StoredGraph} {target : StoredGraph}
    (h : upsertStored schema nowIso req stored = .ok target) :
    (validatePersistedGraph req schema).isOk = true ∧ Planned nowIso req stored target := by
  unfold upsertStored at h
  cases hvalid : validatePersistedGraph req schema with
  | error message =>
    rw [hvalid] at h
    cases h
  | ok u =>
    rw [hvalid] at h
    exact ⟨rfl, planUpsert_ok h⟩

/-- With the version that is stored an upsert meets no conflict. -/
theorem upsertStored_current {req : PersistedGraphUpsertRequest NodeValue}
    {stored : Option StoredGraph} (hversion : req.version = some (storedVersion stored))
    (nowIso : String) (current : StoredGraph) :
    upsertStored schema nowIso req stored ≠ .error (.versionConflict current) := by
  intro h
  unfold upsertStored at h
  cases hvalid : validatePersistedGraph req schema with
  | error message =>
    rw [hvalid] at h
    cases h
  | ok u =>
    rw [hvalid] at h
    unfold planUpsert at h
    cases stored with
    | none =>
      rw [hversion] at h
      cases hedges : (normalizeEdges req.edges : Except (UpsertError NodeValue) _) with
      | error e =>
        obtain ⟨message, rfl⟩ := normalizeEdges_error hedges
        simp [storedVersion, hedges] at h
      | ok edges => simp [storedVersion, hedges] at h
    | some g =>
      rw [hversion] at h
      cases hedges : (normalizeEdges req.edges : Except (UpsertError NodeValue) _) with
      | error e =>
        obtain ⟨message, rfl⟩ := normalizeEdges_error hedges
        simp [storedVersion, hedges] at h
      | ok edges => simp [storedVersion, hedges] at h

def HasDerivedIds (stored : Option StoredGraph) : Prop :=
  ∀ g ∈ stored, ∀ e ∈ g.edges, EdgeNamed e

theorem hasDerivedIds_planned {nowIso : String} {req : PersistedGraphUpsertRequest NodeValue}
    {stored : Option StoredGraph} {target : StoredGraph} (h : Planned nowIso req stored target) :
    HasDerivedIds (some target) := by
  intro g hg e he
  obtain rfl := Option.some.inj hg
  rw [h.edges] at he
  obtain ⟨f, -, rfl⟩ := List.mem_map.mp he
  exact Or.inr rfl

/-- One for a save that is committed and has not been answered. -/
def unheard : Option (Except (UpsertError NodeValue) SavedGraph) → ℕ
  | some (.ok _) => 1
  | _ => 0

/-- The base has version `v`, and the store is `k` versions further than the editor will hear. -/
structure Behind (s : World) (v k : ℕ) : Prop where
  carries : Carries s.hook
  waits : s.hook.inFlight = [] → s.answer = none
  base : s.hook.base.version = some v
  stored : storedVersion s.stored = v + unheard s.answer + k
  answered : ∀ graph, s.answer = some (.ok graph) → graph.version = some (v + 1)
  updated : s.updated.length ≤ k
  derived : HasDerivedIds s.stored
  calls : ∀ call ∈ s.calls, ∀ e ∈ call.base.edges, EdgeNamed e

variable {s t : World} {v k : ℕ}

theorem behind_loaded {stored : Option StoredGraph} (hderived : HasDerivedIds stored)
    (nodes : List GraphNodeConfig) (metadata : Metadata)
    (lastGraph : List (String × Option NodeState)) :
    Behind (.loaded stored nodes metadata lastGraph) (storedVersion stored) 0 where
  carries := ⟨Nat.zero_le _, fun _ => rfl, nofun⟩
  waits _ := rfl
  base := by cases stored <;> rfl
  stored := rfl
  answered := nofun
  updated := Nat.le_refl _
  derived := hderived
  calls := nofun

theorem Behind.hook (h : Behind s v k) {hook : Hook} (hsends : Sends s.hook hook) :
    Behind { s with hook } v k where
  carries := hsends.carries
  waits hnone := by
    refine h.waits ?_
    by_contra hsome
    exact hsome ((hsends.kept hsome).symm.trans hnone)
  base := hsends.base.trans h.base
  stored := h.stored
  answered := h.answered
  updated := h.updated
  derived := h.derived
  calls := h.calls

/-- A save that is accepted finds the version of the base. -/
theorem Behind.accepted (h : Behind s v k) {payload : GraphUpsertRequest}
    (hpayload : payload ∈ s.hook.inFlight) (hanswer : s.answer = none) {nowIso : String}
    {target : StoredGraph}
    (hok : upsertStored schema nowIso (toRequest payload) s.stored = .ok target) :
    k = 0 ∧ target.version = v + 1 := by
  have hplanned := (upsertStored_ok hok).2
  have hversion : storedVersion s.stored = v :=
    hplanned.checked v ((h.carries.version payload hpayload).trans h.base)
  have hstored := h.stored
  rw [hanswer] at hstored
  dsimp only [unheard] at hstored
  refine ⟨by omega, ?_⟩
  rw [hplanned.version, hversion]

theorem Behind.upsertGraph (h : Behind s v k) {payload : GraphUpsertRequest}
    (hpayload : payload ∈ s.hook.inFlight) (hanswer : s.answer = none) (nowIso : String)
    (applied : Bool) : Behind (s.upsertGraph schema nowIso applied payload) v k := by
  have hstored := h.stored
  rw [hanswer] at hstored
  unfold World.upsertGraph
  cases hok : upsertStored schema nowIso (toRequest payload) s.stored with
  | error e =>
    exact ⟨h.carries, fun hnone => absurd hnone (List.ne_nil_of_mem hpayload), h.base, hstored,
      nofun, h.updated, h.derived, h.calls⟩
  | ok target =>
    obtain ⟨hzero, hversion⟩ := h.accepted hpayload hanswer hok
    refine ⟨h.carries, fun hnone => absurd hnone (List.ne_nil_of_mem hpayload), h.base, ?_, ?_,
      h.updated, hasDerivedIds_planned (upsertStored_ok hok).2, h.calls⟩
    · show target.version = v + 1 + k
      rw [hversion, hzero]
    · intro graph hgraph
      cases hgraph
      exact congrArg some hversion

/-- An update is committed exactly when it is valid and was made on the version that is stored. -/
theorem Behind.writeState (h : Behind s v k) (schema : List TemplateNodeSchema) {call : StateCall}
    (hnamed : ∀ e ∈ call.base.edges, EdgeNamed e) (nowIso : String) :
    if (validatePersistedGraph call.request schema).isOk = true ∧
        call.base.version = storedVersion s.stored then
      Behind (s.writeState schema nowIso call) v (k + 1)
    else Behind (s.writeState schema nowIso call) v k := by
  unfold World.writeState
  cases hok : upsertStored schema nowIso call.request s.stored with
  | error e =>
    have hstale : ¬ ((validatePersistedGraph call.request schema).isOk = true ∧
        call.base.version = storedVersion s.stored) := by
      rintro ⟨hvalid, hversion⟩
      have hchecked : ∀ v, call.request.version = some v → storedVersion s.stored = v := by
        intro v hv
        rw [← hversion]
        exact Option.some.inj hv
      obtain ⟨edges, hedges⟩ := normalizeEdges_of_named (J := NodeValue) hnamed
      obtain ⟨target, htarget⟩ := planUpsert_of_checked nowIso hchecked hedges
      unfold upsertStored at hok
      cases hres : validatePersistedGraph call.request schema with
      | error message =>
        rw [hres] at hvalid
        cases hvalid
      | ok u =>
        rw [hres] at hok
        exact nomatch htarget.symm.trans hok
    rw [if_neg hstale]
    exact h
  | ok target =>
    obtain ⟨hvalid, hplanned⟩ := upsertStored_ok hok
    rw [if_pos ⟨hvalid, (hplanned.checked _ rfl).symm⟩]
    refine ⟨h.carries, h.waits, h.base, ?_, h.answered, ?_, hasDerivedIds_planned hplanned, h.calls⟩
    · show target.version = v + unheard s.answer + (k + 1)
      rw [hplanned.version, h.stored]
      omega
    · rw [List.length_append]
      exact Nat.succ_le_succ h.updated

theorem Behind.answer (h : Behind s v k) {message : String}
    (hstep : step schema merge s (.answer message) = some t) : ∃ w, Behind t w k := by
  rw [step.eq_def] at hstep
  dsimp only at hstep
  have hstored := h.stored
  cases hanswer : s.answer with
  | none => simp [hanswer] at hstep
  | some result =>
    rw [hanswer] at hstored
    cases result with
    | ok graph =>
      simp only [hanswer] at hstep
      obtain ⟨hook, hhook, rfl⟩ := Option.map_eq_some_iff.mp hstep
      obtain ⟨hcarries, hbase⟩ := h.carries.saveSucceeded hhook
      refine ⟨v + 1, hcarries, fun _ => rfl, hbase.trans (h.answered graph hanswer), ?_, nofun,
        h.updated, h.derived, h.calls⟩
      exact hstored
    | error e =>
      simp only [hanswer] at hstep
      obtain ⟨hook, hhook, rfl⟩ := Option.map_eq_some_iff.mp hstep
      obtain ⟨hcarries, hbase⟩ := h.carries.saveFailed hhook
      exact ⟨v, hcarries, fun _ => rfl, hbase.trans h.base, hstored, nofun, h.updated, h.derived,
        h.calls⟩

/-- An answer that is lost leaves the editor behind when it tells of a save committed. -/
theorem Behind.lose (h : Behind s v k) {message : String}
    (hstep : step schema merge s (.lose message) = some t) :
    Behind t v (k + unheard s.answer) := by
  rw [step.eq_def] at hstep
  dsimp only at hstep
  cases hanswer : s.answer with
  | none => simp [hanswer] at hstep
  | some result =>
    simp only [hanswer] at hstep
    obtain ⟨hook, hhook, rfl⟩ := Option.map_eq_some_iff.mp hstep
    obtain ⟨hcarries, hbase⟩ := h.carries.saveFailed hhook
    rw [← hanswer]
    refine ⟨hcarries, fun _ => rfl, hbase.trans h.base, ?_, nofun,
      Nat.le_trans h.updated (Nat.le_add_right _ _), h.derived, h.calls⟩
    show storedVersion s.stored = v + 0 + (k + unheard s.answer)
    rw [h.stored]
    omega

theorem Behind.eraseCall (h : Behind s v k) (i : ℕ) :
    Behind { s with calls := s.calls.eraseIdx i } v k :=
  ⟨h.carries, h.waits, h.base, h.stored, h.answered, h.updated, h.derived,
    fun call hcall => h.calls call (List.mem_of_mem_eraseIdx hcall)⟩

/-- A graph that is read for an update has the ids of the stored one. -/
theorem Behind.readState (h : Behind s v k) (nodeId nowIso : String) (patch : NodeState) :
    Behind { s with
      calls := s.calls ++ [⟨nodeId, merge ((s.snapshot nodeId).getD []) patch,
        s.stored.getD (emptyGraph "main" nowIso none)⟩] } v k := by
  refine ⟨h.carries, h.waits, h.base, h.stored, h.answered, h.updated, h.derived, ?_⟩
  intro call hcall
  rcases List.mem_append.mp hcall with hold | hnew
  · exact h.calls call hold
  · obtain rfl := List.mem_singleton.mp hnew
    cases hstored : s.stored with
    | none => simp [emptyGraph]
    | some g => exact h.derived g hstored

/-- A step adds to the distance exactly when it does not keep the versions. -/
theorem Behind.step {a : Action} (h : Behind s v k) (hstep : step schema merge s a = some t) :
    ∃ w j, Behind t w j ∧ k ≤ j ∧ (j = k ↔ KeepsVersions schema s a) := by
  have hsame : ∀ w, Behind t w k → KeepsVersions schema s a →
      ∃ w j, Behind t w j ∧ k ≤ j ∧ (j = k ↔ KeepsVersions schema s a) :=
    fun w ht hkeeps => ⟨w, k, ht, Nat.le_refl k, iff_of_true rfl hkeeps⟩
  cases a with
  | edit a =>
    rw [EditorVersions.step] at hstep
    split at hstep
    · cases hstep
    · rename_i hedit
      obtain ⟨hook, hhook, rfl⟩ := Option.map_eq_some_iff.mp hstep
      exact hsame v (h.hook (.edit h.carries (by simpa using hedit) hhook)) trivial
  | upsert nowIso applied =>
    rw [EditorVersions.step.eq_def] at hstep
    dsimp only at hstep
    split at hstep
    · rename_i payload rest hflight hanswer
      obtain rfl := Option.some.inj hstep
      exact hsame v (h.upsertGraph (by simp [hflight]) hanswer nowIso applied) trivial
    · cases hstep
  | refuse e =>
    rw [EditorVersions.step.eq_def] at hstep
    dsimp only at hstep
    split at hstep
    · rename_i payload rest hflight hanswer
      obtain rfl := Option.some.inj hstep
      have hstored := h.stored
      rw [hanswer] at hstored
      refine hsame v ⟨h.carries, fun hnone => ?_, h.base, hstored, nofun, h.updated, h.derived,
        h.calls⟩ trivial
      exact absurd (hflight.symm.trans hnone) (List.cons_ne_nil payload rest)
    · cases hstep
  | answer message =>
    obtain ⟨w, ht⟩ := h.answer hstep
    exact hsame w ht trivial
  | lose message =>
    refine ⟨v, k + unheard s.answer, h.lose hstep, Nat.le_add_right _ _, ?_⟩
    cases hanswer : s.answer with
    | none => simp [KeepsVersions, unheard, hanswer]
    | some result =>
      cases result <;> simp [KeepsVersions, unheard, hanswer, Except.isOk, Except.toBool]
  | readState nodeId patch nowIso =>
    obtain rfl := Option.some.inj hstep
    exact hsame v (h.readState nodeId nowIso patch) trivial
  | writeState i nowIso =>
    obtain ⟨call, hcall, rfl⟩ := Option.map_eq_some_iff.mp hstep
    have hnamed := h.calls call (List.mem_of_getElem? hcall)
    have hwrite := (h.eraseCall i).writeState schema hnamed nowIso
    split at hwrite
    · rename_i hcommits
      refine ⟨v, k + 1, hwrite, Nat.le_succ k, iff_of_false (Nat.succ_ne_self k) ?_⟩
      intro hkeeps
      exact hkeeps call hcall hcommits
    · rename_i hstale
      refine hsame v hwrite fun call' hcall' => ?_
      obtain rfl := Option.some.inj (hcall.symm.trans hcall')
      exact hstale
  | dropState i =>
    rw [EditorVersions.step] at hstep
    split at hstep
    · obtain rfl := Option.some.inj hstep
      exact hsame v (h.eraseCall i) trivial
    · cases hstep
  | deliver i =>
    obtain ⟨event, -, rfl⟩ := Option.map_eq_some_iff.mp hstep
    have hsends : Sends s.hook (applyNodeState event.1 event.2 s.hook) := .of_flight h.carries rfl
    have ht := h.hook hsends
    exact hsame v ⟨ht.carries, ht.waits, ht.base, ht.stored, ht.answered, ht.updated, ht.derived,
      ht.calls⟩ trivial

theorem Behind.run {as : List Action} (h : Behind s v k)
    (hrun : runFrom (EditorVersions.step schema merge) s as = some t) :
    ∃ w j, Behind t w j ∧ k ≤ j ∧
      (j = k ↔ StepsMeet (EditorVersions.step schema merge) (KeepsVersions schema) s as) := by
  induction as generalizing s v k with
  | nil =>
    obtain rfl := Option.some.inj hrun
    exact ⟨v, k, h, Nat.le_refl k, iff_of_true rfl trivial⟩
  | cons a as ih =>
    obtain ⟨r, hr, hrun⟩ := Option.bind_eq_some_iff.mp hrun
    obtain ⟨w, i, hbehind, hki, hfirst⟩ := h.step hr
    obtain ⟨u, j, hlast, hij, hrest⟩ := ih hbehind hrun
    refine ⟨u, j, hlast, Nat.le_trans hki hij, ?_⟩
    constructor
    · intro hjk
      have hik : i = k := by omega
      exact .cons (hfirst.mp hik) hr (hrest.mp (hjk.trans hik.symm))
    · intro hmeet
      rw [hrest.mpr (hmeet.2 r hr), hfirst.mpr hmeet.1]

/-- Between saves the editor agrees with the store exactly in the runs in which no update of a node
state has been committed and no answer to a committed save is lost. In any run a save is accepted
only before the first update of a node state is committed. -/
theorem versions_agree {stored : Option StoredGraph} {nodes : List GraphNodeConfig}
    {metadata : Metadata} {lastGraph : List (String × Option NodeState)} {as : List Action}
    (hderived : HasDerivedIds stored)
    (hrun : runFrom (EditorVersions.step schema merge)
      (.loaded stored nodes metadata lastGraph) as = some t) :
    (∀ payload ∈ t.hook.inFlight, t.answer = none → ∀ nowIso target,
      upsertStored schema nowIso (toRequest payload) t.stored = .ok target → t.updated = []) ∧
    (t.hook.savingInFlight = false →
      (Agrees schema t ↔ StepsMeet (EditorVersions.step schema merge) (KeepsVersions schema)
        (.loaded stored nodes metadata lastGraph) as)) := by
  obtain ⟨v, k, h, -, hmeet⟩ := (behind_loaded hderived nodes metadata lastGraph).run hrun
  constructor
  · intro payload hpayload hanswer nowIso target hok
    have hlength := h.updated
    rw [(h.accepted hpayload hanswer hok).1] at hlength
    exact List.eq_nil_of_length_eq_zero (Nat.le_zero.mp hlength)
  · intro hidle
    have hstored := h.stored
    rw [h.waits (h.carries.idle hidle)] at hstored
    dsimp only [unheard] at hstored
    rw [← hmeet]
    constructor
    · intro hagrees
      have hversion : v = storedVersion t.stored := Option.some.inj (h.base.symm.trans hagrees.1)
      omega
    · intro hzero
      have hversion : t.hook.base.version = some (storedVersion t.stored) := by
        rw [h.base, hstored, hzero]
        rfl
      refine ⟨hversion, fun payload hpayload => ⟨?_, fun nowIso current => ?_⟩⟩
      · rintro ⟨node, -, own, state, -, -, hupdated, -⟩
        have hlength := h.updated
        rw [hzero] at hlength
        rw [List.eq_nil_of_length_eq_zero (Nat.le_zero.mp hlength)] at hupdated
        cases hupdated
      · exact upsertStored_current ((buildGraphSavePayload_version hpayload).trans hversion) nowIso
          current

def storedAgent : StoredGraph :=
  ⟨"main", 7, "2025-01-01T00:00:00.000Z", [⟨"agent", "agent", none, none, none⟩], [], some []⟩

def agentSchema : List TemplateNodeSchema := [⟨"agent", ["tools"], ["$self"]⟩]

def oneAgent : World :=
  .loaded (some storedAgent) [agentNode]
    (fun id => if id = "agent" then some ⟨"agent", none, none, some ⟨0, 0⟩⟩ else none)
    [("agent", none)]

/-- The update of a node state reads the graph before a save and loses against it. -/
def updatedTooLate : List Action :=
  [.edit .hydrate, .edit (.updateNode true "agent" ⟨some "Helper", none, none, none, none⟩),
    .edit .commit, .edit .effect, .edit .timer, .readState "agent" [("tools", "2")] "",
    .upsert "" true, .answer "", .writeState 0 ""]

theorem versions_agree_updated_too_late :
    ∃ t, runFrom (step agentSchema (· ++ ·)) oneAgent updatedTooLate = some t ∧
      storedVersion t.stored = 8 ∧ Agrees agentSchema t := by
  have hderived : HasDerivedIds (some storedAgent) := by
    intro g hg e he
    obtain rfl := Option.some.inj hg
    cases he
  have hmeet : StepsMeet (step agentSchema (· ++ ·)) (KeepsVersions agentSchema) oneAgent
      updatedTooLate := by
    decide +kernel
  have hrun : ((runFrom (step agentSchema (· ++ ·)) oneAgent updatedTooLate).any fun t =>
      decide (storedVersion t.stored = 8 ∧ t.hook.savingInFlight = false)) = true := by
    decide +kernel
  obtain ⟨t, ht, heq⟩ := (Option.any_eq_true _ _).mp hrun
  obtain ⟨hversion, hidle⟩ := of_decide_eq_true heq
  exact ⟨t, ht, hversion, ((versions_agree hderived ht).2 hidle).mpr hmeet⟩

def updatedBetween : List Action :=
  [.edit .hydrate, .readState "agent" [("tools", "2")] "", .writeState 0 "", .deliver 0,
    .edit .commit, .edit .effect]

theorem conflict_after_node_state :
    ∃ t, Reached (step agentSchema (· ++ ·)) (fun _ _ => True) oneAgent t ∧
      t.hook.savingInFlight = false ∧ t.events = [] ∧ t.hook.base.version = some 7 ∧
      storedVersion t.stored = 8 ∧ ∃ payload ∈ nextPayload t.hook,
        upsertStored agentSchema "" (toRequest payload) t.stored =
          .error (.versionConflict ⟨"main", 8, "",
            [⟨"agent", "agent", none, some (.state [("tools", "2")]), none⟩], [], some []⟩) := by
  have hrun : ((runFrom (step agentSchema (· ++ ·)) oneAgent updatedBetween).any fun t =>
      decide (t.hook.savingInFlight = false ∧ t.events = [] ∧ t.hook.base.version = some 7 ∧
        storedVersion t.stored = 8 ∧ ∃ payload ∈ nextPayload t.hook,
          upsertStored agentSchema "" (toRequest payload) t.stored =
            .error (.versionConflict ⟨"main", 8, "",
              [⟨"agent", "agent", none, some (.state [("tools", "2")]), none⟩], [], some []⟩))) =
      true := by
    decide +kernel
  obtain ⟨t, ht, heq⟩ := (Option.any_eq_true _ _).mp hrun
  exact ⟨t, .of_run ht, of_decide_eq_true heq⟩

end Agyn.EditorVersions
