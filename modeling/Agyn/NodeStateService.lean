import Agyn.LiveGraphRuntime
import Agyn.NodeStateUpsert
import Agyn.WriteThrough

/-!
The node state service: any number of concurrent calls that merge a patch into the state
of a node. A call merges the patch into the runtime's snapshot, reads the graph, upserts
it with the merged state and the version it read, and hands the merged state to the
runtime. Whatever is thrown on the way is logged and swallowed. `mergeWith` is the deep
merge of the library, with arrays replaced. The runtime and the stored graph are a
write-through cache of the node states, and as long as the calls on one node do not
overlap, the calls that went through are serialized.
-/
namespace Agyn

open Prog FsGraphRepository

variable {ι V G : Type}

/-- A call of `upsertNodeState`, with what it draws from the clock and for its names. -/
structure NodeStateCall (V : Type) where
  nodeId : String
  patch : JsRecord V
  readIso : String
  ctx : CallContext

structure NodeStateService (ι V : Type) where
  name : String
  schema : List TemplateNodeSchema
  mergeWith : JsRecord V → JsRecord V → JsRecord V
  calls : ι → NodeStateCall V

/-- Where a call stands. The promise of a settled call is resolved, with or without a
failure that was logged. -/
inductive NodeStateProgress (V : Type) where
  | idle
  | merged (state : JsRecord V)
  | fetched (state : JsRecord V)
      (current : Except String (Option (PersistedGraph (JsRecord V))))
  | persisted (state : JsRecord V)
  | settled (failure : Option (UpsertError (JsRecord V)))

structure NodeStates (ι V G : Type) where
  disk : Disk (JsRecord V) G
  runtime : GraphRuntimeState V
  calls : ι → NodeStateProgress V

inductive NodeStateStep where
  | snapshot
  | get
  | upsert
  | timeout
  | update
  deriving DecidableEq, Repr

def NodeStateProgress.afterUpsert (state : JsRecord V) :
    Except (UpsertError (JsRecord V)) Unit → NodeStateProgress V
  | .ok _ => .persisted state
  | .error e => .settled (some e)

def NodeStates.setCall [DecidableEq ι] (c : NodeStates ι V G) (i : ι) (p : NodeStateProgress V) :
    NodeStates ι V G :=
  { c with calls := Function.update c.calls i p }

section System

variable [DecidableEq ι] (svc : NodeStateService ι V)

/-- One step of call `i`. A call that waits for the lock of the store may run out of time. -/
inductive NodeStates.Step (c : NodeStates ι V G) (i : ι) :
    NodeStateStep → NodeStates ι V G → Prop
  | snapshot (hcall : c.calls i = .idle) :
      Step c i .snapshot (c.setCall i (.merged (svc.mergeWith
        ((c.runtime.getNodeStateSnapshot (svc.calls i).nodeId).getD []) (svc.calls i).patch)))
  | get {state : JsRecord V} {current : Except String (Option (PersistedGraph (JsRecord V)))}
      {d : Disk (JsRecord V) G} (hcall : c.calls i = .merged state)
      (hrun : (FsGraphRepository.get svc.name (svc.calls i).readIso).run working c.disk =
        (current, d)) :
      Step c i .get ({ c with disk := d }.setCall i (.fetched state current))
  | upsert {state : JsRecord V} {current : Except String (Option (PersistedGraph (JsRecord V)))}
      {result : Except (UpsertError (JsRecord V)) Unit} {d : Disk (JsRecord V) G}
      (hcall : c.calls i = .fetched state current)
      (hrun : (upsertFetched svc.schema (svc.calls i).ctx svc.name (svc.calls i).nodeId state
        current).run working c.disk = (result, d)) :
      Step c i .upsert ({ c with disk := d }.setCall i (.afterUpsert state result))
  | timeout {state : JsRecord V} {current : Except String (Option (PersistedGraph (JsRecord V)))}
      (hcall : c.calls i = .fetched state current) :
      Step c i .timeout (c.setCall i (.settled (some .lockTimeout)))
  | update {state : JsRecord V} (hcall : c.calls i = .persisted state) :
      Step c i .update ({ c with
        runtime := c.runtime.updateNodeState (svc.calls i).nodeId state
        }.setCall i (.settled none))

/-- A step that was taken, and the state it was taken in. -/
structure NodeStateEvent (ι V G : Type) where
  caller : ι
  step : NodeStateStep
  before : NodeStates ι V G

/-- A run from `c₀` with its steps, newest first. -/
inductive NodeStates.Run (c₀ : NodeStates ι V G) :
    List (NodeStateEvent ι V G) → NodeStates ι V G → Prop
  | start : Run c₀ [] c₀
  | step {es : List (NodeStateEvent ι V G)} {c c' : NodeStates ι V G} {i : ι}
      {k : NodeStateStep} (hrun : Run c₀ es c) (hstep : NodeStates.Step svc c i k c') :
      Run c₀ (⟨i, k, c⟩ :: es) c'

end System

section Cells

variable (svc : NodeStateService ι V)

def NodeStateService.writers : WriteThrough.Writers ι String (Option (JsRecord V)) where
  cell i := (svc.calls i).nodeId
  apply i state := some (svc.mergeWith (state.getD []) (svc.calls i).patch)

def NodeStateProgress.phase : NodeStateProgress V → WriteThrough.Phase (Option (JsRecord V))
  | .idle => .idle
  | .merged state => .merged (some state)
  | .fetched state _ => .merged (some state)
  | .persisted state => .stored (some state)
  | .settled none => .done
  | .settled (some _) => .failed

def NodeStateService.persistedState (d : Disk (JsRecord V) G) (nowIso id : String) :
    Option (JsRecord V) :=
  match ((FsGraphRepository.get svc.name nowIso).run working d).1 with
  | .ok (some g) => stateOf g.nodes id
  | _ => none

def NodeStates.cells (c : NodeStates ι V G) :
    WriteThrough.Cells ι String (Option (JsRecord V)) where
  cached id := c.runtime.getNodeStateSnapshot id
  durable id := svc.persistedState c.disk "" id
  phase i := (c.calls i).phase

theorem NodeStates.cells_setCall [DecidableEq ι] (c : NodeStates ι V G) (i : ι)
    (p : NodeStateProgress V) :
    (c.setCall i p).cells svc =
      { c.cells svc with phase := Function.update (c.cells svc).phase i p.phase } := by
  have hphase : (fun j => (Function.update c.calls i p j).phase) =
      Function.update (fun j => (c.calls j).phase) i p.phase :=
    Function.comp_update NodeStateProgress.phase c.calls i p
  unfold NodeStates.cells NodeStates.setCall
  rw [hphase]

theorem Stores.persistedState {d : Disk (JsRecord V) G} {t : GraphTree (JsRecord V) G}
    {g : PersistedGraph (JsRecord V)} (h : Stores d t g) (nowIso id : String) :
    svc.persistedState d nowIso id = stateOf g.nodes id := by
  obtain ⟨g', hget, -, hnodes, -⟩ := h.get svc.name nowIso
  rw [NodeStateService.persistedState, hget, ← hnodes]

end Cells

section Runtime

def GraphRuntimeState.HasNode (s : GraphRuntimeState V) (id : String) : Prop :=
  ∃ g, s.lastGraph = some g ∧ id ∈ g.nodeIds

theorem hasNode_updateNodeState {s : GraphRuntimeState V} {id : String} (h : s.HasNode id)
    (nodeId : String) (state : JsRecord V) : (s.updateNodeState nodeId state).HasNode id := by
  obtain ⟨g, hg, hid⟩ := h
  unfold GraphRuntimeState.updateNodeState
  rw [hg]
  refine ⟨_, rfl, ?_⟩
  unfold GraphDefinition.nodeIds
  rw [map_key_modify (by simp)]
  exact hid

/-- Updating the state of a node that the runtime has is seen in its snapshot. -/
theorem getNodeStateSnapshot_updateNodeState {s : GraphRuntimeState V} {nodeId : String}
    (h : s.HasNode nodeId) (state : JsRecord V) (id : String) :
    (s.updateNodeState nodeId state).getNodeStateSnapshot id =
      if id = nodeId then some state else s.getNodeStateSnapshot id := by
  obtain ⟨g, hg, hmem⟩ := h
  obtain ⟨n, hn⟩ := exists_find?_key hmem
  unfold GraphRuntimeState.updateNodeState GraphRuntimeState.getNodeStateSnapshot
  rw [hg]
  dsimp only [Option.bind_some]
  rw [GraphDefinition.findNode, find?_modify_findIdx (by simp)]
  by_cases hid : id = nodeId
  · rw [if_pos hid, if_pos hid, hn]
    rfl
  · rw [if_neg hid, if_neg hid, GraphDefinition.findNode]

end Runtime

section Refinement

variable (svc : NodeStateService ι V)

/-- What holds in every state of a run: the disk stores an accepted graph, the runtime has the
nodes of the calls under way, and a call that read the stored version has its graph. -/
structure NodeStates.Sound (c : NodeStates ι V G) (t : GraphTree (JsRecord V) G)
    (g : PersistedGraph (JsRecord V)) : Prop where
  stores : Stores c.disk t g
  accepted : Accepted svc.schema g.nodes g.edges
  live : ∀ i, c.calls i ≠ .idle → c.runtime.HasNode (svc.calls i).nodeId
  fetched : ∀ i state current, c.calls i = .fetched state current →
    ∃ base, current = .ok (some base) ∧ base.version ≤ g.version ∧
      (base.version = g.version → base.nodes = g.nodes ∧ base.edges = g.edges)

def VersionUnchanged {J : Type} (d : Disk J G)
    (current : Except String (Option (PersistedGraph J))) : Prop :=
  ∀ base t, current = .ok (some base) → d.tree .root = some t → t.version = base.version

variable {svc} [DecidableEq ι] {c c' : NodeStates ι V G} {t : GraphTree (JsRecord V) G}
  {g : PersistedGraph (JsRecord V)}

theorem NodeStates.Sound.live_setCall (h : c.Sound svc t g) {i : ι} (p : NodeStateProgress V)
    (hlive : c.runtime.HasNode (svc.calls i).nodeId) (j : ι)
    (hj : (c.setCall i p).calls j ≠ .idle) : c.runtime.HasNode (svc.calls j).nodeId := by
  by_cases hji : j = i
  · rw [hji]
    exact hlive
  · refine h.live j ?_
    rw [← Function.update_of_ne hji p c.calls]
    exact hj

/-- A call that moves on without having read anything keeps the rest sound. -/
theorem NodeStates.Sound.setCall (h : c.Sound svc t g) {i : ι} {p : NodeStateProgress V}
    (hlive : c.runtime.HasNode (svc.calls i).nodeId)
    (hp : ∀ state current, p ≠ .fetched state current) : (c.setCall i p).Sound svc t g where
  stores := h.stores
  accepted := h.accepted
  live := h.live_setCall p hlive
  fetched := by
    intro j state current hj
    change Function.update c.calls i p j = _ at hj
    by_cases hji : j = i
    · rw [hji, Function.update_self] at hj
      exact absurd hj (hp state current)
    · rw [Function.update_of_ne hji] at hj
      exact h.fetched j state current hj

theorem NodeStates.Sound.get (h : c.Sound svc t g) {i : ι} {state : JsRecord V}
    (hcall : c.calls i = .merged state) {base : PersistedGraph (JsRecord V)}
    (hnodes : base.nodes = g.nodes) (hedges : base.edges = g.edges)
    (hversion : base.version = g.version) :
    (c.setCall i (.fetched state (.ok (some base)))).Sound svc t g ∧
      (c.setCall i (.fetched state (.ok (some base)))).cells svc = c.cells svc := by
  refine ⟨⟨h.stores, h.accepted, h.live_setCall _ (h.live i (by simp [hcall])), ?_⟩, ?_⟩
  · intro j state' current hj
    change Function.update c.calls i _ j = _ at hj
    by_cases hji : j = i
    · rw [hji, Function.update_self] at hj
      cases hj
      exact ⟨base, rfl, Nat.le_of_eq hversion, fun _ => ⟨hnodes, hedges⟩⟩
    · rw [Function.update_of_ne hji] at hj
      exact h.fetched j state' current hj
  · rw [NodeStates.cells_setCall]
    have hphase : (c.cells svc).phase i = .merged (some state) :=
      congrArg NodeStateProgress.phase hcall
    unfold NodeStateProgress.phase
    dsimp only
    rw [← hphase, Function.update_eq_self]

omit [DecidableEq ι] in
/-- An upsert on the version that was read stores the state of the node, when the new graph
passes validation. -/
theorem NodeStates.Sound.upsert (h : c.Sound svc t g) {i : ι} {state : JsRecord V}
    {base : PersistedGraph (JsRecord V)} (hcall : c.calls i = .fetched state (.ok (some base)))
    (hversion : base.version = g.version)
    (hvalid : validatePersistedGraph (nodeStateRequest svc.name (svc.calls i).nodeId state base)
      svc.schema = .ok ()) :
    ∃ result d t' g', (upsertFetched svc.schema (svc.calls i).ctx svc.name (svc.calls i).nodeId
        state (.ok (some base))).run working c.disk = (.ok result, d) ∧
      ({ c with disk := d } : NodeStates ι V G).Sound svc t' g' ∧
      ({ c with disk := d } : NodeStates ι V G).cells svc =
        { c.cells svc with
          durable :=
            Function.update (c.cells svc).durable (svc.calls i).nodeId (some state) } := by
  obtain ⟨base', hbase, hle, hsame⟩ := h.fetched i state _ hcall
  cases hbase
  obtain ⟨hnodes, hedges⟩ := hsame hversion
  obtain ⟨d, t', g', hrun, hstores, hversion', hnodes', haccepted⟩ :=
    upsertFetched_current h.stores h.accepted hnodes hedges hversion hvalid (svc.calls i).ctx
  refine ⟨_, d, t', g', hrun, ?_, ?_⟩
  · refine ⟨hstores, haccepted, h.live, fun j state' current hj => ?_⟩
    obtain ⟨base', hbase', hle', -⟩ := h.fetched j state' current hj
    exact ⟨base', hbase', by omega, fun heq => by omega⟩
  · have hdurable : (fun id => svc.persistedState d "" id) =
        Function.update (fun id => svc.persistedState c.disk "" id) (svc.calls i).nodeId
          (some state) := by
      funext id
      rw [hstores.persistedState, hnodes', stateOf_withNodeState, Function.update_apply,
        h.stores.persistedState]
    unfold NodeStates.cells
    rw [hdurable]

omit [DecidableEq ι] in
theorem NodeStates.Sound.update (h : c.Sound svc t g) (i : ι)
    (hlive : c.runtime.HasNode (svc.calls i).nodeId) (state : JsRecord V) :
    ({ c with runtime := c.runtime.updateNodeState (svc.calls i).nodeId state } :
        NodeStates ι V G).Sound svc t g ∧
      ({ c with runtime := c.runtime.updateNodeState (svc.calls i).nodeId state } :
        NodeStates ι V G).cells svc =
        { c.cells svc with
          cached := Function.update (c.cells svc).cached (svc.calls i).nodeId (some state) } := by
  refine ⟨⟨h.stores, h.accepted, fun j hj => hasNode_updateNodeState (h.live j hj) _ _,
    h.fetched⟩, ?_⟩
  have hcached : (fun id => (c.runtime.updateNodeState (svc.calls i).nodeId
      state).getNodeStateSnapshot id) = Function.update
        (fun id => c.runtime.getNodeStateSnapshot id) (svc.calls i).nodeId (some state) := by
    funext id
    rw [getNodeStateSnapshot_updateNodeState hlive, Function.update_apply]
  unfold NodeStates.cells
  rw [hcached]

/-- A call that fails in its upsert or waiting for the lock changes only where it stands. -/
theorem NodeStates.Sound.fail (h : c.Sound svc t g) {i : ι} {state : JsRecord V}
    {current : Except String (Option (PersistedGraph (JsRecord V)))}
    (hcall : c.calls i = .fetched state current) (e : UpsertError (JsRecord V)) :
    (c.setCall i (.settled (some e))).Sound svc t g ∧
      WriteThrough.Step svc.writers (c.cells svc)
        ((c.setCall i (.settled (some e))).cells svc) := by
  refine ⟨h.setCall (h.live i (by simp [hcall])) (by simp), ?_⟩
  rw [NodeStates.cells_setCall]
  have hmerged : (c.cells svc).phase i = .merged (some state) :=
    congrArg NodeStateProgress.phase hcall
  exact .fail hmerged

/-- A step of the service is one of the cache, or changes none of its cells. A snapshot is
taken of a node that the runtime has, while no call works on the node. -/
theorem NodeStates.Sound.step (h : c.Sound svc t g) {i : ι} {k : NodeStateStep}
    (hstep : NodeStates.Step svc c i k c')
    (hsnapshot : k = .snapshot →
      WriteThrough.Quiet svc.writers (c.cells svc) (svc.calls i).nodeId ∧
        c.runtime.HasNode (svc.calls i).nodeId) :
    (∃ t' g', c'.Sound svc t' g') ∧
      (c'.cells svc = c.cells svc ∨
        WriteThrough.Step svc.writers (c.cells svc) (c'.cells svc)) := by
  have hphase : ∀ {p}, c.calls i = p → (c.cells svc).phase i = p.phase := fun hp =>
    congrArg NodeStateProgress.phase hp
  cases hstep with
  | snapshot hcall =>
    obtain ⟨hquiet, hlive⟩ := hsnapshot rfl
    refine ⟨⟨t, g, h.setCall hlive (by simp)⟩, Or.inr ?_⟩
    rw [NodeStates.cells_setCall]
    exact .read (hphase hcall) hquiet
  | @get state current d hcall hrun =>
    obtain ⟨base, hget, -, hnodes, hedges, hversion⟩ :=
      h.stores.get svc.name (svc.calls i).readIso
    obtain ⟨hsound, hcells⟩ := h.get hcall hnodes hedges hversion
    rw [hget] at hrun
    cases hrun
    exact ⟨⟨t, g, hsound⟩, Or.inl hcells⟩
  | @upsert state current result d hcall hrun =>
    obtain ⟨base, rfl, -, -⟩ := h.fetched i state current hcall
    by_cases hgoes : base.version = g.version ∧
        validatePersistedGraph (nodeStateRequest svc.name (svc.calls i).nodeId state base)
          svc.schema = .ok ()
    · obtain ⟨result', d', t', g', hrun', hsound, hcells⟩ := h.upsert hcall hgoes.1 hgoes.2
      rw [hrun'] at hrun
      cases hrun
      refine ⟨⟨t', g', hsound.setCall (h.live i (by simp [hcall]))
        (by simp [NodeStateProgress.afterUpsert])⟩, Or.inr ?_⟩
      rw [NodeStates.cells_setCall, hcells]
      exact .store (hphase hcall)
    · obtain ⟨e, hrun'⟩ : ∃ e, (upsertFetched svc.schema (svc.calls i).ctx svc.name
          (svc.calls i).nodeId state (.ok (some base))).run working c.disk =
            (.error e, c.disk) := by
        by_cases hversion : base.version = g.version
        · exact upsertFetched_refused (fun hvalid => hgoes ⟨hversion, hvalid⟩) _ _
        · exact upsertFetched_stale h.stores hversion _ _ _ _
      rw [hrun'] at hrun
      cases hrun
      obtain ⟨hsound, hfail⟩ := h.fail hcall e
      exact ⟨⟨t, g, hsound⟩, Or.inr hfail⟩
  | timeout hcall =>
    obtain ⟨hsound, hfail⟩ := h.fail hcall .lockTimeout
    exact ⟨⟨t, g, hsound⟩, Or.inr hfail⟩
  | @update state hcall =>
    have hlive := h.live i (by simp [hcall])
    obtain ⟨hsound, hcells⟩ := h.update i hlive state
    refine ⟨⟨t, g, hsound.setCall (hasNode_updateNodeState hlive _ _) (by simp)⟩, Or.inr ?_⟩
    rw [NodeStates.cells_setCall, hcells]
    exact .publish (hphase hcall)

end Refinement

end Agyn
