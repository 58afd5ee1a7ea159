import Agyn.NodeStateService

/-!
Which node-state updates survive. In every run in which calls on one node do not overlap,
the calls that settled without a failure are serialized on their node, in the graph and in
the runtime. A call fails as soon as the stored version has moved on since its read, also
by a call on another node, and its patch is then in neither.
-/
namespace Agyn

open Prog FsGraphRepository

variable {ι V G : Type}

section Outcome

variable (svc : NodeStateService ι V)

/-- The state of a node after the patches of some calls, merged in the given order. -/
def NodeStateService.patched (order : List ι) (state : Option (JsRecord V)) :
    Option (JsRecord V) :=
  order.foldl (fun state i => some (svc.mergeWith (state.getD []) (svc.calls i).patch)) state

theorem NodeStateService.patched_isSome {order : List ι} (h : order ≠ [])
    (state : Option (JsRecord V)) : (svc.patched order state).isSome := by
  obtain ⟨front, i, rfl⟩ := List.eq_nil_or_concat' order |>.resolve_left h
  simp [NodeStateService.patched]

/-- The snapshot of a node, and its stored state unless it was never updated, are the merge
of the patches of `order`, which are the calls on the node for which `Counts` holds. -/
structure NodeMerges (c₀ c : NodeStates ι V G) (Counts : NodeStateProgress V → Prop) (id : String)
    (order : List ι) : Prop where
  nodup : order.Nodup
  calls : ∀ i, i ∈ order ↔ (svc.calls i).nodeId = id ∧ Counts (c.calls i)
  runtime : c.runtime.getNodeStateSnapshot id =
    svc.patched order (c₀.runtime.getNodeStateSnapshot id)
  persisted : ∀ nowIso, svc.persistedState c.disk nowIso id =
    if order = [] then svc.persistedState c₀.disk nowIso id
    else c.runtime.getNodeStateSnapshot id

/-- Every call on the node that has started is reflected in both stores: the state is the
merge of all its patches in some order. -/
def Reflected (c₀ c : NodeStates ι V G) (id : String) : Prop :=
  ∃ order, NodeMerges svc c₀ c (fun p => p ≠ .idle) id order

/-- The service before any call has started, on a stored graph that passes validation. -/
structure Ready (c₀ : NodeStates ι V G) (t : GraphTree (JsRecord V) G)
    (g : PersistedGraph (JsRecord V)) : Prop where
  stores : Stores c₀.disk t g
  accepted : Accepted svc.schema g.nodes g.edges
  idle : ∀ i, c₀.calls i = .idle

theorem Ready.sound {svc : NodeStateService ι V} {c₀ : NodeStates ι V G}
    {t : GraphTree (JsRecord V) G} {g : PersistedGraph (JsRecord V)} (h : Ready svc c₀ t g) :
    c₀.Sound svc t g := by
  refine ⟨h.stores, h.accepted, fun i hi => absurd (h.idle i) hi, ?_⟩
  intro i state current hi
  rw [h.idle i] at hi
  cases hi

/-- No call on the node is between its snapshot and its update of the runtime. -/
def NodeQuiet (c : NodeStates ι V G) (id : String) : Prop :=
  ∀ i, (svc.calls i).nodeId = id → c.calls i = .idle ∨ ∃ failure, c.calls i = .settled failure

/-- A snapshot is taken of a node that the runtime has, while no call works on the node. -/
def NodeStateEvent.NotOverlapping (e : NodeStateEvent ι V G) : Prop :=
  e.step = .snapshot → NodeQuiet svc e.before (svc.calls e.caller).nodeId ∧
    e.before.runtime.HasNode (svc.calls e.caller).nodeId

/-- A call that is not disturbed: the runtime has its node and no call on it is under way, the
graph that it has read has the node or can be given it and is still the stored one, and the
lock is obtained in time. -/
def NodeStateEvent.Undisturbed (e : NodeStateEvent ι V G) : Prop :=
  match e.step with
  | .snapshot => NodeQuiet svc e.before (svc.calls e.caller).nodeId ∧
      e.before.runtime.HasNode (svc.calls e.caller).nodeId
  | .upsert => ∀ state current, e.before.calls e.caller = .fetched state current →
      VersionUnchanged e.before.disk current ∧
        ∀ base, current = .ok (some base) →
          Updatable svc.schema base.nodes (svc.calls e.caller).nodeId
  | .timeout => False
  | .get => True
  | .update => True

theorem NodeStateEvent.Undisturbed.notOverlapping {svc : NodeStateService ι V}
    {e : NodeStateEvent ι V G} (h : e.Undisturbed svc) : e.NotOverlapping svc := by
  intro hstep
  unfold NodeStateEvent.Undisturbed at h
  rw [hstep] at h
  exact h

theorem not_inFlight_of_quiet {svc : NodeStateService ι V} {c : NodeStates ι V G} {id : String} :
    NodeQuiet svc c id → WriteThrough.Quiet svc.writers (c.cells svc) id := by
  intro h i hid
  change ¬ (c.calls i).phase.InFlight
  rcases h i hid with hidle | ⟨failure, hsettled⟩
  · rw [hidle]
    exact WriteThrough.not_inFlight_idle
  · rw [hsettled]
    cases failure with
    | none => exact WriteThrough.not_inFlight_done
    | some e => exact WriteThrough.not_inFlight_failed

end Outcome

section Runs

variable [DecidableEq ι] {svc : NodeStateService ι V} {c₀ c : NodeStates ι V G}
  {es : List (NodeStateEvent ι V G)} {t : GraphTree (JsRecord V) G}
  {g : PersistedGraph (JsRecord V)}

/-- A run without overlaps is a run of the write-through cache. -/
theorem NodeStates.Run.cells (hready : Ready svc c₀ t g) (hrun : NodeStates.Run svc c₀ es c)
    (hes : ∀ e ∈ es, e.NotOverlapping svc) :
    (∃ t' g', c.Sound svc t' g') ∧
      WriteThrough.Run svc.writers (c₀.cells svc) (c.cells svc) := by
  induction hrun with
  | start => exact ⟨⟨t, g, hready.sound⟩, .refl⟩
  | @step es c c' i k hrun hstep ih =>
    obtain ⟨⟨t', g', hsound⟩, hcells⟩ := ih fun e he => hes e (List.mem_cons_of_mem _ he)
    have hsnapshot := hes _ List.mem_cons_self
    obtain ⟨hnext, hsame | hmove⟩ := hsound.step hstep fun hk =>
      (hsnapshot hk).imp_left not_inFlight_of_quiet
    · exact ⟨hnext, by rw [hsame]; exact hcells⟩
    · exact ⟨hnext, hcells.tail hmove⟩

theorem phase_eq_done_iff (p : NodeStateProgress V) : p.phase = .done ↔ p = .settled none := by
  cases p with
  | settled failure => cases failure <;> simp [NodeStateProgress.phase]
  | _ => simp [NodeStateProgress.phase]

/-- Without overlaps, the calls on a node that went through are serialized in both stores. -/
theorem run_merges_successful (hready : Ready svc c₀ t g) (hrun : NodeStates.Run svc c₀ es c)
    (hes : ∀ e ∈ es, e.NotOverlapping svc) {id : String} (hquiet : NodeQuiet svc c id) :
    ∃ order, NodeMerges svc c₀ c (fun p => p = .settled none) id order := by
  obtain ⟨⟨t', g', hsound⟩, hcells⟩ := hrun.cells hready hes
  have hidle : ∀ i, (c₀.cells svc).phase i = .idle := fun i =>
    congrArg NodeStateProgress.phase (hready.idle i)
  obtain ⟨order, hsettled⟩ :=
    WriteThrough.settled_of_run hidle hcells (not_inFlight_of_quiet hquiet)
  refine ⟨order, hsettled.nodup, ?_, hsettled.cached, ?_⟩
  · intro i
    rw [hsettled.calls, ← phase_eq_done_iff]
    rfl
  · intro nowIso
    rw [hsound.stores.persistedState, hready.stores.persistedState,
      ← hsound.stores.persistedState svc "" id, ← hready.stores.persistedState svc "" id]
    exact hsettled.durable

/-- An undisturbed call does not fail. -/
theorem run_no_failure (hready : Ready svc c₀ t g) (hrun : NodeStates.Run svc c₀ es c)
    (hes : ∀ e ∈ es, e.Undisturbed svc) (i : ι) (e : UpsertError (JsRecord V)) :
    c.calls i ≠ .settled (some e) := by
  induction hrun generalizing i e with
  | start =>
    rw [hready.idle i]
    simp
  | @step es c c' j k hrun hstep ih =>
    have hes' : ∀ e ∈ es, e.Undisturbed svc := fun e he => hes e (List.mem_cons_of_mem _ he)
    obtain ⟨⟨t', g', hsound⟩, -⟩ :=
      hrun.cells hready fun e he => (hes' e he).notOverlapping
    have hmoved : ∀ {p : NodeStateProgress V}, p ≠ .settled (some e) →
        Function.update c.calls j p i ≠ .settled (some e) := by
      intro p hp
      by_cases hij : i = j
      · rw [hij, Function.update_self]
        exact hp
      · rw [Function.update_of_ne hij]
        exact ih hes' i e
    have hundisturbed := hes _ List.mem_cons_self
    cases hstep with
    | snapshot hcall => exact hmoved (by simp)
    | get hcall => exact hmoved (by simp)
    | @upsert state current result d hcall hupsert =>
      obtain ⟨base, rfl, -, hsame⟩ := hsound.fetched j state current hcall
      obtain ⟨hunchanged, hnode⟩ := hundisturbed state _ hcall
      have hversion : base.version = g'.version := by
        rw [← hsound.stores.version]
        exact (hunchanged base t' rfl hsound.stores.init.root).symm
      obtain ⟨hnodes, hedges⟩ := hsame hversion
      have haccepted : Accepted svc.schema base.nodes base.edges := by
        rw [hnodes, hedges]
        exact hsound.accepted
      obtain ⟨d', -, -, hrun', -⟩ := upsertFetched_current hsound.stores hsound.accepted hnodes
        hedges hversion (haccepted.valid (hnode base rfl) svc.name state) (svc.calls j).ctx
      rw [hrun'] at hupsert
      cases hupsert
      exact hmoved (by simp [NodeStateProgress.afterUpsert])
    | timeout hcall => exact hundisturbed.elim
    | update hcall => exact hmoved (by simp)

/-- In every undisturbed run, a node on which no call is under way reflects all its calls; in
particular once all calls have settled. -/
theorem undisturbed_run_reflected (svc : NodeStateService ι V) (c₀ c : NodeStates ι V G)
    (es : List (NodeStateEvent ι V G)) (t : GraphTree (JsRecord V) G)
    (g : PersistedGraph (JsRecord V)) (id : String) (hready : Ready svc c₀ t g)
    (hrun : NodeStates.Run svc c₀ es c) (hes : ∀ e ∈ es, e.Undisturbed svc)
    (hquiet : NodeQuiet svc c id) : Reflected svc c₀ c id := by
  obtain ⟨order, horder⟩ :=
    run_merges_successful hready hrun (fun e he => (hes e he).notOverlapping) hquiet
  refine ⟨order, horder.nodup, ?_, horder.runtime, horder.persisted⟩
  intro i
  rw [horder.calls]
  refine and_congr_right fun hid => ⟨?_, ?_⟩
  · intro hsettled
    rw [hsettled]
    simp
  · intro hstarted
    rcases hquiet i hid with hidle | ⟨failure, hsettled⟩
    · exact absurd hidle hstarted
    · cases failure with
      | none => exact hsettled
      | some e => exact absurd hsettled (run_no_failure hready hrun hes i e)

end Runs

section Samples

/-- Properties of scalars are assigned, the new ones after the others. -/
def assignProperties (prev patch : JsRecord ℕ) : JsRecord ℕ :=
  (InsMap.ofEntries (prev ++ patch)).entries

/-- One call on the node `a` and one on the node `b`. -/
def sampleService : NodeStateService Bool ℕ where
  name := "main"
  schema := sampleSchema
  mergeWith := assignProperties
  calls first := ⟨if first then "a" else "b", [("count", 1)], "now", sampleContext⟩

def sampleNodeStates : NodeStates Bool ℕ Unit where
  disk := sampleDisk ["a", "b"]
  runtime := { GraphRuntimeState.initial with
    lastGraph := some ⟨[⟨"a", ⟨"relay", none, none⟩⟩, ⟨"b", ⟨"relay", none, none⟩⟩], []⟩ }
  calls _ := .idle

theorem sampleNodeStates_ready :
    Ready sampleService sampleNodeStates (stagedTree (sampleGraph ["a", "b"]))
      (sampleGraph ["a", "b"]) where
  stores := by
    have hstored := sampleGraph_storedAs (J := JsRecord ℕ) ["a", "b"] (by decide) (by decide) "now"
    refine ⟨⟨rfl, rfl, fun _ => ⟨_, rfl⟩, ?_⟩, shows_of_read hstored.read⟩
    intro p hp
    change (InsMap.set .empty Place.root (stagedTree (sampleGraph ["a", "b"]))).get p = none
    rw [InsMap.get_set_ne _ _ hp, InsMap.get_empty]
  accepted := ⟨by decide, by decide, fun e he => absurd he List.not_mem_nil⟩
  idle _ := rfl

/-- What the call on a node does from a state in which it has merged its patch. -/
theorem sampleNodeStates_upserts {d : Disk (JsRecord ℕ) Unit} {t : GraphTree (JsRecord ℕ) Unit}
    {g : PersistedGraph (JsRecord ℕ)} (hstores : Stores d t g)
    (haccepted : Accepted sampleSchema g.nodes g.edges) (nodeId : String)
    (hnode : nodeId ∈ g.nodes.map PersistedGraphNode.id) (state : JsRecord ℕ) :
    ∃ base d' t' g', (FsGraphRepository.get "main" "now").run working d =
        (.ok (some base), d) ∧
      (upsertFetched sampleSchema sampleContext "main" nodeId state (.ok (some base))).run
        working d = (.ok (), d') ∧
      VersionUnchanged d (.ok (some base) : Except String _) ∧
      Updatable sampleSchema base.nodes nodeId ∧ Stores d' t' g' ∧
      base.version + 1 = g'.version ∧ g'.nodes = withNodeState g.nodes nodeId state ∧
      Accepted sampleSchema g'.nodes g'.edges := by
  obtain ⟨base, hget, -, hnodes, hedges, hversion⟩ := hstores.get "main" "now"
  have hupdatable : Updatable sampleSchema base.nodes nodeId := by
    rw [hnodes]
    exact Or.inl hnode
  have hbase : Accepted sampleSchema base.nodes base.edges := by
    rw [hnodes, hedges]
    exact haccepted
  obtain ⟨d', t', g', hupsert, hstores', hversion', hnodes', haccepted'⟩ :=
    upsertFetched_current hstores haccepted hnodes hedges hversion
      (hbase.valid hupdatable "main" state) sampleContext
  refine ⟨base, d', t', g', hget, hupsert, ?_, hupdatable, hstores', by omega, hnodes',
    haccepted'⟩
  intro base' t₁ heq ht₁
  cases heq
  rw [hstores.init.root] at ht₁
  cases ht₁
  exact hstores.version.trans hversion.symm

/-- Two calls on different nodes overlap, but each one reads and upserts between the reads and
upserts of the other; both are reflected. -/
theorem overlapping_calls_reflected : ∃ es c, NodeStates.Run sampleService sampleNodeStates es c ∧
    (∀ first, c.calls first = .settled none) ∧
    Reflected sampleService sampleNodeStates c "a" ∧
    Reflected sampleService sampleNodeStates c "b" := by
  have hready := sampleNodeStates_ready
  obtain ⟨base₁, d₁, t₁, g₁, hget₁, hupsert₁, hunchanged₁, hnode₁, hstores₁, -, hnodes₁,
    haccepted₁⟩ := sampleNodeStates_upserts hready.stores hready.accepted "a"
      (by decide) [("count", 1)]
  obtain ⟨base₂, d₂, t₂, g₂, hget₂, hupsert₂, hunchanged₂, hnode₂, -⟩ :=
    sampleNodeStates_upserts hstores₁ haccepted₁ "b" (by rw [hnodes₁]; decide)
      [("count", 1)]
  have hstart : NodeStates.Run sampleService sampleNodeStates [] sampleNodeStates := .start
  have hfirst := (((hstart.step (.snapshot (i := true) rfl)).step
    (.snapshot (i := false) rfl)).step (.get (i := true) rfl hget₁)).step
      (.upsert (i := true) rfl hupsert₁)
  have hrun := (((hfirst.step (.get (i := false) rfl hget₂)).step
    (.upsert (i := false) rfl hupsert₂)).step (.update (i := false) rfl)).step
      (.update (i := true) rfl)
  obtain ⟨es, c, hrun, hes, hsettled⟩ : ∃ es c,
      NodeStates.Run sampleService sampleNodeStates es c ∧
      (∀ e ∈ es, e.Undisturbed sampleService) ∧ ∀ first, c.calls first = .settled none := by
    refine ⟨_, _, hrun, ?_, ?_⟩
    · simp only [List.forall_mem_cons]
      refine ⟨trivial, trivial, ?_, trivial, ?_, trivial, ⟨?_, _, rfl, by decide⟩,
        ⟨fun _ _ => Or.inl rfl, _, rfl, by decide⟩, by simp⟩
      · intro state current hfetched
        cases hfetched
        refine ⟨hunchanged₂, fun base hbase => ?_⟩
        cases hbase
        exact hnode₂
      · intro state current hfetched
        cases hfetched
        refine ⟨hunchanged₁, fun base hbase => ?_⟩
        cases hbase
        exact hnode₁
      · -- the call under way is one on the node `a`
        intro first hnode
        cases first with
        | true => exact absurd hnode (by decide)
        | false => exact Or.inl rfl
    · intro first
      cases first with
      | true => rfl
      | false => rfl
  have hquiet : ∀ id, NodeQuiet sampleService c id := fun _ first _ =>
    Or.inr ⟨none, hsettled first⟩
  exact ⟨es, c, hrun, hsettled,
    undisturbed_run_reflected sampleService sampleNodeStates c es _ _ "a" hready hrun hes
      (hquiet "a"),
    undisturbed_run_reflected sampleService sampleNodeStates c es _ _ "b" hready hrun hes
      (hquiet "b")⟩

/-- Both calls read the graph, and then the one on `a` is faster: the other one fails, its
promise is resolved, and its patch is nowhere. -/
theorem overtaken_call_lost : ∃ es c, NodeStates.Run sampleService sampleNodeStates es c ∧
    (∀ first, ∃ failure, c.calls first = .settled failure) ∧
    ¬ Reflected sampleService sampleNodeStates c "b" := by
  have hready := sampleNodeStates_ready
  obtain ⟨base, d, t, g, hget, hupsert, -, -, hstores, hnext, -⟩ :=
    sampleNodeStates_upserts hready.stores hready.accepted "a" (by decide)
      [("count", 1)]
  have hbehind : base.version ≠ g.version := by omega
  obtain ⟨e, hstale⟩ : ∃ e, (upsertFetched sampleSchema sampleContext "main" "b" [("count", 1)]
      (.ok (some base))).run working d = (.error e, d) :=
    upsertFetched_stale hstores hbehind sampleContext "main" "b" [("count", 1)]
  have hstart : NodeStates.Run sampleService sampleNodeStates [] sampleNodeStates := .start
  have hread := (((hstart.step (.snapshot (i := true) rfl)).step
    (.snapshot (i := false) rfl)).step (.get (i := true) rfl hget)).step
      (.get (i := false) rfl hget)
  have hrun := ((hread.step (.upsert (i := true) rfl hupsert)).step
    (.upsert (i := false) rfl hstale)).step (.update (i := true) rfl)
  refine ⟨_, _, hrun, ?_, ?_⟩
  · intro first
    cases first with
    | true => exact ⟨_, rfl⟩
    | false => exact ⟨_, rfl⟩
  · intro hreflected
    obtain ⟨order, hmerges⟩ := hreflected
    have hmem : false ∈ order := (hmerges.calls false).mpr ⟨rfl, fun h => by cases h⟩
    have hsome := sampleService.patched_isSome (List.ne_nil_of_mem hmem)
      (sampleNodeStates.runtime.getNodeStateSnapshot "b")
    rw [← hmerges.runtime] at hsome
    cases hsome

end Samples

end Agyn
