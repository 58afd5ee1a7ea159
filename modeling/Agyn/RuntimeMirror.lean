import Agyn.EdgePhases

/-!
How far the live runtime mirrors the graph it was last given. `Aligned` holds
after every apply that resolves: the live nodes are those of the graph, and
every executed edge belongs to the graph and joins the instances that are live
now. What can be missing is an edge: recreating a node takes its edges along,
and the edge diff does not add an edge again whose key has not changed.
-/
namespace Agyn.LiveGraph

open GraphRuntimeState

variable {V : Type}

structure Mirrors (s : GraphRuntimeState V) (g : GraphDefinition V) : Prop where
  ids : ∀ id, s.Live id ↔ id ∈ g.nodeIds
  templates : ∀ n ∈ g.nodes, ∃ inst, label s n.id = some (n.data.template, inst)
  keys : ∀ k, (∃ rec, s.executedEdges.get k = some rec) ↔ k ∈ g.edgeKeys
  current : ∀ k rec, s.executedEdges.get k = some rec → Current s rec

/-- The runtime mirrors the graph, except that edges may be missing. -/
structure Aligned (s : GraphRuntimeState V) (g : GraphDefinition V) : Prop where
  index : s.EdgeIndex
  ids : ∀ id, s.Live id ↔ id ∈ g.nodeIds
  templates : ∀ n ∈ g.nodes, ∃ inst, label s n.id = some (n.data.template, inst)
  keys : ∀ k rec, s.executedEdges.get k = some rec → k ∈ g.edgeKeys
  current : ∀ k rec, s.executedEdges.get k = some rec → Current s rec

theorem Aligned.mirrors_iff {s : GraphRuntimeState V} {g : GraphDefinition V} (h : Aligned s g) :
    Mirrors s g ↔ ∀ k ∈ g.edgeKeys, ∃ rec, s.executedEdges.get k = some rec := by
  constructor
  · exact fun hm k hk => (hm.keys k).mpr hk
  · intro hall
    exact ⟨h.ids, h.templates, fun k => ⟨fun ⟨rec, hrec⟩ => h.keys k rec hrec, hall k⟩, h.current⟩

theorem initial_aligned :
    Aligned (GraphRuntimeState.initial : GraphRuntimeState V) ⟨[], []⟩ where
  index := initial_edgeIndex
  ids id := by simp [Live, initial, GraphDefinition.nodeIds]
  templates n hn := by cases hn
  keys k rec h := by cases h
  current k rec h := by cases h

theorem empty_wellFormed : (⟨[], []⟩ : GraphDefinition V).WellFormed :=
  ⟨List.nodup_nil, fun e he => by cases he⟩

/-- Both endpoints of a record are nodes of `next`, under the templates they are live with. -/
def Kept (s : GraphRuntimeState V) (next : GraphDefinition V) (rec : ExecutedEdgeRecord) : Prop :=
  ∀ id, rec.Incident id → ∃ n ∈ next.nodes, n.id = id ∧
    ∃ inst, label s id = some (n.data.template, inst)

/-- No edge that `next` keeps loses an endpoint: neither endpoint is removed and neither
changes template. -/
def KeepsEndpoints (s : GraphRuntimeState V) (next : GraphDefinition V) : Prop :=
  ∀ k rec, s.executedEdges.get k = some rec → k ∈ next.edgeKeys → Kept s next rec

variable (env : RuntimeEnv V)

section Commit

theorem disposeAll_run (ids : List String) (w : World V) :
    Run env w (ids.foldl (fun w id => disposeNode env id w) w) :=
  run_foldl (disposeNode_run env) ids w

theorem commitNodes_run (next : GraphDefinition V) (diff : InternalDiffComputation V)
    (w : World V) : Run env w (commitNodes env next diff w) := by
  have hconfig := run_foldl (updateConfig_run env next) diff.configUpdateNodeIds w
  have hedges := run_foldl (reverseKey_run env)
    (diff.removedEdges.map edgeKey) (diff.configUpdateNodeIds.foldl (updateConfig env next) w)
  exact ((hconfig.trans hedges).trans (disposeAll_run env diff.removedNodeIds _)).tail
    (.setMeta _ (some next) _)

/-- Removing edges and nodes and replacing the snapshot. -/
structure Removed (next : GraphDefinition V) (ids ks : List String) (w w' : World V) : Prop where
  index : w'.state.EdgeIndex
  lastGraph : w'.state.lastGraph = some next
  executed : ∀ k rec, w'.state.executedEdges.get k = some rec ↔
    w.state.executedEdges.get k = some rec ∧ k ∉ ks ∧ ∀ id ∈ ids, ¬ rec.Incident id
  label : ∀ id, label w'.state id = if id ∈ ids then none else label w.state id

theorem commitNodes_removed (next : GraphDefinition V) (diff : InternalDiffComputation V)
    (hks : (diff.removedEdges.map edgeKey).Nodup) (w : World V) (hw : w.state.EdgeIndex)
    (hclean : Clean (commitNodes env next diff w)) :
    Removed next diff.removedNodeIds (diff.removedEdges.map edgeKey) w
      (commitNodes env next diff w) := by
  unfold commitNodes at hclean ⊢
  dsimp only at hclean ⊢
  obtain ⟨honly, hlabel⟩ := updateConfigs_labels env next diff.configUpdateNodeIds w
  have hlive : ∀ id, w.state.Live id →
      (diff.configUpdateNodeIds.foldl (updateConfig env next) w).state.Live id := by
    intro id hid
    rw [live_iff_label, hlabel, ← live_iff_label]
    exact hid
  have hindex := honly.edgeIndex hw hlive
  generalize diff.configUpdateNodeIds.foldl (updateConfig env next) w = w₁ at *
  have hnodes : Clean (diff.removedNodeIds.foldl (fun w id => disposeNode env id w)
      ((diff.removedEdges.map edgeKey).foldl (reverseKey env .edgeRemoval) w₁)) :=
    hclean.of_run (setMeta_run env _ (some next) _)
  have hedges := reverseKeys_removed env _ hks w₁ hindex
    (hnodes.of_run (disposeAll_run env diff.removedNodeIds _))
  have hdrop := disposeNodes_dropped env diff.removedNodeIds _ hedges.index hnodes
  generalize (diff.removedEdges.map edgeKey).foldl (reverseKey env .edgeRemoval) w₁ = w₂ at *
  refine ⟨hdrop.index.of_nodes rfl rfl rfl fun _ h => h, rfl, ?_, ?_⟩
  · intro k rec
    change (diff.removedNodeIds.foldl (fun w id => disposeNode env id w)
      w₂).state.executedEdges.get k = some rec ↔ _
    rw [hdrop.executed, hedges.executed, honly.executed, and_assoc]
  · intro id
    change LiveGraph.label (diff.removedNodeIds.foldl (fun w id => disposeNode env id w)
      w₂).state id = _
    rw [hdrop.label, label_congr hedges.nodes, hlabel]

end Commit

section Step

/-- The state between the node phases and the edge phase: the nodes are those of `next`
and exactly the kept edges are left. -/
structure Committed (s : GraphRuntimeState V) (next : GraphDefinition V)
    (s' : GraphRuntimeState V) : Prop where
  index : s'.EdgeIndex
  lastGraph : s'.lastGraph = some next
  ids : ∀ id, s'.Live id ↔ id ∈ next.nodeIds
  templates : ∀ n ∈ next.nodes, ∃ inst, label s' n.id = some (n.data.template, inst)
  executed : ∀ k rec, s'.executedEdges.get k = some rec ↔
    s.executedEdges.get k = some rec ∧ k ∈ next.edgeKeys ∧ Kept s next rec
  current : ∀ k rec, s'.executedEdges.get k = some rec → Current s' rec

/-- A node that the diff does not recreate has the template of the next graph. -/
theorem Aligned.label_of_not_recreated {s : GraphRuntimeState V} {prev next : GraphDefinition V}
    (h : Aligned s prev) (hprev : prev.WellFormed) {n : NodeDef V} (hn : n ∈ next.nodes)
    (hid : n.id ∈ prev.nodeIds)
    (hrecreated : n.id ∉ (computeDiff env prev next).recreatedNodeIds) :
    ∃ inst, label s n.id = some (n.data.template, inst) := by
  obtain ⟨p, hp, hpid⟩ := (GraphDefinition.mem_nodeIds prev _).mp hid
  have htemplate : p.data.template = n.data.template := by
    by_contra hne
    exact hrecreated ((mem_recreatedNodeIds env hprev _).mpr ⟨p, hp, n, hn, hpid, rfl, hne⟩)
  obtain ⟨inst, hlabel⟩ := h.templates p hp
  exact ⟨inst, by rw [← hpid, hlabel, htemplate]⟩

/-- In an aligned state an endpoint is kept iff it is neither recreated nor removed. -/
theorem kept_iff {s : GraphRuntimeState V} {prev next : GraphDefinition V} (h : Aligned s prev)
    (hprev : prev.WellFormed) (hnext : next.WellFormed) {k : String} {rec : ExecutedEdgeRecord}
    (hrec : s.executedEdges.get k = some rec) :
    Kept s next rec ↔
      (∀ id ∈ (computeDiff env prev next).recreatedNodeIds, ¬ rec.Incident id) ∧
        ∀ id ∈ (computeDiff env prev next).removedNodeIds, ¬ rec.Incident id := by
  have hendpoint : ∀ id, rec.Incident id → id ∈ prev.nodeIds := by
    intro id hinc
    have hlive := h.index.live k rec hrec
    rcases hinc with rfl | rfl
    · exact (h.ids _).mp hlive.1
    · exact (h.ids _).mp hlive.2
  constructor
  · intro hkept
    refine ⟨fun id hid hinc => ?_, fun id hid hinc => ?_⟩
    · obtain ⟨n, hn, hnid, inst, hlabel⟩ := hkept id hinc
      obtain ⟨p, hp, m, hm, hpid, hmid, hne⟩ := (mem_recreatedNodeIds env hprev id).mp hid
      obtain ⟨inst', hplabel⟩ := h.templates p hp
      rw [hpid, hlabel] at hplabel
      obtain rfl := hnext.node_unique hn hm (hnid.trans hmid.symm)
      exact hne (Prod.mk.inj (Option.some.inj hplabel)).1.symm
    · obtain ⟨n, hn, hnid, -⟩ := hkept id hinc
      have hrem := (mem_removedNodeIds env id).mp hid
      exact hrem.2 ((GraphDefinition.mem_nodeIds next id).mpr ⟨n, hn, hnid⟩)
  · rintro ⟨hrecreated, hremoved⟩ id hinc
    have hid := hendpoint id hinc
    have hmem : id ∈ next.nodeIds := by
      by_contra hnot
      exact hremoved id ((mem_removedNodeIds env id).mpr ⟨hid, hnot⟩) hinc
    obtain ⟨n, hn, rfl⟩ := (GraphDefinition.mem_nodeIds next id).mp hmem
    obtain ⟨inst, hlabel⟩ :=
      h.label_of_not_recreated env hprev hn hid fun hmem => hrecreated _ hmem hinc
    exact ⟨n, hn, rfl, inst, hlabel⟩

/-- The first phase leaves the nodes of `prev` and all edges alone. -/
structure Added (prev next : GraphDefinition V) (w : World V) (r : Except Thrown Unit × World V) :
    Prop where
  index : r.2.state.EdgeIndex
  executed : r.2.state.executedEdges = w.state.executedEdges
  lastGraph : r.2.state.lastGraph = w.state.lastGraph
  old : ∀ id ∈ prev.nodeIds, label r.2.state id = label w.state id
  bound : ∀ id, r.2.state.Live id → id ∈ prev.nodeIds ∨ id ∈ next.nodeIds
  ok : r.1 = .ok () → ∀ n ∈ next.nodes, n.id ∉ prev.nodeIds →
    ∃ inst, label r.2.state n.id = some (n.data.template, inst)

theorem addedNodes_effect {prev next : GraphDefinition V} {w : World V}
    (h : Aligned w.state prev) (hnext : next.WellFormed) :
    Added prev next w (forEach (instantiateNode env) (computeDiff env prev next).addedNodes w) := by
  have hall := instantiateNodes_effect env _ (addedNodes_nodup env prev hnext) w
  generalize forEach (instantiateNode env) (computeDiff env prev next).addedNodes w = r at hall
  have hold : ∀ id ∈ prev.nodeIds, label r.2.state id = label w.state id := by
    intro id hid
    apply hall.other
    intro hmem
    obtain ⟨n, hn, rfl⟩ := List.mem_map.mp hmem
    exact ((mem_addedNodes env n).mp hn).2 hid
  refine ⟨?_, hall.only.executed, hall.only.lastGraph, hold, ?_, ?_⟩
  · refine hall.only.edgeIndex h.index fun id hlive => ?_
    rw [live_iff_label, hold id ((h.ids id).mp hlive), ← live_iff_label]
    exact hlive
  · intro id hlive
    by_cases hmem : id ∈ (computeDiff env prev next).addedNodes.map NodeDef.id
    · obtain ⟨n, hn, rfl⟩ := List.mem_map.mp hmem
      exact Or.inr ((GraphDefinition.mem_nodeIds next _).mpr
        ⟨n, ((mem_addedNodes env n).mp hn).1, rfl⟩)
    · rw [live_iff_label, hall.other id hmem, ← live_iff_label] at hlive
      exact Or.inl ((h.ids id).mp hlive)
  · intro hok n hn hnew
    exact hall.ok hok n ((mem_addedNodes env n).mpr ⟨hn, hnew⟩)

theorem recreated_mem_next {prev next : GraphDefinition V} (hprev : prev.WellFormed) {id : String}
    (hid : id ∈ (computeDiff env prev next).recreatedNodeIds) :
    id ∈ prev.nodeIds ∧ id ∈ next.nodeIds := by
  obtain ⟨p, hp, n, hn, hpid, hnid, -⟩ := (mem_recreatedNodeIds env hprev id).mp hid
  exact ⟨(GraphDefinition.mem_nodeIds prev id).mpr ⟨p, hp, hpid⟩,
    (GraphDefinition.mem_nodeIds next id).mpr ⟨n, hn, hnid⟩⟩

/-- What the three phases on nodes have done one after the other. -/
structure NodePhases (prev next : GraphDefinition V) (w w₁ w₂ w₃ : World V) : Prop where
  added : Added prev next w (.ok (), w₁)
  recreated : Recreated env next (computeDiff env prev next).recreatedNodeIds w₁ (.ok (), w₂)
  removed : Removed next (computeDiff env prev next).removedNodeIds
    ((computeDiff env prev next).removedEdges.map edgeKey) w₂ w₃

section Phases

variable {env} {prev next : GraphDefinition V} {w w₁ w₂ w₃ : World V}

theorem NodePhases.label_eq (hphases : NodePhases env prev next w w₁ w₂ w₃) {id : String}
    (hid : id ∈ prev.nodeIds) (hrecreated : id ∉ (computeDiff env prev next).recreatedNodeIds)
    (hremoved : id ∉ (computeDiff env prev next).removedNodeIds) :
    label w₃.state id = label w.state id := by
  rw [hphases.removed.label, if_neg hremoved, hphases.recreated.other id hrecreated,
    hphases.added.old id hid]

theorem NodePhases.templates (hphases : NodePhases env prev next w w₁ w₂ w₃)
    (h : Aligned w.state prev) (hprev : prev.WellFormed) (hnext : next.WellFormed) {n : NodeDef V}
    (hn : n ∈ next.nodes) : ∃ inst, label w₃.state n.id = some (n.data.template, inst) := by
  have hmem : n.id ∈ next.nodeIds := (GraphDefinition.mem_nodeIds next _).mpr ⟨n, hn, rfl⟩
  have hnot : n.id ∉ (computeDiff env prev next).removedNodeIds := fun hid =>
    ((mem_removedNodeIds env _).mp hid).2 hmem
  rw [hphases.removed.label, if_neg hnot]
  by_cases hrecreated : n.id ∈ (computeDiff env prev next).recreatedNodeIds
  · obtain ⟨m, inst, hfind, hlabel⟩ := (hphases.recreated.ok rfl).1 n.id hrecreated
    obtain ⟨hm, hmid⟩ := GraphDefinition.findNode_some hfind
    obtain rfl := hnext.node_unique hm hn hmid
    exact ⟨inst, hlabel⟩
  · rw [hphases.recreated.other _ hrecreated]
    by_cases hold : n.id ∈ prev.nodeIds
    · rw [hphases.added.old _ hold]
      exact h.label_of_not_recreated env hprev hn hold hrecreated
    · exact hphases.added.ok rfl n hn hold

theorem NodePhases.ids (hphases : NodePhases env prev next w w₁ w₂ w₃)
    (h : Aligned w.state prev) (hprev : prev.WellFormed) (hnext : next.WellFormed) (id : String) :
    w₃.state.Live id ↔ id ∈ next.nodeIds := by
  constructor
  · intro hlive
    obtain ⟨l, hl⟩ := (live_iff_label _ _).mp hlive
    rw [hphases.removed.label] at hl
    by_cases hremoved : id ∈ (computeDiff env prev next).removedNodeIds
    · rw [if_pos hremoved] at hl
      cases hl
    rw [if_neg hremoved] at hl
    by_cases hrecreated : id ∈ (computeDiff env prev next).recreatedNodeIds
    · exact (recreated_mem_next env hprev hrecreated).2
    rw [hphases.recreated.other id hrecreated] at hl
    rcases hphases.added.bound id ((live_iff_label _ _).mpr ⟨l, hl⟩) with hold | hnew
    · by_contra hnot
      exact hremoved ((mem_removedNodeIds env id).mpr ⟨hold, hnot⟩)
    · exact hnew
  · intro hid
    obtain ⟨n, hn, rfl⟩ := (GraphDefinition.mem_nodeIds next id).mp hid
    obtain ⟨inst, hlabel⟩ := hphases.templates h hprev hnext hn
    exact (live_iff_label _ _).mpr ⟨_, hlabel⟩

theorem NodePhases.executed (hphases : NodePhases env prev next w w₁ w₂ w₃)
    (h : Aligned w.state prev) (hprev : prev.WellFormed) (hnext : next.WellFormed) (k : String)
    (rec : ExecutedEdgeRecord) : w₃.state.executedEdges.get k = some rec ↔
      w.state.executedEdges.get k = some rec ∧ k ∈ next.edgeKeys ∧ Kept w.state next rec := by
  have hfirst : w₁.state.executedEdges = w.state.executedEdges := hphases.added.executed
  rw [hphases.removed.executed]
  constructor
  · rintro ⟨hrec₂, hk, hremoved⟩
    have hold : w.state.executedEdges.get k = some rec := by
      rw [← hfirst]
      exact hphases.recreated.kept k rec hrec₂
    have hkey : k ∈ next.edgeKeys := by
      by_contra hnot
      exact hk ((mem_removedEdgeKeys env k).mpr ⟨h.keys k rec hold, hnot⟩)
    exact ⟨hold, hkey, (kept_iff env h hprev hnext hold).mpr
      ⟨(hphases.recreated.ok rfl).2 k rec hrec₂, hremoved⟩⟩
  · rintro ⟨hold, hkey, hkept⟩
    obtain ⟨hrecreated, hremoved⟩ := (kept_iff env h hprev hnext hold).mp hkept
    refine ⟨hphases.recreated.lost k rec (by rw [hfirst]; exact hold) hrecreated, ?_, hremoved⟩
    intro hk
    exact ((mem_removedEdgeKeys env k).mp hk).2 hkey

/-- A kept edge still joins the instances that it joined before. -/
theorem NodePhases.current (hphases : NodePhases env prev next w w₁ w₂ w₃)
    (h : Aligned w.state prev) (hprev : prev.WellFormed) (hnext : next.WellFormed) {k : String}
    {rec : ExecutedEdgeRecord} (hold : w.state.executedEdges.get k = some rec)
    (hkept : Kept w.state next rec) : Current w₃.state rec := by
  obtain ⟨hrecreated, hremoved⟩ := (kept_iff env h hprev hnext hold).mp hkept
  have hsame : ∀ id, rec.Incident id → w.state.Live id → label w₃.state id = label w.state id :=
    fun id hinc hlive => hphases.label_eq ((h.ids id).mp hlive)
      (fun hid => hrecreated _ hid hinc) (fun hid => hremoved _ hid hinc)
  have hlive := h.index.live k rec hold
  obtain ⟨⟨t, hsource⟩, t', htarget⟩ := h.current k rec hold
  constructor
  · refine ⟨t, ?_⟩
    rw [hsame _ (Or.inl rfl) hlive.1]
    exact hsource
  · refine ⟨t', ?_⟩
    rw [hsame _ (Or.inr rfl) hlive.2]
    exact htarget

end Phases

/-- After the node phases of an apply to an aligned state. -/
theorem commitNodes_committed {prev next : GraphDefinition V} {w w₁ w₂ : World V}
    (h : Aligned w.state prev) (hprev : prev.WellFormed) (hnext : next.WellFormed)
    (hadd : forEach (instantiateNode env) (computeDiff env prev next).addedNodes w = (.ok (), w₁))
    (hrec : forEach (recreateNode env next) (computeDiff env prev next).recreatedNodeIds w₁ =
      (.ok (), w₂))
    (hclean : Clean (commitNodes env next (computeDiff env prev next) w₂)) :
    Committed w.state next (commitNodes env next (computeDiff env prev next) w₂).state := by
  have hadded := addedNodes_effect env h hnext
  rw [hadd] at hadded
  have hrun : Run env w₂ (commitNodes env next (computeDiff env prev next) w₂) :=
    commitNodes_run env next _ w₂
  have hrecreated := recreateNodes_effect env next _ (recreatedNodeIds_nodup env prev hnext)
    (fun id hid => (recreated_mem_next env hprev hid).2) w₁ hadded.index
    (by rw [hrec]; exact hclean.of_run hrun)
  rw [hrec] at hrecreated
  have hremoved := commitNodes_removed env next (computeDiff env prev next)
    (removedEdgeKeys_nodup env) w₂ hrecreated.index hclean
  have hphases : NodePhases env prev next w w₁ w₂ _ := ⟨hadded, hrecreated, hremoved⟩
  refine ⟨hremoved.index, hremoved.lastGraph, hphases.ids h hprev hnext,
    fun n hn => hphases.templates h hprev hnext hn, hphases.executed h hprev hnext, ?_⟩
  intro k rec hrec₃
  obtain ⟨hold, -, hkept⟩ := (hphases.executed h hprev hnext k rec).mp hrec₃
  exact hphases.current h hprev hnext hold hkept

end Step

end Agyn.LiveGraph
