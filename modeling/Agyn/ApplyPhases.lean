import Agyn.EdgeAgreement
import Agyn.LiveGraphRuntime

/-!
What the diff of two graph definitions contains. Nodes are compared by id and template,
edges by edge key; when two edges of one graph have the same key, the later one stands
for both. The phases of an apply, each with what it does to the live nodes and to the
executed edges. A node is described by its label, its template and instance; a config
update leaves every label alone. The edge phases are described for runs in whose journal
no reversal threw, where a reversed key is always gone.
-/
namespace Agyn.LiveGraph

section Diff

variable {V : Type} (env : RuntimeEnv V) (prev next : GraphDefinition V)

section Nodes

variable {prev next}

theorem has_nodes_iff (g : GraphDefinition V) (id : String) :
    (InsMap.ofEntries (g.nodes.map fun n => (n.id, n))).has id = true ↔ id ∈ g.nodeIds := by
  rw [InsMap.has_iff, ← InsMap.mem_keys_iff, InsMap.mem_keys_ofEntries, List.map_map]
  rfl

theorem get_nodes_iff (g : GraphDefinition V) (hg : g.WellFormed) (id : String)
    (n : NodeDef V) :
    (InsMap.ofEntries (g.nodes.map fun n => (n.id, n))).get id = some n ↔
      n ∈ g.nodes ∧ n.id = id := by
  constructor
  · intro h
    obtain ⟨m, hm, heq⟩ := List.mem_map.mp (InsMap.mem_of_get_ofEntries _ _ _ h)
    cases heq
    exact ⟨hm, rfl⟩
  · rintro ⟨hn, rfl⟩
    apply InsMap.get_ofEntries_of_mem
    · rw [List.map_map]
      exact hg.ids_nodup
    · exact List.mem_map.mpr ⟨n, hn, rfl⟩

theorem mem_addedNodes (n : NodeDef V) :
    n ∈ (computeDiff env prev next).addedNodes ↔ n ∈ next.nodes ∧ n.id ∉ prev.nodeIds := by
  rw [computeDiff, List.mem_filter, ← has_nodes_iff]
  simp

theorem mem_removedNodeIds (id : String) :
    id ∈ (computeDiff env prev next).removedNodeIds ↔ id ∈ prev.nodeIds ∧ id ∉ next.nodeIds := by
  rw [computeDiff, List.mem_map]
  simp only [List.mem_filter, Bool.not_eq_true', ← Bool.not_eq_true, has_nodes_iff]
  rw [GraphDefinition.mem_nodeIds]
  constructor
  · rintro ⟨n, ⟨hn, hnot⟩, rfl⟩
    exact ⟨⟨n, hn, rfl⟩, hnot⟩
  · rintro ⟨⟨n, hn, rfl⟩, hnot⟩
    exact ⟨n, ⟨hn, hnot⟩, rfl⟩

/-- A node is recreated when its id is kept and its template changes. -/
theorem mem_recreatedNodeIds (hprev : prev.WellFormed) (id : String) :
    id ∈ (computeDiff env prev next).recreatedNodeIds ↔
      ∃ p ∈ prev.nodes, ∃ n ∈ next.nodes, p.id = id ∧ n.id = id ∧
        p.data.template ≠ n.data.template := by
  rw [computeDiff, List.mem_map]
  simp only [List.mem_filter]
  constructor
  · rintro ⟨n, ⟨hn, hcond⟩, rfl⟩
    cases hget : (InsMap.ofEntries (prev.nodes.map fun n => (n.id, n))).get n.id with
    | none =>
      rw [hget] at hcond
      cases hcond
    | some p =>
      rw [hget] at hcond
      obtain ⟨hp, hid⟩ := (get_nodes_iff prev hprev n.id p).mp hget
      exact ⟨p, hp, n, hn, hid, rfl, by simpa using hcond⟩
  · rintro ⟨p, hp, n, hn, hpid, rfl, hne⟩
    refine ⟨n, ⟨hn, ?_⟩, rfl⟩
    rw [(get_nodes_iff prev hprev n.id p).mpr ⟨hp, hpid⟩]
    simpa using hne

theorem addedNodes_nodup (prev : GraphDefinition V) (hnext : next.WellFormed) :
    ((computeDiff env prev next).addedNodes.map NodeDef.id).Nodup :=
  hnext.ids_nodup.sublist (List.filter_sublist.map NodeDef.id)

theorem recreatedNodeIds_nodup (prev : GraphDefinition V) (hnext : next.WellFormed) :
    (computeDiff env prev next).recreatedNodeIds.Nodup :=
  hnext.ids_nodup.sublist (List.filter_sublist.map NodeDef.id)

end Nodes

section Edges

variable {prev next}

theorem has_edges_iff (g : GraphDefinition V) (k : String) :
    (InsMap.ofEntries (g.edges.map fun e => (edgeKey e, e))).has k = true ↔ k ∈ g.edgeKeys := by
  rw [InsMap.has_iff, ← InsMap.mem_keys_iff, InsMap.mem_keys_ofEntries, List.map_map]
  rfl

/-- Each entry of the edge map is an edge of the graph under its own key. -/
theorem mem_edgeMap {g : GraphDefinition V} {entry : String × EdgeDef}
    (h : entry ∈ (InsMap.ofEntries (g.edges.map fun e => (edgeKey e, e))).entries) :
    entry.2 ∈ g.edges ∧ edgeKey entry.2 = entry.1 := by
  have hget := (InsMap.get_eq_some_iff _ entry.1 entry.2).mpr h
  obtain ⟨e, he, heq⟩ := List.mem_map.mp (InsMap.mem_of_get_ofEntries _ _ _ hget)
  obtain ⟨hkey, hval⟩ := Prod.mk.inj heq
  exact ⟨hval ▸ he, hval ▸ hkey⟩

/-- The keys of the entries of one edge map whose keys another graph lacks. -/
theorem map_edgeKey_filter (g g' : GraphDefinition V) :
    (((InsMap.ofEntries (g.edges.map fun e => (edgeKey e, e))).entries.filter fun e =>
        !(InsMap.ofEntries (g'.edges.map fun e => (edgeKey e, e))).has e.1).map Prod.snd).map
          edgeKey =
      ((InsMap.ofEntries (g.edges.map fun e => (edgeKey e, e))).entries.filter fun e =>
        !(InsMap.ofEntries (g'.edges.map fun e => (edgeKey e, e))).has e.1).map Prod.fst := by
  rw [List.map_map]
  apply List.map_congr_left
  intro entry hentry
  exact (mem_edgeMap (List.mem_of_mem_filter hentry)).2

private theorem mem_map_fst_filter (g g' : GraphDefinition V) (k : String) :
    k ∈ ((InsMap.ofEntries (g.edges.map fun e => (edgeKey e, e))).entries.filter fun e =>
        !(InsMap.ofEntries (g'.edges.map fun e => (edgeKey e, e))).has e.1).map Prod.fst ↔
      k ∈ g.edgeKeys ∧ k ∉ g'.edgeKeys := by
  rw [← has_edges_iff g, ← has_edges_iff g', InsMap.has_iff]
  simp only [List.mem_map, List.mem_filter, Bool.not_eq_true', ← Bool.not_eq_true]
  constructor
  · rintro ⟨entry, ⟨hmem, hnot⟩, rfl⟩
    exact ⟨⟨entry.2, (InsMap.get_eq_some_iff _ _ _).mpr hmem⟩, hnot⟩
  · rintro ⟨⟨e, hget⟩, hnot⟩
    exact ⟨(k, e), ⟨(InsMap.get_eq_some_iff _ _ _).mp hget, hnot⟩, rfl⟩

theorem mem_addedEdgeKeys (k : String) :
    k ∈ (computeDiff env prev next).addedEdges.map edgeKey ↔
      k ∈ next.edgeKeys ∧ k ∉ prev.edgeKeys := by
  rw [computeDiff, map_edgeKey_filter, mem_map_fst_filter]

theorem mem_removedEdgeKeys (k : String) :
    k ∈ (computeDiff env prev next).removedEdges.map edgeKey ↔
      k ∈ prev.edgeKeys ∧ k ∉ next.edgeKeys := by
  rw [computeDiff, map_edgeKey_filter, mem_map_fst_filter]

theorem addedEdges_subset {e : EdgeDef} (h : e ∈ (computeDiff env prev next).addedEdges) :
    e ∈ next.edges := by
  rw [computeDiff, List.mem_map] at h
  obtain ⟨entry, hentry, rfl⟩ := h
  exact (mem_edgeMap (List.mem_of_mem_filter hentry)).1

theorem removedEdgeKeys_nodup : ((computeDiff env prev next).removedEdges.map edgeKey).Nodup := by
  rw [computeDiff, map_edgeKey_filter]
  exact (InsMap.nodup _).sublist (List.filter_sublist.map Prod.fst)

theorem addedEdgeKeys_nodup : ((computeDiff env prev next).addedEdges.map edgeKey).Nodup := by
  rw [computeDiff, map_edgeKey_filter]
  exact (InsMap.nodup _).sublist (List.filter_sublist.map Prod.fst)

end Edges

end Diff

section Phases

open GraphRuntimeState

variable {V : Type}

def Clean (w : World V) : Prop := ∀ site k, .reversed site k true ∉ w.journal

theorem Clean.of_extends {w w' : World V} (h : Extends w w') (hclean : Clean w') : Clean w := by
  obtain ⟨new, hj, -⟩ := h
  intro site k hmem
  exact hclean site k (hj ▸ List.mem_append_right _ hmem)

theorem run_extends {env : RuntimeEnv V} {w w' : World V} (h : Run env w w') : Extends w w' := by
  induction h with
  | refl => exact Extends.refl w
  | tail _ hstep ih => exact ih.trans (step_extends hstep)

theorem Clean.of_run {env : RuntimeEnv V} {w w' : World V} (h : Run env w w')
    (hclean : Clean w') : Clean w := hclean.of_extends (run_extends h)

variable (env : RuntimeEnv V)

section MethodsSucceed

theorem reverseKey_clean (hsucc : EdgeMethodsSucceed env) (site : ReversalSite) (w : World V)
    (k : String) (hw : Clean w) : Clean (reverseKey env site w k) := by
  rcases reverseKey_cases env site w k with
    ⟨-, hsame⟩ | ⟨rec, -, hthrows, -⟩ | ⟨rec, -, -, hj⟩
  · rw [hsame]
    exact hw
  · exact absurd hsucc hthrows
  · intro site' k' hmem
    rw [hj] at hmem
    exact hw site' k' (by simpa using hmem)

theorem step_clean (hsucc : EdgeMethodsSucceed env) {w w' : World V}
    (h : RuntimeStep env w w') (hw : Clean w) : Clean w' := by
  cases h with
  | quiet h => exact fun site k hmem => hw site k (h.journal_eq ▸ hmem)
  | setNode id n => exact fun site k hmem => hw site k (by simpa [World.assign] using hmem)
  | setMeta g v => exact fun site k hmem => hw site k (by simpa [World.assign] using hmem)
  | reverse k => exact reverseKey_clean env hsucc .edgeRemoval w k hw
  | dispose id =>
    have hfold : ∀ (ks : List String) (w : World V), Clean w →
        Clean (ks.foldl (reverseKey env .disposal) w) := by
      intro ks
      induction ks with
      | nil => exact fun w hw => hw
      | cons k rest ih => exact fun w hw => ih _ (reverseKey_clean env hsucc .disposal w k hw)
    unfold disposeNode
    split
    · exact hw
    · intro site k hmem
      exact hfold (w.state.edgeKeysOf id) w hw site k
        (by simpa [World.assign, World.call] using hmem)
  | register rec hs ht =>
    exact fun site k hmem =>
      hw site k (by simpa [registerEdge, World.assign, World.note] using hmem)
  | shutdownNode id =>
    unfold shutdownNode
    split
    · exact hw
    · exact fun site k hmem => hw site k (by simpa [World.assign] using hmem)
  | clear hdead => exact fun site k hmem => hw site k (by simpa [World.assign] using hmem)

theorem run_clean (hsucc : EdgeMethodsSucceed env) {w w' : World V} (h : Run env w w')
    (hw : Clean w) : Clean w' := by
  induction h with
  | refl => exact hw
  | tail _ hstep ih => exact step_clean env hsucc hstep ih

end MethodsSucceed

section Labels

def label (s : GraphRuntimeState V) (id : String) : Option (String × Instance) :=
  (s.nodes.get id).map fun live => (live.template, live.inst)

theorem live_iff_label (s : GraphRuntimeState V) (id : String) :
    s.Live id ↔ ∃ l, label s id = some l := by
  unfold Live label
  constructor
  · rintro ⟨live, h⟩
    exact ⟨_, by rw [h]; rfl⟩
  · rintro ⟨l, h⟩
    obtain ⟨live, hlive, -⟩ := Option.map_eq_some_iff.mp h
    exact ⟨live, hlive⟩

theorem label_congr {s t : GraphRuntimeState V} (h : t.nodes = s.nodes) : label t = label s := by
  funext id
  rw [label, label, h]

/-- Edges, index maps and snapshot are the same; only nodes may differ. -/
structure OnlyNodes (s t : GraphRuntimeState V) : Prop where
  executed : t.executedEdges = s.executedEdges
  outbound : t.outboundEdges = s.outboundEdges
  inbound : t.inboundEdges = s.inboundEdges
  lastGraph : t.lastGraph = s.lastGraph

namespace OnlyNodes

theorem refl (s : GraphRuntimeState V) : OnlyNodes s s := ⟨rfl, rfl, rfl, rfl⟩

theorem trans {s t u : GraphRuntimeState V} (hst : OnlyNodes s t) (htu : OnlyNodes t u) :
    OnlyNodes s u :=
  ⟨htu.executed.trans hst.executed, htu.outbound.trans hst.outbound,
    htu.inbound.trans hst.inbound, htu.lastGraph.trans hst.lastGraph⟩

theorem of_quiet {w w' : World V} (h : Quiet w w') : OnlyNodes w.state w'.state := by
  rw [h.state_eq]
  exact refl w.state

theorem edgeIndex {s t : GraphRuntimeState V} (h : OnlyNodes s t) (hs : s.EdgeIndex)
    (hlive : ∀ id, s.Live id → t.Live id) : t.EdgeIndex :=
  hs.of_nodes h.executed h.outbound h.inbound hlive

end OnlyNodes

theorem label_set (s : GraphRuntimeState V) (id id' : String) (n : LiveNode V) :
    label ({ s with nodes := s.nodes.set id n } : GraphRuntimeState V) id' =
      if id' = id then some (n.template, n.inst) else label s id' := by
  rw [label, InsMap.get_set]
  by_cases h : id' = id
  · rw [if_pos h, if_pos h]
    rfl
  · rw [if_neg h, if_neg h]
    rfl

end Labels

section Nodes

/-- Instantiating a node touches that node only; it is live whenever this succeeds. -/
structure Instantiated (node : NodeDef V) (w : World V) (r : Except Thrown Unit × World V) :
    Prop where
  only : OnlyNodes w.state r.2.state
  other : ∀ id, id ≠ node.id → label r.2.state id = label w.state id
  own : label r.2.state node.id = label w.state node.id ∨
    ∃ inst, label r.2.state node.id = some (node.data.template, inst)
  ok : r.1 = .ok () → ∃ inst, label r.2.state node.id = some (node.data.template, inst)

/-- Configuring a live node keeps every label. -/
theorem initialiseNode_labels (node : NodeDef V) (live : LiveNode V) (w : World V)
    (hlive : label w.state node.id = some (live.template, live.inst)) :
    OnlyNodes w.state (initialiseNode env node live w).2.state ∧
      label (initialiseNode env node live w).2.state = label w.state := by
  unfold initialiseNode
  cases hconfig : node.data.config with
  | none => exact ⟨OnlyNodes.refl _, rfl⟩
  | some cfg =>
    have hquiet := configure_quiet env live.inst cfg node.id w
    dsimp only
    rcases hrun : configure env live.inst cfg node.id w with ⟨e | cleaned, w₁⟩
    · rw [hrun] at hquiet
      exact ⟨OnlyNodes.of_quiet hquiet, label_congr (by rw [hquiet.state_eq])⟩
    · rw [hrun] at hquiet
      have hstate : w₁.state = w.state := hquiet.state_eq
      refine ⟨⟨by rw [← hstate]; rfl, by rw [← hstate]; rfl, by rw [← hstate]; rfl,
        by rw [← hstate]; rfl⟩, ?_⟩
      funext id
      dsimp only
      rw [World.call, World.assign, label_set, hstate]
      by_cases hid : id = node.id
      · rw [if_pos hid, hid, hlive]
      · rw [if_neg hid]

theorem instantiateNode_effect (node : NodeDef V) (w : World V) :
    Instantiated node w (instantiateNode env node w) := by
  have hquiet := constructNode_quiet env node w
  unfold instantiateNode
  split
  · rename_i e w₁ heq
    rw [heq] at hquiet
    have hlabel : label w₁.state = label w.state := label_congr (by rw [hquiet.state_eq])
    exact ⟨OnlyNodes.of_quiet hquiet, fun id _ => by rw [hlabel], Or.inl (by rw [hlabel]),
      fun h => by cases h⟩
  · rename_i created w₁ heq
    rw [heq] at hquiet
    have hstate : w₁.state = w.state := hquiet.state_eq
    dsimp only
    have hinit := initialiseNode_labels env node
      ⟨node.id, node.data.template, created, node.data.config⟩
      (w₁.assign { w₁.state with
        nodes := w₁.state.nodes.set node.id
          ⟨node.id, node.data.template, created, node.data.config⟩ })
      (by rw [World.assign, label_set, if_pos rfl])
    have hset : OnlyNodes w.state (w₁.assign { w₁.state with
        nodes := w₁.state.nodes.set node.id
          ⟨node.id, node.data.template, created, node.data.config⟩ }).state := by
      rw [← hstate]
      exact ⟨rfl, rfl, rfl, rfl⟩
    have hlabels : ∀ id, label (initialiseNode env node
        ⟨node.id, node.data.template, created, node.data.config⟩
        (w₁.assign { w₁.state with
          nodes := w₁.state.nodes.set node.id
            ⟨node.id, node.data.template, created, node.data.config⟩ })).2.state id =
        if id = node.id then some (node.data.template, created) else label w.state id := by
      intro id
      rw [hinit.2, World.assign, label_set, hstate]
    split
    · rename_i hfail
      rw [hfail] at hinit hlabels
      refine ⟨hset.trans hinit.1, fun id hid => ?_, Or.inr ⟨created, ?_⟩, fun h => by cases h⟩
      · rw [hlabels, if_neg hid]
      · rw [hlabels, if_pos rfl]
    · rename_i hok
      rw [hok] at hinit hlabels
      have hown : ∃ inst, label _ node.id = some (node.data.template, inst) :=
        ⟨created, by rw [hlabels, if_pos rfl]⟩
      exact ⟨hset.trans hinit.1, fun id hid => by rw [hlabels, if_neg hid], Or.inr hown,
        fun _ => hown⟩

structure AllInstantiated (nodes : List (NodeDef V)) (w : World V)
    (r : Except Thrown Unit × World V) : Prop where
  only : OnlyNodes w.state r.2.state
  other : ∀ id, id ∉ nodes.map NodeDef.id → label r.2.state id = label w.state id
  own : ∀ n ∈ nodes, label r.2.state n.id = label w.state n.id ∨
    ∃ inst, label r.2.state n.id = some (n.data.template, inst)
  ok : r.1 = .ok () → ∀ n ∈ nodes, ∃ inst, label r.2.state n.id = some (n.data.template, inst)

theorem instantiateNodes_effect (nodes : List (NodeDef V)) (hnodup : (nodes.map NodeDef.id).Nodup)
    (w : World V) : AllInstantiated nodes w (forEach (instantiateNode env) nodes w) := by
  induction nodes generalizing w with
  | nil => exact ⟨OnlyNodes.refl _, fun _ _ => rfl, by simp, by simp⟩
  | cons node rest ih =>
    obtain ⟨hfresh, hrest⟩ := List.nodup_cons.mp hnodup
    have hone := instantiateNode_effect env node w
    have hne : ∀ n ∈ rest, n.id ≠ node.id := fun n hn heq =>
      hfresh (List.mem_map.mpr ⟨n, hn, heq⟩)
    rw [forEach]
    split
    · rename_i e w₁ heq
      rw [heq] at hone
      refine ⟨hone.only, ?_, ?_, fun h => by cases h⟩
      · intro id hid
        exact hone.other id fun h => hid (by rw [h]; exact List.mem_cons_self)
      · intro n hn
        rcases List.mem_cons.mp hn with rfl | hn
        · exact hone.own
        · exact Or.inl (hone.other n.id (hne n hn))
    · rename_i u w₁ heq
      rw [heq] at hone
      have hall := ih hrest w₁
      have hnode : label (forEach (instantiateNode env) rest w₁).2.state node.id =
          label w₁.state node.id := hall.other node.id hfresh
      refine ⟨hone.only.trans hall.only, ?_, ?_, ?_⟩
      · intro id hid
        rw [List.map_cons, List.mem_cons, not_or] at hid
        rw [hall.other id hid.2, hone.other id hid.1]
      · intro n hn
        rcases List.mem_cons.mp hn with rfl | hn
        · rw [hnode]
          exact hone.own
        · rw [← hone.other n.id (hne n hn)]
          exact hall.own n hn
      · intro hok n hn
        rcases List.mem_cons.mp hn with rfl | hn
        · rw [hnode]
          exact hone.ok rfl
        · exact hall.ok hok n hn

theorem updateConfigs_labels (next : GraphDefinition V) (ids : List String) (w : World V) :
    OnlyNodes w.state (ids.foldl (updateConfig env next) w).state ∧
      label (ids.foldl (updateConfig env next) w).state = label w.state := by
  induction ids generalizing w with
  | nil => exact ⟨OnlyNodes.refl _, rfl⟩
  | cons id rest ih =>
    obtain ⟨honly, hlabel⟩ := ih (updateConfig env next w id)
    have hone : OnlyNodes w.state (updateConfig env next w id).state ∧
        label (updateConfig env next w id).state = label w.state := by
      rcases updateConfig_cases env next w id with hquiet | ⟨live, w₁, cleaned, hlive, hquiet, heq⟩
      · exact ⟨OnlyNodes.of_quiet hquiet, label_congr (by rw [hquiet.state_eq])⟩
      · have hstate : w₁.state = w.state := hquiet.state_eq
        rw [heq]
        refine ⟨⟨by rw [← hstate]; rfl, by rw [← hstate]; rfl, by rw [← hstate]; rfl,
          by rw [← hstate]; rfl⟩, ?_⟩
        funext id'
        rw [World.assign, label_set, hstate]
        by_cases hid : id' = id
        · rw [if_pos hid, hid, label, hlive]
          rfl
        · rw [if_neg hid]
    exact ⟨hone.1.trans honly, hlabel.trans hone.2⟩

end Nodes

end Phases

end Agyn.LiveGraph
