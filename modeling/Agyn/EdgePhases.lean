import Agyn.ApplyPhases

/-!
The phases of an apply that touch edges, in runs where no reversal threw:
disposing of nodes, recreating them, reversing the removed edges and executing
the added ones. Disposing of a node takes every edge at the node with it, which
the diff of the edges knows nothing about.
-/
namespace Agyn.LiveGraph

open GraphRuntimeState

variable {V : Type} (env : RuntimeEnv V)

section Disposals

/-- Nodes `ids` are gone and so are the edges at them; nothing else has changed. -/
structure Dropped (ids : List String) (w w' : World V) : Prop where
  index : w'.state.EdgeIndex
  lastGraph : w'.state.lastGraph = w.state.lastGraph
  executed : ∀ k rec, w'.state.executedEdges.get k = some rec ↔
    w.state.executedEdges.get k = some rec ∧ ∀ id ∈ ids, ¬ rec.Incident id
  label : ∀ id, label w'.state id = if id ∈ ids then none else label w.state id

theorem disposeNode_dropped (id : String) (w : World V) (hw : w.state.EdgeIndex)
    (hclean : Clean (disposeNode env id w)) : Dropped [id] w (disposeNode env id w) := by
  rcases disposeNode_spec env id w hw with ⟨hdead, hsame⟩ | ⟨-, new, h⟩
  · rw [hsame]
    refine ⟨hw, rfl, ?_, ?_⟩
    · intro k rec
      refine ⟨fun hrec => ⟨hrec, ?_⟩, fun hrec => hrec.1⟩
      intro id' hid' hinc
      obtain rfl := List.mem_singleton.mp hid'
      have hlive := hw.live k rec hrec
      rcases hinc with rfl | rfl
      · exact hdead hlive.1
      · exact hdead hlive.2
    · intro id'
      by_cases hid : id' = id
      · subst hid
        rw [if_pos List.mem_cons_self, ← Option.not_isSome_iff_eq_none, Option.isSome_iff_exists,
          ← live_iff_label]
        exact hdead
      · rw [if_neg (by simpa using hid)]
  · have hnone : ∀ k, .reversed .disposal k true ∉ new := by
      intro k hk
      apply hclean .disposal k
      rw [h.journal]
      exact List.mem_cons_of_mem _ (List.mem_append_left _ hk)
    refine ⟨h.index hnone, h.lastGraph, ?_, ?_⟩
    · intro k rec
      rw [h.executed]
      refine and_congr_right fun _ => ?_
      rw [List.forall_mem_singleton]
      exact ⟨fun hinc hi => hnone k (hinc hi), fun hne hi => absurd hi hne⟩
    · intro id'
      rw [LiveGraph.label, h.nodes, InsMap.get_delete]
      by_cases hid : id' = id
      · simp [hid]
      · simp [hid, LiveGraph.label]

theorem disposeNodes_dropped (ids : List String) (w : World V) (hw : w.state.EdgeIndex)
    (hclean : Clean (ids.foldl (fun w id => disposeNode env id w) w)) :
    Dropped ids w (ids.foldl (fun w id => disposeNode env id w) w) := by
  induction ids generalizing w with
  | nil => exact ⟨hw, rfl, by simp, by simp⟩
  | cons id rest ih =>
    rw [List.foldl_cons] at hclean ⊢
    have hfirst : Clean (disposeNode env id w) := hclean.of_run
      (run_foldl (disposeNode_run env) rest _)
    have hone := disposeNode_dropped env id w hw hfirst
    have hrest := ih (disposeNode env id w) hone.index hclean
    refine ⟨hrest.index, hrest.lastGraph.trans hone.lastGraph, ?_, ?_⟩
    · intro k rec
      rw [hrest.executed, hone.executed, and_assoc, List.forall_mem_singleton,
        List.forall_mem_cons]
    · intro id'
      rw [hrest.label, hone.label]
      by_cases hmem : id' ∈ rest
      · simp [hmem]
      · simp [hmem]

/-- Nothing but the edges of the given keys is gone. -/
structure EdgesRemoved (ks : List String) (w w' : World V) : Prop where
  index : w'.state.EdgeIndex
  nodes : w'.state.nodes = w.state.nodes
  lastGraph : w'.state.lastGraph = w.state.lastGraph
  executed : ∀ k rec, w'.state.executedEdges.get k = some rec ↔
    w.state.executedEdges.get k = some rec ∧ k ∉ ks

theorem reverseKeys_removed (ks : List String) (hks : ks.Nodup) (w : World V)
    (hw : w.state.EdgeIndex) (hclean : Clean (ks.foldl (reverseKey env .edgeRemoval) w)) :
    EdgesRemoved ks w (ks.foldl (reverseKey env .edgeRemoval) w) := by
  obtain ⟨new, h⟩ := reverseKeys_spec env .edgeRemoval ks hks w hw
  refine ⟨h.index, h.nodes, h.lastGraph, ?_⟩
  intro k rec
  rw [h.executed]
  refine and_congr_right fun _ => ⟨fun hthrew hk => ?_, fun hk hmem => absurd hmem hk⟩
  apply hclean .edgeRemoval k
  rw [h.journal]
  exact List.mem_append_left _ (hthrew hk)

end Disposals

section Recreation

/-- The recreated nodes are live again under the templates of `next`, except for one
whose instantiation failed; none of the edges at the nodes reached is left. -/
structure Recreated (next : GraphDefinition V) (ids : List String) (w : World V)
    (r : Except Thrown Unit × World V) : Prop where
  index : r.2.state.EdgeIndex
  lastGraph : r.2.state.lastGraph = w.state.lastGraph
  other : ∀ id, id ∉ ids → label r.2.state id = label w.state id
  kept : ∀ k rec, r.2.state.executedEdges.get k = some rec →
    w.state.executedEdges.get k = some rec
  lost : ∀ k rec, w.state.executedEdges.get k = some rec →
    (∀ id ∈ ids, ¬ rec.Incident id) → r.2.state.executedEdges.get k = some rec
  live : (r.1 = .ok () ∧ ∀ id, w.state.Live id → r.2.state.Live id) ∨
    ∃ failed ∈ ids, (∃ w₁, recreateNode env next failed w₁ = r) ∧
      ∀ id, w.state.Live id → id ≠ failed → r.2.state.Live id
  ok : r.1 = .ok () →
    (∀ id ∈ ids, ∃ n inst, next.findNode id = some n ∧
      label r.2.state id = some (n.data.template, inst)) ∧
    ∀ k rec, r.2.state.executedEdges.get k = some rec → ∀ id ∈ ids, ¬ rec.Incident id

theorem recreateNode_effect (next : GraphDefinition V) (id : String)
    (hid : id ∈ next.nodeIds) (w : World V) (hw : w.state.EdgeIndex)
    (hclean : Clean (recreateNode env next id w).2) :
    Recreated env next [id] w (recreateNode env next id w) ∧
      ∀ k rec, (recreateNode env next id w).2.state.executedEdges.get k = some rec →
        ¬ rec.Incident id := by
  obtain ⟨n, hn⟩ := GraphDefinition.findNode_isSome hid
  have hnid : n.id = id := (GraphDefinition.findNode_some hn).2
  have hself : recreateNode env next id w = instantiateNode env n (disposeNode env id w) := by
    simp only [recreateNode, hn]
  have hrecreated : ∃ w₁, recreateNode env next id w₁ = recreateNode env next id w := ⟨w, rfl⟩
  rw [hself] at hclean hrecreated ⊢
  have hdrop := disposeNode_dropped env id w hw (hclean.of_run (instantiateNode_run env n _))
  have hinst := instantiateNode_effect env n (disposeNode env id w)
  generalize disposeNode env id w = w₁ at hdrop hinst hrecreated ⊢
  generalize instantiateNode env n w₁ = r at hinst hrecreated ⊢
  have hlabel : ∀ id', id' ≠ id → label r.2.state id' = label w.state id' := by
    intro id' hne
    rw [hinst.other id' (by rw [hnid]; exact hne), hdrop.label, if_neg (by simpa using hne)]
  have hfree : ∀ k rec, r.2.state.executedEdges.get k = some rec → ¬ rec.Incident id := by
    intro k rec hrec
    rw [hinst.only.executed] at hrec
    exact ((hdrop.executed k rec).mp hrec).2 id List.mem_cons_self
  refine ⟨⟨?_, ?_, ?_, ?_, ?_, ?_, ?_⟩, hfree⟩
  · refine hinst.only.edgeIndex hdrop.index fun id' hlive => ?_
    have hne : id' ≠ id := by
      rintro rfl
      obtain ⟨l, hl⟩ := (live_iff_label _ _).mp hlive
      rw [hdrop.label, if_pos List.mem_cons_self] at hl
      cases hl
    rw [live_iff_label, hinst.other id' (by rw [hnid]; exact hne), ← live_iff_label]
    exact hlive
  · rw [hinst.only.lastGraph, hdrop.lastGraph]
  · intro id' hid'
    exact hlabel id' (by simpa using hid')
  · intro k rec hrec
    rw [hinst.only.executed] at hrec
    exact ((hdrop.executed k rec).mp hrec).1
  · intro k rec hrec hne
    rw [hinst.only.executed]
    exact (hdrop.executed k rec).mpr ⟨hrec, hne⟩
  · refine Or.inr ⟨id, List.mem_cons_self, hrecreated, fun id' hlive hne => ?_⟩
    rw [live_iff_label, hlabel id' hne, ← live_iff_label]
    exact hlive
  · intro hok
    obtain ⟨inst, hown⟩ := hinst.ok hok
    refine ⟨?_, ?_⟩
    · rw [List.forall_mem_singleton]
      exact ⟨n, inst, hn, by rw [← hnid]; exact hown⟩
    · intro k rec hrec
      rw [List.forall_mem_singleton]
      exact hfree k rec hrec

theorem recreateNodes_effect (next : GraphDefinition V) (ids : List String) (hids : ids.Nodup)
    (hmem : ∀ id ∈ ids, id ∈ next.nodeIds) (w : World V) (hw : w.state.EdgeIndex)
    (hclean : Clean (forEach (recreateNode env next) ids w).2) :
    Recreated env next ids w (forEach (recreateNode env next) ids w) := by
  induction ids generalizing w with
  | nil =>
    exact ⟨hw, rfl, fun _ _ => rfl, fun _ _ h => h, fun _ _ h _ => h,
      Or.inl ⟨rfl, fun _ h => h⟩, fun _ => ⟨by simp, by simp⟩⟩
  | cons id rest ih =>
    obtain ⟨hfresh, hrest⟩ := List.nodup_cons.mp hids
    have hrun := recreateNode_run env next id w
    have hone := recreateNode_effect env next id (hmem id List.mem_cons_self) w hw
    rw [forEach] at hclean ⊢
    split at hclean
    · rename_i e w₁ heq
      rw [heq] at hone
      have h := (hone hclean).1
      refine ⟨h.index, h.lastGraph, ?_, h.kept, ?_, ?_, fun hok => by cases hok⟩
      · intro id' hid'
        exact h.other id' (by
          rw [List.mem_singleton]
          rintro rfl
          exact hid' List.mem_cons_self)
      · intro k rec hrec hne
        exact h.lost k rec hrec (by
          rw [List.forall_mem_singleton]
          exact hne id List.mem_cons_self)
      · rcases h.live with ⟨hok, -⟩ | ⟨failed, hfailed, hrecreated, hlive⟩
        · cases hok
        · rw [List.mem_singleton] at hfailed
          exact Or.inr ⟨failed, hfailed ▸ List.mem_cons_self, hrecreated, hlive⟩
    · rename_i u w₁ heq
      rw [heq] at hone
      have htail := run_forEach (recreateNode_run env next) rest w₁
      obtain ⟨h, hfree⟩ := hone (hclean.of_run htail)
      have hr := ih hrest (fun id' hid' => hmem id' (List.mem_cons_of_mem _ hid')) w₁ h.index hclean
      obtain ⟨hlabels, -⟩ := h.ok rfl
      obtain ⟨n, inst, hn, hlabel⟩ := hlabels id List.mem_cons_self
      have hkeep : ∀ id', w.state.Live id' → w₁.state.Live id' := by
        intro id' hlive
        by_cases hid' : id' = id
        · exact (live_iff_label _ _).mpr ⟨_, by rw [hid']; exact hlabel⟩
        · rw [live_iff_label, h.other id' (by simpa using hid'), ← live_iff_label]
          exact hlive
      refine ⟨hr.index, hr.lastGraph.trans h.lastGraph, ?_, ?_, ?_, ?_, ?_⟩
      · intro id' hid'
        rw [List.mem_cons, not_or] at hid'
        rw [hr.other id' hid'.2, h.other id' (by simpa using hid'.1)]
      · intro k rec hrec
        exact h.kept k rec (hr.kept k rec hrec)
      · intro k rec hrec hne
        rw [List.forall_mem_cons] at hne
        exact hr.lost k rec (h.lost k rec hrec (by simpa using hne.1)) hne.2
      · rcases hr.live with ⟨hok, hlive⟩ | ⟨failed, hfailed, hrecreated, hlive⟩
        · exact Or.inl ⟨hok, fun id' hid' => hlive id' (hkeep id' hid')⟩
        · exact Or.inr ⟨failed, List.mem_cons_of_mem _ hfailed, hrecreated,
            fun id' hid' hne => hlive id' (hkeep id' hid') hne⟩
      · intro hok
        obtain ⟨hall, hnone⟩ := hr.ok hok
        refine ⟨?_, ?_⟩
        · rw [List.forall_mem_cons]
          exact ⟨⟨n, inst, hn, by rw [hr.other id hfresh]; exact hlabel⟩, hall⟩
        · intro k rec hrec
          rw [List.forall_mem_cons]
          exact ⟨hfree k rec (hr.kept k rec hrec), hnone k rec hrec⟩

end Recreation

section Execution

/-- The record was made with the instances that are live at its two endpoints. -/
def Current (s : GraphRuntimeState V) (rec : ExecutedEdgeRecord) : Prop :=
  (∃ template, label s rec.source = some (template, rec.sourceInstance)) ∧
    ∃ template, label s rec.target = some (template, rec.targetInstance)

/-- Edges with new and distinct keys are executed in turn, up to the first failure; an
edge with an endpoint that is not live is skipped. -/
structure EdgesAdded (edges : List EdgeDef) (w : World V) (r : Except Thrown Unit × World V) :
    Prop where
  index : r.2.state.EdgeIndex
  nodes : r.2.state.nodes = w.state.nodes
  lastGraph : r.2.state.lastGraph = w.state.lastGraph
  old : ∀ k rec, w.state.executedEdges.get k = some rec → r.2.state.executedEdges.get k = some rec
  new : ∀ k rec, r.2.state.executedEdges.get k = some rec →
    w.state.executedEdges.get k = some rec ∨ k ∈ edges.map edgeKey ∧ Current w.state rec
  ok : r.1 = .ok () → (∀ e ∈ edges, w.state.Live e.source ∧ w.state.Live e.target) →
    ∀ e ∈ edges, ∃ rec, r.2.state.executedEdges.get (edgeKey e) = some rec

theorem executeEdge_effect (edge : EdgeDef) (w : World V) (hw : w.state.EdgeIndex)
    (hnew : w.state.executedEdges.get (edgeKey edge) = none) :
    EdgesAdded [edge] w (executeEdge env edge w) ∧
      ∀ k, k ≠ edgeKey edge → (executeEdge env edge w).2.state.executedEdges.get k =
        w.state.executedEdges.get k := by
  rcases executeEdge_cases env edge w with
    ⟨hquiet, hskip⟩ | ⟨w₁, rec, ls, lt, hquiet, hs, ht, hkey, hsource, htarget, hsi, hti, heq⟩
  · have hstate := hquiet.state_eq
    refine ⟨⟨?_, ?_, ?_, ?_, ?_, ?_⟩, ?_⟩
    · rw [hstate]
      exact hw
    · rw [hstate]
    · rw [hstate]
    · intro k rec hrec
      rw [hstate]
      exact hrec
    · intro k rec hrec
      rw [hstate] at hrec
      exact Or.inl hrec
    · intro hok hlive
      rcases hskip with ⟨e, he⟩ | hdead
      · rw [hok] at he
        cases he
      · exact absurd (hlive edge List.mem_cons_self) hdead
    · intro k _
      rw [hstate]
  · have hstate := hquiet.state_eq
    have hget : ∀ k, (registerEdge rec w₁).state.executedEdges.get k =
        if k = edgeKey edge then some rec else w.state.executedEdges.get k := by
      intro k
      rw [registerEdge, World.assign, registerEdgeRecord, InsMap.get_set, hstate, hkey]
    have hcurrent : Current w.state rec := by
      constructor
      · exact ⟨ls.template, by rw [hsource, label, hs, hsi]; rfl⟩
      · exact ⟨lt.template, by rw [htarget, label, ht, hti]; rfl⟩
    rw [heq]
    refine ⟨⟨?_, ?_, ?_, ?_, ?_, ?_⟩, ?_⟩
    · change (w₁.state.registerEdgeRecord rec).EdgeIndex
      rw [hstate]
      refine hw.register rec ?_ ?_ ?_
      · exact ⟨ls, hsource ▸ hs⟩
      · exact ⟨lt, htarget ▸ ht⟩
      · intro old hold
        rw [hkey, hnew] at hold
        cases hold
    · change w₁.state.nodes = _
      rw [hstate]
    · change w₁.state.lastGraph = _
      rw [hstate]
    · intro k old hold
      rw [hget, if_neg]
      · exact hold
      · rintro rfl
        rw [hnew] at hold
        cases hold
    · intro k r hr
      rw [hget] at hr
      by_cases hk : k = edgeKey edge
      · rw [if_pos hk] at hr
        exact Or.inr ⟨by simp [hk], Option.some.inj hr ▸ hcurrent⟩
      · rw [if_neg hk] at hr
        exact Or.inl hr
    · intro _ _ e he
      obtain rfl := List.mem_singleton.mp he
      exact ⟨rec, by rw [hget, if_pos rfl]⟩
    · intro k hk
      rw [hget, if_neg hk]

theorem Current.of_nodes {s t : GraphRuntimeState V} {rec : ExecutedEdgeRecord}
    (h : Current s rec) (hnodes : t.nodes = s.nodes) : Current t rec := by
  rw [Current, label_congr hnodes]
  exact h

theorem executeEdges_effect (edges : List EdgeDef) (hkeys : (edges.map edgeKey).Nodup)
    (w : World V) (hw : w.state.EdgeIndex)
    (hnew : ∀ e ∈ edges, w.state.executedEdges.get (edgeKey e) = none) :
    EdgesAdded edges w (forEach (executeEdge env) edges w) := by
  induction edges generalizing w with
  | nil =>
    exact ⟨hw, rfl, rfl, fun _ _ h => h, fun _ _ h => Or.inl h, by simp⟩
  | cons edge rest ih =>
    obtain ⟨hfresh, hrest⟩ := List.nodup_cons.mp hkeys
    obtain ⟨h, hother⟩ := executeEdge_effect env edge w hw (hnew edge List.mem_cons_self)
    have hsub : ∀ {k}, k ∈ [edge].map edgeKey → k ∈ (edge :: rest).map edgeKey := by
      intro k hk
      rw [List.map_cons, List.mem_cons]
      exact Or.inl (by simpa using hk)
    rw [forEach]
    split
    · rename_i e w₁ heq
      rw [heq] at h
      exact ⟨h.index, h.nodes, h.lastGraph, h.old,
        fun k rec hrec => (h.new k rec hrec).imp_right fun hk => ⟨hsub hk.1, hk.2⟩,
        fun hok => by cases hok⟩
    · rename_i u w₁ heq
      rw [heq] at h hother
      have hr := ih hrest w₁ h.index fun e he => by
        rw [hother (edgeKey e) fun hk => hfresh (hk ▸ List.mem_map.mpr ⟨e, he, rfl⟩)]
        exact hnew e (List.mem_cons_of_mem _ he)
      refine ⟨hr.index, hr.nodes.trans h.nodes, hr.lastGraph.trans h.lastGraph, ?_, ?_, ?_⟩
      · intro k rec hrec
        exact hr.old k rec (h.old k rec hrec)
      · intro k rec hrec
        rcases hr.new k rec hrec with hold | ⟨hk, hcur⟩
        · exact (h.new k rec hold).imp_right fun hk => ⟨hsub hk.1, hk.2⟩
        · exact Or.inr ⟨List.mem_cons_of_mem _ hk, hcur.of_nodes h.nodes.symm⟩
      · intro hok hlive
        rw [List.forall_mem_cons] at hlive ⊢
        constructor
        · obtain ⟨rec, hrec⟩ := h.ok rfl (by simpa using hlive.1) edge List.mem_cons_self
          exact ⟨rec, hr.old _ rec hrec⟩
        · apply hr.ok hok
          intro e he
          have hl := hlive.2 e he
          unfold Live at hl ⊢
          rw [h.nodes]
          exact hl

end Execution

section Phases

/-- Phases 2 to 4 and the replacement of the snapshot. -/
def commitNodes (next : GraphDefinition V) (diff : InternalDiffComputation V) (w : World V) :
    World V :=
  let w := diff.configUpdateNodeIds.foldl (updateConfig env next) w
  let w := (diff.removedEdges.map edgeKey).foldl (reverseKey env .edgeRemoval) w
  let w := diff.removedNodeIds.foldl (fun w id => disposeNode env id w) w
  w.assign { w.state with lastGraph := some next }

/-- Where an apply can end: in adding nodes, in recreating them, or after the snapshot
was replaced. Beyond executing the added edges only the version may still change. -/
theorem applyGraphInternal_cases (next : GraphDefinition V) (w : World V)
    (diff : InternalDiffComputation V)
    (hdiff : diff = computeDiff env (w.state.lastGraph.getD ⟨[], []⟩) next) :
    (∃ e w₁, forEach (instantiateNode env) diff.addedNodes w = (.error e, w₁) ∧
      applyGraphInternal env next w = (.error e, w₁)) ∨
    (∃ w₁ e w₂, forEach (instantiateNode env) diff.addedNodes w = (.ok (), w₁) ∧
      forEach (recreateNode env next) diff.recreatedNodeIds w₁ = (.error e, w₂) ∧
      applyGraphInternal env next w = (.error e, w₂)) ∨
    ∃ w₁ w₂ w₃ r w₄ v, forEach (instantiateNode env) diff.addedNodes w = (.ok (), w₁) ∧
      forEach (recreateNode env next) diff.recreatedNodeIds w₁ = (.ok (), w₂) ∧
      w₃ = commitNodes env next diff w₂ ∧
      forEach (executeEdge env) diff.addedEdges w₃ = (r, w₄) ∧
      Run env w₄ (applyGraphInternal env next w).2 ∧
      (applyGraphInternal env next w).2.state = { w₄.state with version := v } ∧
      ((∃ result, (applyGraphInternal env next w).1 = .ok result) → r = .ok ()) := by
  unfold applyGraphInternal
  dsimp only
  rw [← hdiff]
  split
  · rename_i e w₁ heq
    exact Or.inl ⟨e, w₁, heq, rfl⟩
  rename_i u₁ w₁ heq₁
  refine Or.inr ?_
  split
  · rename_i e w₂ heq
    exact Or.inl ⟨w₁, e, w₂, heq₁, heq, rfl⟩
  rename_i u₂ w₂ heq₂
  refine Or.inr ⟨w₁, w₂, commitNodes env next diff w₂, ?_⟩
  split
  · rename_i e w₄ heq
    refine ⟨.error e, w₄, w₄.state.version, heq₁, heq₂, rfl, heq, .refl, rfl, ?_⟩
    rintro ⟨result, hok⟩
    cases hok
  rename_i u₄ w₄ heq₄
  have hquiet := provisionNodes_quiet env w₄.state.nodes.values w₄
  split
  · rename_i e w₅ heq
    rw [heq] at hquiet
    exact ⟨.ok (), w₄, w₄.state.version, heq₁, heq₂, rfl, heq₄, run_of_quiet hquiet,
      by rw [hquiet.state_eq], fun _ => rfl⟩
  · rename_i u₅ w₅ heq
    rw [heq] at hquiet
    refine ⟨.ok (), w₄, w₅.state.version + 1, heq₁, heq₂, rfl, heq₄,
      (run_of_quiet hquiet).tail (.setMeta w₅ w₅.state.lastGraph (w₅.state.version + 1)), ?_,
      fun _ => rfl⟩
    rw [World.assign, hquiet.state_eq]

end Phases

end Agyn.LiveGraph
