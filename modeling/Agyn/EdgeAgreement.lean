import Agyn.ApplyQueue
import Agyn.EdgeReversal

/-!
Agreement of the executed edges with the inbound and outbound sets, in every
state a runtime ever assigns. The one write that can break it forgets a disposed
node while the record of an edge at the node is still there, because the
reversal of the edge threw. A registration breaks it too when it replaces a
record that such a failure left behind under the same key, between other nodes.
-/
namespace Agyn.LiveGraph

open GraphRuntimeState

variable {V : Type}

/-- The public calls that change the graph. -/
inductive RuntimeCall (V : Type) where
  | apply (graph : GraphDefinition V)
  | shutdown (resolved : List String)

variable (env : RuntimeEnv V)

def perform (rt : Runtime V) : RuntimeCall V → Runtime V
  | .apply g => (apply env g rt).2
  | .shutdown resolved => { rt with world := shutdown resolved rt.world }

def performAll (calls : List (RuntimeCall V)) (rt : Runtime V) : Runtime V :=
  calls.foldl (perform env) rt

def Visited (w : World V) (s : GraphRuntimeState V) : Prop :=
  s = .initial ∨ .assigned s ∈ w.journal

section Shutdown

theorem unregisterKeys_nodes (ks : List String) (s : GraphRuntimeState V) :
    (ks.foldl unregisterKey s).nodes = s.nodes := by
  induction ks generalizing s with
  | nil => rfl
  | cons k rest ih =>
    rw [List.foldl_cons, ih]
    unfold unregisterKey
    split
    · rfl
    · rfl

theorem unregisterKeys_executed (ks : List String) (s : GraphRuntimeState V)
    (hs : s.EdgeIndex) :
    (ks.foldl unregisterKey s).EdgeIndex ∧
      ∀ k rec, (ks.foldl unregisterKey s).executedEdges.get k = some rec →
        s.executedEdges.get k = some rec ∧ k ∉ ks := by
  induction ks generalizing s with
  | nil => exact ⟨hs, fun k rec h => ⟨h, List.not_mem_nil⟩⟩
  | cons k rest ih =>
    rw [List.foldl_cons]
    unfold unregisterKey
    cases hrec : s.executedEdges.get k with
    | none =>
      refine ⟨(ih s hs).1, fun k' r hr => ?_⟩
      have h := (ih s hs).2 k' r hr
      refine ⟨h.1, ?_⟩
      rw [List.mem_cons, not_or]
      refine ⟨?_, h.2⟩
      rintro rfl
      rw [hrec] at h
      cases h.1
    | some rec =>
      have hkey := hs.key_eq k rec hrec
      have hindex := hs.unregister rec (hkey ▸ hrec)
      refine ⟨(ih _ hindex).1, fun k' r hr => ?_⟩
      have h := (ih _ hindex).2 k' r hr
      rw [unregisterEdgeRecord, InsMap.get_delete, hkey] at h
      by_cases hk : k' = k
      · rw [if_pos hk] at h
        cases h.1
      · rw [if_neg hk] at h
        exact ⟨h.1, by rw [List.mem_cons, not_or]; exact ⟨hk, h.2⟩⟩

/-- A shutdown unregisters the edges of a node before it forgets the node. -/
theorem shutdownNode_spec (w : World V) (id : String) (hw : w.state.EdgeIndex) :
    shutdownNode w id = w ∨ ∃ s, shutdownNode w id = w.assign s ∧ s.EdgeIndex := by
  unfold shutdownNode
  split
  · exact Or.inl rfl
  · refine Or.inr ⟨_, rfl, ?_⟩
    have h := unregisterKeys_executed (w.state.edgeKeysOf id) w.state hw
    apply h.1.deleteNode id
    intro k rec hrec hinc
    have hk := h.2 k rec hrec
    exact hk.2 ((hw.mem_edgeKeysOf id k).mpr ⟨rec, hk.1, hinc⟩)

theorem shutdownNode_live (w : World V) (id id' : String) (h : (shutdownNode w id).state.Live id') :
    id' ≠ id ∧ w.state.Live id' := by
  unfold shutdownNode at h
  split at h
  · rename_i hnone
    refine ⟨?_, h⟩
    rintro rfl
    obtain ⟨live, hlive⟩ := h
    rw [hnone] at hlive
    cases hlive
  · obtain ⟨live, hlive⟩ := h
    rw [World.assign, deleteNode, unregisterKeys_nodes, InsMap.get_delete] at hlive
    by_cases hid : id' = id
    · rw [if_pos hid] at hlive
      cases hlive
    · rw [if_neg hid] at hlive
      exact ⟨hid, live, hlive⟩

theorem shutdownNodes_live (ids : List String) (w : World V) (id : String)
    (h : (ids.foldl shutdownNode w).state.Live id) : id ∉ ids ∧ w.state.Live id := by
  induction ids generalizing w with
  | nil => exact ⟨List.not_mem_nil, h⟩
  | cons a rest ih =>
    have hrest := ih (shutdownNode w a) h
    have ha := shutdownNode_live w a id hrest.2
    exact ⟨by rw [List.mem_cons, not_or]; exact ⟨ha.1, hrest.1⟩, ha.2⟩

variable {env} in
theorem shutdown_run (resolved : List String) (w : World V) :
    Run env w (shutdown resolved w) := by
  have hnodes := run_foldl (shutdownNode_run env) resolved w
  unfold shutdown
  dsimp only
  split
  · rename_i hall
    refine hnodes.tail (.clear _ ?_)
    intro id hlive
    obtain ⟨hnot, hbefore⟩ := shutdownNodes_live resolved w id hlive
    exact hnot (hall id ((InsMap.mem_keys_iff _ _).mpr hbefore))
  · exact hnodes

end Shutdown

/-- A disposal that lost a reversal, or a record replaced between other nodes. -/
def Fault : RuntimeEvent V → Prop
  | .reversed .disposal _ threw => threw = true
  | .registered (some old) rec => old.source ≠ rec.source ∨ old.target ≠ rec.target
  | _ => False

/-- Without a fault the index invariant holds and every visited state agrees; with
one, some visited state does not. -/
structure Tracked (w : World V) : Prop where
  current : Visited w w.state
  sound : (∀ e ∈ w.journal, ¬ Fault e) →
    w.state.EdgeIndex ∧ ∀ s, Visited w s → s.EdgesAgree
  complete : ∀ e ∈ w.journal, Fault e → ∃ s, Visited w s ∧ ¬ s.EdgesAgree

theorem initial_tracked : Tracked (World.initial : World V) where
  current := Or.inl rfl
  sound _ := by
    refine ⟨initial_edgeIndex, ?_⟩
    rintro s (rfl | hs)
    · exact initial_edgeIndex.agree
    · cases hs
  complete e he := by cases he

/-- The journal grows, and any new state is in the new part of it. -/
def Extends (w w' : World V) : Prop :=
  ∃ new, w'.journal = new ++ w.journal ∧ (.assigned w'.state ∈ new ∨ w'.state = w.state)

theorem Extends.refl (w : World V) : Extends w w := ⟨[], rfl, Or.inr rfl⟩

theorem Extends.trans {a b c : World V} (hab : Extends a b) (hbc : Extends b c) :
    Extends a c := by
  obtain ⟨new₁, hj₁, hs₁⟩ := hab
  obtain ⟨new₂, hj₂, hs₂⟩ := hbc
  refine ⟨new₂ ++ new₁, by rw [hj₂, hj₁, List.append_assoc], ?_⟩
  rcases hs₂ with hnew | hsame
  · exact Or.inl (List.mem_append_left _ hnew)
  · rw [hsame]
    exact hs₁.imp_left (List.mem_append_right _)

theorem extends_assign (w : World V) (s : GraphRuntimeState V) : Extends w (w.assign s) :=
  ⟨[.assigned s], rfl, Or.inl List.mem_cons_self⟩

theorem extends_of_quiet {w w' : World V} (h : Quiet w w') : Extends w w' :=
  ⟨[], h.journal_eq, Or.inr h.state_eq⟩

theorem reverseKey_extends (site : ReversalSite) (w : World V) (k : String) :
    Extends w (reverseKey env site w k) := by
  rcases reverseKey_cases env site w k with
    ⟨-, hsame⟩ | ⟨rec, -, -, hstate, hj⟩ | ⟨rec, -, hstate, hj⟩
  · rw [hsame]
    exact Extends.refl w
  · exact ⟨[_], hj, Or.inr hstate⟩
  · exact ⟨[_, _], hj, Or.inl (by rw [hstate]; exact List.mem_cons_self)⟩

theorem disposeNode_extends (id : String) (w : World V) : Extends w (disposeNode env id w) := by
  unfold disposeNode
  split
  · exact Extends.refl w
  · have hfold : ∀ (ks : List String) (w : World V),
        Extends w (ks.foldl (reverseKey env .disposal) w) := by
      intro ks
      induction ks with
      | nil => exact Extends.refl
      | cons k rest ih => exact fun w => (reverseKey_extends env .disposal w k).trans (ih _)
    exact ((hfold _ w).trans (extends_of_quiet (Quiet.call _))).trans (extends_assign _ _)

variable {env}

theorem step_extends {w w' : World V} (h : RuntimeStep env w w') : Extends w w' := by
  cases h with
  | quiet h => exact extends_of_quiet h
  | setNode id n => exact extends_assign _ _
  | setMeta g v => exact extends_assign _ _
  | reverse k => exact reverseKey_extends env .edgeRemoval w k
  | dispose id => exact disposeNode_extends env id w
  | register rec hs ht =>
    exact ⟨[_, _], rfl, Or.inl List.mem_cons_self⟩
  | shutdownNode id =>
    unfold shutdownNode
    split
    · exact Extends.refl w
    · exact extends_assign _ _
  | clear hdead => exact extends_assign _ _

/-- What a step owes: it is judged only when the index invariant held before it. -/
structure StepEffect (w w' : World V) (new : List (RuntimeEvent V)) : Prop where
  journal : w'.journal = new ++ w.journal
  sound : (∀ e ∈ new, ¬ Fault e) →
    w'.state.EdgeIndex ∧ ∀ s, .assigned s ∈ new → s.EdgesAgree
  complete : ∀ e ∈ new, Fault e → ∃ s, .assigned s ∈ new ∧ ¬ s.EdgesAgree

theorem stepEffect_nil {w w' : World V} (hw : w.state.EdgeIndex) (h : Quiet w w') :
    StepEffect w w' [] where
  journal := h.journal_eq
  sound _ := ⟨h.state_eq ▸ hw, fun s hs => by cases hs⟩
  complete e he := by cases he

theorem stepEffect_assign {w : World V} {s : GraphRuntimeState V} (hs : s.EdgeIndex) :
    StepEffect w (w.assign s) [.assigned s] where
  journal := rfl
  sound _ := by
    refine ⟨hs, fun t ht => ?_⟩
    cases List.mem_singleton.mp ht
    exact hs.agree
  complete e he hfault := by
    cases List.mem_singleton.mp he
    exact False.elim hfault

theorem stepEffect_reverse (w : World V) (k : String) (hw : w.state.EdgeIndex) :
    ∃ new, StepEffect w (reverseKey env .edgeRemoval w k) new := by
  obtain ⟨new, h⟩ := reverseKeys_spec env .edgeRemoval [k] (List.nodup_singleton k) w hw
  refine ⟨new, h.journal, fun _ => ⟨h.index, fun s hs => (h.assigned s hs).agree⟩, ?_⟩
  intro e he hfault
  rcases h.events e he with ⟨s, rfl⟩ | ⟨k', b, -, rfl⟩
  · exact False.elim hfault
  · exact False.elim hfault

/-- A disposal is a fault exactly when one of its reversals threw; the record that
stays then dangles at the forgotten node. -/
theorem stepEffect_dispose (w : World V) (id : String) (hw : w.state.EdgeIndex) :
    ∃ new, StepEffect w (disposeNode env id w) new := by
  rcases disposeNode_spec env id w hw with ⟨-, hsame⟩ | ⟨-, new, h⟩
  · rw [hsame]
    exact ⟨[], stepEffect_nil hw (Quiet.refl w)⟩
  · refine ⟨.assigned (disposeNode env id w).state :: new, h.journal, ?_, ?_⟩
    · intro hquiet
      have hnone : ∀ k, .reversed .disposal k true ∉ new := fun k hk =>
        hquiet _ (List.mem_cons_of_mem _ hk) rfl
      refine ⟨h.index hnone, fun s hs => ?_⟩
      rcases List.mem_cons.mp hs with heq | hs
      · cases heq
        exact (h.index hnone).agree
      · exact (h.assigned s hs).agree
    · intro e he hfault
      rcases List.mem_cons.mp he with rfl | he
      · exact False.elim hfault
      · rcases h.events e he with ⟨s, rfl⟩ | ⟨k, b, rfl⟩
        · exact False.elim hfault
        · have hb : b = true := hfault
          subst hb
          obtain ⟨rec, hrec, hinc⟩ := h.dangling k he
          refine ⟨_, List.mem_cons_self, not_edgesAgree_of_dangling hrec hinc ?_⟩
          rintro ⟨live, hlive⟩
          rw [h.nodes, InsMap.get_delete_self] at hlive
          cases hlive

theorem stepEffect_register (w : World V) (rec : ExecutedEdgeRecord) (hw : w.state.EdgeIndex)
    (hsource : w.state.Live rec.source) (htarget : w.state.Live rec.target) :
    StepEffect w (registerEdge rec w)
      [.assigned (w.state.registerEdgeRecord rec),
        .registered (w.state.executedEdges.get rec.key) rec] where
  journal := rfl
  sound hquiet := by
    have hindex : (w.state.registerEdgeRecord rec).EdgeIndex := by
      apply hw.register rec hsource htarget
      intro old hold
      by_contra hne
      rw [not_and_or] at hne
      apply hquiet (.registered (w.state.executedEdges.get rec.key) rec) (by simp)
      rw [hold]
      exact hne
    refine ⟨hindex, fun s hs => ?_⟩
    have heq : s = w.state.registerEdgeRecord rec := by simpa using hs
    exact heq ▸ hindex.agree
  complete e he hfault := by
    refine ⟨_, List.mem_cons_self, ?_⟩
    rcases List.mem_cons.mp he with rfl | he
    · exact False.elim hfault
    · cases List.mem_singleton.mp he
      cases hold : w.state.executedEdges.get rec.key with
      | none =>
        rw [hold] at hfault
        exact False.elim hfault
      | some old =>
        rw [hold] at hfault
        exact not_edgesAgree_of_clash hw hold hfault

theorem step_effect {w w' : World V} (h : RuntimeStep env w w') (hw : w.state.EdgeIndex) :
    ∃ new, StepEffect w w' new := by
  cases h with
  | quiet h => exact ⟨[], stepEffect_nil hw h⟩
  | setNode id n => exact ⟨_, stepEffect_assign (hw.set_node id n)⟩
  | setMeta g v => exact ⟨_, stepEffect_assign (hw.of_nodes rfl rfl rfl fun _ hl => hl)⟩
  | reverse k => exact stepEffect_reverse w k hw
  | dispose id => exact stepEffect_dispose w id hw
  | register rec hs ht => exact ⟨_, stepEffect_register w rec hw hs ht⟩
  | shutdownNode id =>
    rcases shutdownNode_spec w id hw with hsame | ⟨s, heq, hs⟩
    · rw [hsame]
      exact ⟨[], stepEffect_nil hw (Quiet.refl w)⟩
    · rw [heq]
      exact ⟨_, stepEffect_assign hs⟩
  | clear hdead =>
    -- no node is live, so no edge was recorded
    have hnone : ∀ k, w.state.executedEdges.get k = none := by
      intro k
      rw [Option.eq_none_iff_forall_not_mem]
      intro rec hrec
      exact hdead _ (hw.live k rec hrec).1
    refine ⟨_, stepEffect_assign ⟨?_, ?_, ?_, ?_⟩⟩
    · intro k rec hrec
      cases hrec
    · intro a k
      rw [hw.outbound a k]
      simp [hnone]
    · intro a k
      rw [hw.inbound a k]
      simp [hnone]
    · intro k rec hrec
      cases hrec

theorem step_tracked {w w' : World V} (hstep : RuntimeStep env w w') (h : Tracked w) :
    Tracked w' := by
  obtain ⟨new, hj, hstate⟩ := step_extends hstep
  have hmono : ∀ s, Visited w s → Visited w' s := fun s hs =>
    hs.imp_right fun hmem => hj ▸ List.mem_append_right _ hmem
  have heffect : w.state.EdgeIndex → StepEffect w w' new := by
    intro hw
    obtain ⟨new', heff⟩ := step_effect hstep hw
    have heq : new' = new := List.append_cancel_right (heff.journal.symm.trans hj)
    exact heq ▸ heff
  refine ⟨?_, ?_, ?_⟩
  · rcases hstate with hnew | hsame
    · exact Or.inr (hj ▸ List.mem_append_left _ hnew)
    · rw [hsame]
      exact hmono _ h.current
  · intro hquiet
    have hold := h.sound fun e he => hquiet e (hj ▸ List.mem_append_right _ he)
    have hnew := (heffect hold.1).sound fun e he => hquiet e (hj ▸ List.mem_append_left _ he)
    refine ⟨hnew.1, ?_⟩
    rintro s (hinit | hs)
    · exact hold.2 s (Or.inl hinit)
    · rw [hj] at hs
      rcases List.mem_append.mp hs with hs | hs
      · exact hnew.2 s hs
      · exact hold.2 s (Or.inr hs)
  · intro e he hfault
    by_cases hold : ∃ e ∈ w.journal, Fault e
    · obtain ⟨e', he', hfault'⟩ := hold
      obtain ⟨s, hs, hbad⟩ := h.complete e' he' hfault'
      exact ⟨s, hmono s hs, hbad⟩
    · have hindex := (h.sound fun e' he' hf => hold ⟨e', he', hf⟩).1
      rw [hj] at he
      rcases List.mem_append.mp he with he | he
      · obtain ⟨s, hs, hbad⟩ := (heffect hindex).complete e he hfault
        exact ⟨s, Or.inr (hj ▸ List.mem_append_left _ hs), hbad⟩
      · exact absurd ⟨e, he, hfault⟩ hold

theorem run_tracked {w w' : World V} (hrun : Run env w w') (h : Tracked w) : Tracked w' := by
  induction hrun with
  | refl => exact h
  | tail _ hstep ih => exact step_tracked hstep ih

variable (env)

theorem apply_run (g : GraphDefinition V) (rt : Runtime V) :
    Run env rt.world (apply env g rt).2.world := by
  by_cases hrej : rt.Rejected
  · rw [(apply_of_rejected env g rt hrej).1]
  · rw [(apply_of_not_rejected env g rt hrej).2]
    exact applyGraphInternal_run env g rt.world

theorem performAll_run (calls : List (RuntimeCall V)) (rt : Runtime V) :
    Run env rt.world (performAll env calls rt).world := by
  induction calls generalizing rt with
  | nil => exact .refl
  | cons call rest ih =>
    refine Relation.ReflTransGen.trans ?_ (ih (perform env rt call))
    cases call with
    | apply g => exact apply_run env g rt
    | shutdown resolved => exact shutdown_run resolved rt.world

/-- For every sequence of applies and shutdowns, the edge structures agree in every
state visited iff no reversal run by a disposal threw and no record was replaced by
one of the same key between other nodes. -/
theorem edges_agree_iff_no_fault (calls : List (RuntimeCall V)) :
    (∀ s, Visited (performAll env calls .initial).world s → s.EdgesAgree) ↔
      (∀ k, .reversed .disposal k true ∉ (performAll env calls .initial).world.journal) ∧
        ∀ old rec, .registered (some old) rec ∈ (performAll env calls .initial).world.journal →
          old.source = rec.source ∧ old.target = rec.target := by
  have htracked := run_tracked (performAll_run env calls .initial) initial_tracked
  constructor
  · intro hagree
    have hno : ∀ e ∈ (performAll env calls .initial).world.journal, ¬ Fault e := by
      intro e he hfault
      obtain ⟨s, hs, hbad⟩ := htracked.complete e he hfault
      exact hbad (hagree s hs)
    refine ⟨fun k hk => hno _ hk rfl, fun old rec hmem => ?_⟩
    by_contra hne
    exact hno _ hmem (not_and_or.mp hne)
  · rintro ⟨hthrew, hclash⟩
    refine (htracked.sound fun e he hfault => ?_).2
    match e, hfault with
    | .reversed .disposal k true, _ => exact hthrew k he
    | .registered (some old) rec, hne => exact not_and_or.mpr hne (hclash old rec he)

/-- Node `a` and its edge to `b` are removed while the destroy method throws: the record
of the edge survives the node. -/
theorem removed_node_keeps_record :
    ¬ ∀ s, Visited (performAll (sampleEnv fun _ name => name = "removeTool")
        [.apply ⟨[sampleNode "a" "agent", sampleNode "b" "shell"], [sampleEdge "a" "b"]⟩,
          .apply ⟨[sampleNode "b" "shell"], []⟩] .initial).world s → s.EdgesAgree := by
  intro hagree
  have hlast := hagree _ (run_tracked (performAll_run _ _ _) initial_tracked).current
  have hdead : ¬ (performAll (sampleEnv fun _ name => name = "removeTool")
      [.apply ⟨[sampleNode "a" "agent", sampleNode "b" "shell"], [sampleEdge "a" "b"]⟩,
        .apply ⟨[sampleNode "b" "shell"], []⟩] .initial).world.state.Live "a" := by
    intro hlive
    obtain ⟨live, hlive⟩ := hlive
    cases hlive
  exact not_edgesAgree_of_dangling (k := edgeKey (sampleEdge "a" "b")) rfl (Or.inl rfl) hdead
    hlast

end Agyn.LiveGraph
