import Agyn.EdgeIndex
import Mathlib.Logic.Relation

/-!
What the live graph runtime can do to its state, one write at a time. Every
apply and every shutdown is a run of `RuntimeStep`s, so a property that each
step keeps holds throughout. Calls out of the runtime are quiet: they change
neither the state nor the journal.
-/
namespace Agyn.LiveGraph

open GraphRuntimeState

variable {V : Type}

/-- The two worlds differ by calls out of the runtime only. -/
structure Quiet (w w' : World V) : Prop where
  state_eq : w'.state = w.state
  journal_eq : w'.journal = w.journal

namespace Quiet

theorem refl (w : World V) : Quiet w w := ⟨rfl, rfl⟩

theorem call (w : World V) : Quiet w w.call := ⟨rfl, rfl⟩

theorem trans {a b c : World V} (hab : Quiet a b) (hbc : Quiet b c) : Quiet a c :=
  ⟨hbc.state_eq.trans hab.state_eq, hbc.journal_eq.trans hab.journal_eq⟩

end Quiet

variable (env : RuntimeEnv V)

section QuietCalls

theorem configAttempts_quiet (inst : Instance) (nodeId : String) (retries : ℕ)
    (current : JsRecord V) (w : World V) :
    Quiet w (configAttempts env inst nodeId retries current w).2 := by
  induction retries generalizing current w with
  | zero =>
    rw [configAttempts]
    split
    · exact Quiet.call w
    · exact Quiet.call w
    · dsimp only
      split <;> exact Quiet.call w
  | succ retries ih =>
    rw [configAttempts]
    split
    · exact Quiet.call w
    · exact Quiet.call w
    · dsimp only
      split
      · exact Quiet.call w
      · exact (Quiet.call w).trans (ih _ _)

theorem configure_quiet (inst : Instance) (cfg : JsRecord V) (nodeId : String) (w : World V) :
    Quiet w (configure env inst cfg nodeId w).2 := by
  have hresolve : Quiet w (resolveNodeConfig env nodeId cfg w).2 := by
    unfold resolveNodeConfig
    split <;> exact Quiet.call w
  unfold configure
  split
  · rename_i heq
    rw [heq] at hresolve
    exact hresolve
  · rename_i resolved w₁ heq
    rw [heq] at hresolve
    refine hresolve.trans ?_
    unfold applyConfigWithUnknownKeyStripping
    split
    · exact configAttempts_quiet env inst nodeId 3 resolved w₁
    · exact Quiet.refl w₁

theorem registerPorts_quiet (template : String) (created : Instance) (w : World V) :
    Quiet w (registerPorts env template created w).2 := by
  unfold registerPorts
  split <;> exact ⟨rfl, rfl⟩

theorem constructNode_quiet (node : NodeDef V) (w : World V) :
    Quiet w (constructNode env node w).2 := by
  unfold constructNode
  split
  · exact Quiet.refl w
  · split
    · exact Quiet.call w
    · have hports := registerPorts_quiet env node.data.template w.tick w.call
      split
      · rename_i heq
        rw [heq] at hports
        exact (Quiet.call w).trans hports
      · rename_i heq
        rw [heq] at hports
        exact (Quiet.call w).trans hports

theorem runReversal_quiet (r : Reversal) (w : World V) : Quiet w (runReversal env r w).2 := by
  unfold runReversal
  split
  · exact Quiet.call w
  · split
    · exact Quiet.call w
    · exact Quiet.refl w

theorem provisionNodes_quiet (nodes : List (LiveNode V)) (w : World V) :
    Quiet w (provisionNodes env nodes w).2 := by
  induction nodes generalizing w with
  | nil => exact Quiet.refl w
  | cons live rest ih =>
    rw [provisionNodes]
    split
    · rename_i heq
      have h := ih w.call
      rw [heq] at h
      exact (Quiet.call w).trans h
    · exact (Quiet.call w).trans (ih w.call)

end QuietCalls

/-- The writes of the runtime. A disposal and a registration are blocks: the journal
entries they make belong to the write they end with. -/
inductive RuntimeStep : World V → World V → Prop
  | quiet {w w' : World V} (h : Quiet w w') : RuntimeStep w w'
  | setNode (w : World V) (id : String) (n : LiveNode V) :
      RuntimeStep w (w.assign { w.state with nodes := w.state.nodes.set id n })
  | setMeta (w : World V) (g : Option (GraphDefinition V)) (v : ℕ) :
      RuntimeStep w (w.assign { w.state with lastGraph := g, version := v })
  | reverse (w : World V) (k : String) : RuntimeStep w (reverseKey env .edgeRemoval w k)
  | dispose (w : World V) (id : String) : RuntimeStep w (disposeNode env id w)
  | register (w : World V) (rec : ExecutedEdgeRecord) (hsource : w.state.Live rec.source)
      (htarget : w.state.Live rec.target) : RuntimeStep w (registerEdge rec w)
  | shutdownNode (w : World V) (id : String) : RuntimeStep w (shutdownNode w id)
  | clear (w : World V) (hdead : ∀ id, ¬ w.state.Live id) :
      RuntimeStep w (w.assign { w.state with executedEdges := .empty })

abbrev Run : World V → World V → Prop := Relation.ReflTransGen (RuntimeStep env)

variable {env}

theorem run_of_step {w w' : World V} (h : RuntimeStep env w w') : Run env w w' :=
  Relation.ReflTransGen.single h

theorem run_of_quiet {w w' : World V} (h : Quiet w w') : Run env w w' :=
  run_of_step (.quiet h)

theorem run_forEach {α : Type} {step : α → World V → Except Thrown Unit × World V}
    (hstep : ∀ a w, Run env w (step a w).2) (as : List α) (w : World V) :
    Run env w (forEach step as w).2 := by
  induction as generalizing w with
  | nil => exact .refl
  | cons a rest ih =>
    have ha := hstep a w
    rw [forEach]
    split
    · rename_i heq
      rw [heq] at ha
      exact ha
    · rename_i heq
      rw [heq] at ha
      exact ha.trans (ih _)

theorem run_foldl {α : Type} {step : World V → α → World V}
    (hstep : ∀ w a, Run env w (step w a)) (as : List α) (w : World V) :
    Run env w (as.foldl step w) := by
  induction as generalizing w with
  | nil => exact .refl
  | cons a rest ih => exact (hstep w a).trans (ih _)

variable (env)

theorem reverseKey_run (w : World V) (k : String) :
    Run env w (reverseKey env .edgeRemoval w k) := run_of_step (.reverse w k)

theorem disposeNode_run (w : World V) (id : String) : Run env w (disposeNode env id w) :=
  run_of_step (.dispose w id)

theorem shutdownNode_run (w : World V) (id : String) : Run env w (shutdownNode w id) :=
  run_of_step (.shutdownNode w id)

theorem setNode_run (w : World V) (id : String) (n : LiveNode V) :
    Run env w (w.assign { w.state with nodes := w.state.nodes.set id n }) :=
  run_of_step (.setNode w id n)

theorem setMeta_run (w : World V) (g : Option (GraphDefinition V)) (v : ℕ) :
    Run env w (w.assign { w.state with lastGraph := g, version := v }) :=
  run_of_step (.setMeta w g v)

theorem initialiseNode_run (node : NodeDef V) (live : LiveNode V) (w : World V) :
    Run env w (initialiseNode env node live w).2 := by
  unfold initialiseNode
  dsimp only
  split
  · rename_i e w₁ heq
    split at heq
    · cases heq
    · rename_i cfg _
      have hquiet := configure_quiet env live.inst cfg node.id w
      split at heq
      · rename_i hcfg
        rw [hcfg] at hquiet
        cases heq
        exact run_of_quiet hquiet
      · cases heq
  · rename_i u w₁ heq
    refine Relation.ReflTransGen.trans ?_ (run_of_quiet (Quiet.call w₁))
    split at heq
    · cases heq
      exact .refl
    · rename_i cfg _
      have hquiet := configure_quiet env live.inst cfg node.id w
      split at heq
      · cases heq
      · rename_i cleaned w₂ hcfg
        rw [hcfg] at hquiet
        cases heq
        exact (run_of_quiet hquiet).tail (.setNode w₂ node.id _)

theorem instantiateNode_run (node : NodeDef V) (w : World V) :
    Run env w (instantiateNode env node w).2 := by
  have hquiet := constructNode_quiet env node w
  unfold instantiateNode
  split
  · rename_i heq
    rw [heq] at hquiet
    exact run_of_quiet hquiet
  · rename_i created w₁ heq
    rw [heq] at hquiet
    dsimp only
    have hset := (run_of_quiet hquiet).trans (setNode_run env w₁ node.id
      ⟨node.id, node.data.template, created, node.data.config⟩)
    have hinit := initialiseNode_run env node
      ⟨node.id, node.data.template, created, node.data.config⟩
      (w₁.assign { w₁.state with
        nodes := w₁.state.nodes.set node.id
          ⟨node.id, node.data.template, created, node.data.config⟩ })
    split
    · rename_i hfail
      rw [hfail] at hinit
      exact hset.trans hinit
    · rename_i hok
      rw [hok] at hinit
      exact hset.trans hinit

theorem recreateNode_run (next : GraphDefinition V) (id : String) (w : World V) :
    Run env w (recreateNode env next id w).2 := by
  unfold recreateNode
  dsimp only
  split
  · exact run_of_step (.dispose w id)
  · exact (run_of_step (.dispose w id)).trans (instantiateNode_run env _ _)

/-- A config update rewrites at most the config of one live node. -/
theorem updateConfig_cases (next : GraphDefinition V) (w : World V) (id : String) :
    Quiet w (updateConfig env next w id) ∨
      ∃ live w₁ cleaned, w.state.nodes.get id = some live ∧ Quiet w w₁ ∧
        updateConfig env next w id = w₁.assign { w₁.state with
          nodes := w₁.state.nodes.set id { live with config := some cleaned } } := by
  unfold updateConfig
  split
  · rename_i nodeDef live hdef hlive
    have hquiet := configure_quiet env live.inst (nodeDef.data.config.getD []) id w
    split
    · rename_i heq
      rw [heq] at hquiet
      exact Or.inl hquiet
    · rename_i cleaned w₁ heq
      rw [heq] at hquiet
      exact Or.inr ⟨live, w₁, cleaned, hlive, hquiet, rfl⟩
  · exact Or.inl (Quiet.refl w)

theorem updateConfig_run (next : GraphDefinition V) (w : World V) (id : String) :
    Run env w (updateConfig env next w id) := by
  rcases updateConfig_cases env next w id with hquiet | ⟨live, w₁, cleaned, -, hquiet, heq⟩
  · exact run_of_quiet hquiet
  · rw [heq]
    exact (run_of_quiet hquiet).tail (.setNode w₁ id _)

/-- Executing an edge either only calls out, which it does when it throws or an endpoint
is not live, or also registers a record of the edge between its two live endpoints. -/
theorem executeEdge_cases (edge : EdgeDef) (w : World V) :
    (Quiet w (executeEdge env edge w).2 ∧ ((∃ e, (executeEdge env edge w).1 = .error e) ∨
      ¬ (w.state.Live edge.source ∧ w.state.Live edge.target))) ∨
      ∃ w₁ rec sourceLive targetLive, Quiet w w₁ ∧
        w.state.nodes.get edge.source = some sourceLive ∧
        w.state.nodes.get edge.target = some targetLive ∧
        rec.key = edgeKey edge ∧ rec.source = edge.source ∧ rec.target = edge.target ∧
        rec.sourceInstance = sourceLive.inst ∧ rec.targetInstance = targetLive.inst ∧
        executeEdge env edge w = (.ok (), registerEdge rec w₁) := by
  unfold executeEdge
  split
  · rename_i sourceLive targetLive hs ht
    split
    · rename_i e hres
      exact Or.inl ⟨Quiet.refl w, Or.inl ⟨e, rfl⟩⟩
    · rename_i resolved hres
      obtain ⟨create, destroy, hport⟩ := PortsRegistry.resolveEdge_methodPort hres
      rw [hport]
      dsimp only
      split
      · rename_i e w₁ heq
        refine Or.inl ⟨?_, Or.inl ⟨e, rfl⟩⟩
        split at heq
        · rw [← (Prod.mk.inj heq).2]
          exact Quiet.call w
        · cases heq
      · rename_i u w₁ heq
        have hquiet : Quiet w w₁ := by
          split at heq
          · rw [← (Prod.mk.inj heq).2]
            exact Quiet.call w
          · cases heq
            exact Quiet.refl w
        refine Or.inr ⟨w₁, _, sourceLive, targetLive, hquiet, hs, ht, rfl, rfl, rfl, ?_, ?_, rfl⟩
        · cases resolved.callableSide <;> simp [ExecutedEdgeRecord.sourceInstance]
        · cases resolved.callableSide <;> simp [ExecutedEdgeRecord.targetInstance]
  · rename_i hnone
    refine Or.inl ⟨Quiet.refl w, Or.inr ?_⟩
    rintro ⟨⟨ls, hs⟩, ⟨lt, ht⟩⟩
    exact hnone ls lt hs ht

theorem executeEdge_run (edge : EdgeDef) (w : World V) :
    Run env w (executeEdge env edge w).2 := by
  rcases executeEdge_cases env edge w with
    ⟨hquiet, -⟩ | ⟨w₁, rec, ls, lt, hquiet, hs, ht, -, hsource, htarget, -, -, heq⟩
  · exact run_of_quiet hquiet
  · rw [heq]
    refine (run_of_quiet hquiet).tail (.register w₁ rec ?_ ?_)
    · rw [hquiet.state_eq, hsource]
      exact ⟨ls, hs⟩
    · rw [hquiet.state_eq, htarget]
      exact ⟨lt, ht⟩

/-- Everything an apply does is a run of writes, whether it resolves or rejects. -/
theorem applyGraphInternal_run (next : GraphDefinition V) (w : World V) :
    Run env w (applyGraphInternal env next w).2 := by
  unfold applyGraphInternal
  dsimp only
  generalize computeDiff env (w.state.lastGraph.getD ⟨[], []⟩) next = diff
  have hadd := run_forEach (instantiateNode_run env) diff.addedNodes w
  split
  · rename_i heq
    rw [heq] at hadd
    exact hadd
  rename_i w₁ heq₁
  rw [heq₁] at hadd
  have hrec := run_forEach (recreateNode_run env next) diff.recreatedNodeIds w₁
  split
  · rename_i heq
    rw [heq] at hrec
    exact hadd.trans hrec
  rename_i w₂ heq₂
  rw [heq₂] at hrec
  have hcfg := run_foldl (updateConfig_run env next) diff.configUpdateNodeIds w₂
  have hedges := run_foldl (reverseKey_run env)
    (diff.removedEdges.map edgeKey) (diff.configUpdateNodeIds.foldl (updateConfig env next) w₂)
  have hnodes := run_foldl (disposeNode_run env)
    diff.removedNodeIds ((diff.removedEdges.map edgeKey).foldl (reverseKey env .edgeRemoval)
      (diff.configUpdateNodeIds.foldl (updateConfig env next) w₂))
  have hpre := (((hadd.trans hrec).trans hcfg).trans hedges).trans hnodes
  generalize diff.removedNodeIds.foldl _ _ = w₃ at hpre ⊢
  have hgraph := hpre.tail (.setMeta w₃ (some next) w₃.state.version)
  have hexec := run_forEach (executeEdge_run env) diff.addedEdges
    (w₃.assign { w₃.state with lastGraph := some next })
  split
  · rename_i heq
    rw [heq] at hexec
    exact hgraph.trans hexec
  rename_i w₄ heq₄
  rw [heq₄] at hexec
  have hprov := provisionNodes_quiet env w₄.state.nodes.values w₄
  split
  · rename_i heq
    rw [heq] at hprov
    exact (hgraph.trans hexec).trans (run_of_quiet hprov)
  · rename_i w₅ heq
    rw [heq] at hprov
    exact ((hgraph.trans hexec).trans (run_of_quiet hprov)).tail
      (.setMeta w₅ w₅.state.lastGraph (w₅.state.version + 1))

end Agyn.LiveGraph
