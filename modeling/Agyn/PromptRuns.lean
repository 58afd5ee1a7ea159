import Agyn.PromptCoverage

/-!
Whole resolutions of system prompts. They end on every graph, whatever the descriptions do. The
stacks are right on a graph exactly if no name and no description of a tool of an agent throws, and
then no node is expanded inside of itself exactly if no agent lies on a cycle of manage tools.
-/
namespace Agyn.Prompts

open FuelledCalls
open WorkerRegistry (Worker ManageToolNode)

variable {fold : String → String} {mustache : Mustache} {G : Graph} {path : Path} {key : Key}
  {w w' : World}

theorem ready_start : Ready fold G [] none (World.start G) where
  live _ h := nomatch h
  outermost _ := rfl
  reading _ h := absurd h (Finset.notMem_empty _)
  nodup := List.nodup_nil
  inside _ h := absurd h List.not_mem_nil
  marked _ h := absurd h List.not_mem_nil
  fits _ := .refl _

theorem distinct_start : (World.start G).Distinct := fun _ h => absurd h List.not_mem_nil

/-- With more fuel than there are nodes and resolutions, none runs out. -/
theorem resolver_advances (fuel : ℕ) :
    (∀ path a key w, a ∈ G.agents → Ready fold G path key w →
      G.pathNodes.card < path.length + fuel →
        Ensures False ((resolver fold mustache G fuel).resolveEffectiveSystemPrompt path a key) w
          (Settles (Advances fold G w) True True)) ∧
    ∀ path t key w, G.Managed t → Ready fold G path key w →
      G.pathNodes.card < path.length + fuel →
        Ensures False ((resolver fold mustache G fuel).resolvePrompt path t key) w
          (Settles (Advances fold G w) True True) := by
  refine frame_subset.resolver mustache
    (B := fun path fuel => G.pathNodes.card < path.length + fuel)
    (fun path x fuel h => ?_) (fun path key w hI hb => ?_) (fun _ _ => .inl trivial) fuel
  · rw [List.length_cons]
    omega
  · have := hI.length_le
    omega

theorem resolve_terminates {a : Worker} (ha : a ∈ G.agents) :
    ∃ fuel r w, resolve fold mustache G fuel a = some (r, w) := by
  obtain ⟨hagents, -⟩ := resolver_advances (G.pathNodes.card + 1)
  obtain ⟨r, w, hr, -⟩ := (hagents [] a none _ ha ready_start (by simp)).exists
  exact ⟨_, r, w, hr⟩

/-- On every graph, no path has a node twice in one resolution. -/
theorem resolve_distinct {a : Worker} (ha : a ∈ G.agents) {fuel : ℕ} {r : Except String String}
    (h : resolve fold mustache G fuel a = some (r, w)) : w.Distinct := by
  obtain ⟨hagents, -⟩ := frame_subset.resolver_of_fuel mustache (fun _ _ => .inl trivial) fuel
  exact ((hagents [] a none _ ha ready_start).of_some h).1.2 distinct_start

/-- Without descriptions that throw, all calls return and restore the stacks. -/
theorem resolver_restores (mustache : Mustache)
    (hdescribable : ∀ a ∈ G.agents, G.Describable fold a) (fuel : ℕ) :
    (∀ path a key w, a ∈ G.agents → w.Fits fold G →
      Ensures True ((resolver fold mustache G fuel).resolveEffectiveSystemPrompt path a key) w
        (Settles (Keeps fold G (· = ·) w) True False)) ∧
    ∀ path t key w, G.Managed t → w.Fits fold G →
      Ensures True ((resolver fold mustache G fuel).resolvePrompt path t key) w
        (Settles (Keeps fold G (· = ·) w) True False) :=
  frame_eq.resolver_of_fuel mustache (fun a ha => .inr (hdescribable a ha)) fuel

theorem ensures_trivial {α : Type} {m : M α} : Ensures True m w fun _ _ => True := by
  unfold Ensures
  split <;> trivial

/-- A manage tool that is not resolved yet is resolved without an error only if its template is
empty or its workers can be refreshed. -/
theorem refreshes_of_resolvePrompt {f : Path → Worker → Key → M String} {t : ToolNodeId}
    (hcache : (w.state key).cacheTools t = none) (hstack : t ∉ (w.state key).stackTools) :
    Ensures True (resolvePrompt fold mustache G f path t key) w fun r _ =>
      r.isOk → G.promptTemplate t = "" ∨ Refreshes fold G (w.registry t) := by
  rcases Classical.em (G.promptTemplate t = "" ∨ Refreshes fold G (w.registry t)) with h | h
  · exact ensures_trivial.mono fun _ _ _ _ => h
  · rw [not_or] at h
    obtain ⟨htemplate, hrefresh⟩ := h
    have htrim := htemplate
    rw [Graph.promptTemplate] at htrim
    unfold resolvePrompt
    simp only [if_neg htrim]
    refine ensures_get_bind.mpr ?_
    simp only [hcache, if_neg hstack]
    refine ensures_modify_bind.mpr (ensures_modify_bind.mpr (ensures_andFinally.mpr ?_))
    refine ensures_bind.mpr (ensures_bind.mpr (Frame.ensures_refreshAllWorkers.mpr ?_))
    show Followed True _ _ ((w.registry t).refreshAllWorkers fold G.configs).2 _
    cases hresult : ((w.registry t).refreshAllWorkers fold G.configs).2 with
    | ok _ => exact absurd hresult hrefresh
    | error e => exact fun hok => absurd hok Bool.false_ne_true

theorem readable_of_toolDescription {tool : RegisteredTool} (hready : Ready fold G path none w)
    (fuel : ℕ) :
    Ensures True (toolDescription G (resolver fold mustache G fuel).resolvePrompt path tool) w
      fun r _ => r.isOk → G.Readable fold tool := by
  cases tool with
  | mcp tool => exact fun hok : tool.description.isOk => hok
  | node t =>
    rw [toolDescription, Graph.Readable]
    cases (G.toolNode t).tool with
    | plain tool => exact fun hok : tool.description.isOk => hok
    | manage name =>
      refine ensures_get_bind.mpr ?_
      have hreading : t ∉ w.reading := by
        rw [hready.outermost rfl]
        exact Finset.notMem_empty t
      split
      · contradiction
      refine ensures_modify_bind.mpr (ensures_andFinally.mpr ?_)
      cases fuel with
      | zero => trivial
      | succ fuel =>
        have hstate : (w.beginReading t).state (some t) = createAgentPromptResolutionState := by
          rw [World.beginReading, World.state_update_self]
        have hcache : ((w.beginReading t).state (some t)).cacheTools t = none := by
          rw [hstate]
          rfl
        have hstack : t ∉ ((w.beginReading t).state (some t)).stackTools := by
          rw [hstate]
          exact Finset.notMem_empty t
        rw [resolver_tools]
        refine (refreshes_of_resolvePrompt hcache hstack).mono fun r w' hr hok => ?_
        exact (hr hok).imp_right (hready.fits t).refreshes.mp

/-- An agent that throws is left on the stack, and one that does not has described its tools. -/
theorem resolve_start (fuel : ℕ) {a : Worker} (ha : a ∈ G.agents) :
    Ensures True ((resolver fold mustache G (fuel + 1)).resolveEffectiveSystemPrompt [] a none)
      (.start G) fun _ w =>
        G.Describable fold a ∨ a ∈ (w.state none).stackAgents := by
  have hstack : a ∉ ((World.start G).state none).stackAgents := Finset.notMem_empty a
  have hready : Ready fold G [(none, .agent a)] none ((World.start G).expandedAgent [] none a) :=
    ready_start.pushAgent ha hstack
  obtain ⟨-, hr⟩ := (frame_subset : Frame fold G _ _ _).resolver_of_fuel mustache
    (fun _ _ => .inl trivial) fuel
  have htools := frame_subset.buildToolMustacheContext (P := G.Readable fold) ha hready
    (.inl trivial) (fun entry hentry w hw => ?_) (hr _)
  · rw [resolver_agents]
    refine ensures_get_bind.mpr ?_
    simp only [if_neg hstack]
    refine ensures_modify_bind.mpr (ensures_modify_bind.mpr (ensures_bind.mpr ?_))
    refine htools.mono fun r w' hr' => ?_
    cases r with
    | ok tools => exact .inl hr'.2
    | error e =>
      have hpushed : a ∈ (((World.start G).expandedAgent [] none a).state none).stackAgents := by
        rw [World.expandedAgent, World.expand, World.pushAgent, World.state_update_self]
        exact Finset.mem_insert_self _ _
      exact .inr (hr'.1.1.agents none hready.live hpushed)
  · have hdescription := frame_subset.toolDescription hw
      (fun t ht => ⟨a, ha, entry, hentry, ht⟩) (.inl trivial) (hr _)
    refine (hdescription.and (readable_of_toolDescription hw fuel)).mono fun r w' hboth => ?_
    refine And.intro hboth.1.1 ?_
    cases r with
    | ok text => exact hboth.2 rfl
    | error e => trivial

/-- An agent on a cycle of manage tools with templates is expanded inside of itself. -/
theorem acyclic_of_once {a : Worker} (hdescribable : ∀ a ∈ G.agents, G.Describable fold a)
    (ha : a ∈ G.agents)
    (honce : ∀ fuel r w, resolve fold mustache G fuel a = some (r, w) →
      ∀ path ∈ w.expansions, (path.map Prod.snd).Nodup) :
    ¬ Relation.TransGen G.Calls (.agent a) (.agent a) := by
  intro hcycle
  obtain ⟨fuel, r, w, hresolve⟩ : ∃ fuel r w, resolve fold mustache G fuel a = some (r, w) :=
    resolve_terminates ha
  obtain ⟨hstart, hcovered⟩ := resolve_covered hdescribable ha hresolve
  have hagain := again_of_reaches hstart (fun path hpath => (hcovered path hpath).2) hcycle
  obtain ⟨t, tail, hmem, hbase⟩ := hagain
  have hnodup := honce fuel r w hresolve _ hmem
  rw [List.map_cons, List.nodup_cons] at hnodup
  exact hnodup.1 (List.mem_map.mpr ⟨_, hbase, rfl⟩)

/-- A graph is resolved cleanly exactly if no name and no description of a tool of its agents
throws, and no agent reaches itself over manage tools with a template and their workers. -/
theorem resolvesCleanly_iff (fold : String → String) (mustache : Mustache) (G : Graph) :
    ResolvesCleanly fold mustache G ↔ ∀ a ∈ G.agents,
      G.Describable fold a ∧ ¬ Relation.TransGen G.Calls (.agent a) (.agent a) := by
  constructor
  · intro hclean
    have hdescribable : ∀ a ∈ G.agents, G.Describable fold a := by
      intro a ha
      obtain ⟨fuel, r, w, hresolve⟩ := hclean.terminates a ha
      cases fuel with
      | zero => exact nomatch hresolve
      | succ fuel =>
        refine ((resolve_start fuel ha).of_some hresolve).resolve_right fun hmem => ?_
        have hfits : (World.start G).Fits fold G := fun t => .refl _
        have hsame := hclean.agents _ _ _ _ _ _ a ha hfits hresolve
        rw [hsame.agents none nofun] at hmem
        exact Finset.notMem_empty a hmem
    exact fun a ha => ⟨hdescribable a ha, acyclic_of_once hdescribable ha (hclean.once a ha)⟩
  · intro h
    have hdescribable : ∀ a ∈ G.agents, G.Describable fold a := fun a ha => (h a ha).1
    have hrestores := resolver_restores mustache hdescribable
    constructor
    · exact fun a ha => resolve_terminates ha
    · intro a ha fuel r w hresolve path hpath
      obtain ⟨-, hcovered⟩ := resolve_covered hdescribable ha hresolve
      exact (hcovered path hpath).1.nodup fun a ha => (h a ha).2
    · intro fuel path key w r w' a ha hw hcall
      exact (((hrestores fuel).1 path a key w ha hw).of_some hcall).1.sameStacks
    · intro fuel path key w r w' t ht hw hcall
      exact (((hrestores fuel).2 path t key w ht hw).of_some hcall).1.sameStacks
    · intro fuel path key w e w' a ha hw hcall
      exact (((hrestores fuel).1 path a key w ha hw).of_some hcall).2.elim

/-- An agent with a manage tool, whose worker has a tool that throws when its description is
read. -/
def throwingWorker : Graph where
  agentConfig a :=
    if a = 0 then ⟨some "lead", none, some "Lead the team.", [("manage", .node 0)]⟩
    else ⟨some "worker", none, some "Work.", [("search", .mcp ⟨.ok "search", .error "no server"⟩)]⟩
  toolNode _ := ⟨none, none, some "The team.", none, .manage none⟩
  registry _ := ⟨[1], fun _ => none, fun _ => none⟩
  agents := {0, 1}
  toolNodes := {0}
  tools_mem a _ entry hentry t ht := by
    split at hentry
    · obtain rfl := List.mem_singleton.mp hentry
      obtain rfl := RegisteredTool.node.inj ht
      exact Finset.mem_singleton_self 0
    · obtain rfl := List.mem_singleton.mp hentry
      exact nomatch ht
  workers_mem _ _ a ha := by
    obtain rfl := List.mem_singleton.mp ha
    decide

def ownWorker : Graph where
  agentConfig _ := ⟨some "lead", none, some "Lead the team.", [("manage", .node 0)]⟩
  toolNode _ := ⟨none, none, some "The team.", none, .manage none⟩
  registry _ := ⟨[0], fun _ => none, fun _ => none⟩
  agents := {0}
  toolNodes := {0}
  tools_mem _ _ entry hentry t ht := by
    obtain rfl := List.mem_singleton.mp hentry
    obtain rfl := RegisteredTool.node.inj ht
    exact Finset.mem_singleton_self 0
  workers_mem _ _ a ha := by
    obtain rfl := List.mem_singleton.mp ha
    exact Finset.mem_singleton_self 0

/-- The worker that throws is still on the stack when the prompt of the lead is there, and the
agent that is its own worker is expanded inside of itself. -/
theorem worker_left_on_stack :
    ¬ ResolvesCleanly id (fun template _ => .ok template) throwingWorker ∧
      ¬ ResolvesCleanly id (fun template _ => .ok template) ownWorker := by
  constructor
  · intro hclean
    have hleft : ((resolve id (fun template _ => .ok template) throwingWorker 6 0).map fun x =>
        (x.1.isOk, (x.2.state none).stackAgents)) = some (true, {1}) := by
      decide +kernel
    obtain ⟨⟨r, w⟩, hresolve, hstack⟩ := Option.map_eq_some_iff.mp hleft
    have hsame := hclean.agents _ _ _ _ _ _ 0 (by decide) (fun t => .refl _) hresolve
    have hrestored := hsame.agents none nofun
    rw [(Prod.mk.inj hstack).2] at hrestored
    exact absurd hrestored (by decide)
  · intro hclean
    have hagain : ((resolve id (fun template _ => .ok template) ownWorker 8 0).map fun x =>
        (x.1.isOk, decide ([(some 0, .agent 0), (some 0, .tool 0), (none, .agent 0)] ∈
          x.2.expansions))) = some (true, true) := by
      decide +kernel
    obtain ⟨⟨r, w⟩, hresolve, heq⟩ := Option.map_eq_some_iff.mp hagain
    have hmem := of_decide_eq_true (Prod.mk.inj heq).2
    exact absurd (hclean.once 0 (by decide) _ _ _ hresolve _ hmem) (by decide)

end Agyn.Prompts
