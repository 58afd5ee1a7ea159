import Agyn.RegistrySync

/-!
The registered names agree with what is attached, as long as no removed server emits an event,
no registered tool goes away while another source offers its name, what is attached keeps its
name, and a node that is removed still hands out the tool that was registered. The first event
of a removed server registers its tools again, a name that was skipped as a duplicate is not
registered when the tool that held it goes, and the tool of a memory node with a new source
stays registered.
-/
namespace Agyn.ToolWorld

open AgentTools

variable {w : ToolWorld} {server : LocalMCPServerNode}

/-- What every undisturbed run keeps. -/
structure Sound (w : ToolWorld) : Prop where
  names : w.agent.NamesMatch
  named : ∀ name tool, w.agent.toolsByName.get name = some tool → w.cfg.name tool = name
  offered : ∀ name tool, w.agent.toolsByName.get name = some tool → w.Offers tool
  covered : ∀ tool, w.Offers tool → ∃ held, w.agent.toolsByName.get (w.cfg.name tool) = some held
  remembers : ∀ server, w.agent.Remembers server
  tracked : ∀ server, (w.agent.mcpServerTools.get server).isSome = true ↔ server ∈ w.servers
  listens : ∀ server ∈ w.servers, 0 < w.listeners server

/-- What a sync of an attached server needs; its own tools may have changed. -/
structure SyncReady (server : LocalMCPServerNode) (w : ToolWorld) : Prop where
  attached : server ∈ w.servers
  names : w.agent.NamesMatch
  named : ∀ name tool, w.agent.toolsByName.get name = some tool → w.cfg.name tool = name
  offered : ∀ name tool, w.agent.toolsByName.get name = some tool →
    tool.source ≠ .mcp server → w.Offers tool
  covered : ∀ tool, w.Offers tool → tool.source ≠ .mcp server →
    ∃ held, w.agent.toolsByName.get (w.cfg.name tool) = some held
  leaving : ∀ name tool, w.agent.toolsByName.get name = some tool → tool.source = .mcp server →
    firstNamed w.cfg (w.listTools server) name = none → w.OnlyFrom (.mcp server) name
  remembers : ∀ server, w.agent.Remembers server
  tracked : ∀ server, (w.agent.mcpServerTools.get server).isSome = true ↔ server ∈ w.servers
  listens : ∀ server ∈ w.servers, 0 < w.listeners server

@[simp] theorem source_getTool (node : BaseToolNode) : (w.getTool node).source = .node node := rfl

theorem mem_listTools_iff (tool : FunctionTool) :
    tool ∈ w.listTools server ↔
      ∃ listed ∈ w.listed server, tool = .ofServer server listed := by
  simp [listTools, eq_comm]

theorem source_of_mem_listTools {tool : FunctionTool} (h : tool ∈ w.listTools server) :
    tool.source = .mcp server := by
  obtain ⟨listed, -, rfl⟩ := (mem_listTools_iff tool).mp h
  rfl

theorem mem_listTools_of_offers {tool : FunctionTool} (h : w.Offers tool)
    (hsource : tool.source = .mcp server) : tool ∈ w.listTools server := by
  cases tool with
  | ofNode node serial => simp [FunctionTool.source] at hsource
  | ofServer other listed =>
    obtain rfl : other = server := by simpa [FunctionTool.source] using hsource
    exact (mem_listTools_iff _).mpr ⟨listed, h.2, rfl⟩

theorem Sound.syncReady (h : Sound w) (hserver : server ∈ w.servers) : SyncReady server w where
  attached := hserver
  names := h.names
  named := h.named
  offered := fun name tool hheld _ => h.offered name tool hheld
  covered := fun tool hoffers _ => h.covered tool hoffers
  leaving := by
    intro name tool hheld hsource hnone
    obtain ⟨first, hfirst⟩ :=
      exists_firstNamed (mem_listTools_of_offers (h.offered name tool hheld) hsource)
    rw [h.named name tool hheld, hnone] at hfirst
    simp at hfirst
  remembers := h.remembers
  tracked := h.tracked
  listens := h.listens

theorem SyncReady.sync (h : SyncReady server w) : Sound (w.sync server) := by
  obtain ⟨hnames, hremembers, hothers, hself, hget⟩ :=
    sync_spec (w.listTools server) h.names (h.remembers server)
      fun tool htool => source_of_mem_listTools htool
  refine ⟨hnames, ?_, ?_, ?_, ?_, ?_, h.listens⟩
  · intro name tool hheld
    rcases (hget name tool).mp hheld with hother | hlisted
    · exact h.named name tool hother.1
    · exact firstNamed_name hlisted.2
  · intro name tool hheld
    rcases (hget name tool).mp hheld with hother | hlisted
    · exact h.offered name tool hother.1 hother.2
    · obtain ⟨listed, hmem, rfl⟩ := (mem_listTools_iff tool).mp (firstNamed_mem hlisted.2)
      exact ⟨h.attached, hmem⟩
  · intro tool hoffers
    by_cases hall : ∀ held, w.agent.toolsByName.get (w.cfg.name tool) = some held →
        held.source = .mcp server
    · cases hfirst : firstNamed w.cfg (w.listTools server) (w.cfg.name tool) with
      | some first => exact ⟨first, (hget _ _).mpr (Or.inr ⟨hall, hfirst⟩)⟩
      | none =>
        by_cases hown : tool.source = .mcp server
        · obtain ⟨first, hsome⟩ :=
            @exists_firstNamed w.cfg _ _ (mem_listTools_of_offers (w := w) hoffers hown)
          simp [hfirst] at hsome
        · obtain ⟨held, hheld⟩ := h.covered tool hoffers hown
          exact absurd (h.leaving _ held hheld (hall held hheld) hfirst tool hoffers rfl) hown
    · simp only [not_forall] at hall
      obtain ⟨held, hheld, hother⟩ := hall
      exact ⟨held, (hget _ _).mpr (Or.inl ⟨hheld, hother⟩)⟩
  · intro other
    by_cases hother : other = server
    · exact hother ▸ hremembers
    · intro name tool
      have hkept : (w.sync server).agent.mcpServerTools.get other =
        w.agent.mcpServerTools.get other := hothers other hother
      have hsource : ToolSource.mcp other ≠ .mcp server := by simpa using hother
      rw [hkept, h.remembers other name tool]
      constructor
      · rintro ⟨hheld, hown⟩
        exact ⟨(hget name tool).mpr (Or.inl ⟨hheld, hown ▸ hsource⟩), hown⟩
      · rintro ⟨hheld, hown⟩
        rcases (hget name tool).mp hheld with hleft | hlisted
        · exact ⟨hleft.1, hown⟩
        · have := source_of_mem_listTools (firstNamed_mem hlisted.2)
          exact absurd (hown.symm.trans this) hsource
  · intro other
    by_cases hother : other = server
    · subst hother
      exact ⟨fun _ => h.attached, fun _ => hself⟩
    · have hkept : (w.sync server).agent.mcpServerTools.get other =
        w.agent.mcpServerTools.get other := hothers other hother
      rw [hkept]
      exact h.tracked other

theorem sync_iterate (h : SyncReady server w) (count : ℕ) :
    Sound (Nat.iterate (sync server) (count + 1) w) := by
  induction count generalizing w with
  | zero => exact h.sync
  | succ count ih => exact ih (h.sync.syncReady h.attached)

theorem start_sound (cfg : ToolConfigs) : Sound (start cfg) where
  names := namesMatch_empty
  named := by simp [start, AgentTools.empty]
  offered := by simp [start, AgentTools.empty]
  covered := by
    intro tool hoffers
    cases tool <;> simp [Offers, start] at hoffers
  remembers := by
    intro server name tool
    simp [start, AgentTools.empty]
  tracked := by simp [start, AgentTools.empty]
  listens := by simp [start]

section Calls

theorem Sound.addTool (h : Sound w) (node : BaseToolNode) :
    Sound (w.perform (.addTool node)) := by
  have hget := @registerTool_iff w.cfg _ h.names (w.getTool node)
  refine ⟨namesMatch_registerTool h.names _, ?_, ?_, ?_, ?_, ?_, h.listens⟩
  · intro name tool hheld
    rcases (hget name tool).mp hheld with hheld | ⟨-, hname, rfl⟩
    · exact h.named name tool hheld
    · exact hname.symm
  · intro name tool hheld
    rcases (hget name tool).mp hheld with hheld | ⟨-, -, rfl⟩
    · have hoffers := h.offered name tool hheld
      cases tool with
      | ofNode other serial => exact List.mem_cons_of_mem _ hoffers
      | ofServer server listed => exact hoffers
    · exact List.mem_cons_self
  · intro tool hoffers
    cases hheld : w.agent.toolsByName.get (w.cfg.name tool) with
    | some held => exact ⟨held, (hget _ _).mpr (Or.inl hheld)⟩
    | none =>
      have hnone : ¬ w.Offers tool := by
        intro hold
        obtain ⟨held, hsome⟩ := h.covered tool hold
        simp [hheld] at hsome
      cases tool with
      | ofNode other serial =>
        rcases List.mem_cons.mp hoffers with rfl | hmem
        · exact ⟨_, (hget _ _).mpr (Or.inr ⟨hheld, rfl, rfl⟩)⟩
        · exact absurd hmem hnone
      | ofServer server listed => exact absurd hoffers hnone
  · intro server name tool
    have hservers : (w.perform (.addTool node)).agent.mcpServerTools =
      w.agent.mcpServerTools := mcpServerTools_registerTool _
    rw [hservers, h.remembers server name tool]
    refine and_congr_left fun hown => ?_
    rw [show (w.perform (.addTool node)).agent.toolsByName.get name = some tool ↔ _ from
      hget name tool]
    refine ⟨Or.inl, ?_⟩
    rintro (hheld | ⟨-, -, rfl⟩)
    · exact hheld
    · simp at hown
  · intro server
    have hservers : (w.perform (.addTool node)).agent.mcpServerTools =
      w.agent.mcpServerTools := mcpServerTools_registerTool _
    rw [hservers]
    exact h.tracked server

theorem Sound.removeTool (h : Sound w) (node : BaseToolNode)
    (hsole : w.SoleHolder (.node node) fun _ => True) (hown : w.HoldsOwn node) :
    Sound (w.perform (.removeTool node)) := by
  have hget := unregisterTool_iff (a := w.agent) (w.cfg.name (w.getTool node)) (w.getTool node)
  have hservers : (w.perform (.removeTool node)).agent.mcpServerTools =
    w.agent.mcpServerTools := mcpServerTools_unregisterTool _ _
  refine ⟨namesMatch_unregisterTool h.names _ _, ?_, ?_, ?_, ?_, ?_, h.listens⟩
  · intro name tool hheld
    exact h.named name tool ((hget name tool).mp hheld).1
  · intro name tool hheld
    obtain ⟨hold, hne⟩ := (hget name tool).mp hheld
    have hoffers := h.offered name tool hold
    cases tool with
    | ofNode other serial =>
      refine List.mem_filter.mpr ⟨hoffers, decide_eq_true ?_⟩
      rintro rfl
      have hsame := hown name _ hold rfl
      exact hne (Prod.ext (by rw [← h.named _ _ hold, hsame]) hsame)
    | ofServer server listed => exact hoffers
  · intro tool hoffers
    have hold : w.Offers tool ∧ tool.source ≠ .node node := by
      cases tool with
      | ofNode other serial =>
        obtain ⟨hmem, hne⟩ := List.mem_filter.mp hoffers
        exact ⟨hmem, by simpa [FunctionTool.source] using hne⟩
      | ofServer server listed => exact ⟨hoffers, by simp [FunctionTool.source]⟩
    obtain ⟨held, hheld⟩ := h.covered tool hold.1
    refine ⟨held, (hget _ _).mpr ⟨hheld, fun heq => hold.2 ?_⟩⟩
    obtain ⟨-, rfl⟩ := Prod.mk.inj heq
    exact hsole _ _ hheld rfl trivial tool hold.1 rfl
  · intro server name tool
    rw [hservers, h.remembers server name tool]
    refine and_congr_left fun hown => ?_
    rw [show (w.perform (.removeTool node)).agent.toolsByName.get name = some tool ↔ _ from
      hget name tool]
    refine ⟨fun hheld => ⟨hheld, fun heq => ?_⟩, And.left⟩
    obtain ⟨-, rfl⟩ := Prod.mk.inj heq
    simp at hown
  · intro server
    rw [hservers]
    exact h.tracked server

theorem Sound.removeMcpServer (h : Sound w)
    (hsole : w.SoleHolder (.mcp server) fun _ => True) :
    Sound (w.perform (.removeMcpServer server)) := by
  obtain ⟨hnames, hservers, hall⟩ := foldl_unregister (fun _ => False)
    ((w.agent.mcpServerTools.get server).getD .empty).entries h.names
  simp only [if_false, imp_false, ← InsMap.get_eq_some_iff] at hnames hservers hall
  have hget (name : String) (tool : FunctionTool) :
      (w.perform (.removeMcpServer server)).agent.toolsByName.get name = some tool ↔
        w.agent.toolsByName.get name = some tool ∧ tool.source ≠ .mcp server := by
    refine (hall name tool).trans (and_congr_right fun hheld => ?_)
    rw [h.remembers server name tool]
    exact ⟨fun hnot hown => hnot ⟨hheld, hown⟩, fun hne hand => hne hand.2⟩
  have htracked (other : LocalMCPServerNode) :
      (w.perform (.removeMcpServer server)).agent.mcpServerTools.get other =
        if other = server then none else w.agent.mcpServerTools.get other := by
    refine (InsMap.get_delete _ _ _).trans ?_
    rw [hservers]
  have hoffers (tool : FunctionTool) :
      (w.perform (.removeMcpServer server)).Offers tool ↔
        w.Offers tool ∧ tool.source ≠ .mcp server := by
    cases tool with
    | ofNode node serial => simp [perform, Offers, FunctionTool.source]
    | ofServer other listed =>
      simp only [perform, Offers, FunctionTool.source, List.mem_filter, decide_eq_true_eq, ne_eq,
        ToolSource.mcp.injEq]
      tauto
  refine ⟨hnames, ?_, ?_, ?_, ?_, ?_, ?_⟩
  · intro name tool hheld
    exact h.named name tool ((hget name tool).mp hheld).1
  · intro name tool hheld
    obtain ⟨hold, hne⟩ := (hget name tool).mp hheld
    exact (hoffers tool).mpr ⟨h.offered name tool hold, hne⟩
  · intro tool hnew
    obtain ⟨hold, hne⟩ := (hoffers tool).mp hnew
    obtain ⟨held, hheld⟩ := h.covered tool hold
    refine ⟨held, (hget _ _).mpr ⟨hheld, fun hown => hne ?_⟩⟩
    exact hsole _ held hheld hown trivial tool hold rfl
  · intro other name tool
    rw [hget name tool, htracked other]
    by_cases hother : other = server
    · subst hother
      simp
    · rw [if_neg hother, h.remembers other name tool]
      constructor
      · exact fun hand => ⟨⟨hand.1, by rw [hand.2]; simpa using hother⟩, hand.2⟩
      · exact fun hand => ⟨hand.1.1, hand.2⟩
  · intro other
    rw [htracked other]
    by_cases hother : other = server
    · simp [hother, perform]
    · simpa [hother, perform] using h.tracked other
  · intro other hother
    exact h.listens other (List.mem_filter.mp hother).1

/-- A server that the agent already has is only attached once more. -/
theorem Sound.addMcpServer_again (h : Sound w)
    (hhas : w.agent.mcpServerTools.has server = true) :
    Sound (w.perform (.addMcpServer server)) := by
  have hattached : server ∈ w.servers := (h.tracked server).mp hhas
  have hmem (other : LocalMCPServerNode) : other ∈ server :: w.servers ↔ other ∈ w.servers := by
    rw [List.mem_cons, or_iff_right_of_imp]
    rintro rfl
    exact hattached
  have hsame : w.perform (.addMcpServer server) = { w with servers := server :: w.servers } := by
    simp [perform, ToolWorld.addMcpServer, hhas]
  have hoffers (tool : FunctionTool) :
      ({ w with servers := server :: w.servers } : ToolWorld).Offers tool ↔ w.Offers tool := by
    cases tool with
    | ofNode node serial => exact Iff.rfl
    | ofServer other listed => exact and_congr_left fun _ => hmem other
  rw [hsame]
  exact ⟨h.names, h.named, fun name tool hheld => (hoffers tool).mpr (h.offered name tool hheld),
    fun tool hnew => h.covered tool ((hoffers tool).mp hnew), h.remembers,
    fun other => (h.tracked other).trans (hmem other).symm,
    fun other hother => h.listens other ((hmem other).mp hother)⟩

/-- A new server is attached without a tool, and the sync that follows registers what it lists. -/
theorem Sound.addMcpServer_new (h : Sound w)
    (hhas : ¬ w.agent.mcpServerTools.has server = true) :
    Sound (w.perform (.addMcpServer server)) := by
  have hnone : w.agent.mcpServerTools.get server = none := by
    simpa [InsMap.has] using hhas
  have hdetached : server ∉ w.servers := by
    rw [← h.tracked server, hnone]
    simp
  have hfree (name : String) (tool : FunctionTool)
      (hheld : w.agent.toolsByName.get name = some tool) : tool.source ≠ .mcp server := by
    intro hown
    have := (h.remembers server name tool).mpr ⟨hheld, hown⟩
    simp [hnone] at this
  have hstep : w.perform (.addMcpServer server) = sync server
      { w with
        servers := server :: w.servers
        agent := w.agent.trackServer server
        listeners := Function.update w.listeners server (w.listeners server + 1) } := by
    simp [perform, ToolWorld.addMcpServer, hhas]
  rw [hstep]
  have hget (other : LocalMCPServerNode) :
      ((w.agent.trackServer server).mcpServerTools.get other) =
        if other = server then some .empty else w.agent.mcpServerTools.get other :=
    InsMap.get_set _ _ _ _
  have hold (tool : FunctionTool) (hoffers : ({ w with
        servers := server :: w.servers
        agent := w.agent.trackServer server
        listeners := Function.update w.listeners server (w.listeners server + 1) } :
        ToolWorld).Offers tool) (hne : tool.source ≠ .mcp server) : w.Offers tool := by
    cases tool with
    | ofNode node serial => exact hoffers
    | ofServer other listed =>
      refine ⟨(List.mem_cons.mp hoffers.1).resolve_left ?_, hoffers.2⟩
      rintro rfl
      exact hne rfl
  refine SyncReady.sync ⟨List.mem_cons_self, h.names, h.named, ?_, ?_, ?_, ?_, ?_, ?_⟩
  · intro name tool hheld _
    have hoffers := h.offered name tool hheld
    cases tool with
    | ofNode node serial => exact hoffers
    | ofServer other listed => exact ⟨List.mem_cons_of_mem _ hoffers.1, hoffers.2⟩
  · exact fun tool hoffers hne => h.covered tool (hold tool hoffers hne)
  · exact fun name tool hheld hown => absurd hown (hfree name tool hheld)
  · intro other name tool
    by_cases hother : other = server
    · subst hother
      rw [hget, if_pos rfl]
      refine ⟨fun hheld => by simp at hheld, fun hand => absurd hand.2 (hfree name tool hand.1)⟩
    · rw [hget, if_neg hother]
      exact h.remembers other name tool
  · intro other
    rw [hget]
    by_cases hother : other = server
    · simp [hother]
    · simpa [hother] using h.tracked other
  · intro other hother
    by_cases hsame : other = server
    · subst hsame
      simp
    · simpa [Function.update_of_ne hsame] using
        h.listens other ((List.mem_cons.mp hother).resolve_left hsame)

/-- Attaching a tracked server again changes nothing, and a new one is synced. -/
theorem Sound.addMcpServer (h : Sound w) (server : LocalMCPServerNode) :
    Sound (w.perform (.addMcpServer server)) := by
  by_cases hhas : w.agent.mcpServerTools.has server = true
  · exact h.addMcpServer_again hhas
  · exact h.addMcpServer_new hhas

/-- An event of an attached server syncs its tools; no listener is on a server that was never
attached. -/
theorem Sound.emitted (h : Sound w) (tools : List LocalMCPServerTool)
    (hok : w.Undisturbed (.emitted server tools)) :
    Sound (w.perform (.emitted server tools)) := by
  obtain ⟨hlisteners, hsole⟩ := hok
  have hstep : w.perform (.emitted server tools) = Nat.iterate (sync server) (w.listeners server)
      { w with listed := Function.update w.listed server tools } := rfl
  rw [hstep]
  have hlisted (tool : FunctionTool) (hne : tool.source ≠ .mcp server) :
      ({ w with listed := Function.update w.listed server tools } : ToolWorld).Offers tool ↔
        w.Offers tool := by
    cases tool with
    | ofNode node serial => exact Iff.rfl
    | ofServer other listed =>
      have hother : other ≠ server := by simpa [FunctionTool.source] using hne
      simp [Offers, Function.update_of_ne hother]
  by_cases hattached : server ∈ w.servers
  · obtain ⟨count, hcount⟩ : ∃ count, w.listeners server = count + 1 :=
      ⟨w.listeners server - 1, by have := h.listens server hattached; omega⟩
    rw [hcount]
    refine sync_iterate (w := { w with listed := Function.update w.listed server tools })
      ⟨hattached, h.names, h.named, ?_, ?_, ?_, h.remembers,
      h.tracked, h.listens⟩ count
    · exact fun name tool hheld hne => (hlisted tool hne).mpr (h.offered name tool hheld)
    · exact fun tool hoffers hne => h.covered tool ((hlisted tool hne).mp hoffers)
    · intro name tool hheld hown hnone other hoffers hname
      by_contra hne
      refine hne (hsole name tool hheld hown ?_ other ((hlisted other hne).mp hoffers) hname)
      intro hmem
      obtain ⟨listed, hlisted, rfl⟩ := List.mem_map.mp hmem
      obtain ⟨first, hfirst⟩ := @exists_firstNamed w.cfg _ _ hlisted
      simp only [listTools, Function.update_self] at hnone
      rw [hnone] at hfirst
      simp at hfirst
  · have hzero : w.listeners server = 0 := hlisteners.resolve_left hattached
    have hall (tool : FunctionTool) :
        ({ w with listed := Function.update w.listed server tools } : ToolWorld).Offers tool ↔
          w.Offers tool := by
      by_cases hown : tool.source = .mcp server
      · cases tool with
        | ofNode node serial => exact Iff.rfl
        | ofServer other listed =>
          obtain rfl : other = server := by simpa [FunctionTool.source] using hown
          simp [Offers, hattached]
      · exact hlisted tool hown
    rw [hzero]
    exact ⟨h.names, h.named, fun name tool hheld => (hall tool).mpr (h.offered name tool hheld),
      fun tool hoffers => h.covered tool ((hall tool).mp hoffers), h.remembers, h.tracked,
      h.listens⟩

/-- Nothing that is attached or registered notices the change of a configuration. -/
theorem Sound.of_same {w' : ToolWorld} (h : Sound w) (hagent : w'.agent = w.agent)
    (hservers : w'.servers = w.servers) (hlisteners : w'.listeners = w.listeners)
    (hoffers : ∀ tool, w'.Offers tool ↔ w.Offers tool)
    (hname : ∀ tool, w.Offers tool → w'.cfg.name tool = w.cfg.name tool) : Sound w' where
  names := by
    rw [hagent]
    exact h.names
  named := by
    intro name tool hheld
    rw [hagent] at hheld
    rw [hname tool (h.offered name tool hheld)]
    exact h.named name tool hheld
  offered := by
    intro name tool hheld
    rw [hagent] at hheld
    exact (hoffers tool).mpr (h.offered name tool hheld)
  covered := by
    intro tool hnew
    have hold := (hoffers tool).mp hnew
    rw [hagent, hname tool hold]
    exact h.covered tool hold
  remembers := by
    rw [hagent]
    exact h.remembers
  tracked := by
    rw [hagent, hservers]
    exact h.tracked
  listens := by
    rw [hservers, hlisteners]
    exact h.listens

theorem Sound.renewed (h : Sound w) (node : BaseToolNode) :
    Sound (w.perform (.renewed node)) := by
  refine h.of_same rfl rfl rfl (fun tool => ?_) fun _ _ => rfl
  cases tool <;> exact Iff.rfl

theorem Sound.renamed (h : Sound w) {node : BaseToolNode} {name : String}
    (hok : w.Undisturbed (.renamed node name)) : Sound (w.perform (.renamed node name)) := by
  refine h.of_same rfl rfl rfl (fun tool => ?_) fun tool hoffers => ?_
  · cases tool <;> exact Iff.rfl
  · cases tool with
    | ofNode other serial =>
      change Function.update w.cfg.toolName node name other = w.cfg.toolName other
      by_cases hother : other = node
      · subst hother
        rw [Function.update_self, hok hoffers]
      · rw [Function.update_of_ne hother]
    | ofServer server listed => rfl

theorem Sound.changed (h : Sound w) {ns : String} {tools : List LocalMCPServerTool}
    (hok : w.Undisturbed (.changed server ns tools)) :
    Sound (w.perform (.changed server ns tools)) := by
  have hsame : ∀ other ∈ w.servers,
      Function.update w.cfg.serverNamespace server ns other = w.cfg.serverNamespace other ∧
        Function.update w.listed server tools other = w.listed other := by
    intro other hother
    by_cases heq : other = server
    · subst heq
      rw [Function.update_self, Function.update_self]
      exact hok hother
    · rw [Function.update_of_ne heq, Function.update_of_ne heq]
      exact ⟨rfl, rfl⟩
  refine h.of_same rfl rfl rfl (fun tool => ?_) fun tool hoffers => ?_
  · cases tool with
    | ofNode node serial => exact Iff.rfl
    | ofServer other listed =>
      refine and_congr_right fun hother => ?_
      rw [← (hsame other hother).2]
      exact Iff.rfl
  · cases tool with
    | ofNode node serial => rfl
    | ofServer other listed =>
      simp only [perform, ToolConfigs.name, (hsame other hoffers.1).1]

end Calls

section Runs

theorem Sound.perform (h : Sound w) (call : RegistryCall) (hok : w.Undisturbed call) :
    Sound (w.perform call) := by
  cases call with
  | addTool node => exact h.addTool node
  | removeTool node => exact h.removeTool node hok.1 hok.2
  | addMcpServer server => exact h.addMcpServer server
  | removeMcpServer server => exact h.removeMcpServer hok
  | emitted server tools => exact h.emitted tools hok
  | renewed node => exact h.renewed node
  | renamed node name => exact h.renamed hok
  | changed server ns tools => exact h.changed hok

theorem Sound.inAgreement (h : Sound w) : w.InAgreement where
  names := by
    intro name
    refine (h.names name).trans ⟨?_, ?_⟩
    · rintro ⟨tool, hheld⟩
      exact ⟨tool, h.offered name tool hheld, h.named name tool hheld⟩
    · rintro ⟨tool, hoffers, rfl⟩
      exact h.covered tool hoffers
  tools := h.offered

/-- In every undisturbed run the registered names are those of what is attached. -/
theorem registry_inAgreement (cfg : ToolConfigs) (h : Reached step Undisturbed (start cfg) w) :
    w.InAgreement := by
  refine Sound.inAgreement (h.invariant (start_sound cfg) ?_)
  intro w call w' hw hok hstep
  obtain rfl : w.perform call = w' := Option.some.inj hstep
  exact hw.perform call hok

def sampleConfigs : ToolConfigs := ⟨fun _ => "memory", fun _ => ""⟩

/-- A memory node is attached and gets another source, and a server lists a tool. -/
theorem attached_inAgreement :
    ∃ w, runFrom step (start sampleConfigs) [.addTool ⟨"a"⟩, .renewed ⟨"a"⟩,
      .addMcpServer ⟨"docs"⟩, .emitted ⟨"docs"⟩ [⟨0, "search"⟩]] = some w ∧ w.InAgreement := by
  have hrun : runFrom step (start sampleConfigs) [.addTool ⟨"a"⟩, .renewed ⟨"a"⟩,
    .addMcpServer ⟨"docs"⟩, .emitted ⟨"docs"⟩ [⟨0, "search"⟩]] = some _ := rfl
  refine ⟨_, hrun, registry_inAgreement sampleConfigs (Reached.init.run ?_ hrun)⟩
  refine ⟨trivial, ?_⟩
  rintro _ ⟨⟩
  refine ⟨trivial, ?_⟩
  rintro _ ⟨⟩
  refine ⟨trivial, ?_⟩
  rintro _ ⟨⟩
  refine ⟨⟨Or.inl List.mem_cons_self, ?_⟩, fun _ _ => trivial⟩
  intro name tool hheld hsource
  have hone := (InsMap.get_eq_some_iff _ _ _).mp hheld
  change (name, tool) ∈ [("memory", FunctionTool.ofNode ⟨"a"⟩ 0)] at hone
  obtain ⟨-, rfl⟩ := Prod.mk.inj (List.mem_singleton.mp hone)
  cases hsource

/-- A removed server that emits an event has its tool registered again, a name that two tools
offer is lost with the first of them, and a tool whose node has got another source stays. -/
theorem registry_disagrees :
    (∃ w, runFrom step (start sampleConfigs) [.addMcpServer ⟨"docs"⟩, .removeMcpServer ⟨"docs"⟩,
      .emitted ⟨"docs"⟩ [⟨0, "search"⟩]] = some w ∧ ¬ w.InAgreement) ∧
    (∃ w, runFrom step (start sampleConfigs) [.addTool ⟨"a"⟩, .addTool ⟨"b"⟩,
      .removeTool ⟨"a"⟩] = some w ∧ ¬ w.InAgreement) ∧
    (∃ w, runFrom step (start sampleConfigs) [.addTool ⟨"a"⟩, .renewed ⟨"a"⟩,
      .removeTool ⟨"a"⟩] = some w ∧ ¬ w.InAgreement) := by
  refine ⟨⟨_, rfl, fun h => ?_⟩, ⟨_, rfl, fun h => ?_⟩, ⟨_, rfl, fun h => ?_⟩⟩
  · have hoffers := h.tools "search" (.ofServer ⟨"docs"⟩ ⟨0, "search"⟩) (by rfl)
    exact absurd hoffers.1 (by decide)
  · have hregistered := (h.names "memory").mpr ⟨.ofNode ⟨"b"⟩ 0, by decide, rfl⟩
    revert hregistered
    decide
  · have hoffers := h.tools "memory" (.ofNode ⟨"a"⟩ 0) (by rfl)
    revert hoffers
    decide

end Runs

end Agyn.ToolWorld
