import Agyn.ToolRegistry

/-!
What the operations on the registered tools do, name by name. A sync of a server leaves the
names that are held by others as they are, and under every other name it leaves the first
listed tool of that name, or nothing.
-/
namespace Agyn.AgentTools

variable {cfg : ToolConfigs} {a : AgentTools} {server : LocalMCPServerNode}

def NamesMatch (a : AgentTools) : Prop :=
  ∀ name, name ∈ a.toolNames.keys ↔ ∃ tool, a.toolsByName.get name = some tool

theorem namesMatch_empty : empty.NamesMatch := by
  intro name
  simp [empty, InsMap.keys, InsMap.empty, InsMap.get]

section Operations

theorem has_toolNames_iff (h : a.NamesMatch) (name : String) :
    a.toolNames.has name = true ↔ ∃ tool, a.toolsByName.get name = some tool := by
  rw [← h name, InsMap.has_iff, InsMap.mem_keys_iff]

theorem get_registerTool (h : a.NamesMatch) (tool : FunctionTool) (name : String) :
    (a.registerTool cfg tool).toolsByName.get name =
      if name = cfg.name tool ∧ a.toolsByName.get name = none then some tool
      else a.toolsByName.get name := by
  unfold registerTool
  by_cases hhas : a.toolNames.has (cfg.name tool) = true
  · obtain ⟨held, hheld⟩ := (has_toolNames_iff h (cfg.name tool)).mp hhas
    rw [if_pos hhas, if_neg]
    rintro ⟨rfl, hnone⟩
    simp [hheld] at hnone
  · have hfree : a.toolsByName.get (cfg.name tool) = none := by
      rw [Option.eq_none_iff_forall_not_mem]
      exact fun held hheld => hhas ((has_toolNames_iff h (cfg.name tool)).mpr ⟨held, hheld⟩)
    rw [if_neg hhas, InsMap.get_set]
    by_cases hname : name = cfg.name tool
    · rw [if_pos hname, if_pos ⟨hname, by rw [hname]; exact hfree⟩]
    · rw [if_neg hname, if_neg (fun hand => hname hand.1)]

theorem namesMatch_registerTool (h : a.NamesMatch) (tool : FunctionTool) :
    (a.registerTool cfg tool).NamesMatch := by
  unfold registerTool
  by_cases hhas : a.toolNames.has (cfg.name tool) = true
  · rw [if_pos hhas]
    exact h
  · rw [if_neg hhas]
    intro name
    rw [InsSet.mem_keys_add, InsMap.get_set, h name]
    by_cases hname : name = cfg.name tool <;> simp [hname]

theorem get_unregisterTool (name : String) (tool : FunctionTool) (n : String) :
    (a.unregisterTool name tool).toolsByName.get n =
      if n = name ∧ a.toolsByName.get name = some tool then none
      else a.toolsByName.get n := by
  unfold unregisterTool
  by_cases hheld : a.toolsByName.get name = some tool
  · rw [if_pos hheld, InsMap.get_delete]
    by_cases hn : n = name <;> simp [hn, hheld]
  · rw [if_neg hheld, if_neg (fun hand => hheld hand.2)]

theorem namesMatch_unregisterTool (h : a.NamesMatch) (name : String) (tool : FunctionTool) :
    (a.unregisterTool name tool).NamesMatch := by
  unfold unregisterTool
  by_cases hheld : a.toolsByName.get name = some tool
  · rw [if_pos hheld]
    intro n
    rw [InsSet.mem_keys_delete, InsMap.get_delete, h n]
    by_cases hn : n = name <;> simp [hn]
  · rw [if_neg hheld]
    exact h

@[simp] theorem mcpServerTools_registerTool (tool : FunctionTool) :
    (a.registerTool cfg tool).mcpServerTools = a.mcpServerTools := by
  unfold registerTool
  split <;> rfl

@[simp] theorem mcpServerTools_unregisterTool (name : String) (tool : FunctionTool) :
    (a.unregisterTool name tool).mcpServerTools = a.mcpServerTools := by
  unfold unregisterTool
  split <;> rfl

end Operations

section Unregistering

theorem unregisterTool_iff (name : String) (tool : FunctionTool) (n : String)
    (t : FunctionTool) :
    (a.unregisterTool name tool).toolsByName.get n = some t ↔
      a.toolsByName.get n = some t ∧ (n, t) ≠ (name, tool) := by
  rw [get_unregisterTool]
  by_cases hn : n = name
  · subst hn
    by_cases hheld : a.toolsByName.get n = some tool
    · simp [hheld, eq_comm]
    · rw [if_neg (fun hand => hheld hand.2)]
      constructor
      · intro ht
        refine ⟨ht, fun heq => hheld ?_⟩
        rw [ht, (Prod.mk.inj heq).2]
      · exact And.left
  · simp [hn]

/-- Unregistering the entries of a list that are not to be skipped. -/
theorem foldl_unregister (skip : String × FunctionTool → Prop) [DecidablePred skip]
    (entries : List (String × FunctionTool)) (h : a.NamesMatch) :
    let a' := entries.foldl
      (fun a entry => if skip entry then a else a.unregisterTool entry.1 entry.2) a
    a'.NamesMatch ∧ a'.mcpServerTools = a.mcpServerTools ∧
      ∀ name tool, a'.toolsByName.get name = some tool ↔
        a.toolsByName.get name = some tool ∧
          ((name, tool) ∈ entries → skip (name, tool)) := by
  induction entries generalizing a with
  | nil => simp [h]
  | cons entry rest ih =>
    rw [List.foldl_cons]
    by_cases hskip : skip entry
    · obtain ⟨hmatch, hservers, hget⟩ := ih h
      simp only [hskip, if_true]
      refine ⟨hmatch, hservers, fun name tool => ?_⟩
      rw [hget name tool, List.mem_cons]
      constructor
      · rintro ⟨hheld, hrest⟩
        refine ⟨hheld, ?_⟩
        rintro (rfl | hmem)
        · exact hskip
        · exact hrest hmem
      · exact fun hand => ⟨hand.1, fun hmem => hand.2 (Or.inr hmem)⟩
    · obtain ⟨hmatch, hservers, hget⟩ := ih (namesMatch_unregisterTool h entry.1 entry.2)
      simp only [hskip, if_false]
      refine ⟨hmatch, by rw [hservers, mcpServerTools_unregisterTool], fun name tool => ?_⟩
      rw [hget name tool, unregisterTool_iff, List.mem_cons]
      constructor
      · rintro ⟨⟨hheld, hne⟩, hrest⟩
        refine ⟨hheld, ?_⟩
        rintro (heq | hmem)
        · exact absurd heq hne
        · exact hrest hmem
      · rintro ⟨hheld, hall⟩
        refine ⟨⟨hheld, fun heq => hskip ?_⟩, fun hmem => hall (Or.inr hmem)⟩
        have hentry : (name, tool) = entry := heq
        exact hentry ▸ hall (Or.inl hentry)

end Unregistering

section Registering

theorem registerTool_iff (h : a.NamesMatch) (tool : FunctionTool) (name : String)
    (t : FunctionTool) :
    (a.registerTool cfg tool).toolsByName.get name = some t ↔
      a.toolsByName.get name = some t ∨
        (a.toolsByName.get name = none ∧ name = cfg.name tool ∧ t = tool) := by
  rw [get_registerTool h]
  by_cases hname : name = cfg.name tool
  · cases hheld : a.toolsByName.get name with
    | none => simp [hname, eq_comm]
    | some held => simp [hname]
  · simp [hname]

theorem registerLatest_eq (h : a.NamesMatch) (next : InsMap String FunctionTool)
    (tool : FunctionTool) :
    registerLatest cfg (a, next) (cfg.name tool, tool) =
      (a.registerTool cfg tool,
        if (a.registerTool cfg tool).toolsByName.get (cfg.name tool) = some tool then
          next.set (cfg.name tool) tool
        else next) := by
  unfold registerLatest
  by_cases hheld : a.toolsByName.get (cfg.name tool) = some tool
  · have hsame : a.registerTool cfg tool = a := by
      unfold registerTool
      rw [if_pos ((has_toolNames_iff h (cfg.name tool)).mpr ⟨tool, hheld⟩)]
    simp [hheld, hsame]
  · simp only [hheld, if_false]
    split <;> rfl

/-- The loop over the latest tools fills the free names and collects what it holds. -/
theorem foldl_registerLatest (entries : List (String × FunctionTool))
    (next : InsMap String FunctionTool) (h : a.NamesMatch)
    (hnamed : ∀ entry ∈ entries, entry.1 = cfg.name entry.2)
    (hnodup : (entries.map Prod.fst).Nodup)
    (hnew : ∀ entry ∈ entries, next.get entry.1 = none) :
    let result := entries.foldl (registerLatest cfg) (a, next)
    result.1.NamesMatch ∧ result.1.mcpServerTools = a.mcpServerTools ∧
      (∀ name tool, result.1.toolsByName.get name = some tool ↔
        a.toolsByName.get name = some tool ∨
          (a.toolsByName.get name = none ∧ (name, tool) ∈ entries)) ∧
      (∀ name tool, result.2.get name = some tool ↔
        next.get name = some tool ∨
          ((name, tool) ∈ entries ∧ result.1.toolsByName.get name = some tool)) := by
  induction entries generalizing a next with
  | nil => simp [h]
  | cons entry rest ih =>
    obtain ⟨key, tool⟩ := entry
    obtain rfl : key = cfg.name tool := hnamed _ List.mem_cons_self
    rw [List.map_cons, List.nodup_cons] at hnodup
    have hfresh : ∀ t, (cfg.name tool, t) ∉ rest :=
      fun t ht => hnodup.1 (List.mem_map.mpr ⟨_, ht, rfl⟩)
    have hnone : next.get (cfg.name tool) = none := hnew _ List.mem_cons_self
    have hmatch' := @namesMatch_registerTool cfg _ h tool
    rw [List.foldl_cons, registerLatest_eq h]
    obtain ⟨hmatch, hservers, hget, hnext⟩ := ih (a := a.registerTool cfg tool)
      (if (a.registerTool cfg tool).toolsByName.get (cfg.name tool) = some tool then
          next.set (cfg.name tool) tool
        else next) hmatch'
      (fun e he => hnamed e (List.mem_cons_of_mem _ he)) hnodup.2 (by
        intro e he
        have hne : e.1 ≠ cfg.name tool := fun heq => hfresh e.2 (heq ▸ he)
        split
        · rw [InsMap.get_set_ne _ _ hne]
          exact hnew e (List.mem_cons_of_mem _ he)
        · exact hnew e (List.mem_cons_of_mem _ he))
    refine ⟨hmatch, by rw [hservers, mcpServerTools_registerTool], ?_, ?_⟩
    · intro name t
      rw [hget name t, registerTool_iff h, get_registerTool h, List.mem_cons, Prod.mk.injEq]
      by_cases hname : name = cfg.name tool
      · subst hname
        have := hfresh t
        cases a.toolsByName.get (cfg.name tool) <;> simp [this]
      · simp [hname]
    · intro name t
      rw [hnext name t, List.mem_cons, Prod.mk.injEq]
      by_cases hname : name = cfg.name tool
      · subst hname
        have hheld (t : FunctionTool) :
            (rest.foldl (registerLatest cfg) (a.registerTool cfg tool,
              if (a.registerTool cfg tool).toolsByName.get (cfg.name tool) = some tool then
                next.set (cfg.name tool) tool
              else next)).1.toolsByName.get (cfg.name tool) = some t ↔
            (a.registerTool cfg tool).toolsByName.get (cfg.name tool) = some t := by
          rw [hget (cfg.name tool) t]
          simp [hfresh t]
        rw [hheld t]
        by_cases hself : (a.registerTool cfg tool).toolsByName.get (cfg.name tool) = some tool
        · simp [hself, hnone, hfresh t, eq_comm]
        · simp only [hself, if_false, hnone, hfresh t]
          constructor
          · simp
          · rintro (hfalse | ⟨hand | hfalse, ht⟩)
            · exact absurd hfalse (by simp)
            · exact absurd (hand.2 ▸ ht) hself
            · exact hfalse.elim
      · have hset : (if (a.registerTool cfg tool).toolsByName.get (cfg.name tool) = some tool then
            next.set (cfg.name tool) tool else next).get name = next.get name := by
          split
          · exact InsMap.get_set_ne _ _ hname
          · rfl
        rw [hset]
        simp [hname]

theorem foldl_registerTool_of_held (tools : List FunctionTool) (h : a.NamesMatch)
    (hheld : ∀ tool ∈ tools, ∃ t, a.toolsByName.get (cfg.name tool) = some t) :
    tools.foldl (fun a tool => a.registerTool cfg tool) a = a := by
  induction tools with
  | nil => rfl
  | cons tool rest ih =>
    have hsame : a.registerTool cfg tool = a := by
      unfold registerTool
      rw [if_pos ((has_toolNames_iff h (cfg.name tool)).mpr (hheld tool List.mem_cons_self))]
    rw [List.foldl_cons, hsame]
    exact ih fun t ht => hheld t (List.mem_cons_of_mem _ ht)

end Registering

section Splitting

def firstNamed (cfg : ToolConfigs) (tools : List FunctionTool) (name : String) :
    Option FunctionTool :=
  tools.find? fun tool => cfg.name tool = name

theorem firstNamed_name {tools : List FunctionTool} {name : String} {tool : FunctionTool}
    (h : firstNamed cfg tools name = some tool) : cfg.name tool = name := by
  simpa using List.find?_some h

theorem firstNamed_mem {tools : List FunctionTool} {name : String} {tool : FunctionTool}
    (h : firstNamed cfg tools name = some tool) : tool ∈ tools := List.mem_of_find?_eq_some h

theorem exists_firstNamed {tools : List FunctionTool} {tool : FunctionTool} (h : tool ∈ tools) :
    ∃ first, firstNamed cfg tools (cfg.name tool) = some first := by
  rw [← Option.isSome_iff_exists, firstNamed, List.find?_isSome]
  exact ⟨tool, h, by simp⟩

theorem foldl_split (tools : List FunctionTool)
    (split : InsMap String FunctionTool × List FunctionTool)
    (hdup : ∀ tool ∈ split.2, ∃ t, split.1.get (cfg.name tool) = some t) :
    let result := tools.foldl (fun split tool =>
      if split.1.has (cfg.name tool) then (split.1, split.2 ++ [tool])
      else (split.1.set (cfg.name tool) tool, split.2)) split
    (∀ name, result.1.get name = (split.1.get name).or (firstNamed cfg tools name)) ∧
      ∀ tool ∈ result.2, ∃ t, result.1.get (cfg.name tool) = some t := by
  induction tools generalizing split with
  | nil => exact ⟨by simp [firstNamed], hdup⟩
  | cons tool rest ih =>
    rw [List.foldl_cons]
    by_cases hhas : split.1.has (cfg.name tool) = true
    · obtain ⟨t, ht⟩ := (InsMap.has_iff _ _).mp hhas
      simp only [hhas, if_true]
      obtain ⟨hget, hrest⟩ := ih (split.1, split.2 ++ [tool]) (by
        intro d hd
        rcases List.mem_append.mp hd with hd | hd
        · exact hdup d hd
        · exact ⟨t, by rw [List.mem_singleton.mp hd]; exact ht⟩)
      refine ⟨fun name => ?_, hrest⟩
      rw [hget name]
      by_cases hname : cfg.name tool = name
      · simp [← hname, ht]
      · simp [firstNamed, hname]
    · have hnone : split.1.get (cfg.name tool) = none := by
        rw [Option.eq_none_iff_forall_not_mem]
        exact fun t ht => hhas ((InsMap.has_iff _ _).mpr ⟨t, ht⟩)
      simp only [hhas]
      obtain ⟨hget, hrest⟩ := ih (split.1.set (cfg.name tool) tool, split.2) (by
        intro d hd
        obtain ⟨t, ht⟩ := hdup d hd
        rw [InsMap.get_set]
        split
        · exact ⟨tool, rfl⟩
        · exact ⟨t, ht⟩)
      refine ⟨fun name => ?_, hrest⟩
      refine (hget name).trans ?_
      rw [InsMap.get_set]
      by_cases hname : cfg.name tool = name
      · simp [← hname, hnone, firstNamed]
      · simp [firstNamed, hname, Ne.symm hname]

theorem get_splitLatest (tools : List FunctionTool) (name : String) :
    (splitLatest cfg tools).1.get name = firstNamed cfg tools name := by
  exact ((foldl_split tools (.empty, []) (by simp)).1 name).trans (by simp)

theorem splitLatest_duplicates {tools : List FunctionTool} {tool : FunctionTool}
    (h : tool ∈ (splitLatest cfg tools).2) :
    ∃ t, firstNamed cfg tools (cfg.name tool) = some t := by
  rw [← get_splitLatest]
  exact (foldl_split tools (.empty, []) (by simp)).2 tool h

end Splitting

section Sync

def Remembers (server : LocalMCPServerNode) (a : AgentTools) : Prop :=
  ∀ name tool, ((a.mcpServerTools.get server).getD .empty).get name = some tool ↔
    a.toolsByName.get name = some tool ∧ tool.source = .mcp server

theorem get_dropReplaced (uniqueLatest prev : InsMap String FunctionTool) (h : a.NamesMatch) :
    (a.dropReplaced uniqueLatest prev.entries).NamesMatch ∧
      (a.dropReplaced uniqueLatest prev.entries).mcpServerTools = a.mcpServerTools ∧
      ∀ name tool,
        (a.dropReplaced uniqueLatest prev.entries).toolsByName.get name = some tool ↔
          a.toolsByName.get name = some tool ∧
            (prev.get name = some tool → uniqueLatest.get name = some tool) := by
  have hspec := foldl_unregister (fun entry => uniqueLatest.get entry.1 = some entry.2)
    prev.entries h
  refine ⟨hspec.1, hspec.2.1, fun name tool => ?_⟩
  rw [InsMap.get_eq_some_iff prev]
  exact hspec.2.2 name tool

/-- After the first loop of a sync only others hold a name that is not listed. -/
theorem kept_iff (latest : List FunctionTool) (h : a.NamesMatch) (hprev : a.Remembers server)
    (name : String) (tool : FunctionTool) :
    (a.dropReplaced (splitLatest cfg latest).1
        ((a.mcpServerTools.get server).getD .empty).entries).toolsByName.get name = some tool ↔
      a.toolsByName.get name = some tool ∧
        (tool.source = .mcp server → firstNamed cfg latest name = some tool) := by
  rw [(get_dropReplaced _ _ h).2.2 name tool, hprev name tool, get_splitLatest]
  constructor
  · exact fun hand => ⟨hand.1, fun hsource => hand.2 ⟨hand.1, hsource⟩⟩
  · exact fun hand => ⟨hand.1, fun hheld => hand.2 hheld.2⟩

/-- The two loops of a sync leave what others hold, and the first listed tool elsewhere. -/
theorem reconcile_spec (latest : List FunctionTool) (h : a.NamesMatch)
    (hprev : a.Remembers server) :
    let result := a.reconcile cfg server (splitLatest cfg latest).1
    result.1.NamesMatch ∧ result.1.mcpServerTools = a.mcpServerTools ∧
      (∀ name tool, result.1.toolsByName.get name = some tool ↔
        (a.toolsByName.get name = some tool ∧ tool.source ≠ .mcp server) ∨
        ((∀ held, a.toolsByName.get name = some held → held.source = .mcp server) ∧
          firstNamed cfg latest name = some tool)) ∧
      (∀ name tool, result.2.get name = some tool ↔
        firstNamed cfg latest name = some tool ∧ result.1.toolsByName.get name = some tool) := by
  have hentry (name : String) (tool : FunctionTool) :
      (name, tool) ∈ (splitLatest cfg latest).1.entries ↔
        firstNamed cfg latest name = some tool := by
    rw [← InsMap.get_eq_some_iff, get_splitLatest]
  have hkept := @kept_iff cfg _ _ latest h hprev
  obtain ⟨hkeptMatch, hkeptServers, -⟩ := get_dropReplaced (splitLatest cfg latest).1
    ((a.mcpServerTools.get server).getD .empty) h
  dsimp only [reconcile]
  generalize a.dropReplaced (splitLatest cfg latest).1
    ((a.mcpServerTools.get server).getD .empty).entries = kept at hkept hkeptMatch hkeptServers
  obtain ⟨hmatch, hservers, hget, hnext⟩ := foldl_registerLatest (splitLatest cfg latest).1.entries
    .empty hkeptMatch
    (fun entry hmem => (firstNamed_name ((hentry entry.1 entry.2).mp hmem)).symm)
    (splitLatest cfg latest).1.nodup (by simp)
  refine ⟨hmatch, hservers.trans hkeptServers, fun name tool => ?_, fun name tool => ?_⟩
  · refine (hget name tool).trans ?_
    rw [hentry, hkept name tool]
    constructor
    · rintro (⟨hheld, hlisted⟩ | ⟨hnone, hfirst⟩)
      · by_cases hown : tool.source = .mcp server
        · refine Or.inr ⟨fun held hheld' => ?_, hlisted hown⟩
          rw [hheld] at hheld'
          exact Option.some.inj hheld' ▸ hown
        · exact Or.inl ⟨hheld, hown⟩
      · refine Or.inr ⟨fun held hheld => ?_, hfirst⟩
        by_contra hown
        have := (hkept name held).mpr ⟨hheld, fun h => absurd h hown⟩
        simp [hnone] at this
    · rintro (⟨hheld, hother⟩ | ⟨hall, hfirst⟩)
      · exact Or.inl ⟨hheld, fun hown => absurd hown hother⟩
      · cases hkeptName : kept.toolsByName.get name with
        | none => exact Or.inr ⟨rfl, hfirst⟩
        | some held =>
          obtain ⟨hheld, hlisted⟩ := (hkept name held).mp hkeptName
          have hsame := hlisted (hall held hheld)
          rw [hfirst] at hsame
          obtain rfl := Option.some.inj hsame
          exact Or.inl ⟨hheld, fun _ => hfirst⟩
  · refine (hnext name tool).trans ?_
    rw [hentry]
    simp

/-- A sync keeps what others hold and registers under the other names what is listed first. -/
theorem sync_spec (latest : List FunctionTool) (h : a.NamesMatch) (hprev : a.Remembers server)
    (hsource : ∀ tool ∈ latest, tool.source = .mcp server) :
    let a' := a.syncMcpToolsFromServer cfg server latest
    a'.NamesMatch ∧ a'.Remembers server ∧
      (∀ other, other ≠ server → a'.mcpServerTools.get other = a.mcpServerTools.get other) ∧
      (a'.mcpServerTools.get server).isSome = true ∧
      ∀ name tool, a'.toolsByName.get name = some tool ↔
        (a.toolsByName.get name = some tool ∧ tool.source ≠ .mcp server) ∨
        ((∀ held, a.toolsByName.get name = some held → held.source = .mcp server) ∧
          firstNamed cfg latest name = some tool) := by
  obtain ⟨hmatch, hservers, hget, hnext⟩ := reconcile_spec latest h hprev
  dsimp only [syncMcpToolsFromServer]
  generalize a.reconcile cfg server (splitLatest cfg latest).1 = next at hmatch hservers hget hnext
  have hdup : (splitLatest cfg latest).2.foldl (fun a tool => a.registerTool cfg tool) next.1 =
      next.1 := by
    refine foldl_registerTool_of_held _ hmatch fun tool htool => ?_
    obtain ⟨first, hfirst⟩ := splitLatest_duplicates htool
    by_cases hall : ∀ held, a.toolsByName.get (cfg.name tool) = some held →
        held.source = .mcp server
    · exact ⟨first, (hget _ _).mpr (Or.inr ⟨hall, hfirst⟩)⟩
    · simp only [not_forall] at hall
      obtain ⟨held, hheld, hother⟩ := hall
      exact ⟨held, (hget _ _).mpr (Or.inl ⟨hheld, hother⟩)⟩
  simp only [hdup]
  refine ⟨hmatch, ?_, ?_, by simp, hget⟩
  · intro name tool
    simp only [InsMap.get_set_self, Option.getD_some]
    rw [hnext name tool]
    constructor
    · rintro ⟨hfirst, hheld⟩
      exact ⟨hheld, hsource tool (firstNamed_mem hfirst)⟩
    · rintro ⟨hheld, hown⟩
      rcases (hget name tool).mp hheld with hother | hlisted
      · exact absurd hown hother.2
      · exact ⟨hlisted.2, hheld⟩
  · intro other hother
    simp only [InsMap.get_set_ne _ _ hother, hservers]

end Sync

end Agyn.AgentTools
