import Agyn.PreviewGraph

/-!
The functions of the resolver are the computation on the graph of the preview, and its queries
resolve some roots of it. Queries that are asked of one resolver. Every query ends with empty
stacks. Its answer is the one of a fresh resolver when no node that an earlier query reaches too
reaches a cycle, and no tool is resolved as a tool that manages agents and as another one.
-/
namespace Agyn.PromptPreview

section Resolver

open FuelledCalls MemoGraphs PromptResolutionState
open Prompts (pickFirstNonEmpty readConfigString renderMustache ToolContext AgentContext)

variable {o : Options} {fuel : ℕ} {s : PromptResolutionState} {id : String} {node : GraphNode}

theorem popAgent_cacheAgent (text : String) (h : id ∉ s.agentStack) :
    popAgent id (cacheAgent id text (pushAgent id s)) = cacheAgent id text s := by
  simp [popAgent, cacheAgent, pushAgent, Finset.erase_insert h]

theorem popTool_cacheTool (text : String) (h : id ∉ s.toolStack) :
    popTool id (cacheTool id text (pushTool id s)) = cacheTool id text s := by
  simp [popTool, cacheTool, pushTool, Finset.erase_insert h]

theorem pickFirstNonEmpty_trimmed (values : List (Option String)) :
    trim (pickFirstNonEmpty values) = pickFirstNonEmpty values := by
  induction values with
  | nil => decide
  | cons value values ih =>
    cases value with
    | none => exact ih
    | some value =>
      rw [pickFirstNonEmpty]
      split_ifs
      · exact trim_trim value
      · exact ih

/-- A text that was picked is picked again. -/
theorem pickFirstNonEmpty_twice (values : List (Option String)) :
    pickFirstNonEmpty [some (pickFirstNonEmpty values), some (pickFirstNonEmpty values)] =
      pickFirstNonEmpty values := by
  have htrim := pickFirstNonEmpty_trimmed values
  generalize pickFirstNonEmpty values = picked at htrim
  by_cases hempty : picked = ""
  · rw [hempty]
    decide
  · rw [pickFirstNonEmpty, htrim, if_pos hempty]

variable {tools : GraphNode → M String} {agents : String → M String}

theorem buildAgentToolContext_eq
    (h : ∀ node, node.id ≠ "" → o.node? node.id = some node →
      tools node = resolve memoState (previewGraph o) fuel (toolNode node))
    (agentId : String) :
    buildAgentToolContext o tools agentId =
      resolveAll memoState (previewGraph o) fuel ((namedTools o agentId).map toolNode) >>=
        fun texts => Call.ofExcept (toolContexts o agentId texts) := by
  rw [buildAgentToolContext, traverse_gather, resolveAll, traverse_map]
  refine congrArg (· >>= _) (traverse_congr fun node hnode => ?_)
  obtain ⟨hid, hnode, -⟩ := targetsFrom_spec ((List.takeWhile_sublist _).subset hnode)
  exact h node hid hnode

theorem buildManageAgentsContextForNode_eq
    (h : ∀ id, agents id = resolve memoState (previewGraph o) fuel (.agent id))
    (toolNode : GraphNode) :
    buildManageAgentsContextForNode o agents (some toolNode) =
      resolveAll memoState (previewGraph o) fuel
          ((o.agentTargets toolNode.id).map fun node => .agent node.id) >>=
        fun texts => Call.ofExcept (agentContexts o toolNode.id texts) := by
  have hgather := traverse_gather (σ := PromptResolutionState)
    (fun _ => (.ok () : Except String Unit))
    (fun node _ => agentContext node) (fun node : GraphNode => agents node.id)
    (o.agentTargets toolNode.id)
  have hall : (o.agentTargets toolNode.id).takeWhile
      (fun _ => (Except.ok () : Except String Unit).isOk) = o.agentTargets toolNode.id :=
    List.takeWhile_eq_self_iff.mpr fun _ _ => rfl
  rw [hall] at hgather
  rw [buildManageAgentsContextForNode, resolveAll, traverse_map]
  simp only [h] at hgather ⊢
  split_ifs with hempty
  · have htargets : o.agentTargets toolNode.id = [] := by
      rw [Options.agentTargets, Options.getEdgesFrom, if_pos hempty]
      rfl
    rw [agentContexts, htargets]
    rfl
  · exact hgather

theorem mem_stack_agent : (.inl id : PreviewKey) ∈ memoState.stack s ↔ id ∈ s.agentStack := by
  simp [memoState]

theorem mem_stack_tool : (.inr id : PreviewKey) ∈ memoState.stack s ↔ id ∈ s.toolStack := by
  simp [memoState]

theorem cache_agent (id text : String) :
    memoState.cache ((previewGraph o).key (.agent id)) text = cacheAgent id text := rfl

theorem cache_manage (id text : String) :
    memoState.cache ((previewGraph o).key (.manage id)) text = cacheTool id text := rfl

theorem resolveAgentSystemPrompt_eq
    (h : ∀ node, node.id ≠ "" → o.node? node.id = some node →
      tools node = resolve memoState (previewGraph o) fuel (toolNode node))
    (id : String) :
    resolveAgentSystemPrompt o tools id =
      resolve memoState (previewGraph o) (fuel + 1) (.agent id) := by
  have hcontext := buildAgentToolContext_eq h id
  funext s
  cases hcached : s.agentCache id with
  | some cached =>
    rw [resolve_cached fuel (show memoState.cached s (.inl id) = some cached from hcached)]
    rw [resolveAgentSystemPrompt, get_bind, hcached]
    rfl
  | none =>
    have hnone : memoState.cached s (.inl id) = none := hcached
    rw [resolveAgentSystemPrompt, get_bind, hcached]
    change (if id ∈ s.agentStack then _ else if isAgent o id = false then _ else _ : M String) s = _
    by_cases hstack : id ∈ s.agentStack
    · rw [resolve_stacked fuel hnone (mem_stack_agent.mpr hstack)]
      simp only [if_pos hstack]
      rfl
    · have hfree : (.inl id : PreviewKey) ∉ memoState.stack s := fun hmem =>
        hstack (mem_stack_agent.mp hmem)
      simp only [if_neg hstack]
      cases hagent : isAgent o id with
      | false =>
        have hdeps : (previewGraph o).deps (.agent id) = [] := by
          simp [previewGraph, previewDeps, hagent]
        have heval : (previewGraph o).eval (.agent id) [] = .ok DEFAULT_SYSTEM_PROMPT := by
          simp [previewGraph, previewEval, hagent]
        rw [resolve_leaf fuel hnone hfree hdeps heval]
        simp only [reduceIte]
        change some (_, cacheAgent id _ s) =
          some (_, popAgent id (cacheAgent id _ (pushAgent id s)))
        rw [popAgent_cacheAgent _ hstack]
      | true =>
        have hdeps : (previewGraph o).deps (.agent id) = (namedTools o id).map toolNode := by
          simp [previewGraph, previewDeps, hagent]
        have heval : ∀ texts, (previewGraph o).eval (.agent id) texts =
            (toolContexts o id texts).map (agentText o id) := by
          simp [previewGraph, previewEval, hagent]
        rw [resolve_expanded fuel hnone hfree, hdeps]
        simp only [Bool.true_eq_false, reduceIte, heval]
        change Call.andFinally _ (popAgent id) (pushAgent id s) =
          Call.andFinally _ (popAgent id) (pushAgent id s)
        refine congrFun (congrArg (Call.andFinally · (popAgent id)) ?_) _
        rw [hcontext, bind_assoc, resolveAll]
        refine congrArg (_ >>= ·) (funext fun texts => ?_)
        rw [ofExcept_map_bind]
        simp only [agentText, cache_agent]

theorem manageTemplate_eq (h : o.node? id = some node) :
    manageTemplate o id = readConfigString node.config.prompt := by
  rw [manageTemplate, h]
  rfl

theorem manageFallback_eq (h : o.node? id = some node) :
    manageFallback o id = Options.getManageFallbackDescription node := by
  rw [manageFallback, h]

theorem resolveManagePromptForNode_eq
    (h : ∀ id, agents id = resolve memoState (previewGraph o) fuel (.agent id))
    (hid : node.id ≠ "") (hnode : o.node? node.id = some node) :
    resolveManagePromptForNode o agents (some node) =
      resolve memoState (previewGraph o) (fuel + 1) (.manage node.id) := by
  have hcontext := buildManageAgentsContextForNode_eq h node
  have hfallback := manageFallback_eq hnode
  have htemplate := manageTemplate_eq hnode
  funext s
  unfold resolveManagePromptForNode
  simp only [hid, ne_eq, not_false_eq_true, reduceIte, true_and]
  cases hcached : s.toolCache node.id with
  | some cached =>
    rw [resolve_cached fuel (show memoState.cached s (.inr node.id) = some cached from hcached)]
    rw [get_bind, hcached]
    rfl
  | none =>
    have hnone : memoState.cached s (.inr node.id) = none := hcached
    rw [get_bind, hcached]
    change (if node.id ∈ s.toolStack then _ else _ : M String) s = _
    by_cases hstack : node.id ∈ s.toolStack
    · have hfallback' : (previewGraph o).fallback (.manage node.id) =
          Options.getManageFallbackDescription node := hfallback
      rw [resolve_stacked fuel hnone (mem_stack_tool.mpr hstack), hfallback']
      simp only [if_pos hstack]
      rfl
    · have hfree : (.inr node.id : PreviewKey) ∉ memoState.stack s := fun hmem =>
        hstack (mem_stack_tool.mp hmem)
      simp only [if_neg hstack]
      cases hprompt : readConfigString node.config.prompt with
      | none =>
        have hdeps : (previewGraph o).deps (.manage node.id) = [] := by
          simp [previewGraph, previewDeps, htemplate, hprompt]
        have heval : (previewGraph o).eval (.manage node.id) [] =
            .ok (Options.getManageFallbackDescription node) := by
          simp [previewGraph, previewEval, htemplate, hprompt, hfallback]
        rw [resolve_leaf fuel hnone hfree hdeps heval]
        change some (_, cacheTool node.id _ s) =
          some (_, popTool node.id (cacheTool node.id _ (pushTool node.id s)))
        rw [popTool_cacheTool _ hstack]
      | some template =>
        have hdeps : (previewGraph o).deps (.manage node.id) =
            (o.agentTargets node.id).map fun node => .agent node.id := by
          simp [previewGraph, previewDeps, htemplate, hprompt]
        have heval : ∀ texts, (previewGraph o).eval (.manage node.id) texts =
            (agentContexts o node.id texts).map (manageText o node.id template) := by
          simp [previewGraph, previewEval, htemplate, hprompt]
        rw [resolve_expanded fuel hnone hfree, hdeps]
        simp only [heval]
        change Call.andFinally _ (popTool node.id) (pushTool node.id s) =
          Call.andFinally _ (popTool node.id) (pushTool node.id s)
        refine congrFun (congrArg (Call.andFinally · (popTool node.id)) ?_) _
        rw [hcontext, bind_assoc, resolveAll]
        refine congrArg (_ >>= ·) (funext fun texts => ?_)
        rw [ofExcept_map_bind]
        simp only [manageText, hfallback, cache_manage]

theorem resolveToolPrompt_eq
    (h : ∀ id, agents id = resolve memoState (previewGraph o) fuel (.agent id))
    (hid : node.id ≠ "") (hnode : o.node? node.id = some node) :
    resolveToolPrompt o agents node =
      resolve memoState (previewGraph o) (fuel + 1) (toolNode node) := by
  have hmanage := resolveManagePromptForNode_eq h hid hnode
  funext s
  unfold resolveToolPrompt toolNode
  simp only [hid, ne_eq, not_false_eq_true, reduceIte]
  cases hcached : s.toolCache node.id with
  | some cached =>
    have hresolve : ∀ n : PreviewNode, n.key = .inr node.id →
        resolve memoState (previewGraph o) (fuel + 1) n s = some (.ok cached, s) := by
      intro n hn
      have hstate : memoState.cached s n.key = some cached := by
        rw [hn]
        exact hcached
      exact resolve_cached fuel hstate
    rw [get_bind, hcached]
    change (some (.ok cached, s) : Option (Except String String × PromptResolutionState)) = _
    split_ifs
    · exact (hresolve _ rfl).symm
    · exact (hresolve _ rfl).symm
  | none =>
    have hnone : memoState.cached s (.inr node.id) = none := hcached
    rw [get_bind, hcached]
    change (if node.template = MANAGE_TEMPLATE_NAME then _ else _ : M String) s = _
    by_cases htemplate : node.template = MANAGE_TEMPLATE_NAME
    · simp only [if_pos htemplate, hmanage]
    · simp only [if_neg htemplate]
      have htext : ((o.node? node.id).map (toolFallback o)).getD "" = toolFallback o node := by
        rw [hnode]
        rfl
      by_cases hstack : node.id ∈ s.toolStack
      · have hfallback : (previewGraph o).fallback (.tool node.id) = toolFallback o node := htext
        rw [resolve_stacked fuel hnone (mem_stack_tool.mpr hstack), hfallback]
        simp only [if_pos hstack]
        rfl
      · have hfree : (.inr node.id : PreviewKey) ∉ memoState.stack s := fun hmem =>
          hstack (mem_stack_tool.mp hmem)
        have heval : (previewGraph o).eval (.tool node.id) [] = .ok (toolFallback o node) :=
          congrArg Except.ok htext
        rw [resolve_leaf fuel hnone hfree rfl heval]
        simp only [if_neg hstack]
        have htwice : pickFirstNonEmpty [some (toolFallback o node), some (toolFallback o node)] =
            toolFallback o node := pickFirstNonEmpty_twice _
        rw [htwice]
        rfl

/-- To every depth, the functions are the computation on the graph. -/
theorem resolver_eq (o : Options) (fuel : ℕ) :
    (∀ id, (resolver o fuel).resolveAgentSystemPrompt id =
      resolve memoState (previewGraph o) fuel (.agent id)) ∧
    (∀ node, node.id ≠ "" → o.node? node.id = some node →
      (resolver o fuel).resolveManagePromptForNode (some node) =
        resolve memoState (previewGraph o) fuel (.manage node.id)) ∧
    ∀ node, node.id ≠ "" → o.node? node.id = some node →
      (resolver o fuel).resolveToolPrompt node =
        resolve memoState (previewGraph o) fuel (toolNode node) := by
  induction fuel with
  | zero => exact ⟨fun _ => rfl, fun _ _ _ => rfl, fun _ _ _ => rfl⟩
  | succ fuel ih =>
    obtain ⟨hagents, -, htools⟩ := ih
    refine ⟨fun id => resolveAgentSystemPrompt_eq htools id, fun node hid hnode => ?_,
      fun node hid hnode => ?_⟩
    · exact resolveManagePromptForNode_eq hagents hid hnode
    · exact resolveToolPrompt_eq hagents hid hnode

section Queries

variable (o : Options)

def Query.roots (query : Query) : List PreviewNode :=
  if o.graphNodes = [] then []
  else
    match query with
    | .buildAgentToolContext agentId => (namedTools o agentId).map toolNode
    | .resolveAgentSystemPrompt agentId => [.agent agentId]
    | .buildManageAgentsContext toolId =>
      if (o.node? toolId).isSome then (o.agentTargets toolId).map fun node => .agent node.id else []
    | .resolveManagePrompt toolId =>
      if (o.node? toolId).isSome ∧ toolId ≠ "" then [.manage toolId] else []

/-- What the prompt of a manage tool without an id is, which has no agents. -/
def anonymousText (node : GraphNode) : String :=
  match readConfigString node.config.prompt with
  | none => Options.getManageFallbackDescription node
  | some template =>
    pickFirstNonEmpty [some (renderMustache o.mustache template (.agents [])),
      some (Options.getManageFallbackDescription node)]

def Query.answer (query : Query) (texts : List String) : Except String Answer :=
  if o.graphNodes = [] then .ok (emptyAnswer query)
  else
    match query with
    | .buildAgentToolContext agentId => (toolContexts o agentId texts).map .tools
    | .resolveAgentSystemPrompt _ => .ok (.text (texts.headD ""))
    | .buildManageAgentsContext toolId =>
      if (o.node? toolId).isSome then (agentContexts o toolId texts).map .agents
      else .ok (.agents [])
    | .resolveManagePrompt toolId =>
      match o.node? toolId with
      | none => .ok (.text MANAGE_FALLBACK_DESCRIPTION)
      | some node =>
        if toolId ≠ "" then .ok (.text (texts.headD "")) else .ok (.text (anonymousText o node))

theorem resolveAll_single {α : Type} (n : PreviewNode) (f : List String → M α) :
    resolveAll memoState (previewGraph o) fuel [n] >>= f =
      resolve memoState (previewGraph o) fuel n >>= fun text => f [text] := by
  rw [resolveAll, Call.traverse, bind_assoc]
  rfl

theorem resolveManagePrompt_anonymous (agents : String → M String) (hid : node.id = "") :
    resolveManagePromptForNode o agents (some node) = pure (anonymousText o node) := by
  unfold resolveManagePromptForNode anonymousText
  simp only [hid, ne_eq, not_true_eq_false, reduceIte, false_and]
  funext s
  cases readConfigString node.config.prompt with
  | none => rfl
  | some template =>
    have hcontext : buildManageAgentsContextForNode o agents (some node) = pure [] := by
      rw [buildManageAgentsContextForNode, if_pos hid]
    rw [hcontext]
    rfl

theorem ask_eq (fuel : ℕ) (hfuel : 0 < fuel) (query : Query) :
    ask o fuel query = resolveAll memoState (previewGraph o) fuel (query.roots o) >>= fun texts =>
      Call.ofExcept (query.answer o texts) := by
  obtain ⟨hagents, hmanage, htools⟩ := resolver_eq o fuel
  unfold ask Query.roots Query.answer
  by_cases hempty : o.graphNodes = []
  · simp only [hempty, List.length_nil, reduceIte]
    rfl
  have hlength : ¬o.graphNodes.length = 0 := fun h => hempty (List.length_eq_zero_iff.mp h)
  simp only [if_neg hlength, if_neg hempty]
  cases query with
  | buildAgentToolContext agentId =>
    dsimp only
    rw [buildAgentToolContext_eq htools, bind_assoc]
    refine congrArg (_ >>= ·) (funext fun texts => ?_)
    cases toolContexts o agentId texts <;> rfl
  | resolveAgentSystemPrompt agentId =>
    dsimp only
    rw [resolveAll_single, hagents]
    rfl
  | buildManageAgentsContext toolId =>
    dsimp only
    cases hnode : o.node? toolId with
    | none => rfl
    | some node =>
      obtain ⟨-, rfl⟩ := node?_eq_some hnode
      rw [buildManageAgentsContextForNode_eq hagents, bind_assoc]
      refine congrArg (_ >>= ·) (funext fun texts => ?_)
      simp only [Option.isSome_some, reduceIte]
      cases agentContexts o node.id texts <;> rfl
  | resolveManagePrompt toolId =>
    obtain ⟨fuel, rfl⟩ : ∃ f, fuel = f + 1 := ⟨fuel - 1, by omega⟩
    dsimp only
    cases hnode : o.node? toolId with
    | none => rfl
    | some node =>
      obtain ⟨-, rfl⟩ := node?_eq_some hnode
      by_cases hid : node.id = ""
      · have hanonymous : (resolver o (fuel + 1)).resolveManagePromptForNode (some node) =
            pure (anonymousText o node) := resolveManagePrompt_anonymous o _ hid
        rw [hanonymous]
        simp only [hid, ne_eq, not_true_eq_false, and_false, reduceIte]
        rfl
      · rw [hmanage node hid hnode]
        simp only [hid, Option.isSome_some, ne_eq, not_false_eq_true, and_self, reduceIte]
        rw [resolveAll_single]
        rfl

end Queries

end Resolver

section QueryRuns

open FuelledCalls MemoGraphs

variable {o : Options} {fuel : ℕ} {s s' : PromptResolutionState}

theorem card_previewNodes (o : Options) : (previewNodes o).card ≤ 3 * o.graphNodes.length := by
  refine (List.toFinset_card_le _).trans ?_
  induction o.graphNodes with
  | nil => simp
  | cons node nodes ih =>
    rw [List.flatMap_cons, List.length_append]
    simp only [List.length_cons, List.length_nil] at ih ⊢
    omega

/-- A query leaves the state that its roots leave, and answers from their texts. -/
theorem ask_eq_some (hfuel : 0 < fuel) (query : Query) (s : PromptResolutionState) :
    ask o fuel query s =
      (resolveAll memoState (previewGraph o) fuel (query.roots o) s).map fun out =>
        (out.1.bind (query.answer o), out.2) := by
  rw [ask_eq o fuel hfuel query]
  change Call.bind _ _ s = _
  unfold Call.bind
  rcases resolveAll memoState (previewGraph o) fuel (query.roots o) s with _ | ⟨_ | texts, s'⟩ <;>
    rfl

theorem afterQueries_eq (hfuel : 0 < fuel) (queries : List Query) (s : PromptResolutionState) :
    afterQueries o fuel queries s =
      after memoState (previewGraph o) fuel (queries.map fun query => query.roots o) s := by
  induction queries generalizing s with
  | nil => rfl
  | cons query rest ih =>
    rw [afterQueries, List.map_cons, after, ask_eq_some hfuel]
    cases resolveAll memoState (previewGraph o) fuel (query.roots o) s with
    | none => rfl
    | some out => exact ih out.2

theorem stacks_empty_iff :
    memoState.stack s = ∅ ↔ s.agentStack = ∅ ∧ s.toolStack = ∅ := by
  simp [memoState, Finset.disjSum_eq_empty]

/-- What the nodes of a query have in common with those of earlier ones reaches no cycle, and no
tool is a tool that manages agents and another one. -/
def Query.Independent (o : Options) (queries : List Query) (query : Query) : Prop :=
  MemoGraphs.Independent (previewGraph o) (queries.flatMap fun q => q.roots o) (query.roots o)

theorem ask_independent (o : Options) (queries : List Query) (query : Query)
    (hfuel : 3 * o.graphNodes.length + 1 < fuel) :
    ∃ s, afterQueries o fuel queries createResolutionState = some s ∧
      (s.agentStack = ∅ ∧ s.toolStack = ∅) ∧
      ∃ answer s', ask o fuel query s = some (answer, s') ∧
        (s'.agentStack = ∅ ∧ s'.toolStack = ∅) ∧
        (query.Independent o queries →
          ∃ t, ask o fuel query createResolutionState = some (answer, t)) := by
  have hcard := card_previewNodes o
  have hpos : 0 < fuel := by omega
  have henough : (previewGraph o).nodes.card + 1 < fuel := by
    change (previewNodes o).card + 1 < fuel
    omega
  have hcache : ∀ k, memoState.cached createResolutionState k = none := by
    rintro (k | k) <;> rfl
  obtain ⟨s, hafter, hstack, r, s', hr, hstack', hsame⟩ :=
    resolveAll_independent (stacks_empty_iff.mpr ⟨rfl, rfl⟩) hcache henough
      (queries.map fun q => q.roots o) (query.roots o)
  refine ⟨s, (afterQueries_eq hpos queries _).trans hafter, stacks_empty_iff.mp hstack,
    r.bind (query.answer o), s', ?_, stacks_empty_iff.mp hstack', fun hindependent => ?_⟩
  · rw [ask_eq_some hpos, hr]
    rfl
  · obtain ⟨t, ht⟩ := hsame hindependent
    exact ⟨t, by rw [ask_eq_some hpos, ht]; rfl⟩

def leadTemplate : String :=
  "Lead \x7b\x7b#tools\x7d\x7d\x7b\x7bprompt\x7d\x7d\x7b\x7b/tools\x7d\x7d"

def teamTemplate : String :=
  "Team \x7b\x7b#agents\x7d\x7d\x7b\x7bprompt\x7d\x7d\x7b\x7b/agents\x7d\x7d"

/-- `Mustache.render` of these two templates. -/
def demoMustache : Prompts.Mustache
  | template, .tools tools =>
    if template = leadTemplate then .ok ("Lead " ++ String.join (tools.map (·.prompt)))
    else .ok template
  | template, .agents agents =>
    if template = teamTemplate then .ok ("Team " ++ String.join (agents.map (·.prompt)))
    else .ok template

def lead : GraphNode :=
  ⟨"lead", "agent", .Agent, "Lead", ⟨none, none, none, none, none, some leadTemplate⟩⟩

def team : GraphNode :=
  ⟨"team", "manageTool", .Tool, "Team", ⟨none, none, none, none, some teamTemplate, none⟩⟩

def cyclic : Options where
  graphNodes := [lead, team]
  graphEdges := [⟨"lead", "tools", "team"⟩, ⟨"team", "agent", "lead"⟩]
  getTemplate _ := none
  overrideAgent := none
  mustache := demoMustache
  toLowerCase := String.toLower

def shell : GraphNode :=
  ⟨"shell", "shellTool", .Tool, "Shell", ⟨none, none, none, some "Runs.", none, none⟩⟩

def acyclic : Options where
  graphNodes := [lead, shell]
  graphEdges := [⟨"lead", "tools", "shell"⟩]
  getTemplate _ := none
  overrideAgent := none
  mustache := demoMustache
  toLowerCase := String.toLower

theorem acyclic_independent : Query.Independent acyclic [.buildAgentToolContext "lead"]
    (.resolveAgentSystemPrompt "lead") := by
  have hdeps : previewDeps acyclic (.agent "lead") = [.tool "shell"] := by decide +kernel
  have hroots : ((Query.buildAgentToolContext "lead").roots acyclic ++
      (Query.resolveAgentSystemPrompt "lead").roots acyclic) =
        [.tool "shell", .agent "lead"] := by decide +kernel
  refine independent_of_rank (S := {.agent "lead", .tool "shell"})
    (fun n => if n = .agent "lead" then 1 else 0) ?_ ?_ ?_
  · rintro n (rfl | rfl) m (rfl | rfl) hkey <;> first | rfl | cases hkey
  · rintro n (rfl | rfl) d hd
    · obtain rfl : d = .tool "shell" := by simpa [previewGraph, hdeps] using hd
      simp
    · exact absurd hd List.not_mem_nil
  · intro n hn
    have hmem : n ∈ [PreviewNode.tool "shell", .agent "lead"] := by
      rw [← hroots]
      simpa using hn
    simpa [or_comm] using hmem

theorem ask_independent_lead :
    ∃ s, afterQueries acyclic 8 [.buildAgentToolContext "lead"] createResolutionState = some s ∧
      (s.agentStack = ∅ ∧ s.toolStack = ∅) ∧
      ∃ answer s', ask acyclic 8 (.resolveAgentSystemPrompt "lead") s = some (answer, s') ∧
        (s'.agentStack = ∅ ∧ s'.toolStack = ∅) ∧
        ∃ t, ask acyclic 8 (.resolveAgentSystemPrompt "lead") createResolutionState =
          some (answer, t) := by
  obtain ⟨s, hafter, hstacks, answer, s', hask, hstacks', hsame⟩ :=
    ask_independent acyclic [.buildAgentToolContext "lead"] (.resolveAgentSystemPrompt "lead")
      (show 3 * acyclic.graphNodes.length + 1 < 8 by decide)
  exact ⟨s, hafter, hstacks, answer, s', hask, hstacks', hsame acyclic_independent⟩

def Answer.promptText : Except String Answer → Option String
  | .ok (.text prompt) => some prompt
  | _ => none

/-- The prompt of the tool has the fallback of the agent in it when its agents were asked for
before, and its own fallback in it otherwise. -/
theorem manage_prompt_depends :
    ((afterQueries cyclic 8 [.buildManageAgentsContext "team"] createResolutionState).bind fun s =>
      (ask cyclic 8 (.resolveManagePrompt "team") s).bind fun out => Answer.promptText out.1) =
        some ("Team " ++ leadTemplate) ∧
      ((ask cyclic 8 (.resolveManagePrompt "team") createResolutionState).bind fun out =>
        Answer.promptText out.1) = some "Team Lead Manage tool" := by
  decide +kernel

end QueryRuns

end Agyn.PromptPreview
