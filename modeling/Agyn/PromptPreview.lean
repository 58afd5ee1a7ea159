import Agyn.PromptResolution

/-!
The preview of prompts in the editor. A resolver keeps caches and stacks from query to query: the
prompt of an agent is rendered with its tools, and that of a manage tool with its agents. Texts are
picked and rendered as the server does.
-/
namespace Agyn.PromptPreview

open FuelledCalls
open Prompts (pickFirstNonEmpty readConfigString renderMustache Mustache TemplateMeta ToolContext
  AgentContext)

inductive NodeKind where
  | Trigger
  | Agent
  | Tool
  | MCP
  | Workspace
  deriving DecidableEq

/-- The texts of a configuration; what is no text counts as missing. -/
structure NodeConfig where
  name : Option String
  title : Option String
  role : Option String
  description : Option String
  prompt : Option String
  systemPrompt : Option String

structure GraphNode where
  id : String
  template : String
  kind : NodeKind
  title : String
  config : NodeConfig

structure GraphEdge where
  source : String
  sourceHandle : String
  target : String

structure OverrideAgent where
  id : String
  systemPrompt : String

/-- The options of a resolver, with `Mustache.render` and `toLowerCase`. -/
structure Options where
  graphNodes : List GraphNode
  graphEdges : List GraphEdge
  getTemplate : String → Option TemplateMeta
  overrideAgent : Option OverrideAgent
  mustache : Mustache
  toLowerCase : String → String

def DEFAULT_SYSTEM_PROMPT : String := "You are a helpful AI assistant."

def MANAGE_TEMPLATE_NAME : String := "manageTool"

def MANAGE_FALLBACK_DESCRIPTION : String := "Manage tool"

def CANONICAL_TOOL_NAMES : List (String × String) :=
  [("shellTool", "shell_command"), ("githubCloneRepoTool", "github_clone_repo"),
    ("sendSlackMessageTool", "send_slack_message"), ("sendMessageTool", "send_message"),
    ("finishTool", "finish"), ("callAgentTool", "call_agent"), ("manageTool", "manage"),
    ("memoryTool", "memory"), ("remindMeTool", "remind_me")]

/-- The properties of the prototype of object literals. -/
def inheritedNames : List String :=
  ["constructor", "__defineGetter__", "__defineSetter__", "hasOwnProperty", "__lookupGetter__",
    "__lookupSetter__", "isPrototypeOf", "propertyIsEnumerable", "toString", "valueOf",
    "__proto__", "toLocaleString"]

def withoutEnd (ending : String) (text : List Char) : List Char :=
  if ending.toList <:+ text then text.take (text.length - ending.length) else text

/-- An underscore between a small letter or a digit and a capital letter. -/
def splitCase : List Char → List Char
  | [] => []
  | [c] => [c]
  | c :: d :: rest =>
    if (c.isLower || c.isDigit) && d.isUpper then c :: '_' :: splitCase (d :: rest)
    else c :: splitCase (d :: rest)

/-- An underscore for every run of characters; `inRun` when one has begun. -/
def underscoreRuns (p : Char → Bool) : Bool → List Char → List Char
  | _, [] => []
  | inRun, c :: rest =>
    if p c then (if inRun then [] else ['_']) ++ underscoreRuns p true rest
    else c :: underscoreRuns p false rest

def normalizeTemplateName (o : Options) (template : String) : String :=
  let trimmed := trim template
  if trimmed = "" then ""
  else
    let withoutSuffix := withoutEnd "Node" (withoutEnd "Tool" trimmed.toList)
    let words := underscoreRuns (fun c => !c.isAlphanum && c ≠ '_') false (splitCase withoutSuffix)
    let joined := underscoreRuns (· = '_') false words
    let stripped := ((joined.dropWhile (· = '_')).reverse.dropWhile (· = '_')).reverse
    let snake := String.ofList (stripped.map Char.toLower)
    if snake ≠ "" then snake else o.toLowerCase trimmed

/-- Nothing when what is found under the name is no text. -/
def getCanonicalToolName (o : Options) (template : String) : Option String :=
  match CANONICAL_TOOL_NAMES.lookup template with
  | some name => some name
  | none =>
    if template ∈ inheritedNames then none
    else if trim template ≠ "" then some (normalizeTemplateName o template) else some ""

namespace Options

variable (o : Options)

/-- `nodesById.get`: of two nodes with one id the later one. -/
def node? (id : String) : Option GraphNode := (o.graphNodes.filter (·.id = id)).getLast?

def getEdgesFrom (sourceId : String) : List GraphEdge :=
  if sourceId = "" then [] else o.graphEdges.filter (·.source = sourceId)

def targetsFrom (accepts : String → Bool) (kind : NodeKind) :
    List String → List GraphEdge → List GraphNode
  | _, [] => []
  | seen, edge :: edges =>
    if !accepts edge.sourceHandle || edge.target = "" || edge.target ∈ seen then
      targetsFrom accepts kind seen edges
    else
      match o.node? edge.target with
      | none => targetsFrom accepts kind seen edges
      | some node =>
        if node.kind = kind then node :: targetsFrom accepts kind (edge.target :: seen) edges
        else targetsFrom accepts kind seen edges

def toolTargets (agentId : String) : List GraphNode :=
  o.targetsFrom (· = "tools") .Tool [] (o.getEdgesFrom agentId)

def agentTargets (toolId : String) : List GraphNode :=
  o.targetsFrom (fun handle => handle = "" || handle = "agent") .Agent [] (o.getEdgesFrom toolId)

def getOverrideSystemPrompt (agentId : String) : Option String :=
  o.overrideAgent.bind fun override =>
    if override.id = agentId then some override.systemPrompt else none

def getManageFallbackDescription (toolNode : GraphNode) : String :=
  pickFirstNonEmpty [readConfigString toolNode.config.description,
    some MANAGE_FALLBACK_DESCRIPTION]

/-- The template of an agent, and what it has for a prompt inside its own resolution. -/
def agentTemplate (agentId : String) : String :=
  pickFirstNonEmpty [o.getOverrideSystemPrompt agentId,
    (o.node? agentId).bind fun node => readConfigString node.config.systemPrompt,
    some DEFAULT_SYSTEM_PROMPT]

end Options

structure PromptResolutionState where
  agentCache : String → Option String
  toolCache : String → Option String
  agentStack : Finset String
  toolStack : Finset String

def createResolutionState : PromptResolutionState := ⟨fun _ => none, fun _ => none, ∅, ∅⟩

namespace PromptResolutionState

def cacheAgent (id text : String) (s : PromptResolutionState) : PromptResolutionState :=
  { s with agentCache := Function.update s.agentCache id (some text) }

def cacheTool (id text : String) (s : PromptResolutionState) : PromptResolutionState :=
  { s with toolCache := Function.update s.toolCache id (some text) }

def pushAgent (id : String) (s : PromptResolutionState) : PromptResolutionState :=
  { s with agentStack := insert id s.agentStack }

def popAgent (id : String) (s : PromptResolutionState) : PromptResolutionState :=
  { s with agentStack := s.agentStack.erase id }

def pushTool (id : String) (s : PromptResolutionState) : PromptResolutionState :=
  { s with toolStack := insert id s.toolStack }

def popTool (id : String) (s : PromptResolutionState) : PromptResolutionState :=
  { s with toolStack := s.toolStack.erase id }

end PromptResolutionState

open PromptResolutionState

abbrev M := FuelledCalls.Call PromptResolutionState String

section Resolving

variable (o : Options)

section Agents

variable (resolveToolPrompt : GraphNode → M String)

def canonicalName (toolNode : GraphNode) : Except String String :=
  match getCanonicalToolName o toolNode.template with
  | some name => .ok (trim name)
  | none => .error "getCanonicalToolName(...).trim is not a function"

def templateTitle (toolNode : GraphNode) : String :=
  (((o.getTemplate toolNode.template).bind TemplateMeta.title).map trim).getD ""

def templateDescription (toolNode : GraphNode) : String :=
  (((o.getTemplate toolNode.template).bind TemplateMeta.description).map trim).getD ""

def toolContext (toolNode : GraphNode) (canonicalName prompt : String) : ToolContext :=
  let config := toolNode.config
  let nodeTitle := trim toolNode.title
  let name := pickFirstNonEmpty [readConfigString config.name, some canonicalName,
    some (templateTitle o toolNode), some nodeTitle, some "tool"]
  { name
    title := pickFirstNonEmpty [readConfigString config.title, some (templateTitle o toolNode),
      some nodeTitle, some name]
    description := pickFirstNonEmpty [readConfigString config.description,
      some (templateDescription o toolNode)]
    prompt }

def buildAgentToolContext (agentId : String) : M (List ToolContext) :=
  Call.traverse (fun toolNode => Call.ofExcept (canonicalName o toolNode) >>= fun name =>
    resolveToolPrompt toolNode >>= fun prompt => pure (toolContext o toolNode name prompt))
    (o.toolTargets agentId)

def resolveAgentSystemPrompt (agentId : String) : M String := do
  let s ← Call.get
  match s.agentCache agentId with
  | some cached => pure cached
  | none =>
    if agentId ∈ s.agentStack then
      Call.modify (cacheAgent agentId (o.agentTemplate agentId))
      pure (o.agentTemplate agentId)
    else if ((o.node? agentId).any fun node => node.kind = .Agent) = false then
      Call.modify (cacheAgent agentId DEFAULT_SYSTEM_PROMPT)
      pure DEFAULT_SYSTEM_PROMPT
    else
      Call.modify (pushAgent agentId)
      Call.andFinally (do
        let template := o.agentTemplate agentId
        let tools ← buildAgentToolContext o resolveToolPrompt agentId
        let rendered := renderMustache o.mustache template (.tools tools)
        let resolved := pickFirstNonEmpty [some rendered, some template, some DEFAULT_SYSTEM_PROMPT]
        Call.modify (cacheAgent agentId resolved)
        pure resolved) (popAgent agentId)

end Agents

section Tools

variable (resolveAgentSystemPrompt : String → M String)

def agentContext (agentNode : GraphNode) (prompt : String) : AgentContext :=
  ⟨(readConfigString agentNode.config.name).getD "",
    (readConfigString agentNode.config.role).getD "",
    prompt⟩

def buildManageAgentsContextForNode (toolNode : Option GraphNode) : M (List AgentContext) :=
  match toolNode with
  | none => pure []
  | some toolNode =>
    if toolNode.id = "" then pure []
    else
      Call.traverse (fun agentNode => resolveAgentSystemPrompt agentNode.id >>= fun prompt =>
        pure (agentContext agentNode prompt)) (o.agentTargets toolNode.id)

/-- A node without an id is neither cached nor put on the stack. -/
def resolveManagePromptForNode (toolNode : Option GraphNode) : M String :=
  match toolNode with
  | none => pure MANAGE_FALLBACK_DESCRIPTION
  | some toolNode => do
    let nodeId := toolNode.id
    let s ← Call.get
    let cached := if nodeId ≠ "" then s.toolCache nodeId else none
    match cached with
    | some cached => pure cached
    | none =>
      let fallback := Options.getManageFallbackDescription toolNode
      if nodeId ≠ "" ∧ nodeId ∈ s.toolStack then
        Call.modify (cacheTool nodeId fallback)
        pure fallback
      else
        match readConfigString toolNode.config.prompt with
        | none =>
          Call.modify (if nodeId ≠ "" then cacheTool nodeId fallback else id)
          pure fallback
        | some template =>
          Call.modify (if nodeId ≠ "" then pushTool nodeId else id)
          Call.andFinally (do
            let agents ← buildManageAgentsContextForNode o resolveAgentSystemPrompt (some toolNode)
            let rendered := renderMustache o.mustache template (.agents agents)
            let resolved := pickFirstNonEmpty [some rendered, some fallback]
            Call.modify (if nodeId ≠ "" then cacheTool nodeId resolved else id)
            pure resolved) (if nodeId ≠ "" then popTool nodeId else id)

def toolFallback (toolNode : GraphNode) : String :=
  pickFirstNonEmpty [readConfigString toolNode.config.prompt,
    readConfigString toolNode.config.description, some (templateDescription o toolNode)]

def resolveToolPrompt (toolNode : GraphNode) : M String := do
  let nodeId := toolNode.id
  let s ← Call.get
  let cached := if nodeId ≠ "" then s.toolCache nodeId else none
  match cached with
  | some cached => pure cached
  | none =>
    let fallback := toolFallback o toolNode
    if toolNode.template = MANAGE_TEMPLATE_NAME then
      resolveManagePromptForNode o resolveAgentSystemPrompt (some toolNode)
    else if nodeId = "" then pure fallback
    else if nodeId ∈ s.toolStack then
      Call.modify (cacheTool nodeId fallback)
      pure fallback
    else
      Call.modify (pushTool nodeId)
      Call.andFinally (do
        let resolved := toolFallback o toolNode
        Call.modify (cacheTool nodeId resolved)
        pure (pickFirstNonEmpty [some resolved, some fallback])) (popTool nodeId)

end Tools

structure Resolver where
  resolveAgentSystemPrompt : String → M String
  resolveManagePromptForNode : Option GraphNode → M String
  resolveToolPrompt : GraphNode → M String

/-- The functions that call one another, to the depth of the fuel. -/
def resolver : ℕ → Resolver
  | 0 => ⟨fun _ _ => none, fun _ _ => none, fun _ _ => none⟩
  | fuel + 1 =>
    let inner := resolver fuel
    ⟨resolveAgentSystemPrompt o inner.resolveToolPrompt,
      resolveManagePromptForNode o inner.resolveAgentSystemPrompt,
      resolveToolPrompt o inner.resolveAgentSystemPrompt⟩

inductive Query where
  | buildAgentToolContext (agentId : String)
  | resolveAgentSystemPrompt (agentId : String)
  | buildManageAgentsContext (toolId : String)
  | resolveManagePrompt (toolId : String)

inductive Answer where
  | tools (context : List ToolContext)
  | agents (context : List AgentContext)
  | text (prompt : String)

def emptyAnswer : Query → Answer
  | .buildAgentToolContext _ => .tools []
  | .resolveAgentSystemPrompt _ => .text DEFAULT_SYSTEM_PROMPT
  | .buildManageAgentsContext _ => .agents []
  | .resolveManagePrompt _ => .text MANAGE_FALLBACK_DESCRIPTION

def ask (fuel : ℕ) (query : Query) : M Answer :=
  if o.graphNodes.length = 0 then pure (emptyAnswer query)
  else
    let functions := resolver o fuel
    match query with
    | .buildAgentToolContext agentId =>
      buildAgentToolContext o functions.resolveToolPrompt agentId >>= fun context =>
        pure (.tools context)
    | .resolveAgentSystemPrompt agentId =>
      functions.resolveAgentSystemPrompt agentId >>= fun prompt => pure (.text prompt)
    | .buildManageAgentsContext toolId =>
      buildManageAgentsContextForNode o functions.resolveAgentSystemPrompt (o.node? toolId) >>=
        fun context => pure (.agents context)
    | .resolveManagePrompt toolId =>
      functions.resolveManagePromptForNode (o.node? toolId) >>= fun prompt => pure (.text prompt)

/-- The state of a resolver after some queries, which are over also when they throw. -/
def afterQueries (fuel : ℕ) : List Query → PromptResolutionState → Option PromptResolutionState
  | [], s => some s
  | query :: rest, s => (ask o fuel query s).bind fun out => afterQueries fuel rest out.2

end Resolving

end Agyn.PromptPreview
