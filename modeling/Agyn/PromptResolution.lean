import Mathlib.Data.Finset.Insert
import Mathlib.Data.Finset.Erase
import Agyn.FuelledCalls
import Agyn.WorkerRegistry

/-!
The resolution of system prompts. The prompt of an agent is rendered with the prompts of its tools,
and the prompt of a manage tool with those of its workers, so that agents and manage tools resolve
one another. A resolution keeps what it has rendered and what it is in the middle of. A manage
tool whose description is read resolves its prompt in a resolution of its own, which it holds
until the description is there.
-/
namespace Agyn.Prompts

open FuelledCalls
open WorkerRegistry (Worker ManageToolNode)

abbrev ToolNodeId := ℕ

/-- A function tool with getters that answer the same whenever they are read, or throw. -/
structure PlainTool where
  name : Except String String
  description : Except String String

inductive NodeTool where
  | manage (name : Option String)
  | plain (tool : PlainTool)

structure TemplateMeta where
  title : Option String
  description : Option String

structure ToolNode where
  title : Option String
  description : Option String
  prompt : Option String
  templateMeta : Option TemplateMeta
  tool : NodeTool

inductive RegisteredTool where
  | node (nodeRef : ToolNodeId)
  | mcp (tool : PlainTool)

structure AgentConfig where
  name : Option String
  role : Option String
  systemPrompt : Option String
  toolsByName : List (String × RegisteredTool)

/-- Agents and tool nodes; the tools of the agents and the workers of the tools are among them. -/
structure Graph where
  agentConfig : Worker → AgentConfig
  toolNode : ToolNodeId → ToolNode
  registry : ToolNodeId → ManageToolNode
  agents : Finset Worker
  toolNodes : Finset ToolNodeId
  tools_mem : ∀ a ∈ agents, ∀ entry ∈ (agentConfig a).toolsByName, ∀ t, entry.2 = .node t →
    t ∈ toolNodes
  workers_mem : ∀ t ∈ toolNodes, ∀ a ∈ (registry t).workers, a ∈ agents

namespace Graph

variable (G : Graph)

/-- A name that is not a string counts as empty. -/
def configs : WorkerRegistry.Configs := fun a => some ((G.agentConfig a).name.getD "")

def isManage (t : ToolNodeId) : Bool :=
  match (G.toolNode t).tool with
  | .manage _ => true
  | .plain _ => false

def toolName : RegisteredTool → Except String String
  | .mcp tool => tool.name
  | .node t =>
    match (G.toolNode t).tool with
    | .plain tool => tool.name
    | .manage (some configured) => .ok (if configured ≠ "" then configured else "manage")
    | .manage none => .ok "manage"

/-- `getFallbackDescription` of a manage tool. -/
def fallbackDescription (t : ToolNodeId) : String :=
  let raw := trim ((G.toolNode t).description.getD "")
  if raw ≠ "" then raw else "Manage tool"

end Graph

def defaultSystemPrompt : String := "You are a helpful AI assistant."

def pickFirstNonEmpty : List (Option String) → String
  | [] => ""
  | none :: values => pickFirstNonEmpty values
  | some value :: values =>
    if trim value ≠ "" then trim value else pickFirstNonEmpty values

def readConfigString (raw : Option String) : Option String :=
  raw.bind fun raw => if trim raw ≠ "" then some (trim raw) else none

structure ToolContext where
  name : String
  title : String
  description : String
  prompt : String

structure AgentContext where
  name : String
  role : String
  prompt : String

inductive TemplateContext where
  | tools (tools : List ToolContext)
  | agents (agents : List AgentContext)

/-- `Mustache.render`, which throws on templates that it cannot parse. -/
abbrev Mustache := String → TemplateContext → Except String String

def renderMustache (mustache : Mustache) (template : String) (context : TemplateContext) :
    String :=
  if template = "" then template
  else
    match mustache template context with
    | .ok rendered => rendered
    | .error _ => template

structure ResolutionState where
  cacheAgents : Worker → Option String
  cacheTools : ToolNodeId → Option String
  stackAgents : Finset Worker
  stackTools : Finset ToolNodeId

def createAgentPromptResolutionState : ResolutionState :=
  ⟨fun _ => none, fun _ => none, ∅, ∅⟩

/-- A resolution: the one that an agent began with, or the one that a manage tool holds while its
description is read. -/
abbrev Key := Option ToolNodeId

inductive PromptNode where
  | agent (a : Worker)
  | tool (t : ToolNodeId)
  deriving DecidableEq

/-- The nodes whose expansion has begun and not ended, the innermost first. -/
abbrev Path := List (Key × PromptNode)

structure World where
  state : Key → ResolutionState
  /-- The manage tools whose `descriptionResolution` is set. -/
  reading : Finset ToolNodeId
  registry : ToolNodeId → ManageToolNode
  /-- The path of every expansion; no function reads it. -/
  expansions : List Path

abbrev M := FuelledCalls.Call World String

namespace World

def start (G : Graph) : World := ⟨fun _ => createAgentPromptResolutionState, ∅, G.registry, []⟩

def update (key : Key) (f : ResolutionState → ResolutionState) (w : World) : World :=
  { w with state := Function.update w.state key (f (w.state key)) }

def cacheAgent (key : Key) (a : Worker) (text : String) : World → World :=
  update key fun s => { s with cacheAgents := Function.update s.cacheAgents a (some text) }

def cacheTool (key : Key) (t : ToolNodeId) (text : String) : World → World :=
  update key fun s => { s with cacheTools := Function.update s.cacheTools t (some text) }

def pushAgent (key : Key) (a : Worker) : World → World :=
  update key fun s => { s with stackAgents := insert a s.stackAgents }

def popAgent (key : Key) (a : Worker) : World → World :=
  update key fun s => { s with stackAgents := s.stackAgents.erase a }

def pushTool (key : Key) (t : ToolNodeId) : World → World :=
  update key fun s => { s with stackTools := insert t s.stackTools }

def popTool (key : Key) (t : ToolNodeId) : World → World :=
  update key fun s => { s with stackTools := s.stackTools.erase t }

/-- Sets `descriptionResolution` of a manage tool to a new resolution. -/
def beginReading (t : ToolNodeId) (w : World) : World :=
  { w.update (some t) fun _ => createAgentPromptResolutionState with
    reading := insert t w.reading }

def endReading (t : ToolNodeId) (w : World) : World :=
  { w with reading := w.reading.erase t }

def expand (path : Path) (w : World) : World :=
  { w with expansions := path :: w.expansions }

end World

section Agents

variable (mustache : Mustache) (G : Graph) (resolvePrompt : Path → ToolNodeId → Key → M String)

/-- The getter `description` of a function tool. -/
def toolDescription (path : Path) : RegisteredTool → M String
  | .mcp tool => .ofExcept tool.description
  | .node t =>
    match (G.toolNode t).tool with
    | .plain tool => .ofExcept tool.description
    | .manage _ => do
      let w ← Call.get
      if t ∈ w.reading then resolvePrompt path t (some t)
      else
        Call.modify (World.beginReading t)
        (resolvePrompt path t (some t)).andFinally (World.endReading t)

def RegisteredTool.nodeRef : RegisteredTool → Option ToolNodeId
  | .node t => some t
  | .mcp _ => none

/-- What a tool node that is neither cached nor on the stack is resolved to; what is thrown is
dropped. -/
def resolveNodePrompt (path : Path) (t : ToolNodeId) (key : Key) (fallback : String) :
    M (Option String) :=
  if G.isManage t then (resolvePrompt path t key).attempt
  else do
    Call.modify (World.pushTool key t)
    (pure (some fallback) : M (Option String)).andFinally (World.popTool key t)

def resolveToolPrompt (path : Path) (tool : RegisteredTool) (nodeRef : Option ToolNodeId)
    (key : Key) (fallbackPrompt : String) : M String := do
  let description ← toolDescription G resolvePrompt path tool
  let fallback := pickFirstNonEmpty [some fallbackPrompt, some description]
  match nodeRef with
  | none => pure fallback
  | some t =>
    let w ← Call.get
    match (w.state key).cacheTools t with
    | some cached => pure cached
    | none =>
      let cycleFallback := if G.isManage t then G.fallbackDescription t else fallback
      if t ∈ (w.state key).stackTools then
        let resolved := pickFirstNonEmpty [some cycleFallback, some fallback]
        Call.modify (World.cacheTool key t resolved)
        pure resolved
      else
        let resolved ← resolveNodePrompt G resolvePrompt path t key fallback
        let normalized := pickFirstNonEmpty [resolved, some cycleFallback, some fallback]
        Call.modify (World.cacheTool key t normalized)
        pure normalized

def toolContext (path : Path) (a : Worker) (key : Key) (tool : RegisteredTool) :
    M ToolContext := do
  let name ← Call.ofExcept (G.toolName tool)
  let nodeRef := ((G.agentConfig a).toolsByName.lookup name).bind RegisteredTool.nodeRef
  let node := nodeRef.map G.toolNode
  let templateMeta := node.bind ToolNode.templateMeta
  let configDescription := readConfigString (node.bind ToolNode.description)
  let configPrompt := readConfigString (node.bind ToolNode.prompt)
  let templateDescription := (templateMeta.bind TemplateMeta.description).map trim
  let read ← toolDescription G resolvePrompt path tool
  let description := pickFirstNonEmpty [configDescription, templateDescription, some read]
  let readAgain ← toolDescription G resolvePrompt path tool
  let fallbackPrompt :=
    pickFirstNonEmpty [configPrompt, configDescription, templateDescription, some readAgain]
  let prompt ← resolveToolPrompt G resolvePrompt path tool nodeRef key fallbackPrompt
  let title := pickFirstNonEmpty
    [readConfigString (node.bind ToolNode.title), templateMeta.bind TemplateMeta.title, some name]
  pure ⟨name, title, description, prompt⟩

def buildToolMustacheContext (path : Path) (a : Worker) (key : Key) : M (List ToolContext) :=
  Call.traverse (toolContext G resolvePrompt path a key)
    ((G.agentConfig a).toolsByName.map Prod.snd)

/-- The agent leaves the stack only after its tools were described. -/
def expandAgent (path : Path) (a : Worker) (key : Key) : M String := do
  Call.modify (World.pushAgent key a)
  Call.modify (World.expand ((key, .agent a) :: path))
  let template := (G.agentConfig a).systemPrompt.getD defaultSystemPrompt
  let tools ← buildToolMustacheContext G resolvePrompt ((key, .agent a) :: path) a key
  let rendered := renderMustache mustache template (.tools tools)
  let systemPrompt := pickFirstNonEmpty [some rendered, some template, some defaultSystemPrompt]
  Call.modify (World.popAgent key a)
  Call.modify (World.cacheAgent key a systemPrompt)
  pure systemPrompt

def resolveEffectiveSystemPrompt (path : Path) (a : Worker) (key : Key) : M String := do
  let w ← Call.get
  match (w.state key).cacheAgents a with
  | some cached => pure cached
  | none =>
    if a ∈ (w.state key).stackAgents then
      let fallback := pickFirstNonEmpty
        [(G.agentConfig a).systemPrompt, some defaultSystemPrompt]
      Call.modify (World.cacheAgent key a fallback)
      pure fallback
    else expandAgent mustache G resolvePrompt path a key

end Agents

section Tools

variable (fold : String → String) (mustache : Mustache) (G : Graph)
  (resolveEffectiveSystemPrompt : Path → Worker → Key → M String)

def pickAgentFallback (a : Worker) : String := trim ((G.agentConfig a).systemPrompt.getD "")

def workerFallback (a : Worker) : String :=
  if pickAgentFallback G a ≠ "" then pickAgentFallback G a else defaultSystemPrompt

def resolveWorkerPrompt (path : Path) (a : Worker) (key : Key) : M String := do
  let w ← Call.get
  if a ∈ (w.state key).stackAgents then
    Call.modify (World.cacheAgent key a (workerFallback G a))
    pure (workerFallback G a)
  else
    let resolved ← (resolveEffectiveSystemPrompt path a key).attempt
    if trim (resolved.getD "") ≠ "" then pure (trim (resolved.getD ""))
    else pure (workerFallback G a)

def agentContext (path : Path) (key : Key) (a : Worker) : M AgentContext := do
  let prompt ← resolveWorkerPrompt G resolveEffectiveSystemPrompt path a key
  pure ⟨trim ((G.agentConfig a).name.getD ""), trim ((G.agentConfig a).role.getD ""), prompt⟩

def refreshAllWorkers (t : ToolNodeId) : M Unit := fun w =>
  let (m, r) := (w.registry t).refreshAllWorkers fold G.configs
  some (r, { w with registry := Function.update w.registry t m })

def getAgentPromptContext (path : Path) (t : ToolNodeId) (key : Key) : M (List AgentContext) := do
  refreshAllWorkers fold G t
  let w ← Call.get
  Call.traverse (agentContext G resolveEffectiveSystemPrompt path key) (w.registry t).workers

def expandTool (path : Path) (t : ToolNodeId) (key : Key) (template : String) : M String := do
  let context ← getAgentPromptContext fold G resolveEffectiveSystemPrompt path t key
  let rendered := trim (renderMustache mustache template (.agents context))
  let normalized := if rendered ≠ "" then rendered else G.fallbackDescription t
  Call.modify (World.cacheTool key t normalized)
  pure normalized

def resolvePrompt (path : Path) (t : ToolNodeId) (key : Key) : M String := do
  let template := trim ((G.toolNode t).prompt.getD "")
  if template = "" then
    Call.modify (World.cacheTool key t (G.fallbackDescription t))
    pure (G.fallbackDescription t)
  else
    let w ← Call.get
    match (w.state key).cacheTools t with
    | some cached => pure cached
    | none =>
      if t ∈ (w.state key).stackTools then
        Call.modify (World.cacheTool key t (G.fallbackDescription t))
        pure (G.fallbackDescription t)
      else
        Call.modify (World.pushTool key t)
        Call.modify (World.expand ((key, .tool t) :: path))
        (expandTool fold mustache G resolveEffectiveSystemPrompt ((key, .tool t) :: path) t key
          template).andFinally (World.popTool key t)

end Tools

structure Resolver where
  resolveEffectiveSystemPrompt : Path → Worker → Key → M String
  resolvePrompt : Path → ToolNodeId → Key → M String

/-- Agents and manage tools that resolve one another, to the depth of the fuel. -/
def resolver (fold : String → String) (mustache : Mustache) (G : Graph) : ℕ → Resolver
  | 0 => ⟨fun _ _ _ _ => none, fun _ _ _ _ => none⟩
  | fuel + 1 =>
    let inner := resolver fold mustache G fuel
    ⟨resolveEffectiveSystemPrompt mustache G inner.resolvePrompt,
      resolvePrompt fold mustache G inner.resolveEffectiveSystemPrompt⟩

section Resolver

variable (fold : String → String) (mustache : Mustache) (G : Graph) (fuel : ℕ)

theorem resolver_agents :
    (resolver fold mustache G (fuel + 1)).resolveEffectiveSystemPrompt =
      resolveEffectiveSystemPrompt mustache G (resolver fold mustache G fuel).resolvePrompt := by
  rw [resolver]

theorem resolver_tools :
    (resolver fold mustache G (fuel + 1)).resolvePrompt = resolvePrompt fold mustache G
      (resolver fold mustache G fuel).resolveEffectiveSystemPrompt := by
  rw [resolver]

end Resolver

/-- The resolution that `buildEffectiveConfig` begins. -/
def resolve (fold : String → String) (mustache : Mustache) (G : Graph) (fuel : ℕ) (a : Worker) :
    Option (Except String String × World) :=
  (resolver fold mustache G fuel).resolveEffectiveSystemPrompt [] a none (World.start G)

end Agyn.Prompts
