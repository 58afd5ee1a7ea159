import Agyn.GuardedRuns
import Agyn.InsertionMap
import Mathlib.Logic.Function.Iterate

/-!
The tools of an agent node: the tools registered by name, and for each tracked MCP server
the tools of it that are registered. A server emits events to the listeners that every
`addMcpServer` subscribes and nothing unsubscribes. The world adds to the agent what is
attached to it, what each server lists and what the configurations say: the name of a tool
is read from the configuration of its node whenever it is asked for, and a memory node
hands out another tool object after its source was set.
-/
namespace Agyn

structure BaseToolNode where
  nodeId : String
  deriving DecidableEq

structure LocalMCPServerNode where
  nodeId : String
  deriving DecidableEq

/-- A tool object of a server with its name there; a server that lists its tools again may
make new objects. -/
structure LocalMCPServerTool where
  serial : ℕ
  rawName : String
  deriving DecidableEq

inductive FunctionTool where
  | ofNode (node : BaseToolNode) (serial : ℕ)
  | ofServer (server : LocalMCPServerNode) (tool : LocalMCPServerTool)
  deriving DecidableEq

inductive ToolSource where
  | node (node : BaseToolNode)
  | mcp (server : LocalMCPServerNode)
  deriving DecidableEq

def FunctionTool.source : FunctionTool → ToolSource
  | .ofNode node _ => .node node
  | .ofServer server _ => .mcp server

/-- What the configurations of the nodes say now. -/
structure ToolConfigs where
  toolName : BaseToolNode → String
  serverNamespace : LocalMCPServerNode → String

def ToolConfigs.name (cfg : ToolConfigs) : FunctionTool → String
  | .ofNode node _ => cfg.toolName node
  | .ofServer server tool =>
    if cfg.serverNamespace server = "" then tool.rawName
    else cfg.serverNamespace server ++ "_" ++ tool.rawName

structure AgentTools where
  toolsByName : InsMap String FunctionTool
  toolNames : InsSet String
  mcpServerTools : InsMap LocalMCPServerNode (InsMap String FunctionTool)

namespace AgentTools

def empty : AgentTools := ⟨.empty, InsMap.empty, .empty⟩

def registerTool (cfg : ToolConfigs) (tool : FunctionTool) (a : AgentTools) : AgentTools :=
  if a.toolNames.has (cfg.name tool) then a
  else
    { a with
      toolsByName := a.toolsByName.set (cfg.name tool) tool
      toolNames := a.toolNames.add (cfg.name tool) }

def unregisterTool (name : String) (tool : FunctionTool) (a : AgentTools) : AgentTools :=
  if a.toolsByName.get name = some tool then
    { a with
      toolsByName := a.toolsByName.delete name
      toolNames := a.toolNames.delete name }
  else a

/-- `tool` is what `toolNode.getTool()` returns. -/
def addTool (cfg : ToolConfigs) (tool : FunctionTool) (a : AgentTools) : AgentTools :=
  a.registerTool cfg tool

def removeTool (cfg : ToolConfigs) (tool : FunctionTool) (a : AgentTools) : AgentTools :=
  a.unregisterTool (cfg.name tool) tool

def splitLatest (cfg : ToolConfigs) (tools : List FunctionTool) :
    InsMap String FunctionTool × List FunctionTool :=
  tools.foldl (fun split tool =>
    if split.1.has (cfg.name tool) then (split.1, split.2 ++ [tool])
    else (split.1.set (cfg.name tool) tool, split.2)) (.empty, [])

def dropReplaced (uniqueLatest : InsMap String FunctionTool)
    (prev : List (String × FunctionTool)) (a : AgentTools) : AgentTools :=
  prev.foldl (fun a entry =>
    if uniqueLatest.get entry.1 = some entry.2 then a
    else a.unregisterTool entry.1 entry.2) a

/-- One round of the loop that registers the latest tools and collects those that are held. -/
def registerLatest (cfg : ToolConfigs) (state : AgentTools × InsMap String FunctionTool)
    (entry : String × FunctionTool) : AgentTools × InsMap String FunctionTool :=
  if state.1.toolsByName.get entry.1 = some entry.2 then
    (state.1, state.2.set entry.1 entry.2)
  else
    let a := state.1.registerTool cfg entry.2
    if a.toolsByName.get entry.1 = some entry.2 then (a, state.2.set entry.1 entry.2)
    else (a, state.2)

/-- The loops of a sync over the previous and the latest tools. -/
def reconcile (cfg : ToolConfigs) (server : LocalMCPServerNode)
    (uniqueLatest : InsMap String FunctionTool) (a : AgentTools) :
    AgentTools × InsMap String FunctionTool :=
  let prev := (a.mcpServerTools.get server).getD .empty
  uniqueLatest.entries.foldl (registerLatest cfg)
    (a.dropReplaced uniqueLatest prev.entries, .empty)

def syncMcpToolsFromServer (cfg : ToolConfigs) (server : LocalMCPServerNode)
    (latestTools : List FunctionTool) (a : AgentTools) : AgentTools :=
  let split := splitLatest cfg latestTools
  let next := a.reconcile cfg server split.1
  let a := split.2.foldl (fun a tool => a.registerTool cfg tool) next.1
  { a with mcpServerTools := a.mcpServerTools.set server next.2 }

/-- Track a server that is not tracked yet, before its first sync. -/
def trackServer (server : LocalMCPServerNode) (a : AgentTools) : AgentTools :=
  { a with mcpServerTools := a.mcpServerTools.set server .empty }

def removeMcpServer (server : LocalMCPServerNode) (a : AgentTools) : AgentTools :=
  let tools := (a.mcpServerTools.get server).getD .empty
  let a := tools.entries.foldl (fun a entry => a.unregisterTool entry.1 entry.2) a
  { a with mcpServerTools := a.mcpServerTools.delete server }

end AgentTools

/-- An agent with what is attached to it, the listeners on each server, its tool list, the tool
object that each node hands out now, and the configurations. -/
structure ToolWorld where
  agent : AgentTools
  tools : List BaseToolNode
  servers : List LocalMCPServerNode
  listeners : LocalMCPServerNode → ℕ
  listed : LocalMCPServerNode → List LocalMCPServerTool
  toolInstance : BaseToolNode → ℕ
  cfg : ToolConfigs

inductive RegistryCall where
  | addTool (node : BaseToolNode)
  | removeTool (node : BaseToolNode)
  | addMcpServer (server : LocalMCPServerNode)
  | removeMcpServer (server : LocalMCPServerNode)
  /-- A `ready` or `mcp.tools_updated` event of a server that now lists these tools. -/
  | emitted (server : LocalMCPServerNode) (tools : List LocalMCPServerTool)
  /-- `setMemorySource` of a memory node: the next `getTool()` makes a new object. -/
  | renewed (node : BaseToolNode)
  /-- A new configuration names the tool of the node. -/
  | renamed (node : BaseToolNode) (name : String)
  /-- The namespace or the tool list of a server changes without an event. -/
  | changed (server : LocalMCPServerNode) (ns : String) (tools : List LocalMCPServerTool)

namespace ToolWorld

def start (cfg : ToolConfigs) : ToolWorld where
  agent := .empty
  tools := []
  servers := []
  listeners _ := 0
  listed _ := []
  toolInstance _ := 0
  cfg := cfg

def getTool (w : ToolWorld) (node : BaseToolNode) : FunctionTool :=
  .ofNode node (w.toolInstance node)

def listTools (w : ToolWorld) (server : LocalMCPServerNode) : List FunctionTool :=
  (w.listed server).map (.ofServer server)

def sync (server : LocalMCPServerNode) (w : ToolWorld) : ToolWorld :=
  { w with agent := w.agent.syncMcpToolsFromServer w.cfg server (w.listTools server) }

def addMcpServer (server : LocalMCPServerNode) (w : ToolWorld) : ToolWorld :=
  let w := { w with servers := server :: w.servers }
  if w.agent.mcpServerTools.has server then w
  else
    sync server
      { w with
        agent := w.agent.trackServer server
        listeners := Function.update w.listeners server (w.listeners server + 1) }

def emit (server : LocalMCPServerNode) (tools : List LocalMCPServerTool) (w : ToolWorld) :
    ToolWorld :=
  (sync server)^[w.listeners server] { w with listed := Function.update w.listed server tools }

def perform (w : ToolWorld) : RegistryCall → ToolWorld
  | .addTool node =>
    { w with agent := w.agent.addTool w.cfg (w.getTool node), tools := node :: w.tools }
  | .removeTool node =>
    { w with
      agent := w.agent.removeTool w.cfg (w.getTool node)
      tools := w.tools.filter (· ≠ node) }
  | .addMcpServer server => w.addMcpServer server
  | .removeMcpServer server =>
    { w with agent := w.agent.removeMcpServer server, servers := w.servers.filter (· ≠ server) }
  | .emitted server tools => w.emit server tools
  | .renewed node =>
    { w with toolInstance := Function.update w.toolInstance node (w.toolInstance node + 1) }
  | .renamed node name =>
    { w with cfg := { w.cfg with toolName := Function.update w.cfg.toolName node name } }
  | .changed server ns tools =>
    { w with
      cfg := { w.cfg with
        serverNamespace := Function.update w.cfg.serverNamespace server ns }
      listed := Function.update w.listed server tools }

def step (w : ToolWorld) (call : RegistryCall) : Option ToolWorld := some (w.perform call)

def Offers (w : ToolWorld) : FunctionTool → Prop
  | .ofNode node _ => node ∈ w.tools
  | .ofServer server tool => server ∈ w.servers ∧ tool ∈ w.listed server

instance (w : ToolWorld) : (tool : FunctionTool) → Decidable (w.Offers tool)
  | .ofNode node _ => inferInstanceAs (Decidable (node ∈ w.tools))
  | .ofServer server tool =>
    inferInstanceAs (Decidable (server ∈ w.servers ∧ tool ∈ w.listed server))

def Registered (w : ToolWorld) (name : String) : Prop := name ∈ w.agent.toolNames.keys

instance (w : ToolWorld) (name : String) : Decidable (w.Registered name) :=
  inferInstanceAs (Decidable (name ∈ w.agent.toolNames.keys))

/-- The registered names are the offered ones, and a registered tool is an offered one. -/
structure InAgreement (w : ToolWorld) : Prop where
  names : ∀ name, w.Registered name ↔ ∃ tool, w.Offers tool ∧ w.cfg.name tool = name
  tools : ∀ name tool, w.agent.toolsByName.get name = some tool → w.Offers tool

def OnlyFrom (w : ToolWorld) (source : ToolSource) (name : String) : Prop :=
  ∀ tool, w.Offers tool → w.cfg.name tool = name → tool.source = source

/-- The registered tools of a source whose names satisfy `gone` are the only ones of their
names. -/
def SoleHolder (w : ToolWorld) (source : ToolSource) (gone : String → Prop) : Prop :=
  ∀ name tool, w.agent.toolsByName.get name = some tool → tool.source = source → gone name →
    w.OnlyFrom source name

def HoldsOwn (w : ToolWorld) (node : BaseToolNode) : Prop :=
  ∀ name tool, w.agent.toolsByName.get name = some tool → tool.source = .node node →
    tool = w.getTool node

/-- No server emits an event between its removal and its next attachment, a registered tool
goes away only when no other source offers its name, a node that is removed hands out the
tool that was registered for it, and what is attached keeps its name and, but for the events,
its list. -/
def Undisturbed (w : ToolWorld) : RegistryCall → Prop
  | .addTool _ => True
  | .removeTool node => (w.SoleHolder (.node node) fun _ => True) ∧ w.HoldsOwn node
  | .addMcpServer _ => True
  | .removeMcpServer server => w.SoleHolder (.mcp server) fun _ => True
  | .emitted server tools =>
    (server ∈ w.servers ∨ w.listeners server = 0) ∧
      w.SoleHolder (.mcp server) fun name =>
        name ∉ (tools.map (.ofServer server)).map w.cfg.name
  | .renewed _ => True
  | .renamed node name => node ∈ w.tools → name = w.cfg.toolName node
  | .changed server ns tools => server ∈ w.servers →
    ns = w.cfg.serverNamespace server ∧ tools = w.listed server

end ToolWorld

end Agyn
