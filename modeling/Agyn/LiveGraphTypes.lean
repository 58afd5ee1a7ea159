import Agyn.InsertionMap

/-!
Graph definitions, ports and edge records of the live graph runtime. A property
value of a `Record<string, unknown>` is an opaque `V`; nothing in the runtime
looks inside one. A node instance is named by the number of the call that
constructed it, so two constructions never share a name.
-/
namespace Agyn

/-- `Record<string, unknown>`, in property order. -/
abbrev JsRecord (V : Type) := List (String × V)

structure NodeData (V : Type) where
  template : String
  config : Option (JsRecord V)
  state : Option (JsRecord V)
  deriving DecidableEq, Repr

structure NodeDef (V : Type) where
  id : String
  data : NodeData V
  deriving DecidableEq, Repr

structure EdgeDef where
  source : String
  sourceHandle : String
  target : String
  targetHandle : String
  deriving DecidableEq, Repr

structure GraphDefinition (V : Type) where
  nodes : List (NodeDef V)
  edges : List EdgeDef
  deriving DecidableEq, Repr

def edgeKey (e : EdgeDef) : String :=
  e.source ++ ":" ++ e.sourceHandle ++ "->" ++ e.target ++ ":" ++ e.targetHandle

namespace GraphDefinition

variable {V : Type}

def nodeIds (g : GraphDefinition V) : List String := g.nodes.map NodeDef.id

def edgeKeys (g : GraphDefinition V) : List String := g.edges.map edgeKey

/-- Unique node ids, and edges whose endpoints are nodes of the graph. -/
structure WellFormed (g : GraphDefinition V) : Prop where
  ids_nodup : g.nodeIds.Nodup
  endpoints : ∀ e ∈ g.edges, e.source ∈ g.nodeIds ∧ e.target ∈ g.nodeIds

/-- `nodes.find((n) => n.id === id)`. -/
def findNode (g : GraphDefinition V) (id : String) : Option (NodeDef V) :=
  g.nodes.find? fun n => n.id = id

theorem mem_nodeIds (g : GraphDefinition V) (id : String) :
    id ∈ g.nodeIds ↔ ∃ n ∈ g.nodes, n.id = id := List.mem_map

theorem findNode_some {g : GraphDefinition V} {id : String} {n : NodeDef V}
    (h : g.findNode id = some n) : n ∈ g.nodes ∧ n.id = id := by
  refine ⟨List.mem_of_find?_eq_some h, ?_⟩
  simpa using List.find?_some h

theorem findNode_isSome {g : GraphDefinition V} {id : String} (h : id ∈ g.nodeIds) :
    ∃ n, g.findNode id = some n := by
  obtain ⟨n, hn, hid⟩ := (mem_nodeIds g id).mp h
  apply Option.isSome_iff_exists.mp
  rw [findNode, List.find?_isSome]
  exact ⟨n, hn, by simpa using hid⟩

theorem WellFormed.node_unique {g : GraphDefinition V} (hg : g.WellFormed) {a b : NodeDef V}
    (ha : a ∈ g.nodes) (hb : b ∈ g.nodes) (h : a.id = b.id) : a = b :=
  List.inj_on_of_nodup_map hg.ids_nodup ha hb h

end GraphDefinition

structure GraphError where
  code : String
  message : String
  nodeId : Option String := none
  template : Option String := none
  cause : Option String := none
  deriving DecidableEq, Repr

/-- A node method may throw anything, so what is not a `GraphError` carries the thrown message. -/
inductive Thrown where
  | graph (e : GraphError)
  | portResolution (message : String) (edge : EdgeDef)
  | error (message : String)
  deriving DecidableEq, Repr

namespace Thrown

def message : Thrown → String
  | graph e => e.message
  | portResolution m _ => m
  | error m => m

end Thrown

namespace Errors

def unknownTemplate (template nodeId : String) : GraphError where
  code := "UNKNOWN_TEMPLATE"
  message := "Unknown template \"" ++ template ++ "\" for node " ++ nodeId
  nodeId := some nodeId
  template := some template

def nodeInitFailure (nodeId : String) (cause : Thrown) : GraphError where
  code := "NODE_INIT_ERROR"
  message := "Initialization failed for node " ++ nodeId
  nodeId := some nodeId
  cause := some cause.message

def configApplyFailed (nodeId method : String) (cause : String) : GraphError where
  code := "CONFIG_APPLY_ERROR"
  message := "Config apply failed (" ++ method ++ ") for node " ++ nodeId
  nodeId := some nodeId
  cause := some cause

def referenceResolution (nodeId path reason : String) : GraphError where
  code := "REFERENCE_RESOLUTION_ERROR"
  message := "Reference resolution failed for node " ++ nodeId ++ " at " ++ path ++ ": " ++ reason
  nodeId := some nodeId
  cause := some reason

end Errors

inductive PortConfig where
  | method (create : String) (destroy : Option String)
  | inst
  deriving DecidableEq, Repr

structure TemplatePortConfig where
  sourcePorts : List (String × PortConfig)
  targetPorts : List (String × PortConfig)
  deriving DecidableEq, Repr

inductive Side where
  | source
  | target
  deriving DecidableEq, Repr

structure ResolvedPort where
  role : Side
  handle : String
  config : PortConfig
  deriving DecidableEq, Repr

structure ResolvedEdgePorts where
  source : ResolvedPort
  target : ResolvedPort
  callableSide : Side
  methodPort : ResolvedPort
  instancePort : ResolvedPort
  deriving DecidableEq, Repr

abbrev PortsRegistry := InsMap String TemplatePortConfig

namespace PortsRegistry

def registerTemplatePorts (r : PortsRegistry) (template : String) (cfg : TemplatePortConfig) :
    PortsRegistry := r.set template cfg

/-- The first port whose create or destroy method the instance lacks. -/
def checkPorts (template : String) (isFunction : String → Bool) :
    List (String × PortConfig) → Except Thrown Unit
  | [] => .ok ()
  | (_, .inst) :: rest => checkPorts template isFunction rest
  | (handle, .method create destroy) :: rest =>
    if !isFunction create then
      .error (.error ("Template " ++ template ++ " port " ++ handle ++ " expected method '" ++
        create ++ "' on instance"))
    else
      match destroy with
      | some d =>
        -- an empty destroy name counts as absent
        if d ≠ "" ∧ !isFunction d then
          .error (.error ("Template " ++ template ++ " port " ++ handle ++
            " expected destroy method '" ++ d ++ "' on instance"))
        else checkPorts template isFunction rest
      | none => checkPorts template isFunction rest

def validateTemplateInstance (r : PortsRegistry) (template : String)
    (isFunction : String → Bool) : Except Thrown Unit :=
  match r.get template with
  | none => .ok ()
  | some cfg =>
    match checkPorts template isFunction cfg.sourcePorts with
    | .error e => .error e
    | .ok _ => checkPorts template isFunction cfg.targetPorts

/-- Exactly one of the two ports of an edge must be a method port. -/
def resolveEdge (r : PortsRegistry) (edge : EdgeDef) (sourceTemplate targetTemplate : String) :
    Except Thrown ResolvedEdgePorts :=
  match r.get sourceTemplate with
  | none => .error (.portResolution
      ("No ports registered for source template '" ++ sourceTemplate ++ "'") edge)
  | some sourceCfg =>
  match r.get targetTemplate with
  | none => .error (.portResolution
      ("No ports registered for target template '" ++ targetTemplate ++ "'") edge)
  | some targetCfg =>
  match sourceCfg.sourcePorts.lookup edge.sourceHandle with
  | none => .error (.portResolution
      ("Unknown source handle '" ++ edge.sourceHandle ++ "' for template '" ++
        sourceTemplate ++ "'") edge)
  | some sourcePort =>
  match targetCfg.targetPorts.lookup edge.targetHandle with
  | none => .error (.portResolution
      ("Unknown target handle '" ++ edge.targetHandle ++ "' for template '" ++
        targetTemplate ++ "'") edge)
  | some targetPort =>
    let source : ResolvedPort := ⟨.source, edge.sourceHandle, sourcePort⟩
    let target : ResolvedPort := ⟨.target, edge.targetHandle, targetPort⟩
    match sourcePort, targetPort with
    | .method _ _, .method _ _ => .error (.portResolution
        "Both ports are method kind; exactly one must be method" edge)
    | .inst, .inst => .error (.portResolution
        "Neither port is method kind; exactly one must be method" edge)
    | .method _ _, .inst => .ok ⟨source, target, .source, source, target⟩
    | .inst, .method _ _ => .ok ⟨source, target, .target, target, source⟩

/-- A resolved edge calls a method port. -/
theorem resolveEdge_methodPort {r : PortsRegistry} {edge : EdgeDef} {a b : String}
    {p : ResolvedEdgePorts} (h : r.resolveEdge edge a b = .ok p) :
    ∃ create destroy, p.methodPort.config = .method create destroy := by
  unfold resolveEdge at h
  split at h
  · cases h
  split at h
  · cases h
  split at h
  · cases h
  split at h
  · cases h
  dsimp only at h
  split at h
  · cases h
  · cases h
  · cases h
    exact ⟨_, _, rfl⟩
  · cases h
    exact ⟨_, _, rfl⟩

end PortsRegistry

/-- A node object, named by the call that constructed it. -/
abbrev Instance := ℕ

structure LiveNode (V : Type) where
  id : String
  template : String
  inst : Instance
  config : Option (JsRecord V)
  deriving DecidableEq, Repr

/-- What the reversal closure of an edge record has captured. -/
structure Reversal where
  callableSide : Side
  methodInstance : Instance
  argValue : Instance
  create : String
  destroy : Option String
  deriving DecidableEq, Repr

structure ExecutedEdgeRecord where
  key : String
  source : String
  target : String
  sourceHandle : String
  targetHandle : String
  reversible : Bool
  argumentSnapshot : Instance
  reversal : Reversal
  deriving DecidableEq, Repr

namespace ExecutedEdgeRecord

def sourceInstance (rec : ExecutedEdgeRecord) : Instance :=
  match rec.reversal.callableSide with
  | .source => rec.reversal.methodInstance
  | .target => rec.reversal.argValue

def targetInstance (rec : ExecutedEdgeRecord) : Instance :=
  match rec.reversal.callableSide with
  | .source => rec.reversal.argValue
  | .target => rec.reversal.methodInstance

def Incident (rec : ExecutedEdgeRecord) (id : String) : Prop := rec.source = id ∨ rec.target = id

instance (rec : ExecutedEdgeRecord) (id : String) : Decidable (rec.Incident id) :=
  inferInstanceAs (Decidable (_ ∨ _))

end ExecutedEdgeRecord

structure GraphRuntimeState (V : Type) where
  nodes : InsMap String (LiveNode V)
  executedEdges : InsMap String ExecutedEdgeRecord
  inboundEdges : InsMap String (InsSet String)
  outboundEdges : InsMap String (InsSet String)
  version : ℕ
  lastGraph : Option (GraphDefinition V)
  deriving DecidableEq

structure GraphDiffResult where
  addedNodes : List String
  removedNodes : List String
  recreatedNodes : List String
  updatedConfigNodes : List String
  addedEdges : List String
  removedEdges : List String
  errors : List Thrown
  version : ℕ
  deriving DecidableEq, Repr

structure InternalDiffComputation (V : Type) where
  addedNodes : List (NodeDef V)
  removedNodeIds : List String
  recreatedNodeIds : List String
  configUpdateNodeIds : List String
  addedEdges : List EdgeDef
  removedEdges : List EdgeDef
  deriving DecidableEq, Repr

end Agyn
