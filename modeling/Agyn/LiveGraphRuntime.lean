import Agyn.LiveGraphTypes

/-!
The live graph runtime: applying a graph definition as a diff against the last
applied one. Every awaited call out of the runtime (a node constructor, a node
method, reference resolution) takes one tick, and the environment decides its
outcome from the tick, so any pattern of failures is a choice of environment.
The journal keeps every state the runtime assigned and every reversal it ran;
no function of the runtime reads it. Logging, status forwarding and
`Node.init`, whose errors are only logged, touch none of this state.
-/
namespace Agyn

structure ZodIssue where
  code : String
  path : Option (List String)
  keys : Option (List String)
  deriving DecidableEq, Repr

/-- What a config setter can throw. -/
inductive SetConfigFailure where
  | zod (issues : List ZodIssue) (message : String)
  | other (message : String)
  deriving DecidableEq, Repr

inductive ResolveFailure where
  | resolveError (path : Option String) (message : String)
  | other (e : Thrown)
  deriving DecidableEq, Repr

/-- Everything the runtime calls: the template registry, the reference resolver
and the node instances. The `ℕ` is the tick at which the call is made. -/
structure RuntimeEnv (V : Type) where
  stringify : JsRecord V → String
  getClass : String → Option String
  create : ℕ → String → Except Thrown Unit
  getPortConfig : ℕ → Instance → Except Thrown (Option TemplatePortConfig)
  isFunction : ℕ → Instance → String → Bool
  resolveReferences : ℕ → String → JsRecord V → Except ResolveFailure (JsRecord V)
  setConfig : ℕ → Instance → JsRecord V → Except SetConfigFailure Unit
  setState : ℕ → Instance → JsRecord V → Except Thrown Unit
  invoke : ℕ → Instance → String → Option Instance → Except Thrown Unit
  provision : ℕ → Instance → Except Thrown Unit

/-- The two callers of an edge reversal. -/
inductive ReversalSite where
  | edgeRemoval
  | disposal
  deriving DecidableEq, Repr

inductive RuntimeEvent (V : Type) where
  | assigned (s : GraphRuntimeState V)
  | reversed (site : ReversalSite) (key : String) (threw : Bool)
  | registered (previous : Option ExecutedEdgeRecord) (rec : ExecutedEdgeRecord)
  deriving DecidableEq

/-- The runtime's fields, with the tick and the journal (newest event first). -/
structure World (V : Type) where
  state : GraphRuntimeState V
  ports : PortsRegistry
  tick : ℕ
  journal : List (RuntimeEvent V)
  deriving DecidableEq

variable {V : Type}

namespace GraphRuntimeState

def initial : GraphRuntimeState V := ⟨.empty, .empty, .empty, .empty, 0, none⟩

/-- `map.get(id) || []` for the inbound and outbound edge sets. -/
def keysAt (m : InsMap String (InsSet String)) (id : String) : InsSet String :=
  (m.get id).getD .empty

/-- Create the set of `id` when it is missing, then add the key. -/
def addKey (m : InsMap String (InsSet String)) (id k : String) : InsMap String (InsSet String) :=
  m.set id ((keysAt m id).add k)

/-- `map.get(id)?.delete(k)`. -/
def dropKey (m : InsMap String (InsSet String)) (id k : String) : InsMap String (InsSet String) :=
  match m.get id with
  | none => m
  | some ks => m.set id (ks.delete k)

def registerEdgeRecord (s : GraphRuntimeState V) (rec : ExecutedEdgeRecord) :
    GraphRuntimeState V :=
  { s with
    executedEdges := s.executedEdges.set rec.key rec
    outboundEdges := addKey s.outboundEdges rec.source rec.key
    inboundEdges := addKey s.inboundEdges rec.target rec.key }

def unregisterEdgeRecord (s : GraphRuntimeState V) (rec : ExecutedEdgeRecord) :
    GraphRuntimeState V :=
  { s with
    executedEdges := s.executedEdges.delete rec.key
    outboundEdges := dropKey s.outboundEdges rec.source rec.key
    inboundEdges := dropKey s.inboundEdges rec.target rec.key }

def unregisterKey (s : GraphRuntimeState V) (k : String) : GraphRuntimeState V :=
  match s.executedEdges.get k with
  | none => s
  | some rec => s.unregisterEdgeRecord rec

def edgeKeysOf (s : GraphRuntimeState V) (id : String) : List String :=
  (InsSet.ofList ((keysAt s.inboundEdges id).keys ++ (keysAt s.outboundEdges id).keys)).keys

def deleteNode (s : GraphRuntimeState V) (id : String) : GraphRuntimeState V :=
  { s with
    nodes := s.nodes.delete id
    inboundEdges := s.inboundEdges.delete id
    outboundEdges := s.outboundEdges.delete id }

def updateNodeState (s : GraphRuntimeState V) (id : String) (state : JsRecord V) :
    GraphRuntimeState V :=
  match s.lastGraph with
  | none => s
  | some g => { s with lastGraph := some { g with
      nodes := g.nodes.modify (g.nodes.findIdx fun n => n.id = id) fun n =>
        { n with data := { n.data with state := some state } } } }

def getNodeStateSnapshot (s : GraphRuntimeState V) (id : String) : Option (JsRecord V) :=
  (s.lastGraph.bind fun g => g.findNode id).bind fun n => n.data.state

end GraphRuntimeState

namespace World

def initial : World V := ⟨.initial, .empty, 0, []⟩

def call (w : World V) : World V := { w with tick := w.tick + 1 }

def assign (w : World V) (s : GraphRuntimeState V) : World V :=
  { w with state := s, journal := .assigned s :: w.journal }

def note (w : World V) (e : RuntimeEvent V) : World V := { w with journal := e :: w.journal }

end World

namespace LiveGraph

open GraphRuntimeState

variable (env : RuntimeEnv V)

section Diff

def configsEqual (a b : JsRecord V) : Bool := env.stringify a = env.stringify b

def computeDiff (prev next : GraphDefinition V) : InternalDiffComputation V :=
  let prevNodes := InsMap.ofEntries (prev.nodes.map fun n => (n.id, n))
  let nextNodes := InsMap.ofEntries (next.nodes.map fun n => (n.id, n))
  let prevEdgeMap := InsMap.ofEntries (prev.edges.map fun e => (edgeKey e, e))
  let nextEdgeMap := InsMap.ofEntries (next.edges.map fun e => (edgeKey e, e))
  { addedNodes := next.nodes.filter fun n => !prevNodes.has n.id
    removedNodeIds := (prev.nodes.filter fun old => !nextNodes.has old.id).map NodeDef.id
    recreatedNodeIds := (next.nodes.filter fun n =>
      match prevNodes.get n.id with
      | none => false
      | some prevNode => prevNode.data.template ≠ n.data.template).map NodeDef.id
    configUpdateNodeIds := (next.nodes.filter fun n =>
      match prevNodes.get n.id with
      | none => false
      | some prevNode =>
        prevNode.data.template = n.data.template ∧
          !configsEqual env (prevNode.data.config.getD []) (n.data.config.getD [])).map NodeDef.id
    addedEdges := (nextEdgeMap.entries.filter fun e => !prevEdgeMap.has e.1).map Prod.snd
    removedEdges := (prevEdgeMap.entries.filter fun e => !nextEdgeMap.has e.1).map Prod.snd }

end Diff

section Config

/-- Top-level unrecognized keys of a `ZodError`. -/
def extractUnknownRootKeys (issues : List ZodIssue) : InsSet String :=
  InsSet.ofList (issues.flatMap fun i =>
    if i.code = "unrecognized_keys" ∧ (i.path.map List.isEmpty).getD true then i.keys.getD []
    else [])

def pruneKeys (obj : JsRecord V) (keys : InsSet String) : JsRecord V :=
  obj.filter fun p => !keys.has p.1

/-- The retry loop of the config setter; the first argument is `MAX_RETRIES - attempt`. -/
def configAttempts (inst : Instance) (nodeId : String) :
    ℕ → JsRecord V → World V → Except Thrown (JsRecord V) × World V
  | retries, current, w =>
    match env.setConfig w.tick inst current with
    | .ok _ => (.ok current, w.call)
    | .error (.other m) =>
      (.error (.graph (Errors.configApplyFailed nodeId "setConfig" m)), w.call)
    | .error (.zod issues m) =>
      let keys := extractUnknownRootKeys issues
      if keys.keys = [] then
        (.error (.graph (Errors.configApplyFailed nodeId "setConfig" m)), w.call)
      else
        match retries with
        | 0 => (.error (.graph (Errors.configApplyFailed nodeId "setConfig" m)), w.call)
        | retries + 1 => configAttempts inst nodeId retries (pruneKeys current keys) w.call

def applyConfigWithUnknownKeyStripping (inst : Instance) (cfg : JsRecord V) (nodeId : String)
    (w : World V) : Except Thrown (JsRecord V) × World V :=
  if env.isFunction w.tick inst "setConfig" then configAttempts env inst nodeId 3 cfg w
  else (.ok cfg, w)

def resolveNodeConfig (nodeId : String) (config : JsRecord V) (w : World V) :
    Except Thrown (JsRecord V) × World V :=
  match env.resolveReferences w.tick nodeId config with
  | .ok output => (.ok output, w.call)
  | .error (.resolveError path m) =>
    (.error (.graph (Errors.referenceResolution nodeId (path.getD "<unknown>") m)), w.call)
  | .error (.other e) => (.error e, w.call)

def configure (inst : Instance) (cfg : JsRecord V) (nodeId : String) (w : World V) :
    Except Thrown (JsRecord V) × World V :=
  match resolveNodeConfig env nodeId cfg w with
  | (.error e, w) => (.error e, w)
  | (.ok resolved, w) => applyConfigWithUnknownKeyStripping env inst resolved nodeId w

end Config

section Nodes

/-- An error that is not yet a `GraphError` is wrapped with the node id. -/
def enrich (nodeId : String) : Thrown → Thrown
  | .graph e => .graph e
  | e => .graph (Errors.nodeInitFailure nodeId e)

def registerPorts (template : String) (created : Instance) (w : World V) :
    Except Thrown Unit × World V :=
  match env.getPortConfig w.tick created with
  | .error e => (.error e, w.call)
  | .ok none => (.ok (), w.call)
  | .ok (some cfg) =>
    let w := { w.call with ports := w.ports.registerTemplatePorts template cfg }
    (w.ports.validateTemplateInstance template (env.isFunction w.tick created), w)

def constructNode (node : NodeDef V) (w : World V) : Except Thrown Instance × World V :=
  match env.getClass node.data.template with
  | none => (.error (.graph (Errors.unknownTemplate node.data.template node.id)), w)
  | some nodeClass =>
    match env.create w.tick nodeClass with
    | .error e => (.error e, w.call)
    | .ok _ =>
      match registerPorts env node.data.template w.tick w.call with
      | (.error e, w') => (.error e, w')
      | (.ok _, w') => (.ok w.tick, w')

def initialiseNode (node : NodeDef V) (live : LiveNode V) (w : World V) :
    Except Thrown Unit × World V :=
  let configured : Except Thrown Unit × World V :=
    match node.data.config with
    | none => (.ok (), w)
    | some cfg =>
      match configure env live.inst cfg node.id w with
      | (.error e, w) => (.error e, w)
      | (.ok cleaned, w) =>
        (.ok (), w.assign { w.state with
          nodes := w.state.nodes.set node.id { live with config := some cleaned } })
  match configured with
  | (.error e, w) => (.error e, w)
  | (.ok _, w) => (env.setState w.tick live.inst (node.data.state.getD []), w.call)

def instantiateNode (node : NodeDef V) (w : World V) : Except Thrown Unit × World V :=
  match constructNode env node w with
  | (.error e, w) => (.error (enrich node.id e), w)
  | (.ok created, w) =>
    let live : LiveNode V := ⟨node.id, node.data.template, created, node.data.config⟩
    let w := w.assign { w.state with nodes := w.state.nodes.set node.id live }
    match initialiseNode env node live w with
    | (.error e, w) => (.error (enrich node.id e), w)
    | (.ok _, w) => (.ok (), w)

end Nodes

section Edges

/-- `getMethod`: an absent or empty name is no method. -/
def getMethod (inst : Instance) (name : Option String) (w : World V) : Option String :=
  name.filter fun n => n ≠ "" ∧ env.isFunction w.tick inst n

def runReversal (r : Reversal) (w : World V) : Except Thrown Unit × World V :=
  match getMethod env r.methodInstance r.destroy w with
  | some destroyFn => (env.invoke w.tick r.methodInstance destroyFn (some r.argValue), w.call)
  | none =>
    match getMethod env r.methodInstance (some r.create) w with
    | some c => (env.invoke w.tick r.methodInstance c none, w.call)
    | none => (.ok (), w)

/-- A reversal that throws leaves the record registered. -/
def tryReverseAndUnregister (site : ReversalSite) (rec : ExecutedEdgeRecord) (w : World V) :
    Except Thrown Unit × World V :=
  let reversed : Except Thrown Unit × World V :=
    if rec.reversible then runReversal env rec.reversal w else (.ok (), w)
  match reversed with
  | (.error e, w) => (.error e, w.note (.reversed site rec.key true))
  | (.ok _, w) =>
    (.ok (), (w.note (.reversed site rec.key false)).assign (w.state.unregisterEdgeRecord rec))

/-- Reverse one recorded key; both callers log and swallow what it throws. -/
def reverseKey (site : ReversalSite) (w : World V) (k : String) : World V :=
  match w.state.executedEdges.get k with
  | none => w
  | some rec => (tryReverseAndUnregister env site rec w).2

/-- Reverse the edges of a node, deprovision it (errors ignored) and forget it. -/
def disposeNode (nodeId : String) (w : World V) : World V :=
  match w.state.nodes.get nodeId with
  | none => w
  | some _ =>
    let w := (w.state.edgeKeysOf nodeId).foldl (reverseKey env .disposal) w
    let w := w.call
    w.assign (w.state.deleteNode nodeId)

def registerEdge (rec : ExecutedEdgeRecord) (w : World V) : World V :=
  (w.note (.registered (w.state.executedEdges.get rec.key) rec)).assign
    (w.state.registerEdgeRecord rec)

def executeEdge (edge : EdgeDef) (w : World V) : Except Thrown Unit × World V :=
  match w.state.nodes.get edge.source, w.state.nodes.get edge.target with
  | some sourceLive, some targetLive =>
    match w.ports.resolveEdge edge sourceLive.template targetLive.template with
    | .error e => (.error e, w)
    | .ok resolved =>
      let methodSide := if resolved.callableSide = .source then sourceLive else targetLive
      let instanceSide := if resolved.callableSide = .source then targetLive else sourceLive
      match resolved.methodPort.config with
      | .inst => (.ok (), w)
      | .method create destroy =>
        let argValue := instanceSide.inst
        let created : Except Thrown Unit × World V :=
          match getMethod env methodSide.inst (some create) w with
          | some createFn => (env.invoke w.tick methodSide.inst createFn (some argValue), w.call)
          | none => (.ok (), w)
        match created with
        | (.error e, w) => (.error e, w)
        | (.ok _, w) =>
          (.ok (), registerEdge
            { key := edgeKey edge
              source := edge.source
              target := edge.target
              sourceHandle := edge.sourceHandle
              targetHandle := edge.targetHandle
              reversible := true
              argumentSnapshot := argValue
              reversal := ⟨resolved.callableSide, methodSide.inst, argValue, create, destroy⟩ } w)
  | _, _ => (.ok (), w)

end Edges

section Apply

/-- Run a step for each element; the first error ends the loop. -/
def forEach {α : Type} (step : α → World V → Except Thrown Unit × World V) :
    List α → World V → Except Thrown Unit × World V
  | [], w => (.ok (), w)
  | a :: rest, w =>
    match step a w with
    | (.error e, w) => (.error e, w)
    | (.ok _, w) => forEach step rest w

def recreateNode (next : GraphDefinition V) (nodeId : String) (w : World V) :
    Except Thrown Unit × World V :=
  let w := disposeNode env nodeId w
  match next.findNode nodeId with
  | none => (.ok (), w)
  | some nodeDef => instantiateNode env nodeDef w

/-- A config update that fails is logged and skipped. -/
def updateConfig (next : GraphDefinition V) (w : World V) (nodeId : String) : World V :=
  match next.findNode nodeId, w.state.nodes.get nodeId with
  | some nodeDef, some live =>
    match configure env live.inst (nodeDef.data.config.getD []) nodeId w with
    | (.error _, w) => w
    | (.ok cleaned, w) => w.assign { w.state with
        nodes := w.state.nodes.set nodeId { live with config := some cleaned } }
  | _, _ => w

def provisionNodes : List (LiveNode V) → World V → Except Thrown Unit × World V
  | [], w => (.ok (), w)
  | live :: rest, w =>
    match env.provision w.tick live.inst, provisionNodes rest w.call with
    | .error e, (_, w) => (.error e, w)
    | .ok _, result => result

def applyGraphInternal (next : GraphDefinition V) (w : World V) :
    Except Thrown GraphDiffResult × World V :=
  let prev := w.state.lastGraph.getD ⟨[], []⟩
  let diff := computeDiff env prev next
  -- 1. add and recreate nodes
  match forEach (instantiateNode env) diff.addedNodes w with
  | (.error e, w) => (.error e, w)
  | (.ok _, w) =>
  match forEach (recreateNode env next) diff.recreatedNodeIds w with
  | (.error e, w) => (.error e, w)
  | (.ok _, w) =>
  -- 2. config updates
  let w := diff.configUpdateNodeIds.foldl (updateConfig env next) w
  -- 3. remove edges
  let w := (diff.removedEdges.map edgeKey).foldl (reverseKey env .edgeRemoval) w
  -- 4. remove nodes; a disposal never rejects
  let w := diff.removedNodeIds.foldl (fun w id => disposeNode env id w) w
  let w := w.assign { w.state with lastGraph := some next }
  -- 5. add edges
  match forEach (executeEdge env) diff.addedEdges w with
  | (.error e, w) => (.error e, w)
  | (.ok _, w) =>
  -- 6. provision nodes
  match provisionNodes env w.state.nodes.values w with
  | (.error e, w) => (.error e, w)
  | (.ok _, w) =>
  -- 7. update state metadata
  let w := w.assign { w.state with version := w.state.version + 1 }
  (.ok
    { addedNodes := diff.addedNodes.map NodeDef.id
      removedNodes := diff.removedNodeIds
      recreatedNodes := diff.recreatedNodeIds
      updatedConfigNodes := diff.configUpdateNodeIds
      addedEdges := diff.addedEdges.map edgeKey
      removedEdges := diff.removedEdges.map edgeKey
      errors := []
      version := w.state.version }, w)

/-- Unregister the edges of one node and forget it, without reversing them. -/
def shutdownNode (w : World V) (id : String) : World V :=
  match w.state.nodes.get id with
  | none => w
  | some _ =>
    w.assign (((w.state.edgeKeysOf id).foldl unregisterKey w.state).deleteNode id)

/-- `resolved` lists the nodes whose deprovision resolved, in that order. When one
rejects, the promise rejects before the final clear. -/
def shutdown (resolved : List String) (w : World V) : World V :=
  let after := resolved.foldl shutdownNode w
  if ∀ id ∈ w.state.nodes.keys, id ∈ resolved then
    after.assign { after.state with executedEdges := .empty }
  else after

end Apply

end LiveGraph

end Agyn
