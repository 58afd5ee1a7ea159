import Agyn.InsertionMap
import Agyn.PercentEncoding

/-!
The persisted graph: its entities, the validation of an upsert request and the
graph an upsert plans to write. JSON values are an opaque `J`. A string is a
sequence of Unicode scalar values; a request whose ids hold lone surrogates
cannot be encoded into file names and is never committed.
-/
namespace Agyn

structure PersistedGraphNode (J : Type) where
  id : String
  template : String
  config : Option J
  state : Option J
  position : Option J
  deriving DecidableEq, Repr

structure PersistedGraphEdge where
  id : Option String
  source : String
  sourceHandle : String
  target : String
  targetHandle : String
  deriving DecidableEq, Repr

structure GraphVariable where
  key : String
  value : String
  deriving DecidableEq, Repr

structure PersistedGraph (J : Type) where
  name : String
  version : ℕ
  updatedAt : String
  nodes : List (PersistedGraphNode J)
  edges : List PersistedGraphEdge
  vars : Option (List GraphVariable)
  deriving DecidableEq, Repr

structure PersistedGraphUpsertRequest (J : Type) where
  name : String
  version : Option ℕ
  nodes : List (PersistedGraphNode J)
  edges : List PersistedGraphEdge
  vars : Option (List GraphVariable)
  deriving DecidableEq, Repr

structure TemplateNodeSchema where
  name : String
  sourcePorts : List String
  targetPorts : List String
  deriving DecidableEq, Repr

inductive UpsertError (J : Type) where
  | invalid (message : String)
  | lockTimeout
  | readError (message : String)
  | versionConflict (current : PersistedGraph J)
  | edgeIdMismatch (message : String)
  | persistFailed (message : String)
  deriving DecidableEq, Repr

/-- The two directories of entities, and what is stored in each. -/
inductive EntityDir where
  | nodes
  | edges
  deriving DecidableEq, Repr

abbrev Entity (J : Type) : EntityDir → Type
  | .nodes => PersistedGraphNode J
  | .edges => PersistedGraphEdge

variable {J : Type}

namespace Entity

def id : {dir : EntityDir} → Entity J dir → String
  | .nodes, node => PersistedGraphNode.id node
  | .edges, edge => (PersistedGraphEdge.id edge).getD ""

def setId : {dir : EntityDir} → Entity J dir → String → Entity J dir
  | .nodes, node, id => ({ (node : PersistedGraphNode J) with id } : PersistedGraphNode J)
  | .edges, edge, id =>
    ({ (edge : PersistedGraphEdge) with id := some id } : PersistedGraphEdge)

/-- `nodePath` and `edgePath`, within the directory. -/
def fileName {dir : EntityDir} (e : Entity J dir) : String :=
  encodeURIComponent e.id ++ ".yaml"

theorem fileName_injective {dir : EntityDir} {a b : Entity J dir} (h : a.fileName = b.fileName) :
    a.id = b.id := by
  apply encodeURIComponent_injective
  have hlist := congrArg String.toList h
  rw [fileName, fileName, String.toList_append, String.toList_append] at hlist
  exact String.toList_inj.mp (List.append_cancel_right hlist)

end Entity

namespace PersistedGraph

def entities (g : PersistedGraph J) : (dir : EntityDir) → List (Entity J dir)
  | .nodes => g.nodes
  | .edges => g.edges

def HasIds (g : PersistedGraph J) : Prop := ∀ dir, ∀ e ∈ g.entities dir, Entity.id e ≠ ""

end PersistedGraph

section Validation

/-- The white space and line terminators that `trim` removes. -/
def isTrimmed (c : Char) : Bool :=
  c.toNat ∈ [9, 10, 11, 12, 13, 32, 160, 5760, 8232, 8233, 8239, 8287, 12288, 65279] ∨
    (8192 ≤ c.toNat ∧ c.toNat ≤ 8202)

def trim (s : String) : String :=
  String.ofList ((s.toList.dropWhile isTrimmed).reverse.dropWhile isTrimmed).reverse

/-- The first loop of `validatePersistedGraph`, with the ids seen so far. -/
def validateNodes (schema : List TemplateNodeSchema) :
    List String → List (PersistedGraphNode J) → Except String Unit
  | _, [] => .ok ()
  | nodeIds, n :: rest =>
    if n.id = "" then .error "Node missing id"
    else if n.id ∈ nodeIds then .error ("Duplicate node id " ++ n.id)
    else if n.template ∉ schema.map TemplateNodeSchema.name then
      .error ("Unknown template " ++ n.template)
    else validateNodes schema (n.id :: nodeIds) rest

/-- `new Map(schema.map((s) => [s.name, s]))`. -/
def schemaMap (schema : List TemplateNodeSchema) : InsMap String TemplateNodeSchema :=
  .ofEntries (schema.map fun s => (s.name, s))

def schemaOf (schema : List TemplateNodeSchema) (nodes : List (PersistedGraphNode J))
    (id : String) : Option (PersistedGraphNode J × TemplateNodeSchema) :=
  (nodes.find? fun n => n.id = id).bind fun n => ((schemaMap schema).get n.template).map (n, ·)

def validateEdges (schema : List TemplateNodeSchema) (nodes : List (PersistedGraphNode J)) :
    List PersistedGraphEdge → Except String Unit
  | [] => .ok ()
  | e :: rest =>
    if e.source ∉ nodes.map PersistedGraphNode.id then
      .error ("Edge source missing node " ++ e.source)
    else if e.target ∉ nodes.map PersistedGraphNode.id then
      .error ("Edge target missing node " ++ e.target)
    else
      match schemaOf schema nodes e.source, schemaOf schema nodes e.target with
      | some (sourceNode, sourceSchema), some (targetNode, targetSchema) =>
        if e.sourceHandle ∉ sourceSchema.sourcePorts then
          .error ("Invalid source handle " ++ e.sourceHandle ++ " on template " ++
            sourceNode.template)
        else if e.targetHandle ∉ targetSchema.targetPorts then
          .error ("Invalid target handle " ++ e.targetHandle ++ " on template " ++
            targetNode.template)
        else validateEdges schema nodes rest
      -- both nodes are there and their templates are known by now
      | _, _ => .error "Cannot read properties of undefined"

def validateVariables : List String → List GraphVariable → Except String Unit
  | _, [] => .ok ()
  | seen, v :: rest =>
    let key := trim v.key
    let val := trim v.value
    if key = "" then .error "Variable missing key"
    else if val = "" then .error ("Variable " ++ key ++ " missing value")
    else if key ∈ seen then .error ("Duplicate variable key " ++ key)
    else validateVariables (key :: seen) rest

def validatePersistedGraph (req : PersistedGraphUpsertRequest J)
    (schema : List TemplateNodeSchema) : Except String Unit :=
  match validateNodes schema [] req.nodes with
  | .error e => .error e
  | .ok _ =>
    match validateEdges schema req.nodes req.edges with
    | .error e => .error e
    | .ok _ =>
      match req.vars with
      | none => .ok ()
      | some vs => validateVariables [] vs

/-- What validation asks of the nodes, given the ids seen so far. -/
theorem validateNodes_iff (schema : List TemplateNodeSchema) (nodeIds : List String)
    (nodes : List (PersistedGraphNode J)) :
    validateNodes schema nodeIds nodes = .ok () ↔ (nodes.map PersistedGraphNode.id).Nodup ∧
      ∀ n ∈ nodes, n.id ∉ nodeIds ∧ n.id ≠ "" ∧
        n.template ∈ schema.map TemplateNodeSchema.name := by
  induction nodes generalizing nodeIds with
  | nil => simp [validateNodes]
  | cons n rest ih =>
    rw [validateNodes, List.forall_mem_cons, List.map_cons, List.nodup_cons]
    by_cases hid : n.id = ""
    · simp [hid]
    · by_cases hseen : n.id ∈ nodeIds
      · simp [hid, hseen]
      · by_cases htemplate : n.template ∈ schema.map TemplateNodeSchema.name
        · rw [if_neg hid, if_neg hseen, if_neg (not_not.mpr htemplate), ih]
          have hfresh : n.id ∉ rest.map PersistedGraphNode.id ↔ ∀ m ∈ rest, m.id ≠ n.id := by
            simp
          constructor
          · intro h
            refine ⟨⟨hfresh.mpr fun m hm heq => ?_, h.1⟩, ⟨hseen, hid, htemplate⟩, ?_⟩
            · exact (h.2 m hm).1 (heq ▸ List.mem_cons_self)
            · intro m hm
              exact ⟨fun hmem => (h.2 m hm).1 (List.mem_cons_of_mem _ hmem), (h.2 m hm).2⟩
          · intro h
            refine ⟨h.1.2, fun m hm => ⟨fun hmem => ?_, (h.2.2 m hm).2⟩⟩
            rcases List.mem_cons.mp hmem with heq | hmem
            · exact hfresh.mp h.1.1 m hm heq
            · exact (h.2.2 m hm).1 hmem
        · simp [hid, hseen, htemplate]

/-- An accepted request has distinct, non-empty node ids. -/
theorem validatePersistedGraph_ids {req : PersistedGraphUpsertRequest J}
    {schema : List TemplateNodeSchema} (h : validatePersistedGraph req schema = .ok ()) :
    (req.nodes.map PersistedGraphNode.id).Nodup ∧ ∀ n ∈ req.nodes, n.id ≠ "" := by
  unfold validatePersistedGraph at h
  split at h
  · cases h
  rename_i hnodes
  obtain ⟨hnodup, hne⟩ := (validateNodes_iff schema [] req.nodes).mp hnodes
  exact ⟨hnodup, fun n hn => (hne n hn).2.1⟩

end Validation

section Plan

/-- `${source}-${sourceHandle}__${target}-${targetHandle}`. -/
def edgeId (e : PersistedGraphEdge) : String :=
  e.source ++ "-" ++ e.sourceHandle ++ "__" ++ e.target ++ "-" ++ e.targetHandle

def normalizeNode (existing : Option (PersistedGraph J)) (node : PersistedGraphNode J) :
    PersistedGraphNode J :=
  match node.state, existing with
  | none, some g =>
    match g.nodes.find? fun n => n.id = node.id with
    | some prev => { node with state := prev.state }
    | none => node
  | _, _ => node

/-- An id that the request supplies must be the derived one. -/
def normalizeEdges : List PersistedGraphEdge → Except (UpsertError J) (List PersistedGraphEdge)
  | [] => .ok []
  | edge :: rest =>
    if edge.id.getD "" ≠ "" ∧ edge.id ≠ some (edgeId edge) then
      .error (.edgeIdMismatch ("Edge id mismatch: expected " ++ edgeId edge ++ " got " ++
        edge.id.getD ""))
    else
      match normalizeEdges rest with
      | .error e => .error e
      | .ok edges => .ok ({ edge with id := some (edgeId edge) } :: edges)

/-- The graph that stands for a missing one. -/
def emptyGraph (name nowIso : String) (vars : Option (List GraphVariable)) :
    PersistedGraph J := ⟨name, 0, nowIso, [], [], vars⟩

/-- The critical section of an upsert between reading the stored graph and writing:
version check, normalization and the graph to write. -/
def planUpsert (nowIso : String) (req : PersistedGraphUpsertRequest J)
    (existing : Option (PersistedGraph J)) : Except (UpsertError J) (PersistedGraph J) :=
  let conflict : Option (PersistedGraph J) :=
    match existing, req.version with
    | none, some v => if v ≠ 0 then some (emptyGraph req.name nowIso none) else none
    | some g, some v => if v ≠ g.version then some g else none
    | _, none => none
  match conflict with
  | some current => .error (.versionConflict current)
  | none =>
    match normalizeEdges req.edges with
    | .error e => .error e
    | .ok edges =>
      let current := existing.getD (emptyGraph req.name nowIso (some []))
      .ok
        { name := req.name
          version := current.version + 1
          updatedAt := nowIso
          nodes := req.nodes.map (normalizeNode existing)
          edges := edges
          vars := req.vars.or current.vars }

def storedVersion (existing : Option (PersistedGraph J)) : ℕ :=
  (existing.map PersistedGraph.version).getD 0

theorem normalizeNode_id (existing : Option (PersistedGraph J)) (node : PersistedGraphNode J) :
    (normalizeNode existing node).id = node.id := by
  unfold normalizeNode
  split
  · split <;> rfl
  · rfl

theorem normalizeEdges_eq {edges normalized : List PersistedGraphEdge}
    (h : (normalizeEdges edges : Except (UpsertError J) _) = .ok normalized) :
    normalized = edges.map fun e => { e with id := some (edgeId e) } := by
  induction edges generalizing normalized with
  | nil =>
    cases h
    rfl
  | cons e rest ih =>
    unfold normalizeEdges at h
    split at h
    · cases h
    · cases hrest : (normalizeEdges rest : Except (UpsertError J) _) with
      | error err =>
        rw [hrest] at h
        cases h
      | ok es =>
        rw [hrest] at h
        cases h
        rw [ih hrest, List.map_cons]

theorem normalizeEdges_error {edges : List PersistedGraphEdge} {e : UpsertError J}
    (h : normalizeEdges edges = .error e) : ∃ message, e = .edgeIdMismatch message := by
  induction edges with
  | nil => cases h
  | cons edge rest ih =>
    unfold normalizeEdges at h
    split at h
    · cases h
      exact ⟨_, rfl⟩
    · cases hrest : (normalizeEdges rest : Except (UpsertError J) _) with
      | error err =>
        rw [hrest] at h
        cases h
        exact ih hrest
      | ok es =>
        rw [hrest] at h
        cases h

/-- The plan of an upsert: what it was checked against and what it writes. -/
structure Planned (nowIso : String) (req : PersistedGraphUpsertRequest J)
    (existing : Option (PersistedGraph J)) (target : PersistedGraph J) : Prop where
  checked : ∀ v, req.version = some v → storedVersion existing = v
  name : target.name = req.name
  version : target.version = storedVersion existing + 1
  updatedAt : target.updatedAt = nowIso
  nodes : target.nodes = req.nodes.map (normalizeNode existing)
  edges : target.edges = req.edges.map fun e => { e with id := some (edgeId e) }

theorem planUpsert_ok {nowIso : String} {req : PersistedGraphUpsertRequest J}
    {existing : Option (PersistedGraph J)} {target : PersistedGraph J}
    (h : planUpsert nowIso req existing = .ok target) : Planned nowIso req existing target := by
  unfold planUpsert at h
  dsimp only at h
  split at h
  · cases h
  rename_i hconflict
  cases hedges : (normalizeEdges req.edges : Except (UpsertError J) _) with
  | error e =>
    rw [hedges] at h
    cases h
  | ok edges =>
    rw [hedges] at h
    cases h
    refine ⟨?_, rfl, ?_, rfl, rfl, normalizeEdges_eq hedges⟩
    · intro v hv
      rw [hv] at hconflict
      cases existing with
      | none =>
        by_contra hne
        have hv0 : v ≠ 0 := fun h0 => hne h0.symm
        simp [hv0] at hconflict
      | some g =>
        by_contra hne
        have hvg : v ≠ g.version := fun h0 => hne h0.symm
        simp [hvg] at hconflict
    · cases existing <;> rfl

/-- An upsert is planned when its version is current and its edge ids are the derived ones. -/
theorem planUpsert_of_checked (nowIso : String) {req : PersistedGraphUpsertRequest J}
    {existing : Option (PersistedGraph J)} {edges : List PersistedGraphEdge}
    (hversion : ∀ v, req.version = some v → storedVersion existing = v)
    (hedges : normalizeEdges req.edges = (.ok edges : Except (UpsertError J) _)) :
    ∃ target, planUpsert nowIso req existing = .ok target := by
  have hno : ∀ v, req.version = some v → v = storedVersion existing := fun v hv =>
    (hversion v hv).symm
  unfold planUpsert
  rw [hedges]
  cases existing with
  | none =>
    cases hv : req.version with
    | none => exact ⟨_, rfl⟩
    | some v =>
      obtain rfl := hno v hv
      exact ⟨_, rfl⟩
  | some g =>
    cases hv : req.version with
    | none => exact ⟨_, rfl⟩
    | some v =>
      obtain rfl := hno v hv
      simp [storedVersion]

theorem planUpsert_error {nowIso : String} {req : PersistedGraphUpsertRequest J}
    {existing : Option (PersistedGraph J)} {e : UpsertError J}
    (h : planUpsert nowIso req existing = .error e) :
    (∃ current, e = .versionConflict current) ∨ ∃ message, e = .edgeIdMismatch message := by
  unfold planUpsert at h
  dsimp only at h
  split at h
  · cases h
    exact Or.inl ⟨_, rfl⟩
  · cases hedges : (normalizeEdges req.edges : Except (UpsertError J) _) with
    | error err =>
      rw [hedges] at h
      cases h
      exact Or.inr (normalizeEdges_error hedges)
    | ok edges =>
      rw [hedges] at h
      cases h

end Plan

end Agyn
