import Agyn.PersistedGraph

/-!
Graphs that pass the checks of an upsert. What validation asks of the nodes and the
edges is spelled out here, so that a graph can be seen to pass after it was changed.
-/
namespace Agyn

variable {J : Type} {schema : List TemplateNodeSchema}

section Validation

def EdgeFits (schema : List TemplateNodeSchema) (nodes : List (PersistedGraphNode J))
    (e : PersistedGraphEdge) : Prop :=
  ∃ source target, schemaOf schema nodes e.source = some source ∧
    schemaOf schema nodes e.target = some target ∧
    e.sourceHandle ∈ source.2.sourcePorts ∧ e.targetHandle ∈ target.2.targetPorts

theorem mem_ids_of_schemaOf {nodes : List (PersistedGraphNode J)} {id : String}
    {found : PersistedGraphNode J × TemplateNodeSchema}
    (h : schemaOf schema nodes id = some found) : id ∈ nodes.map PersistedGraphNode.id := by
  obtain ⟨n, hn, -⟩ := Option.bind_eq_some_iff.mp h
  refine List.mem_map.mpr ⟨n, List.mem_of_find?_eq_some hn, ?_⟩
  simpa using List.find?_some hn

theorem validateEdges_iff {nodes : List (PersistedGraphNode J)} {edges : List PersistedGraphEdge} :
    validateEdges schema nodes edges = .ok () ↔ ∀ e ∈ edges, EdgeFits schema nodes e := by
  induction edges with
  | nil => simp [validateEdges]
  | cons e rest ih =>
    rw [List.forall_mem_cons, ← ih, validateEdges]
    by_cases hsource : e.source ∈ nodes.map PersistedGraphNode.id
    · by_cases htarget : e.target ∈ nodes.map PersistedGraphNode.id
      · rw [if_neg (not_not.mpr hsource), if_neg (not_not.mpr htarget)]
        cases hs : schemaOf schema nodes e.source with
        | none => simp [EdgeFits, hs]
        | some source =>
          cases ht : schemaOf schema nodes e.target with
          | none => simp [EdgeFits, ht]
          | some target =>
            by_cases hout : e.sourceHandle ∈ source.2.sourcePorts
            · by_cases hin : e.targetHandle ∈ target.2.targetPorts
              · simp [EdgeFits, hs, ht, hout, hin]
              · simp [EdgeFits, hs, ht, hout, hin]
            · simp [EdgeFits, hs, ht, hout]
      · rw [if_neg (not_not.mpr hsource), if_pos htarget]
        constructor
        · intro h
          cases h
        · intro h
          obtain ⟨⟨source, target, -, ht, -⟩, -⟩ := h
          exact absurd (mem_ids_of_schemaOf ht) htarget
    · rw [if_pos hsource]
      constructor
      · intro h
        cases h
      · intro h
        obtain ⟨⟨source, target, hs, -⟩, -⟩ := h
        exact absurd (mem_ids_of_schemaOf hs) hsource

def EdgeNamed (e : PersistedGraphEdge) : Prop := e.id.getD "" = "" ∨ e.id = some (edgeId e)

theorem normalizeEdges_of_named {edges : List PersistedGraphEdge}
    (h : ∀ e ∈ edges, EdgeNamed e) :
    ∃ es, normalizeEdges edges = (.ok es : Except (UpsertError J) _) := by
  induction edges with
  | nil => exact ⟨[], rfl⟩
  | cons e rest ih =>
    obtain ⟨hnamed, hrest⟩ := List.forall_mem_cons.mp h
    obtain ⟨es, hes⟩ := ih hrest
    have hno : ¬ (e.id.getD "" ≠ "" ∧ e.id ≠ some (edgeId e)) := by
      intro hbad
      rcases hnamed with hempty | hderived
      · exact hbad.1 hempty
      · exact hbad.2 hderived
    rw [normalizeEdges, if_neg hno, hes]
    exact ⟨_, rfl⟩

end Validation

section Accepted

/-- Nodes and edges that an upsert would take: they pass validation, and the edge ids are the
derived ones. -/
structure Accepted (schema : List TemplateNodeSchema) (nodes : List (PersistedGraphNode J))
    (edges : List PersistedGraphEdge) : Prop where
  validNodes : validateNodes schema [] nodes = .ok ()
  validEdges : validateEdges schema nodes edges = .ok ()
  named : ∀ e ∈ edges, EdgeNamed e

/-- Validation without variables looks at the nodes and the edges. -/
theorem validatePersistedGraph_iff {req : PersistedGraphUpsertRequest J} (h : req.vars = none) :
    validatePersistedGraph req schema = .ok () ↔
      validateNodes schema [] req.nodes = .ok () ∧
        validateEdges schema req.nodes req.edges = .ok () := by
  rw [validatePersistedGraph, h]
  cases validateNodes schema [] req.nodes with
  | error e => simp
  | ok u =>
    cases validateEdges schema req.nodes req.edges with
    | error e => simp
    | ok u => simp

theorem Accepted.nodes_nodup {nodes : List (PersistedGraphNode J)}
    {edges : List PersistedGraphEdge} (h : Accepted schema nodes edges) :
    (nodes.map PersistedGraphNode.id).Nodup :=
  ((validateNodes_iff schema [] nodes).mp h.validNodes).1

def KeepsTemplates (nodes nodes' : List (PersistedGraphNode J)) : Prop :=
  ∀ id n, (nodes.find? fun m => m.id = id) = some n →
    ∃ n', (nodes'.find? fun m => m.id = id) = some n' ∧ n'.template = n.template

theorem KeepsTemplates.schemaOf {nodes nodes' : List (PersistedGraphNode J)}
    (h : KeepsTemplates nodes nodes') {id : String}
    {found : PersistedGraphNode J × TemplateNodeSchema}
    (hfound : schemaOf schema nodes id = some found) :
    ∃ n', Agyn.schemaOf schema nodes' id = some (n', found.2) := by
  obtain ⟨n, hn, htemplate⟩ := Option.bind_eq_some_iff.mp hfound
  obtain ⟨s, hs, rfl⟩ := Option.map_eq_some_iff.mp htemplate
  obtain ⟨n', hn', hsame⟩ := h id n hn
  refine ⟨n', ?_⟩
  rw [Agyn.schemaOf, hn', Option.bind_some, hsame, hs]
  rfl

theorem EdgeFits.keeps {nodes nodes' : List (PersistedGraphNode J)} {e : PersistedGraphEdge}
    (h : EdgeFits schema nodes e) (hkeeps : KeepsTemplates nodes nodes') :
    EdgeFits schema nodes' e := by
  obtain ⟨source, target, hs, ht, hout, hin⟩ := h
  obtain ⟨n, hs'⟩ := hkeeps.schemaOf hs
  obtain ⟨m, ht'⟩ := hkeeps.schemaOf ht
  exact ⟨_, _, hs', ht', hout, hin⟩

end Accepted

end Agyn
