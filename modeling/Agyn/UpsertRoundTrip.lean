import Agyn.SwapRecovery

/-!
Reading back what an upsert committed. Node ids are distinct and file names encode
ids injectively, so all nodes come back. An edge is stored under its derived id,
which joins four free strings with separators that may occur inside them; when two
edges of a request share it, the later one overwrites the earlier one.
-/
namespace Agyn

open Prog FsGraphRepository

variable {J G : Type}

section ReadBack

/-- The entities of a plan have ids. -/
theorem Planned.hasIds {nowIso : String} {req : PersistedGraphUpsertRequest J}
    {existing : Option (PersistedGraph J)} {target : PersistedGraph J}
    (h : Planned nowIso req existing target) (hnodes : ∀ n ∈ req.nodes, n.id ≠ "") :
    target.HasIds := by
  intro dir e he
  cases dir with
  | nodes =>
    change e ∈ target.nodes at he
    rw [h.nodes] at he
    obtain ⟨m, hm, rfl⟩ := List.mem_map.mp he
    change (normalizeNode existing m).id ≠ ""
    rw [normalizeNode_id]
    exact hnodes m hm
  | edges =>
    change e ∈ target.edges at he
    rw [h.edges] at he
    obtain ⟨f, -, rfl⟩ := List.mem_map.mp he
    change edgeId f ≠ ""
    intro hempty
    have hlen := congrArg String.length hempty
    simp only [edgeId, String.length_append] at hlen
    have hdash : "-".length = 1 := by decide
    have hzero : "".length = 0 := by decide
    omega

/-- The ids of the planned edges are the derived ones. -/
theorem Planned.edge_ids {nowIso : String} {req : PersistedGraphUpsertRequest J}
    {existing : Option (PersistedGraph J)} {target : PersistedGraph J}
    (h : Planned nowIso req existing target) :
    (target.entities .edges).map Entity.id = req.edges.map edgeId := by
  change target.edges.map (fun e => e.id.getD "") = _
  rw [h.edges, List.map_map]
  rfl

theorem Planned.node_ids {nowIso : String} {req : PersistedGraphUpsertRequest J}
    {existing : Option (PersistedGraph J)} {target : PersistedGraph J}
    (h : Planned nowIso req existing target) :
    (target.entities .nodes).map Entity.id = req.nodes.map PersistedGraphNode.id := by
  change target.nodes.map PersistedGraphNode.id = _
  rw [h.nodes, List.map_map]
  apply List.map_congr_left
  intro n _
  exact normalizeNode_id existing n

theorem canonical_stagedTree {g : PersistedGraph J} (hids : g.HasIds) (git : Option G) :
    Canonical { (stagedTree g : GraphTree J G) with git } := by
  intro dir files hfiles
  cases hfiles
  exact canonical_filesOf (g.entities dir) (hids dir)

/-- What a committed graph is read back as. -/
theorem readTree_stagedTree {g : PersistedGraph J} (hids : g.HasIds) (git : Option G)
    (name nowIso : String) :
    readTree (some { (stagedTree g : GraphTree J G) with git }) name nowIso = .ok (some
      { name := g.name
        version := g.version
        updatedAt := g.updatedAt
        nodes := stored (filesOf (g.entities .nodes))
        edges := stored (filesOf (g.entities .edges))
        vars := normalizeVariables (g.vars.getD []) }) :=
  readTree_canonical (canonical_stagedTree hids git) rfl name nowIso

/-- The graph `name` that the disk holds has the nodes and the edges of `g`. -/
def ReadsBack (d : Disk J G) (name nowIso : String) (g : PersistedGraph J) : Prop :=
  ∃ g', ((FsGraphRepository.get name nowIso).run working d).1 = .ok (some g') ∧
    g'.nodes.Perm g.nodes ∧ g'.edges.Perm g.edges

theorem readsBack_iff {d : Disk J G} {g : PersistedGraph J} {git : Option G}
    (hroot : d.tree .root = some { (stagedTree g : GraphTree J G) with git }) (hids : g.HasIds)
    (hnodup : ((g.entities .nodes).map Entity.id).Nodup) (name nowIso : String) :
    ReadsBack d name nowIso g ↔ ((g.entities .edges).map Entity.id).Nodup := by
  have hread : ((FsGraphRepository.get name nowIso).run working d).1 =
      readTree (d.tree .root) name nowIso := by
    rw [working_eq_faulty, get_run]
  rw [hroot, readTree_stagedTree hids git name nowIso] at hread
  unfold ReadsBack
  rw [hread]
  constructor
  · intro h
    obtain ⟨g', hg', -, hperm⟩ := h
    cases hg'
    exact stored_filesOf_length (g.entities .edges) hperm.length_eq
  · intro hedgeIds
    refine ⟨_, rfl, ?_, ?_⟩
    · exact List.Perm.of_eq (stored_filesOf (g.entities .nodes) hnodup)
    · exact List.Perm.of_eq (stored_filesOf (g.entities .edges) hedgeIds)

end ReadBack

section Upsert

/-- An accepted request goes on to the critical section. -/
theorem upsert_of_valid {schema : List TemplateNodeSchema} {req : PersistedGraphUpsertRequest J}
    (h : validatePersistedGraph req schema = .ok ()) (ctx : CallContext) :
    upsert schema ctx req = upsertLocked ctx req := by
  rw [upsert, h]

/-- An upsert that resolves on a working file system. -/
theorem upsert_working_ok {schema : List TemplateNodeSchema} {ctx : CallContext}
    {req : PersistedGraphUpsertRequest J} {d d' : Disk J G} {old : GraphTree J G}
    {target : PersistedGraph J} (hroot : d.tree .root = some old) (hfresh : FreshNames d ctx)
    (h : (upsert schema ctx req).run working d = (.ok target, d')) :
    validatePersistedGraph req schema = .ok () ∧
      (∃ existing, Planned ctx.nowIso req existing target) ∧ Committed d ctx target old d' := by
  unfold upsert at h
  cases hvalid : validatePersistedGraph req schema with
  | error e =>
    rw [hvalid] at h
    cases (Prod.mk.inj h).1
  | ok u =>
    rw [hvalid] at h
    dsimp only at h
    rcases upsertLocked_working ctx req hroot hfresh with
      ⟨e, -, hrun⟩ | ⟨existing, -, ⟨e, -, hrun⟩ | ⟨t, d₁, hplan, hrun, hcommitted⟩⟩
    · rw [hrun] at h
      cases (Prod.mk.inj h).1
    · rw [hrun] at h
      cases (Prod.mk.inj h).1
    · rw [hrun] at h
      cases h
      exact ⟨rfl, ⟨existing, planUpsert_ok hplan⟩, hcommitted⟩

/-- For every request that is committed, the next read returns the nodes and the edges of
the graph the upsert returned iff no two edges of the request share a derived id. -/
theorem upsert_readsBack_iff (schema : List TemplateNodeSchema) (ctx : CallContext)
    (req : PersistedGraphUpsertRequest J) (d d' : Disk J G) (old : GraphTree J G)
    (target : PersistedGraph J) (name nowIso : String) (hroot : d.tree .root = some old)
    (hfresh : FreshNames d ctx)
    (hcommit : (upsert schema ctx req).run working d = (.ok target, d')) :
    ReadsBack d' name nowIso target ↔ (req.edges.map edgeId).Nodup := by
  obtain ⟨hvalid, ⟨existing, hplan⟩, hcommitted⟩ := upsert_working_ok hroot hfresh hcommit
  obtain ⟨hnodup, hids⟩ := validatePersistedGraph_ids hvalid
  rw [← hplan.node_ids] at hnodup
  rw [← hplan.edge_ids]
  exact readsBack_iff hcommitted.root (hplan.hasIds hids) hnodup name nowIso

/-- A graph root as `initIfNeeded` makes it, and possibly a `.git` entry. -/
def initialTree (git : Option Unit) : GraphTree Unit Unit :=
  ⟨some (some ⟨some "main", some 0, some ""⟩), none, fun _ => some .empty, git⟩

def initialDisk (git : Option Unit) : Disk Unit Unit :=
  ⟨InsMap.empty.set .root (initialTree git), fun _ => 0, []⟩

def sampleContext : CallContext := ⟨"now", "1", "2"⟩

def sampleSchema : List TemplateNodeSchema := [⟨"relay", ["out"], ["in"]⟩]

def sampleRequest (ids : List String) (edges : List (String × String)) :
    PersistedGraphUpsertRequest Unit where
  name := "main"
  version := some 0
  nodes := ids.map fun id => ⟨id, "relay", none, none, none⟩
  edges := edges.map fun e => ⟨none, e.1, "out", e.2, "in"⟩
  vars := none

theorem initialDisk_initialised (git : Option Unit) :
    Initialised (initialDisk git) (initialTree git) where
  root := rfl
  metaFile := rfl
  dirs _ := ⟨_, rfl⟩
  clean := by
    intro p hp
    change (InsMap.set .empty Place.root (initialTree git)).get p = none
    rw [InsMap.get_set_ne _ _ hp, InsMap.get_empty]

theorem sampleRequest_normalized (ids : List String) (edges : List (String × String)) :
    ∃ es, normalizeEdges (sampleRequest ids edges).edges =
      (.ok es : Except (UpsertError Unit) _) := by
  unfold sampleRequest
  induction edges with
  | nil => exact ⟨[], rfl⟩
  | cons e rest ih =>
    obtain ⟨es, hes⟩ := ih
    dsimp only at hes ⊢
    rw [List.map_cons, normalizeEdges, hes]
    exact ⟨_, if_neg fun h => h.1 rfl⟩

/-- An accepted request is committed to the initial disk. -/
theorem sampleRequest_commits (git : Option Unit) (ids : List String)
    (edges : List (String × String))
    (hvalid : validatePersistedGraph (sampleRequest ids edges) sampleSchema = .ok ()) :
    ∃ target d', (upsert sampleSchema sampleContext (sampleRequest ids edges)).run working
      (initialDisk git) = (.ok target, d') := by
  have hroot : (initialDisk git).tree .root = some (initialTree git) := rfl
  have hlocked := upsertLocked_working sampleContext (sampleRequest ids edges) hroot
    ((initialDisk_initialised git).fresh sampleContext)
  unfold upsert
  rw [hvalid]
  rcases hlocked with ⟨e, hread, -⟩ | ⟨existing, hread, ⟨e, hplan, -⟩ | ⟨target, d', -, hrun, -⟩⟩
  · cases hread
  · have hversion : ∀ v, (sampleRequest ids edges).version = some v →
        storedVersion existing = v := by
      intro v hv
      cases hread
      cases hv
      rfl
    obtain ⟨es, hes⟩ := sampleRequest_normalized ids edges
    obtain ⟨target, htarget⟩ := planUpsert_of_checked sampleContext.nowIso hversion hes
    rw [htarget] at hplan
    cases hplan
  · exact ⟨target, d', hrun⟩

/-- One edge between two nodes is read back. -/
theorem one_edge_readsBack : ∃ target d',
    (upsert sampleSchema sampleContext (sampleRequest ["a", "b"] [("a", "b")])).run working
      (initialDisk none) = (.ok target, d') ∧ (ReadsBack d' "main" "later" target ↔
        ((sampleRequest ["a", "b"] [("a", "b")]).edges.map edgeId).Nodup) := by
  obtain ⟨target, d', hrun⟩ := sampleRequest_commits none ["a", "b"] [("a", "b")] (by decide)
  exact ⟨target, d', hrun, upsert_readsBack_iff sampleSchema sampleContext _ (initialDisk none)
    d' (initialTree none) target "main" "later" rfl
    ((initialDisk_initialised none).fresh sampleContext) hrun⟩

/-- Two different edges whose derived ids are both `a-out__b-out__c-in`. -/
theorem edges_with_one_id : ∃ target d',
    (upsert sampleSchema sampleContext (sampleRequest ["a", "b-out__c", "a-out__b", "c"]
      [("a", "b-out__c"), ("a-out__b", "c")])).run working (initialDisk none) =
        (.ok target, d') ∧
    ¬ ReadsBack d' "main" "later" target := by
  obtain ⟨target, d', hrun⟩ := sampleRequest_commits none ["a", "b-out__c", "a-out__b", "c"]
    [("a", "b-out__c"), ("a-out__b", "c")] (by decide)
  refine ⟨target, d', hrun, ?_⟩
  have hroot : (initialDisk none).tree .root = some (initialTree none) := rfl
  obtain ⟨hvalid, ⟨existing, hplan⟩, hcommitted⟩ := upsert_working_ok hroot
    ((initialDisk_initialised none).fresh sampleContext) hrun
  obtain ⟨hnodup, hids⟩ := validatePersistedGraph_ids hvalid
  rw [← hplan.node_ids] at hnodup
  rw [readsBack_iff hcommitted.root (hplan.hasIds hids) hnodup, hplan.edge_ids]
  decide

end Upsert

end Agyn
