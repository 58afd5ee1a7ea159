import Agyn.UpsertRoundTrip

/-!
A stored graph and the trees that show it, in whole or in part. A tree shows some
nodes and edges with the version and the variables of a graph when reading it
returns these; a read finds the graph unchanged when it shows all of them.
-/
namespace Agyn

open Prog FsGraphRepository

variable {J G : Type}

section StoredGraph

/-- The entities in canonical files have ids, and no two have the same. -/
theorem stored_ids {dir : EntityDir} {files : EntityFiles J dir} (h : CanonicalFiles files) :
    ((stored files).map Entity.id).Nodup ∧ ∀ e ∈ stored files, e.id ≠ "" := by
  have hall : ∀ es : List (String × Option (Entity J dir)), (∀ e ∈ es, e ∈ files.entries) →
      ((es.map Prod.snd).filterMap id).map Entity.fileName = es.map Prod.fst ∧
        ∀ e ∈ (es.map Prod.snd).filterMap id, e.id ≠ "" := by
    intro es hes
    induction es with
    | nil => exact ⟨rfl, fun e he => absurd he List.not_mem_nil⟩
    | cons entry rest ih =>
      have hget := (InsMap.get_eq_some_iff files entry.1 entry.2).mpr (hes entry List.mem_cons_self)
      obtain ⟨e, hcontent, hid, hfile⟩ := h entry.1 entry.2 hget
      obtain ⟨hnames, hids⟩ := ih fun x hx => hes x (List.mem_cons_of_mem _ hx)
      have hvalues : ((entry :: rest).map Prod.snd).filterMap id =
          e :: (rest.map Prod.snd).filterMap id := by
        rw [List.map_cons, hcontent]
        rfl
      rw [hvalues, List.map_cons, List.map_cons, hnames, hfile]
      refine ⟨rfl, fun x hx => ?_⟩
      rcases List.mem_cons.mp hx with rfl | hx
      · exact hid
      · exact hids x hx
  obtain ⟨hnames, hids⟩ := hall files.entries fun e he => he
  refine ⟨map_fileName_nodup.mp ?_, hids⟩
  change ((files.entries.map Prod.snd).filterMap id |>.map Entity.fileName).Nodup
  rw [hnames]
  exact files.nodup

/-- A stored graph: what a tree is read as, its ids distinct and not empty. -/
structure StoredAs (t : GraphTree J G) (name nowIso : String) (g : PersistedGraph J) : Prop where
  read : readTree (some t) name nowIso = .ok (some g)
  nodup : ∀ dir, ((g.entities dir).map Entity.id).Nodup
  hasIds : g.HasIds

/-- Reading a tree as a graph with the version and the variables of `g`, and the given
nodes and edges. -/
structure Shows (t : GraphTree J G) (g : PersistedGraph J) (ns : List (PersistedGraphNode J))
    (es : List PersistedGraphEdge) : Prop where
  meta_doc : ∃ doc, t.metaFile = some (some doc) ∧ doc.version.getD 0 = g.version
  nodes : readDir t .nodes = (ns, false)
  edges : readDir t .edges = (es, false)
  vars : t.vars.bind normalizeVariables = g.vars

/-- A graph that was read is shown by the tree it was read from. -/
theorem shows_of_read {t : GraphTree J G} {name nowIso : String} {g : PersistedGraph J}
    (h : readTree (some t) name nowIso = .ok (some g)) : Shows t g g.nodes g.edges := by
  unfold readTree at h
  dsimp only at h
  cases hmeta : t.metaFile.join with
  | none =>
    rw [hmeta] at h
    cases h
  | some doc =>
    rw [hmeta] at h
    dsimp only at h
    by_cases herror : ((readDir t .nodes).2 || (readDir t .edges).2) = true
    · rw [if_pos herror] at h
      cases h
    · rw [if_neg herror] at h
      cases h
      have hclean : (readDir t .nodes).2 = false ∧ (readDir t .edges).2 = false := by
        simpa using herror
      refine ⟨⟨doc, Option.join_eq_some_iff.mp hmeta, rfl⟩, ?_, ?_, rfl⟩
      · exact Prod.ext rfl hclean.1
      · exact Prod.ext rfl hclean.2

theorem Shows.read {t : GraphTree J G} {g : PersistedGraph J} {ns : List (PersistedGraphNode J)}
    {es : List PersistedGraphEdge} (h : Shows t g ns es) (name nowIso : String) :
    ∃ g', readTree (some t) name nowIso = .ok (some g') ∧ g'.nodes = ns ∧ g'.edges = es ∧
      g'.vars = g.vars ∧ g'.version = g.version := by
  obtain ⟨doc, hdoc, hversion⟩ := h.meta_doc
  refine ⟨⟨doc.name.getD name, doc.version.getD 0, doc.updatedAt.getD nowIso, ns, es,
    t.vars.bind normalizeVariables⟩, ?_, rfl, rfl, h.vars, hversion⟩
  simp only [readTree, hdoc, Option.join_some, h.nodes, h.edges, Bool.or_self, Bool.false_eq_true,
    if_false, normalizeMeta]

/-- A canonical tree stores the graph it is read as. -/
theorem storedAs_of_canonical {t : GraphTree J G} {name nowIso : String} {g : PersistedGraph J}
    (h : Canonical t) (hread : readTree (some t) name nowIso = .ok (some g)) :
    StoredAs t name nowIso g := by
  have hshows := shows_of_read hread
  have hentities : ∀ dir, g.entities dir = ((t.dirs dir).map stored).getD [] := by
    intro dir
    cases dir with
    | nodes => exact ((Prod.mk.inj ((readDir_canonical h .nodes).symm.trans hshows.nodes)).1).symm
    | edges => exact ((Prod.mk.inj ((readDir_canonical h .edges).symm.trans hshows.edges)).1).symm
  have hids : ∀ dir, ((g.entities dir).map Entity.id).Nodup ∧ ∀ e ∈ g.entities dir, e.id ≠ "" := by
    intro dir
    rw [hentities dir]
    cases hfiles : t.dirs dir with
    | none => exact ⟨List.nodup_nil, fun e he => absurd he List.not_mem_nil⟩
    | some files => exact stored_ids (h dir files hfiles)
  exact ⟨hread, fun dir => (hids dir).1, fun dir => (hids dir).2⟩

/-- Variables that were read once are read as the same again. -/
theorem StoredAs.vars {t : GraphTree J G} {name nowIso : String} {g : PersistedGraph J}
    (h : StoredAs t name nowIso g) : normalizeVariables (g.vars.getD []) = g.vars := by
  rw [← (shows_of_read h.read).vars]
  cases t.vars with
  | none => rfl
  | some raw =>
    rw [Option.bind_some]
    unfold normalizeVariables
    dsimp only
    by_cases hempty : (raw.filter fun v => v.key ≠ "") = []
    · rw [if_pos hempty]
      rfl
    · have hsame : ((raw.filter fun v => v.key ≠ "").filter fun v => v.key ≠ "") =
          raw.filter fun v => v.key ≠ "" := by
        rw [List.filter_filter]
        simp only [Bool.and_self]
      rw [if_neg hempty, Option.getD_some, hsame, if_neg hempty]

/-- Reading the disk returns the nodes, edges, variables and version of `g`. -/
def Unchanged (d : Disk J G) (name nowIso : String) (g : PersistedGraph J) : Prop :=
  ∃ g', ((FsGraphRepository.get name nowIso).run working d).1 = .ok (some g') ∧
    g'.nodes.Perm g.nodes ∧ g'.edges.Perm g.edges ∧ g'.vars = g.vars ∧ g'.version = g.version

theorem unchanged_iff_read (d : Disk J G) (name nowIso : String) (g : PersistedGraph J) :
    Unchanged d name nowIso g ↔ ∃ g', readTree (d.tree .root) name nowIso = .ok (some g') ∧
      g'.nodes.Perm g.nodes ∧ g'.edges.Perm g.edges ∧ g'.vars = g.vars ∧
        g'.version = g.version := by
  unfold Unchanged
  rw [working_eq_faulty, get_run]

theorem Shows.unchanged_iff {t : GraphTree J G} {g : PersistedGraph J}
    {ns : List (PersistedGraphNode J)} {es : List PersistedGraphEdge} (h : Shows t g ns es)
    {d : Disk J G} (hroot : d.tree .root = some t) (name nowIso : String) :
    Unchanged d name nowIso g ↔ ns.Perm g.nodes ∧ es.Perm g.edges := by
  obtain ⟨g', hread, rfl, rfl, hvars, hversion⟩ := h.read name nowIso
  rw [unchanged_iff_read, hroot, hread]
  constructor
  · intro hsame
    obtain ⟨g'', hg'', hnodes, hedges, -⟩ := hsame
    cases hg''
    exact ⟨hnodes, hedges⟩
  · intro hperm
    exact ⟨g', rfl, hperm.1, hperm.2, hvars, hversion⟩

end StoredGraph

section Samples

def sampleGraph (ids : List String) : PersistedGraph J where
  name := "main"
  version := 0
  updatedAt := ""
  nodes := ids.map fun id => ⟨id, "relay", none, none, none⟩
  edges := []
  vars := none

def sampleDisk (ids : List String) : Disk J Unit :=
  ⟨InsMap.empty.set .root (stagedTree (sampleGraph ids)), fun _ => 0, []⟩

theorem sampleGraph_storedAs (ids : List String) (hnodup : ids.Nodup) (hne : "" ∉ ids)
    (nowIso : String) : StoredAs (stagedTree (sampleGraph ids) : GraphTree J Unit) "main" nowIso
      (sampleGraph ids) := by
  have hids : (sampleGraph ids : PersistedGraph J).HasIds := by
    intro dir e he hempty
    cases dir with
    | nodes =>
      obtain ⟨id, hid, rfl⟩ := List.mem_map.mp he
      exact hne (hempty ▸ hid)
    | edges => cases he
  have hnodes : ((sampleGraph ids : PersistedGraph J).nodes.map PersistedGraphNode.id).Nodup := by
    rw [sampleGraph, List.map_map]
    change (ids.map id).Nodup
    rw [List.map_id]
    exact hnodup
  refine storedAs_of_canonical (canonical_stagedTree hids none) ?_
  have hread := readTree_stagedTree (G := Unit) hids none "main" nowIso
  rw [stored_filesOf ((sampleGraph ids : PersistedGraph J).entities .nodes) hnodes] at hread
  exact hread

end Samples

end Agyn
