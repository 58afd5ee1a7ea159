import Agyn.StoredGraphs

/-!
The rollback of an upsert. It clears both directories of the root and writes the
stored graph into them again, file by file, with the meta file last, and it gives
up at the first operation that fails. What it has cleared and not written again
by then is lost.
-/
namespace Agyn

open Prog FsGraphRepository

variable {J G : Type}

section Rollback

variable (fails : Label → Option String)

/-- The root after a rollback whose operation `j` failed, with `start` the root before. -/
def partlyRestored (start : Option (GraphTree J G)) (ws : List (FileWrite J)) (j : ℕ) :
    Option (GraphTree J G) :=
  match j with
  | 0 => start
  | 1 => start.map fun t => t.rmIn .nodes
  | 2 => some (((start.getD .empty).rmIn .nodes).mkdirIn .nodes)
  | 3 => some ((((start.getD .empty).rmIn .nodes).mkdirIn .nodes).rmIn .edges)
  | j + 4 => some ((start.getD .empty).cleared.writes (ws.take (j / 3)))

theorem rmIn_mkdirIn_cleared (t : GraphTree J G) :
    (((t.rmIn .nodes).mkdirIn .nodes).rmIn .edges).mkdirIn .edges = t.cleared := by
  rw [GraphTree.mkdirIn, GraphTree.rmIn, GraphTree.mkdirIn, GraphTree.rmIn, GraphTree.cleared]
  congr 1
  funext dir
  cases dir <;> rfl

theorem empty_rmIn (dir : EntityDir) : (GraphTree.empty : GraphTree J G).rmIn dir = .empty := by
  rw [GraphTree.rmIn, GraphTree.empty]
  congr 1
  exact Function.update_eq_self dir _

theorem clearDirectories_run (d : Disk J G) :
    (NoneFail fails .rollback 0 4 ∧ ∃ d',
      clearDirectories.run (faulty fails) d = (.ok (), d') ∧
        d'.tree .root = some ((d.tree .root).getD .empty).cleared) ∨
    ∃ j msg d', FirstFails fails .rollback 0 4 j msg ∧
      clearDirectories.run (faulty fails) d = (.error msg, d') ∧
      d'.tree .root = partlyRestored (d.tree .root) [] j := by
  -- the root after each of the four operations
  have hrm : ∀ (d₁ : Disk J G) dir, ((FsOp.rmIn .root dir).exec d₁).2.tree .root =
      (d₁.tree .root).map fun t => t.rmIn dir := by
    intro d₁ dir
    rw [FsOp.exec, Disk.tree_inside, if_pos rfl]
  have hmkdir : ∀ (d₁ : Disk J G) dir, ((FsOp.mkdirIn .root dir).exec d₁).2.tree .root =
      some (((d₁.tree .root).getD .empty).mkdirIn dir) := by
    intro d₁ dir
    rw [FsOp.exec, Disk.mkdir, Disk.tree_setTree_self]
  have hgetD : ((d.tree .root).map fun t => t.rmIn .nodes).getD .empty =
      ((d.tree .root).getD .empty).rmIn .nodes := by
    cases d.tree .root with
    | none => exact (empty_rmIn .nodes).symm
    | some t => rfl
  have h₀ := hrm d .nodes
  have h₁ := hmkdir ((FsOp.rmIn .root .nodes).exec d).2 .nodes
  rw [h₀, hgetD] at h₁
  have h₂ := hrm ((FsOp.mkdirIn .root .nodes).exec ((FsOp.rmIn .root .nodes).exec d).2).2 .edges
  rw [h₁, Option.map_some] at h₂
  have h₃ := hmkdir ((FsOp.rmIn .root .edges).exec ((FsOp.mkdirIn .root .nodes).exec
    ((FsOp.rmIn .root .nodes).exec d).2).2).2 .edges
  rw [h₂, Option.getD_some, rmIn_mkdirIn_cleared] at h₃
  unfold clearDirectories
  rcases noneFail_or_firstFails fails .rollback 0 4 with hnone | ⟨j, msg, hfirst⟩
  · refine Or.inl ⟨hnone, _, ?_, h₃⟩
    rw [run_andThen_ok _ (mutate_ok (hnone 0 (by omega) (by omega)) _ _),
      run_andThen_ok _ (mutate_ok (hnone 1 (by omega) (by omega)) _ _),
      run_andThen_ok _ (mutate_ok (hnone 2 (by omega) (by omega)) _ _),
      mutate_ok (hnone 3 (by omega) (by omega))]
    rfl
  · have hupper := hfirst.upper
    have hbefore := hfirst.before
    rcases (by omega : j = 0 ∨ j = 1 ∨ j = 2 ∨ j = 3) with rfl | rfl | rfl | rfl
    · exact Or.inr ⟨0, msg, d, hfirst, run_andThen_error _ (mutate_error hfirst.hit rfl d), rfl⟩
    · refine Or.inr ⟨1, msg, _, hfirst, ?_, h₀⟩
      rw [run_andThen_ok _ (mutate_ok (hbefore 0 (by omega) (by omega)) _ _)]
      exact run_andThen_error _ (mutate_error hfirst.hit rfl _)
    · refine Or.inr ⟨2, msg, _, hfirst, ?_, h₁⟩
      rw [run_andThen_ok _ (mutate_ok (hbefore 0 (by omega) (by omega)) _ _),
        run_andThen_ok _ (mutate_ok (hbefore 1 (by omega) (by omega)) _ _)]
      exact run_andThen_error _ (mutate_error hfirst.hit rfl _)
    · refine Or.inr ⟨3, msg, _, hfirst, ?_, h₂⟩
      rw [run_andThen_ok _ (mutate_ok (hbefore 0 (by omega) (by omega)) _ _),
        run_andThen_ok _ (mutate_ok (hbefore 1 (by omega) (by omega)) _ _),
        run_andThen_ok _ (mutate_ok (hbefore 2 (by omega) (by omega)) _ _)]
      exact mutate_error hfirst.hit rfl _

/-- The root after a rollback that writes `ws`. -/
theorem restoreWorkingTree_run (g : PersistedGraph J) (nowIso : String) (d : Disk J G) :
    (NoneFail fails .rollback 0 (4 + 3 * (graphWrites g).length) ∧
      ((restoreWorkingTree (some g) nowIso).run (faulty fails) d).2.tree .root =
        some (((d.tree .root).getD .empty).cleared.writes (graphWrites g))) ∨
    ∃ j msg, FirstFails fails .rollback 0 (4 + 3 * (graphWrites g).length) j msg ∧
      ((restoreWorkingTree (some g) nowIso).run (faulty fails) d).2.tree .root =
        partlyRestored (d.tree .root) (graphWrites g) j := by
  unfold restoreWorkingTree
  rw [run_bind]
  rcases clearDirectories_run fails d with
    ⟨hfour, d₁, hrun, hroot⟩ | ⟨j, msg, d₁, hfirst, hrun, hroot⟩
  · rw [run_andThen_ok _ hrun]
    rcases writeAll_run fails .rollback .root (graphWrites g) 4 hroot
      (GraphTree.cleared_hasDirs _) with ⟨hnone, hrun'⟩ | ⟨j, msg, hfirst, hrun'⟩
    · refine Or.inl ⟨hfour.trans hnone, ?_⟩
      change ((writeAll .rollback .root 4 (graphWrites g)).run (faulty fails) d₁).2.tree .root = _
      rw [hrun', Disk.tree_setTree_self]
    · refine Or.inr ⟨j, msg, hfirst.after hfour (by omega), ?_⟩
      change ((writeAll .rollback .root 4 (graphWrites g)).run (faulty fails) d₁).2.tree .root = _
      rw [hrun', Disk.tree_setTree_self]
      have hlower := hfirst.lower
      obtain ⟨i, rfl⟩ : ∃ i, j = i + 4 := ⟨j - 4, by omega⟩
      rw [Nat.add_sub_cancel]
      rfl
  · refine Or.inr ⟨j, msg, hfirst.wider (by omega), ?_⟩
    rw [run_andThen_error _ hrun]
    change d₁.tree .root = _
    rw [hroot]
    have hupper := hfirst.upper
    rcases (by omega : j = 0 ∨ j = 1 ∨ j = 2 ∨ j = 3) with rfl | rfl | rfl | rfl <;> rfl

end Rollback

section PartialTrees

theorem writes_documents (t : GraphTree J G) (vs : List GraphVariable) (doc : MetaDoc) (r : ℕ) :
    t.writes (([.vars vs, .metaFile doc] : List (FileWrite J)).take r) =
      { t with
        vars := if r = 0 then t.vars else some vs
        metaFile := if r ≤ 1 then t.metaFile else some (some doc) } := by
  match r with
  | 0 => rfl
  | 1 => rfl
  | r + 2 =>
    rw [List.take_of_length_le (by simp), if_neg (by omega), if_neg (by omega)]
    rfl

/-- The tree after the first `q` files of a graph were written into empty directories. -/
theorem cleared_writes_take (t : GraphTree J G) (g : PersistedGraph J) (q : ℕ) :
    t.cleared.writes ((graphWrites g).take q) =
      { metaFile := if q ≤ g.nodes.length + g.edges.length + 1 then t.metaFile
          else some (some (metaDoc g))
        vars := if q ≤ g.nodes.length + g.edges.length then t.vars else some (g.vars.getD [])
        dirs
          | .nodes => some (filesOf (g.nodes.take q))
          | .edges => some (filesOf (g.edges.take (q - g.nodes.length)))
        git := t.git } := by
  have hsplit : (graphWrites g).take q =
      ((g.nodes.take q).map (FileWrite.entity .nodes) ++
        (g.edges.take (q - g.nodes.length)).map (FileWrite.entity .edges)) ++
      ([.vars (g.vars.getD []), .metaFile (metaDoc g)] : List (FileWrite J)).take
        (q - (g.nodes.length + g.edges.length)) := by
    have hlen : (entityWrites g).length = g.nodes.length + g.edges.length := by
      simp only [entityWrites, List.length_append, List.length_map]
      rfl
    rw [graphWrites, List.take_append, hlen, entityWrites, List.take_append, List.length_map,
      List.map_take, List.map_take]
    rfl
  rw [hsplit, writes_append, writes_documents]
  have hentities := cleared_writes t (fun
    | .nodes => g.nodes.take q
    | .edges => g.edges.take (q - g.nodes.length))
  dsimp only at hentities
  rw [hentities]
  congr 1
  · have hiff : q - (g.nodes.length + g.edges.length) ≤ 1 ↔
        q ≤ g.nodes.length + g.edges.length + 1 := by omega
    simp only [hiff]
  · have hiff : q - (g.nodes.length + g.edges.length) = 0 ↔
        q ≤ g.nodes.length + g.edges.length := by omega
    simp only [hiff]
  · funext dir
    cases dir <;> rfl

/-- What is read of the files written so far. -/
theorem readDir_filesOf {t : GraphTree J G} (dir : EntityDir) {es : List (Entity J dir)}
    (h : t.dirs dir = some (filesOf es)) (hids : ∀ e ∈ es, e.id ≠ "")
    (hnodup : (es.map Entity.id).Nodup) : readDir t dir = (es, false) := by
  unfold readDir
  rw [h]
  dsimp only
  rw [collect_canonical (canonical_filesOf es hids), stored_filesOf es hnodup]

variable {t : GraphTree J G} {name nowIso : String} {g : PersistedGraph J}

/-- The first `q` files of a stored graph, over a tree from which it was read. -/
theorem shows_writes_take (h : StoredAs t name nowIso g) (q : ℕ) :
    Shows (t.cleared.writes ((graphWrites g).take q)) g (g.nodes.take q)
      (g.edges.take (q - g.nodes.length)) := by
  have hshows := shows_of_read h.read
  obtain ⟨doc, hdoc, hversion⟩ := hshows.meta_doc
  rw [cleared_writes_take]
  refine ⟨?_, ?_, ?_, ?_⟩
  · dsimp only
    split
    · exact ⟨doc, hdoc, hversion⟩
    · exact ⟨metaDoc g, rfl, rfl⟩
  · refine readDir_filesOf .nodes rfl ?_ ?_
    · exact fun e he => h.hasIds .nodes e (List.mem_of_mem_take he)
    · exact (h.nodup .nodes).sublist ((List.take_sublist q _).map _)
  · refine readDir_filesOf .edges rfl ?_ ?_
    · exact fun e he => h.hasIds .edges e (List.mem_of_mem_take he)
    · exact (h.nodup .edges).sublist ((List.take_sublist _ _).map _)
  · dsimp only
    split
    · exact hshows.vars
    · exact h.vars

/-- All files of a stored graph, over any tree or none. -/
theorem shows_writes (h : StoredAs t name nowIso g) (t' : GraphTree J G) :
    Shows (t'.cleared.writes (graphWrites g)) g g.nodes g.edges := by
  rw [cleared_graphWrites]
  refine ⟨⟨metaDoc g, rfl, rfl⟩, ?_, ?_, h.vars⟩
  · exact readDir_filesOf .nodes rfl (h.hasIds .nodes) (h.nodup .nodes)
  · exact readDir_filesOf .edges rfl (h.hasIds .edges) (h.nodup .edges)

theorem Shows.rmIn_nodes {ns : List (PersistedGraphNode J)} {es : List PersistedGraphEdge}
    (h : Shows t g ns es) : Shows (t.rmIn .nodes) g [] es :=
  ⟨h.meta_doc, rfl, h.edges, h.vars⟩

theorem Shows.mkdirIn_nodes {es : List PersistedGraphEdge} (h : Shows (t.rmIn .nodes) g [] es) :
    Shows ((t.rmIn .nodes).mkdirIn .nodes) g [] es :=
  ⟨h.meta_doc, rfl, h.edges, h.vars⟩

theorem Shows.rmIn_edges {ns : List (PersistedGraphNode J)} {es : List PersistedGraphEdge}
    (h : Shows t g ns es) : Shows (t.rmIn .edges) g ns [] :=
  ⟨h.meta_doc, h.nodes, rfl, h.vars⟩

theorem perm_take_iff {α : Type} (l : List α) (q : ℕ) : (l.take q).Perm l ↔ l.length ≤ q := by
  constructor
  · intro hperm
    have hlen := hperm.length_eq
    rw [List.length_take] at hlen
    omega
  · intro hle
    rw [List.take_of_length_le hle]

/-- The rollback operation at which a failure does no harm: the first, or one before which
everything removed was empty or is written again. -/
def HarmlessAt (g : PersistedGraph J) (j : ℕ) : Prop :=
  j = 0 ∨ (j ≤ 2 ∧ g.nodes = []) ∨ (g.nodes = [] ∧ g.edges = []) ∨
    4 + 3 * (g.nodes.length + g.edges.length) ≤ j

/-- A rollback that fails with the old root in place. -/
theorem partlyRestored_unchanged_iff (h : StoredAs t name nowIso g) {d : Disk J G} {j : ℕ}
    (hroot : d.tree .root = partlyRestored (some t) (graphWrites g) j) (later : String) :
    Unchanged d name later g ↔ HarmlessAt g j := by
  have hshows := shows_of_read h.read
  unfold HarmlessAt
  match j with
  | 0 =>
    rw [hshows.unchanged_iff hroot]
    simp
  | 1 =>
    rw [hshows.rmIn_nodes.unchanged_iff hroot, List.nil_perm, and_iff_left (List.Perm.refl _)]
    simp only [← List.length_eq_zero_iff]
    omega
  | 2 =>
    rw [hshows.rmIn_nodes.mkdirIn_nodes.unchanged_iff hroot, List.nil_perm,
      and_iff_left (List.Perm.refl _)]
    simp only [← List.length_eq_zero_iff]
    omega
  | 3 =>
    rw [hshows.rmIn_nodes.mkdirIn_nodes.rmIn_edges.unchanged_iff hroot, List.nil_perm,
      List.nil_perm]
    simp only [← List.length_eq_zero_iff]
    omega
  | j + 4 =>
    rw [(shows_writes_take h (j / 3)).unchanged_iff hroot, perm_take_iff, perm_take_iff]
    simp only [← List.length_eq_zero_iff]
    omega

/-- A rollback that fails with no root in place has written no meta file yet. -/
theorem partlyRestored_none {d : Disk J G} {j : ℕ}
    (hj : j < 4 + 3 * (graphWrites g).length)
    (hroot : d.tree .root = partlyRestored none (graphWrites g) j) (later : String) :
    ¬ Unchanged d name later g := by
  have hmeta : (d.tree .root).bind GraphTree.metaFile = none := by
    rw [hroot]
    match j with
    | 0 => rfl
    | 1 => rfl
    | 2 => rfl
    | 3 => rfl
    | j + 4 =>
      rw [length_graphWrites] at hj
      change (GraphTree.empty.cleared.writes ((graphWrites g).take (j / 3)) :
        GraphTree J G).metaFile = none
      rw [cleared_writes_take, if_pos (by omega)]
      rfl
  intro h
  obtain ⟨g', hread, -⟩ := (unchanged_iff_read d name later g).mp h
  obtain ⟨t, ht⟩ : ∃ t, d.tree .root = some t := by
    cases ht : d.tree .root with
    | none =>
      rw [ht] at hread
      cases hread
    | some t => exact ⟨t, rfl⟩
  rw [ht] at hread hmeta
  obtain ⟨doc, hdoc, -⟩ := (shows_of_read hread).meta_doc
  rw [Option.bind_some, hdoc] at hmeta
  cases hmeta

end PartialTrees

end Agyn
