import Agyn.GraphStoreReads
import Mathlib.Data.List.Perm.Subperm

/-!
What writing a list of files into a tree does, also when one of the operations
fails: the files before the failing one are written, the others are not. From
this, the tree that an upsert stages, and what reading it returns.
-/
namespace Agyn

open Prog FsGraphRepository

variable {J G : Type}

section Failures

variable (fails : Label → Option String)

/-- No operation of a part numbered from `s` up to `e` fails. -/
def NoneFail (site : Site) (s e : ℕ) : Prop := ∀ j, s ≤ j → j < e → fails ⟨site, j⟩ = none

/-- Operation `j` is the first of those from `s` up to `e` that fails. -/
structure FirstFails (site : Site) (s e j : ℕ) (msg : String) : Prop where
  lower : s ≤ j
  upper : j < e
  hit : fails ⟨site, j⟩ = some msg
  before : NoneFail fails site s j

variable {fails}

theorem NoneFail.trans {site : Site} {s m e : ℕ} (h : NoneFail fails site s m)
    (h' : NoneFail fails site m e) : NoneFail fails site s e := by
  intro j hs he
  by_cases hj : j < m
  · exact h j hs hj
  · exact h' j (by omega) he

theorem FirstFails.after {site : Site} {s m e j : ℕ} {msg : String}
    (h : NoneFail fails site s m) (hsm : s ≤ m) (h' : FirstFails fails site m e j msg) :
    FirstFails fails site s e j msg where
  lower := Nat.le_trans hsm h'.lower
  upper := h'.upper
  hit := h'.hit
  before := h.trans h'.before

theorem FirstFails.wider {site : Site} {s e e' j : ℕ} {msg : String}
    (h : FirstFails fails site s e j msg) (he : e ≤ e') : FirstFails fails site s e' j msg :=
  ⟨h.lower, Nat.lt_of_lt_of_le h.upper he, h.hit, h.before⟩

theorem FirstFails.not_noneFail {site : Site} {s e j : ℕ} {msg : String}
    (h : FirstFails fails site s e j msg) : ¬ NoneFail fails site s e := by
  intro hnone
  have hj := hnone j h.lower h.upper
  rw [h.hit] at hj
  cases hj

theorem noneFail_or_firstFails (fails : Label → Option String) (site : Site) (s n : ℕ) :
    NoneFail fails site s (s + n) ∨ ∃ j msg, FirstFails fails site s (s + n) j msg := by
  induction n with
  | zero => exact Or.inl fun j hs he => by omega
  | succ n ih =>
    rcases ih with hnone | ⟨j, msg, hfirst⟩
    · cases hlast : fails ⟨site, s + n⟩ with
      | none =>
        refine Or.inl (hnone.trans fun j hs he => ?_)
        have hj : j = s + n := by omega
        rw [hj]
        exact hlast
      | some msg => exact Or.inr ⟨s + n, msg, by omega, by omega, hlast, hnone⟩
    · exact Or.inr ⟨j, msg, hfirst.wider (by omega)⟩

theorem mutate_ok {site : Site} {step : ℕ} (h : fails ⟨site, step⟩ = none)
    (o : FsOp J (Except String Unit)) (d : Disk J G) :
    (mutate site step o).run (faulty fails) d = o.exec d := faulty_none h o d

theorem mutate_error {site : Site} {step : ℕ} {msg : String} (h : fails ⟨site, step⟩ = some msg)
    {o : FsOp J (Except String Unit)} (ho : o.failed msg = some (.error msg)) (d : Disk J G) :
    (mutate site step o).run (faulty fails) d = (.error msg, d) := faulty_some h ho d

end Failures

namespace GraphTree

/-- The tree after writing one file, whose directory is made when it is missing. -/
def write (t : GraphTree J G) : FileWrite J → GraphTree J G
  | .metaFile doc => { t with metaFile := some (some doc) }
  | .vars vs => { t with vars := some vs }
  | .entity dir e => { t with
      dirs := Function.update t.dirs dir
        (some (((t.dirs dir).getD .empty).set e.fileName (some e))) }

def writes (t : GraphTree J G) (ws : List (FileWrite J)) : GraphTree J G := ws.foldl write t

def HasDirs (t : GraphTree J G) : Prop := ∀ dir, ∃ files, t.dirs dir = some files

theorem mkdirIn_eq {t : GraphTree J G} {dir : EntityDir} {files : EntityFiles J dir}
    (h : t.dirs dir = some files) : t.mkdirIn dir = t := by
  obtain ⟨metaFile, vars, dirs, git⟩ := t
  change GraphTree.mk metaFile vars (Function.update dirs dir (some ((dirs dir).getD .empty))) git =
    _
  have hdir : some ((dirs dir).getD .empty) = dirs dir := by
    rw [show dirs dir = some files from h]
    rfl
  rw [hdir, Function.update_eq_self]

theorem HasDirs.mkdirFor {t : GraphTree J G} (h : t.HasDirs) (w : FileWrite J) :
    t.mkdirFor w = t := by
  cases w with
  | metaFile doc => rfl
  | vars vs => rfl
  | entity dir e =>
    obtain ⟨files, hfiles⟩ := h dir
    exact mkdirIn_eq hfiles

theorem HasDirs.put {t : GraphTree J G} (h : t.HasDirs) (w : FileWrite J) :
    t.put w = some (t.write w) := by
  cases w with
  | metaFile doc => rfl
  | vars vs => rfl
  | entity dir e =>
    obtain ⟨files, hfiles⟩ := h dir
    rw [GraphTree.put, GraphTree.write, hfiles]
    rfl

theorem HasDirs.write {t : GraphTree J G} (h : t.HasDirs) (w : FileWrite J) :
    (t.write w).HasDirs := by
  intro dir'
  cases w with
  | metaFile doc => exact h dir'
  | vars vs => exact h dir'
  | entity dir e =>
    by_cases hdir : dir' = dir
    · subst hdir
      exact ⟨_, Function.update_self dir' _ t.dirs⟩
    · obtain ⟨files, hfiles⟩ := h dir'
      exact ⟨files, by rw [← hfiles]; exact Function.update_of_ne hdir _ t.dirs⟩

end GraphTree

namespace Disk

theorem setTree_setTree (d : Disk J G) (p : Place) (t t' : GraphTree J G) :
    (d.setTree p t).setTree p t' = d.setTree p t' := by
  rw [setTree, setTree, setTree, InsMap.set_set]

theorem setTree_tree {d : Disk J G} {p : Place} {t : GraphTree J G} (h : d.tree p = some t) :
    d.setTree p t = d := by
  rw [setTree, InsMap.set_get h]

theorem mkdir_of_tree {d : Disk J G} {p : Place} {t : GraphTree J G} (h : d.tree p = some t)
    (f : GraphTree J G → GraphTree J G) : d.mkdir p f = d.setTree p (f t) := by
  rw [mkdir, h]
  rfl

end Disk

section WriteAll

variable (fails : Label → Option String)

theorem writeYamlAtBase_run (site : Site) (p : Place) (step : ℕ) (w : FileWrite J)
    {d : Disk J G} {t : GraphTree J G} (ht : d.tree p = some t) (hdirs : t.HasDirs) :
    (NoneFail fails site step (step + 3) ∧
      (writeYamlAtBase site p step w).run (faulty fails) d = (.ok (), d.setTree p (t.write w))) ∨
    ∃ j msg, FirstFails fails site step (step + 3) j msg ∧
      (writeYamlAtBase site p step w).run (faulty fails) d = (.error msg, d) := by
  have hmkdir : (FsOp.mkdirFor p w).exec d = (.ok (), d) := by
    rw [FsOp.exec, Disk.mkdir_of_tree ht, hdirs.mkdirFor w, Disk.setTree_tree ht]
  have htemp : (FsOp.writeTemp p w).exec d = (.ok (), d) := rfl
  have hcommit : (FsOp.commitTemp p w).exec d = (.ok (), d.setTree p (t.write w)) := by
    rw [FsOp.exec, Disk.commitTemp, ht, Option.bind_some, hdirs.put w]
  unfold writeYamlAtBase
  rcases noneFail_or_firstFails fails site step 3 with hnone | ⟨j, msg, hfirst⟩
  · refine Or.inl ⟨hnone, ?_⟩
    rw [run_andThen_ok _ ((mutate_ok (hnone step (Nat.le_refl step) (by omega)) _ d).trans hmkdir),
      run_andThen_ok _ ((mutate_ok (hnone (step + 1) (by omega) (by omega)) _ d).trans htemp),
      mutate_ok (hnone (step + 2) (by omega) (by omega)), hcommit]
  · refine Or.inr ⟨j, msg, hfirst, ?_⟩
    have hlower := hfirst.lower
    have hupper := hfirst.upper
    have hbefore := hfirst.before
    rcases (by omega : j = step ∨ j = step + 1 ∨ j = step + 2) with rfl | rfl | rfl
    · exact run_andThen_error _ (mutate_error hfirst.hit rfl d)
    · rw [run_andThen_ok _
        ((mutate_ok (hbefore step (Nat.le_refl step) (by omega)) _ d).trans hmkdir)]
      exact run_andThen_error _ (mutate_error hfirst.hit rfl d)
    · rw [run_andThen_ok _
          ((mutate_ok (hbefore step (Nat.le_refl step) (by omega)) _ d).trans hmkdir),
        run_andThen_ok _ ((mutate_ok (hbefore (step + 1) (by omega) (by omega)) _ d).trans htemp)]
      exact mutate_error hfirst.hit rfl d

/-- Either nothing fails and all files are written, or the first failure ends the writing
with the files before it in place; each file takes three operations. -/
theorem writeAll_run (site : Site) (p : Place) (ws : List (FileWrite J)) (step : ℕ)
    {d : Disk J G} {t : GraphTree J G} (ht : d.tree p = some t) (hdirs : t.HasDirs) :
    (NoneFail fails site step (step + 3 * ws.length) ∧
      (writeAll site p step ws).run (faulty fails) d = (.ok (), d.setTree p (t.writes ws))) ∨
    ∃ j msg, FirstFails fails site step (step + 3 * ws.length) j msg ∧
      (writeAll site p step ws).run (faulty fails) d =
        (.error msg, d.setTree p (t.writes (ws.take ((j - step) / 3)))) := by
  induction ws generalizing step d t with
  | nil =>
    refine Or.inl ⟨fun j hs he => by simp at he; omega, ?_⟩
    change (Except.ok (), d) = _
    rw [GraphTree.writes, List.foldl_nil, Disk.setTree_tree ht]
  | cons w rest ih =>
    rw [writeAll]
    rw [List.length_cons]
    rcases writeYamlAtBase_run fails site p step w ht hdirs with
      ⟨hnone, hrun⟩ | ⟨j, msg, hfirst, hrun⟩
    · rw [run_andThen_ok _ hrun]
      have hnext := ih (step + 3) (Disk.tree_setTree_self d p (t.write w)) (hdirs.write w)
      rw [Disk.setTree_setTree] at hnext
      rcases hnext with ⟨hrest, hrun'⟩ | ⟨j, msg, hfirst, hrun'⟩
      · refine Or.inl ⟨hnone.trans ?_, hrun'⟩
        have hlen : step + 3 + 3 * rest.length = step + 3 * (rest.length + 1) := by omega
        rw [← hlen]
        exact hrest
      · have hlen : step + 3 + 3 * rest.length = step + 3 * (rest.length + 1) := by omega
        rw [hlen] at hfirst
        refine Or.inr ⟨j, msg, hfirst.after hnone (by omega), ?_⟩
        have hlower := hfirst.lower
        have hquot : (j - step) / 3 = (j - (step + 3)) / 3 + 1 := by omega
        rw [hrun', Disk.setTree_setTree, hquot, List.take_succ_cons]
        rfl
    · refine Or.inr ⟨j, msg, hfirst.wider (by omega), ?_⟩
      have hupper := hfirst.upper
      have hlower := hfirst.lower
      have hquot : (j - step) / 3 = 0 := by omega
      rw [run_andThen_error _ hrun, hquot, List.take_zero, GraphTree.writes, List.foldl_nil,
        Disk.setTree_tree ht]

end WriteAll

section WrittenTree

/-- The files of some entities; entities with one id share a file, and the last one wins. -/
def filesOf {dir : EntityDir} (es : List (Entity J dir)) : EntityFiles J dir :=
  InsMap.ofEntries (es.map fun e => (e.fileName, some e))

def GraphTree.cleared (t : GraphTree J G) : GraphTree J G := { t with dirs := fun _ => some .empty }

theorem GraphTree.cleared_hasDirs (t : GraphTree J G) : t.cleared.HasDirs := fun _ => ⟨_, rfl⟩

theorem writes_append (t : GraphTree J G) (ws ws' : List (FileWrite J)) :
    t.writes (ws ++ ws') = (t.writes ws).writes ws' := List.foldl_append

theorem writes_entities (t : GraphTree J G) (dir : EntityDir) (es : List (Entity J dir))
    (files : EntityFiles J dir) (h : t.dirs dir = some files) :
    t.writes (es.map (FileWrite.entity dir)) = { t with
      dirs := Function.update t.dirs dir
        (some ((es.map fun e => (e.fileName, some e)).foldl (fun m e => m.set e.1 e.2)
          files)) } := by
  induction es generalizing t files with
  | nil =>
    obtain ⟨metaFile, vars, dirs, git⟩ := t
    change GraphTree.mk metaFile vars dirs git = GraphTree.mk metaFile vars
      (Function.update dirs dir (some files)) git
    rw [← show dirs dir = some files from h, Function.update_eq_self]
  | cons e rest ih =>
    have hwrite : (t.write (.entity dir e)).dirs dir = some (files.set e.fileName (some e)) := by
      rw [GraphTree.write, h]
      exact Function.update_self dir _ t.dirs
    change (t.write (.entity dir e)).writes (rest.map (FileWrite.entity dir)) = _
    rw [ih _ _ hwrite, GraphTree.write, Function.update_idem]
    rfl

/-- Writing nodes and edges into empty directories. -/
theorem cleared_writes (t : GraphTree J G) (es : (dir : EntityDir) → List (Entity J dir)) :
    t.cleared.writes ((es .nodes).map (.entity .nodes) ++ (es .edges).map (.entity .edges)) =
      { t with dirs := fun dir => some (filesOf (es dir)) } := by
  rw [writes_append, writes_entities t.cleared .nodes (es .nodes) .empty rfl,
    writes_entities _ .edges (es .edges) .empty rfl]
  congr 1
  funext dir
  cases dir <;> rfl

def stagedTree (g : PersistedGraph J) : GraphTree J G where
  metaFile := some (some (metaDoc g))
  vars := some (g.vars.getD [])
  dirs dir := some (filesOf (g.entities dir))
  git := none

theorem cleared_graphWrites (t : GraphTree J G) (g : PersistedGraph J) :
    t.cleared.writes (graphWrites g) = { (stagedTree g : GraphTree J G) with git := t.git } := by
  rw [graphWrites, entityWrites, writes_append, cleared_writes]
  rfl

theorem length_graphWrites (g : PersistedGraph J) :
    (graphWrites g).length = g.nodes.length + g.edges.length + 2 := by
  simp [graphWrites, entityWrites]
  rfl

theorem canonical_filesOf {dir : EntityDir} (es : List (Entity J dir))
    (hid : ∀ e ∈ es, e.id ≠ "") : CanonicalFiles (filesOf es) := by
  intro file content h
  obtain ⟨e, he, heq⟩ := List.mem_map.mp (InsMap.mem_of_get_ofEntries _ _ _ h)
  obtain ⟨hfile, hcontent⟩ := Prod.mk.inj heq
  exact ⟨e, hcontent.symm, hid e he, hfile.symm⟩

theorem map_fileName_nodup {dir : EntityDir} {es : List (Entity J dir)} :
    (es.map Entity.fileName).Nodup ↔ (es.map Entity.id).Nodup := by
  unfold List.Nodup
  rw [List.pairwise_map, List.pairwise_map]
  constructor
  · refine List.Pairwise.imp fun hne hid => hne ?_
    rw [Entity.fileName, Entity.fileName, hid]
  · exact List.Pairwise.imp fun hne hfile => hne (Entity.fileName_injective hfile)

theorem stored_filesOf {dir : EntityDir} (es : List (Entity J dir))
    (hnodup : (es.map Entity.id).Nodup) : stored (filesOf es) = es := by
  have hentries : (filesOf es).entries = es.map fun e => (e.fileName, some e) := by
    apply InsMap.ofEntries_entries
    rw [List.map_map]
    exact map_fileName_nodup.mpr hnodup
  rw [stored, InsMap.values, hentries, List.map_map, List.filterMap_map]
  exact List.filterMap_some

/-- Entities that share an id do not all come back. -/
theorem stored_filesOf_length {dir : EntityDir} (es : List (Entity J dir))
    (h : (stored (filesOf es)).length = es.length) : (es.map Entity.id).Nodup := by
  have hle : (stored (filesOf es)).length ≤ (filesOf es).keys.length := by
    have hfilter := List.length_filterMap_le id (filesOf es).values
    rw [InsMap.values, List.length_map] at hfilter
    rw [InsMap.keys, List.length_map]
    exact hfilter
  have hsub : (filesOf es).keys ⊆ es.map Entity.fileName := by
    intro file hfile
    have hmem := (InsMap.mem_keys_ofEntries _ file).mp hfile
    rw [List.map_map] at hmem
    exact hmem
  rw [← map_fileName_nodup]
  -- as many distinct keys as entities: no file name occurs twice
  have hperm : ((filesOf es).keys).Perm (es.map Entity.fileName) := by
    apply (List.Nodup.subperm (filesOf es).nodup hsub).perm_of_length_le
    change (es.map Entity.fileName).length ≤ (filesOf es).keys.length
    rw [List.length_map]
    omega
  exact hperm.nodup_iff.mp (filesOf es).nodup

end WrittenTree

end Agyn
