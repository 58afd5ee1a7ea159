import Agyn.GraphStoreWrites

/-!
Staging a graph and swapping it in. The staging tree is built beside the root, so
whatever fails there leaves the root alone. On a working file system an upsert
either changes nothing, because the stored graph cannot be read or the plan is
refused, or it replaces the root by the staged tree and keeps the `.git` entry.
-/
namespace Agyn

open Prog FsGraphRepository

variable {J G : Type}

section Staging

variable (fails : Label → Option String)

theorem empty_mkdirIn_mkdirIn :
    ((GraphTree.empty : GraphTree J G).mkdirIn .nodes).mkdirIn .edges =
      GraphTree.empty.cleared := by
  rw [GraphTree.mkdirIn, GraphTree.mkdirIn, GraphTree.cleared]
  congr 1
  funext dir
  cases dir <;> rfl

theorem Disk.mkdir_of_none {d : Disk J G} {p : Place} (h : d.tree p = none)
    (f : GraphTree J G → GraphTree J G) : d.mkdir p f = d.setTree p (f .empty) := by
  rw [Disk.mkdir, h]
  rfl

theorem Disk.mkdir_setTree (d : Disk J G) (p : Place) (t : GraphTree J G)
    (f : GraphTree J G → GraphTree J G) : (d.setTree p t).mkdir p f = d.setTree p (f t) := by
  rw [Disk.mkdir_of_tree (Disk.tree_setTree_self d p t), Disk.setTree_setTree]

/-- Staging a graph succeeds with the whole tree, or fails and touches no other tree. -/
theorem createStagingTree_run (id : String) (g : PersistedGraph J) {d : Disk J G}
    (hfresh : d.tree (.staging id) = none) :
    (NoneFail fails .staging 0 (4 + 3 * (graphWrites g).length) ∧
      (createStagingTree id g).run (faulty fails) d =
        (.ok (), d.setTree (.staging id) (stagedTree g))) ∨
    ∃ j msg d', FirstFails fails .staging 0 (4 + 3 * (graphWrites g).length) j msg ∧
      (createStagingTree id g).run (faulty fails) d = (.error msg, d') ∧
      ∀ p, p ≠ .staging id → d'.tree p = d.tree p := by
  have hparent : (FsOp.mkdirParent : FsOp J _).exec d = (.ok (), d) := rfl
  have hmkdir : (FsOp.mkdir (.staging id) : FsOp J _).exec d =
      (.ok (), d.setTree (.staging id) .empty) := by
    rw [FsOp.exec, Disk.mkdir_of_none hfresh]
    rfl
  have hnodes : (FsOp.mkdirIn (.staging id) .nodes : FsOp J _).exec
      (d.setTree (.staging id) .empty) =
        (.ok (), d.setTree (.staging id) (GraphTree.empty.mkdirIn .nodes)) := by
    rw [FsOp.exec, Disk.mkdir_setTree]
  have hedges : (FsOp.mkdirIn (.staging id) .edges : FsOp J _).exec
      (d.setTree (.staging id) (GraphTree.empty.mkdirIn .nodes)) =
        (.ok (), d.setTree (.staging id) GraphTree.empty.cleared) := by
    rw [FsOp.exec, Disk.mkdir_setTree, empty_mkdirIn_mkdirIn]
  have hother : ∀ (t : GraphTree J G) p, p ≠ .staging id →
      (d.setTree (.staging id) t).tree p = d.tree p := by
    intro t p hp
    rw [Disk.tree_setTree, if_neg hp]
  have hall : d.setTree (.staging id) (GraphTree.empty.cleared.writes (graphWrites g)) =
      d.setTree (.staging id) (stagedTree g) := by
    rw [cleared_graphWrites]
    rfl
  unfold createStagingTree
  rcases noneFail_or_firstFails fails .staging 0 4 with hfour | ⟨j, msg, hfirst⟩
  · rw [run_andThen_ok _ ((mutate_ok (hfour 0 (by omega) (by omega)) _ d).trans hparent),
      run_andThen_ok _ ((mutate_ok (hfour 1 (by omega) (by omega)) _ d).trans hmkdir),
      run_andThen_ok _ ((mutate_ok (hfour 2 (by omega) (by omega)) _ _).trans hnodes),
      run_andThen_ok _ ((mutate_ok (hfour 3 (by omega) (by omega)) _ _).trans hedges)]
    rcases writeAll_run fails .staging (.staging id) (graphWrites g) 4
      (Disk.tree_setTree_self d _ _) GraphTree.empty.cleared_hasDirs with
        ⟨hnone, hrun⟩ | ⟨j, msg, hfirst, hrun⟩
    · refine Or.inl ⟨hfour.trans hnone, ?_⟩
      rw [hrun, Disk.setTree_setTree, hall]
    · refine Or.inr ⟨j, msg, _, hfirst.after hfour (by omega), hrun, ?_⟩
      intro p hp
      rw [Disk.setTree_setTree]
      exact hother _ p hp
  · have hwide : FirstFails fails .staging 0 (4 + 3 * (graphWrites g).length) j msg :=
      hfirst.wider (by omega)
    have hupper := hfirst.upper
    have hbefore := hfirst.before
    rcases (by omega : j = 0 ∨ j = 1 ∨ j = 2 ∨ j = 3) with rfl | rfl | rfl | rfl
    · exact Or.inr ⟨0, msg, d, hwide, run_andThen_error _ (mutate_error hfirst.hit rfl d),
        fun _ _ => rfl⟩
    · refine Or.inr ⟨1, msg, d, hwide, ?_, fun _ _ => rfl⟩
      rw [run_andThen_ok _ ((mutate_ok (hbefore 0 (by omega) (by omega)) _ d).trans hparent)]
      exact run_andThen_error _ (mutate_error hfirst.hit rfl d)
    · refine Or.inr ⟨2, msg, _, hwide, ?_, hother .empty⟩
      rw [run_andThen_ok _ ((mutate_ok (hbefore 0 (by omega) (by omega)) _ d).trans hparent),
        run_andThen_ok _ ((mutate_ok (hbefore 1 (by omega) (by omega)) _ d).trans hmkdir)]
      exact run_andThen_error _ (mutate_error hfirst.hit rfl _)
    · refine Or.inr ⟨3, msg, _, hwide, ?_, hother (GraphTree.empty.mkdirIn .nodes)⟩
      rw [run_andThen_ok _ ((mutate_ok (hbefore 0 (by omega) (by omega)) _ d).trans hparent),
        run_andThen_ok _ ((mutate_ok (hbefore 1 (by omega) (by omega)) _ d).trans hmkdir),
        run_andThen_ok _ ((mutate_ok (hbefore 2 (by omega) (by omega)) _ _).trans hnodes)]
      exact run_andThen_error _ (mutate_error hfirst.hit rfl _)

end Staging

section Swapping

theorem Disk.rename_of_none {d : Disk J G} {src dst : Place} {t : GraphTree J G}
    (hsrc : d.tree src = some t) (hdst : d.tree dst = none) :
    d.rename src dst = (.ok (), ((d.rm src).setTree dst t).noteInstall src dst t) := by
  rw [Disk.rename, hsrc, hdst]

theorem mutate_working (site : Site) (step : ℕ) (o : FsOp J (Except String Unit))
    (d : Disk J G) : (mutate site step o).run working d = o.exec d := rfl

def backedUp (d : Disk J G) (backup : Place) (old : GraphTree J G) : Disk J G :=
  (d.rm .root).setTree backup old

/-- The disk after the staged tree became the root. -/
def installed (d : Disk J G) (ctx : CallContext) (old new : GraphTree J G) : Disk J G :=
  (((backedUp d (.backup ctx.backupId) old).rm (.staging ctx.stagingId)).setTree .root
    new).noteInstall (.staging ctx.stagingId) .root new

/-- The two renames of a swap, when the old root and the staged tree are there. -/
structure Swappable (d : Disk J G) (ctx : CallContext) (old new : GraphTree J G) : Prop where
  root : d.tree .root = some old
  staging : d.tree (.staging ctx.stagingId) = some new
  backup : d.tree (.backup ctx.backupId) = none

namespace Swappable

variable {d : Disk J G} {ctx : CallContext} {old new : GraphTree J G}

theorem rename_root (h : Swappable d ctx old new) :
    d.rename .root (.backup ctx.backupId) = (.ok (), backedUp d (.backup ctx.backupId) old) :=
  Disk.rename_of_none h.root h.backup

theorem backedUp_root (d : Disk J G) (b : String) (old : GraphTree J G) :
    (backedUp d (.backup b) old).tree .root = none := by
  rw [backedUp, Disk.tree_setTree, if_neg (by simp), Disk.tree_rm_self]

theorem backedUp_staging (h : Swappable d ctx old new) :
    (backedUp d (.backup ctx.backupId) old).tree (.staging ctx.stagingId) = some new := by
  rw [backedUp, Disk.tree_setTree, if_neg (by simp), Disk.tree_rm, if_neg (by simp), h.staging]

theorem rename_staging (h : Swappable d ctx old new) :
    (backedUp d (.backup ctx.backupId) old).rename (.staging ctx.stagingId) .root =
      (.ok (), installed d ctx old new) :=
  Disk.rename_of_none h.backedUp_staging (backedUp_root d ctx.backupId old)

end Swappable

theorem installed_tree (d : Disk J G) (ctx : CallContext) (old new : GraphTree J G) (p : Place) :
    (installed d ctx old new).tree p =
      if p = .root then some new
      else if p = .staging ctx.stagingId then none
      else if p = .backup ctx.backupId then some old
      else d.tree p := by
  rw [installed, Disk.tree_noteInstall, Disk.tree_setTree, Disk.tree_rm, backedUp,
    Disk.tree_setTree, Disk.tree_rm]
  by_cases hroot : p = .root
  · rw [if_pos hroot, if_pos hroot]
  · simp [hroot]

/-- Moving the `.git` entry over touches no other part of the trees. -/
theorem restoreAuxiliaryEntries_working {d : Disk J G} {backup : Place} (hne : backup ≠ .root)
    {old new : GraphTree J G} (hbackup : d.tree backup = some old) (hroot : d.tree .root = some new)
    (hgit : new.git = none) :
    ∃ d', (restoreAuxiliaryEntries backup).run working d = ((), d') ∧
      d'.tree .root = some { new with git := old.git } ∧ d'.installs = d.installs ∧
      ∀ p, p ≠ .root → p ≠ backup → d'.tree p = d.tree p := by
  have hfound : (working _ ⟨.auxiliary, 0⟩ (FsOp.gitExists backup) d : Bool × Disk J G) =
      (old.git.isSome, d) := by
    change (((d.tree backup).bind GraphTree.git).isSome, d) = _
    rw [hbackup]
    rfl
  have hrm : (d.inside .root fun t => { t with git := none }) = d := by
    have hsame : ({ new with git := none } : GraphTree J G) = new := by rw [← hgit]
    rw [Disk.inside, hroot]
    dsimp only
    rw [hsame, Disk.setTree_tree hroot]
  unfold restoreAuxiliaryEntries
  rw [run_bind, run_ask, hfound]
  cases hold : old.git with
  | none =>
    refine ⟨d, rfl, ?_, rfl, fun _ _ _ => rfl⟩
    rw [hroot, ← hgit]
  | some git =>
    simp only [Option.isSome_some, if_true, run_bind, mutate_working, FsOp.exec, hrm, run_ret]
    have hmove : (d.renameGit backup .root).2 =
        (d.inside backup fun s => { s with git := none }).inside .root fun t =>
          { t with git := some git } := by
      rw [Disk.renameGit, hbackup, Option.bind_some, hold, hroot]
      simp only [hgit, Option.isSome_none, Bool.false_eq_true, if_false]
    refine ⟨_, rfl, ?_, ?_, ?_⟩
    · rw [hmove, Disk.tree_inside, if_pos rfl, Disk.tree_inside, if_neg (Ne.symm hne), hroot]
      rfl
    · rw [hmove]
      unfold Disk.inside
      rw [hbackup]
      dsimp only
      split <;> rfl
    · intro p hp hb
      rw [hmove, Disk.tree_inside, if_neg hp, Disk.tree_inside, if_neg hb]

end Swapping

section Committing

/-- The disk after a committed upsert: the staged tree is the root, with the old `.git`
entry, and nothing of the swap is left. -/
structure Committed (d : Disk J G) (ctx : CallContext) (target : PersistedGraph J)
    (old : GraphTree J G) (d' : Disk J G) : Prop where
  root : d'.tree .root = some { (stagedTree target : GraphTree J G) with git := old.git }
  staging : d'.tree (.staging ctx.stagingId) = none
  backup : d'.tree (.backup ctx.backupId) = none
  other : ∀ p, p ≠ .root → p ≠ .staging ctx.stagingId → p ≠ .backup ctx.backupId →
    d'.tree p = d.tree p
  installs : d'.installs = (ctx.stagingId, stagedTree target) :: d.installs

/-- The names drawn by a call are not in use. -/
structure FreshNames (d : Disk J G) (ctx : CallContext) : Prop where
  staging : d.tree (.staging ctx.stagingId) = none
  backup : d.tree (.backup ctx.backupId) = none

/-- The `try` block of a swap that gets through. -/
theorem swapSteps_working {d : Disk J G} {ctx : CallContext} {target : PersistedGraph J}
    {old : GraphTree J G} (h : Swappable d ctx old (stagedTree target)) :
    ∃ d', (swapSteps (.staging ctx.stagingId) (.backup ctx.backupId)).run working d =
        (⟨.ok (), true, true⟩, d') ∧
      d'.tree .root = some { (stagedTree target : GraphTree J G) with git := old.git } ∧
      d'.installs = (ctx.stagingId, stagedTree target) :: d.installs ∧
      ∀ p, p ≠ .root → p ≠ .staging ctx.stagingId → p ≠ .backup ctx.backupId →
        d'.tree p = d.tree p := by
  have hroot := installed_tree d ctx old (stagedTree target) .root
  have hbackup := installed_tree d ctx old (stagedTree target) (.backup ctx.backupId)
  simp only [if_true, reduceCtorEq, if_false] at hroot hbackup
  obtain ⟨d', hrun, hroot', hinstalls, hother⟩ :=
    restoreAuxiliaryEntries_working (by simp) hbackup hroot rfl
  refine ⟨d', ?_, hroot', hinstalls, ?_⟩
  · unfold swapSteps
    simp only [run_bind, mutate_working, FsOp.exec, h.rename_root, h.rename_staging, hrun, run_ret]
  · intro p hp hs hb
    rw [hother p hp hb, installed_tree, if_neg hp, if_neg hs, if_neg hb]

theorem swapWorkingTree_working {d : Disk J G} {ctx : CallContext} {target : PersistedGraph J}
    {old : GraphTree J G} (h : Swappable d ctx old (stagedTree target)) :
    ∃ d', (swapWorkingTree (.staging ctx.stagingId) (.backup ctx.backupId)).run working d =
        (.ok (), d') ∧ Committed d ctx target old d' := by
  obtain ⟨d₁, hsteps, hroot, hinstalls, hother⟩ := swapSteps_working h
  refine ⟨(d₁.rm (.staging ctx.stagingId)).rm (.backup ctx.backupId), ?_, ?_, ?_, ?_, ?_, hinstalls⟩
  · unfold swapWorkingTree
    rw [run_bind, hsteps]
    rfl
  · rw [Disk.tree_rm, if_neg (by simp), Disk.tree_rm, if_neg (by simp), hroot]
  · rw [Disk.tree_rm, if_neg (by simp), Disk.tree_rm_self]
  · rw [Disk.tree_rm_self]
  · intro p hp hs hb
    rw [Disk.tree_rm, if_neg hb, Disk.tree_rm, if_neg hs, hother p hp hs hb]

theorem createStagingTree_working (id : String) (g : PersistedGraph J) {d : Disk J G}
    (hfresh : d.tree (.staging id) = none) :
    (createStagingTree id g).run working d = (.ok (), d.setTree (.staging id) (stagedTree g)) := by
  rw [working_eq_faulty]
  rcases createStagingTree_run (fun _ => none) id g hfresh with
    ⟨-, hrun⟩ | ⟨j, msg, d', hfirst, -⟩
  · exact hrun
  · cases hfirst.hit

theorem swappable_staged {d : Disk J G} {ctx : CallContext} (target : PersistedGraph J)
    {old : GraphTree J G} (hroot : d.tree .root = some old) (hfresh : FreshNames d ctx) :
    Swappable (d.setTree (.staging ctx.stagingId) (stagedTree target)) ctx old
      (stagedTree target) := by
  refine ⟨?_, Disk.tree_setTree_self _ _ _, ?_⟩
  · rw [Disk.tree_setTree, if_neg (by simp), hroot]
  · rw [Disk.tree_setTree, if_neg (by simp), hfresh.backup]

theorem persistGraph_working {d : Disk J G} {ctx : CallContext} (target : PersistedGraph J)
    {old : GraphTree J G} (hroot : d.tree .root = some old) (hfresh : FreshNames d ctx) :
    ∃ d', (persistGraph ctx target).run working d = (.ok (), d') ∧
      Committed d ctx target old d' := by
  have hstage := createStagingTree_working ctx.stagingId target hfresh.staging
  have hswap := swappable_staged target hroot hfresh
  obtain ⟨d', hrun, hcommitted⟩ := swapWorkingTree_working hswap
  refine ⟨d', ?_, hcommitted.root, hcommitted.staging, hcommitted.backup, ?_,
    hcommitted.installs⟩
  · unfold persistGraph
    rw [run_andThen_ok _ hstage, run_bind, hrun]
    rfl
  · intro p hp hs hb
    rw [hcommitted.other p hp hs hb, Disk.tree_setTree, if_neg hs]

/-- What an upsert does on a working file system that has a graph root. -/
theorem upsertLocked_working (ctx : CallContext) (req : PersistedGraphUpsertRequest J)
    {d : Disk J G} {old : GraphTree J G} (hroot : d.tree .root = some old)
    (hfresh : FreshNames d ctx) :
    (∃ e, readTree (some old) req.name ctx.nowIso = .error e ∧
      (upsertLocked ctx req).run working d = (.error (.readError e), d)) ∨
    ∃ existing, readTree (some old) req.name ctx.nowIso = .ok existing ∧
      ((∃ e, planUpsert ctx.nowIso req existing = .error e ∧
        (upsertLocked ctx req).run working d = (.error e, d)) ∨
      ∃ target d', planUpsert ctx.nowIso req existing = .ok target ∧
        (upsertLocked ctx req).run working d = (.ok target, d') ∧
        Committed d ctx target old d') := by
  have hget : (FsGraphRepository.get req.name ctx.nowIso).run working d =
      (readTree (some old) req.name ctx.nowIso, d) := by
    rw [working_eq_faulty, get_run, hroot]
  unfold upsertLocked
  rw [run_bind, hget]
  cases hread : readTree (some old) req.name ctx.nowIso with
  | error e => exact Or.inl ⟨e, rfl, rfl⟩
  | ok existing =>
    refine Or.inr ⟨existing, rfl, ?_⟩
    dsimp only
    cases hplan : planUpsert ctx.nowIso req existing with
    | error e => exact Or.inl ⟨e, rfl, rfl⟩
    | ok target =>
      obtain ⟨d', hrun, hcommitted⟩ := persistGraph_working target hroot hfresh
      refine Or.inr ⟨target, d', rfl, ?_, hcommitted⟩
      dsimp only
      rw [run_bind, hrun]
      rfl

end Committing

end Agyn
