import Agyn.GraphRollback

/-!
Upserts that fail. A failure while staging leaves the root alone and one of the
swap is undone; only when the undo fails too is the root gone. The rollback then
runs in every case, also where the root still is the old tree, and its own
failures are swallowed.
-/
namespace Agyn

open Prog FsGraphRepository

variable {J G : Type}

section Failing

variable (fails : Label → Option String)

theorem FirstFails.unique {fails : Label → Option String} {site : Site} {s e j j' : ℕ}
    {msg msg' : String} (h : FirstFails fails site s e j msg)
    (h' : FirstFails fails site s e j' msg') : j = j' := by
  rcases Nat.lt_trichotomy j j' with hlt | heq | hgt
  · have hnone := h'.before j h.lower hlt
    rw [h.hit] at hnone
    cases hnone
  · exact heq
  · have hnone := h.before j' h'.lower hgt
    rw [h'.hit] at hnone
    cases hnone

/-- Removing a temporary directory does not touch the root. -/
theorem discardTempDir_root (step : ℕ) {p : Place} (hp : p ≠ .root) (d : Disk J G) :
    ((discardTempDir step p).run (faulty fails) d).2.tree .root = d.tree .root := by
  change ((mutate .discard step (.rm p)).run (faulty fails) d).2.tree .root = _
  cases hfail : fails ⟨.discard, step⟩ with
  | none =>
    rw [mutate_ok hfail, FsOp.exec, Disk.tree_rm, if_neg (Ne.symm hp)]
  | some msg => rw [mutate_error hfail rfl]

/-- The swap of a request with `n` files takes the root away and cannot put it back. -/
structure RootLost (n : ℕ) : Prop where
  staged : NoneFail fails .staging 0 (4 + 3 * n)
  renamed : NoneFail fails .swap 0 2
  failed : ∃ msg, fails ⟨.swap, 2⟩ = some msg
  undo : ∃ msg, fails ⟨.undo, 1⟩ = some msg

variable {d : Disk J G} {ctx : CallContext} {old new : GraphTree J G}

/-- The root that a swap leaves when operation `j` is the first of it to fail. -/
def undoneRoot (old : GraphTree J G) (j : ℕ) : Option (GraphTree J G) :=
  if j = 2 ∧ (fails ⟨.undo, 1⟩).isSome then none else some old

theorem undoSwap_run (backup : Place) {d : Disk J G}
    (hroot : d.tree .root = none) (hbackup : d.tree backup = some old) (e : String) :
    ((undoSwap backup ⟨.error e, true, false⟩).run (faulty fails) d).2.tree .root =
      undoneRoot fails old 2 := by
  change ((mutate .undo 1 (.rename backup .root)).run (faulty fails) d).2.tree .root = _
  unfold undoneRoot
  cases hfail : fails ⟨.undo, 1⟩ with
  | none =>
    rw [mutate_ok hfail, FsOp.exec, Disk.rename_of_none hbackup hroot, Disk.tree_noteInstall,
      Disk.tree_setTree_self, if_neg (by simp)]
  | some msg =>
    rw [mutate_error hfail rfl, hroot, if_pos (by simp)]

/-- The `try` block of a swap: it gets through, or the first failure ends it. -/
theorem swapSteps_run (h : Swappable d ctx old new) :
    (NoneFail fails .swap 0 3 ∧ ((swapSteps (.staging ctx.stagingId) (.backup ctx.backupId)).run
      (faulty fails) d).1 = ⟨.ok (), true, true⟩) ∨
    ∃ j msg, FirstFails fails .swap 0 3 j msg ∧
      (swapSteps (.staging ctx.stagingId) (.backup ctx.backupId)).run (faulty fails) d =
        if j = 2 then (⟨.error msg, true, false⟩, backedUp d (.backup ctx.backupId) old)
        else (⟨.error msg, false, false⟩, d) := by
  have hrename := h.rename_root
  have hinstall := h.rename_staging
  have hparent : (FsOp.mkdirParent : FsOp J _).exec d = (.ok (), d) := rfl
  rcases noneFail_or_firstFails fails .swap 0 3 with hnone | ⟨j, msg, hfirst⟩
  · refine Or.inl ⟨hnone, ?_⟩
    unfold swapSteps
    simp only [run_bind, mutate_ok (hnone 0 (by omega) (by omega)),
      mutate_ok (hnone 1 (by omega) (by omega)), mutate_ok (hnone 2 (by omega) (by omega)),
      FsOp.exec, hrename, hinstall, run_ret]
  · refine Or.inr ⟨j, msg, hfirst, ?_⟩
    have hupper := hfirst.upper
    have hbefore := hfirst.before
    unfold swapSteps
    rcases (by omega : j = 0 ∨ j = 1 ∨ j = 2) with rfl | rfl | rfl
    · rw [run_bind, mutate_error hfirst.hit rfl]
      rfl
    · rw [run_bind, mutate_ok (hbefore 0 (by omega) (by omega)), hparent]
      dsimp only
      rw [run_bind, mutate_error hfirst.hit rfl]
      rfl
    · rw [run_bind, mutate_ok (hbefore 0 (by omega) (by omega)), hparent]
      dsimp only
      rw [run_bind, mutate_ok (hbefore 1 (by omega) (by omega)), FsOp.exec, hrename]
      dsimp only
      rw [run_bind, mutate_error hfirst.hit rfl]
      rfl

theorem swapWorkingTree_run (h : Swappable d ctx old new) :
    (NoneFail fails .swap 0 3 ∧
      ((swapWorkingTree (.staging ctx.stagingId) (.backup ctx.backupId)).run (faulty fails) d).1 =
        .ok ()) ∨
    ∃ j msg d', FirstFails fails .swap 0 3 j msg ∧
      (swapWorkingTree (.staging ctx.stagingId) (.backup ctx.backupId)).run (faulty fails) d =
        (.error msg, d') ∧ d'.tree .root = undoneRoot fails old j := by
  unfold swapWorkingTree
  rw [run_bind]
  rcases swapSteps_run fails h with ⟨hnone, hrun⟩ | ⟨j, msg, hfirst, hrun⟩
  · refine Or.inl ⟨hnone, ?_⟩
    simp only [hrun, run_bind, run_ret]
  · refine Or.inr ⟨j, msg, ?_⟩
    have hstaging : Place.staging ctx.stagingId ≠ .root := by simp
    have hbackup : Place.backup ctx.backupId ≠ .root := by simp
    rw [hrun]
    by_cases hj : j = 2
    · subst hj
      simp only [if_true, run_bind, run_ret]
      refine ⟨_, hfirst, rfl, ?_⟩
      rw [discardTempDir_root fails 1 hbackup, discardTempDir_root fails 0 hstaging]
      exact undoSwap_run fails _ (Swappable.backedUp_root d ctx.backupId old)
        (Disk.tree_setTree_self _ _ _) msg
    · simp only [if_neg hj, run_bind, run_ret]
      refine ⟨_, hfirst, rfl, ?_⟩
      rw [discardTempDir_root fails 1 hbackup, discardTempDir_root fails 0 hstaging, undoneRoot,
        if_neg (fun hlost => hj hlost.1)]
      exact h.root

/-- Persisting a graph that fails leaves the old root in place, unless the root is lost. -/
theorem persistGraph_failed {target : PersistedGraph J} {msg : String} {d' : Disk J G}
    (hroot : d.tree .root = some old) (hfresh : FreshNames d ctx)
    (h : (persistGraph ctx target).run (faulty fails) d = (.error msg, d')) :
    (RootLost fails (graphWrites target).length ∧ d'.tree .root = none) ∨
      (¬ RootLost fails (graphWrites target).length ∧ d'.tree .root = some old) := by
  unfold persistGraph at h
  rcases createStagingTree_run fails ctx.stagingId target hfresh.staging with
    ⟨hstaged, hrun⟩ | ⟨j, msg', d₁, hfirst, hrun, hother⟩
  · rw [run_andThen_ok _ hrun, run_bind] at h
    have hswap := swappable_staged target hroot hfresh
    rcases swapWorkingTree_run fails hswap with ⟨-, hok⟩ | ⟨j, msg', d₁, hfirst, hrun', hroot'⟩
    · rw [hok] at h
      cases (Prod.mk.inj h).1
    · rw [hrun'] at h
      simp only [run_bind, run_ret] at h
      have hd' : d'.tree .root = undoneRoot fails old j := by
        rw [← (Prod.mk.inj h).2, discardTempDir_root fails 2 (by simp), hroot']
      by_cases hlost : j = 2 ∧ (fails ⟨.undo, 1⟩).isSome
      · refine Or.inl ⟨⟨hstaged, ?_, ?_, Option.isSome_iff_exists.mp hlost.2⟩, ?_⟩
        · rw [← hlost.1]
          exact hfirst.before
        · rw [← hlost.1]
          exact ⟨msg', hfirst.hit⟩
        · rw [hd', undoneRoot, if_pos hlost]
      · refine Or.inr ⟨fun hroot => hlost ?_, ?_⟩
        · obtain ⟨msg₂, hmsg₂⟩ := hroot.failed
          have hsecond : FirstFails fails .swap 0 3 2 msg₂ :=
            ⟨by omega, by omega, hmsg₂, hroot.renamed⟩
          exact ⟨hfirst.unique hsecond, Option.isSome_iff_exists.mpr hroot.undo⟩
        · rw [hd', undoneRoot, if_neg hlost]
  · rw [run_andThen_error _ hrun] at h
    refine Or.inr ⟨fun hlost => hfirst.not_noneFail hlost.staged, ?_⟩
    rw [← (Prod.mk.inj h).2, hother .root (by simp), hroot]

end Failing

section Rejected

variable {fails : Label → Option String} {schema : List TemplateNodeSchema} {ctx : CallContext}
  {req : PersistedGraphUpsertRequest J} {d d' : Disk J G} {old : GraphTree J G}
  {g : PersistedGraph J} {msg : String}

/-- How an upsert comes to reject because it could not persist its graph. -/
theorem upsert_persistFailed (hroot : d.tree .root = some old)
    (hread : readTree (some old) req.name ctx.nowIso = .ok (some g))
    (h : (upsert schema ctx req).run (faulty fails) d = (.error (.persistFailed msg), d')) :
    ∃ target d₁, Planned ctx.nowIso req (some g) target ∧
      (persistGraph ctx target).run (faulty fails) d = (.error msg, d₁) ∧
      d' = ((restoreWorkingTree (some g) ctx.nowIso).run (faulty fails) d₁).2 := by
  unfold upsert at h
  cases hvalid : validatePersistedGraph req schema with
  | error e =>
    rw [hvalid] at h
    cases (Prod.mk.inj h).1
  | ok u =>
    rw [hvalid] at h
    dsimp only at h
    unfold upsertLocked at h
    rw [run_bind, get_run, hroot, hread] at h
    dsimp only at h
    cases hplan : planUpsert ctx.nowIso req (some g) with
    | error e =>
      rw [hplan] at h
      cases (Prod.mk.inj h).1
      rcases planUpsert_error hplan with ⟨current, hconflict⟩ | ⟨message, hmismatch⟩
      · cases hconflict
      · cases hmismatch
    | ok target =>
      rw [hplan] at h
      dsimp only at h
      rw [run_bind] at h
      rcases hpersist : (persistGraph ctx target).run (faulty fails) d with ⟨e | u, d₁⟩
      · rw [hpersist] at h
        dsimp only at h
        rw [run_bind] at h
        obtain ⟨hresult, hdisk⟩ := Prod.mk.inj h
        cases hresult
        exact ⟨target, d₁, planUpsert_ok hplan, hpersist, hdisk.symm⟩
      · rw [hpersist] at h
        cases (Prod.mk.inj h).1

theorem upsert_of_persist_error {target : PersistedGraph J} {d₁ : Disk J G}
    (hvalid : validatePersistedGraph req schema = .ok ()) (hroot : d.tree .root = some old)
    (hread : readTree (some old) req.name ctx.nowIso = .ok (some g))
    (hplan : planUpsert ctx.nowIso req (some g) = .ok target)
    (hpersist : (persistGraph ctx target).run (faulty fails) d = (.error msg, d₁)) :
    (upsert schema ctx req).run (faulty fails) d = (.error (.persistFailed msg),
      ((restoreWorkingTree (some g) ctx.nowIso).run (faulty fails) d₁).2) := by
  unfold upsert
  rw [hvalid]
  dsimp only
  unfold upsertLocked
  rw [run_bind, get_run, hroot, hread]
  dsimp only
  rw [hplan]
  dsimp only
  rw [run_bind, hpersist]
  dsimp only
  rw [run_bind]
  rfl

def fileCount (nodes : List (PersistedGraphNode J)) (edges : List PersistedGraphEdge) : ℕ :=
  nodes.length + edges.length + 2

/-- The failures of a rollback to `g` that a later read does not notice. -/
def RollbackSafe (fails : Label → Option String) (req : PersistedGraphUpsertRequest J)
    (g : PersistedGraph J) : Prop :=
  NoneFail fails .rollback 0 (4 + 3 * fileCount g.nodes g.edges) ∨
    ∃ j msg, FirstFails fails .rollback 0 (4 + 3 * fileCount g.nodes g.edges) j msg ∧
      ¬ RootLost fails (fileCount req.nodes req.edges) ∧ HarmlessAt g j

theorem Planned.fileCount {nowIso : String} {existing : Option (PersistedGraph J)}
    {target : PersistedGraph J} (h : Planned nowIso req existing target) :
    (graphWrites target).length = Agyn.fileCount req.nodes req.edges := by
  rw [length_graphWrites, h.nodes, h.edges, List.length_map, List.length_map]
  rfl

/-- The root after a rejected upsert: its rollback started with the old root, or with none,
and either wrote everything again or stopped at its first failure. -/
theorem upsert_rolledBack (hroot : d.tree .root = some old)
    (hread : readTree (some old) req.name ctx.nowIso = .ok (some g)) (hfresh : FreshNames d ctx)
    (h : (upsert schema ctx req).run (faulty fails) d = (.error (.persistFailed msg), d')) :
    ∃ start, ((RootLost fails (fileCount req.nodes req.edges) ∧ start = none) ∨
        (¬ RootLost fails (fileCount req.nodes req.edges) ∧ start = some old)) ∧
      ((NoneFail fails .rollback 0 (4 + 3 * (graphWrites g).length) ∧
        d'.tree .root = some ((start.getD .empty).cleared.writes (graphWrites g))) ∨
      ∃ j msg', FirstFails fails .rollback 0 (4 + 3 * (graphWrites g).length) j msg' ∧
        d'.tree .root = partlyRestored start (graphWrites g) j) := by
  obtain ⟨target, d₁, hplan, hpersist, rfl⟩ := upsert_persistFailed hroot hread h
  have hstart := persistGraph_failed fails hroot hfresh hpersist
  rw [hplan.fileCount] at hstart
  exact ⟨d₁.tree .root, hstart, restoreWorkingTree_run fails g ctx.nowIso d₁⟩

/-- For every stored graph, every request and every choice of the operations that fail: a
read after a rejected upsert returns the graph that was stored iff the rollback succeeds, or
fails with the old root in place at an operation where it has lost nothing. -/
theorem persistFailed_unchanged_iff (fails : Label → Option String)
    (schema : List TemplateNodeSchema) (ctx : CallContext) (req : PersistedGraphUpsertRequest J)
    (d d' : Disk J G) (old : GraphTree J G) (g : PersistedGraph J) (msg later : String)
    (hroot : d.tree .root = some old) (hstored : StoredAs old req.name ctx.nowIso g)
    (hfresh : FreshNames d ctx)
    (hrun : (upsert schema ctx req).run (faulty fails) d = (.error (.persistFailed msg), d')) :
    Unchanged d' req.name later g ↔ RollbackSafe fails req g := by
  obtain ⟨start, hstart, hrolled⟩ := upsert_rolledBack hroot hstored.read hfresh hrun
  have hcount : (graphWrites g).length = fileCount g.nodes g.edges := length_graphWrites g
  rcases hrolled with ⟨hnone, hroot'⟩ | ⟨j, msg', hfirst, hroot'⟩
  · rw [hcount] at hnone
    have hsame := ((shows_writes hstored _).unchanged_iff hroot' req.name later).mpr
      ⟨List.Perm.refl _, List.Perm.refl _⟩
    exact iff_of_true hsame (Or.inl hnone)
  · have hsafe : RollbackSafe fails req g ↔
        ¬ RootLost fails (fileCount req.nodes req.edges) ∧ HarmlessAt g j := by
      rw [hcount] at hfirst
      constructor
      · intro h
        rcases h with hnone | ⟨j', msg₂, hfirst', hkept, hharmless⟩
        · exact absurd hnone hfirst.not_noneFail
        · rw [hfirst.unique hfirst']
          exact ⟨hkept, hharmless⟩
      · intro h
        exact Or.inr ⟨j, msg', hfirst, h.1, h.2⟩
    rw [hsafe]
    rcases hstart with ⟨hlost, rfl⟩ | ⟨hkept, rfl⟩
    · exact iff_of_false (partlyRestored_none hfirst.upper hroot' later) fun h => h.1 hlost
    · rw [partlyRestored_unchanged_iff hstored hroot' later]
      exact ⟨fun h => ⟨hkept, h⟩, fun h => h.2⟩

end Rejected

section Samples

def diskFullAt (labels : List Label) : Label → Option String := fun l =>
  if l ∈ labels then some "ENOSPC" else none

theorem sampleDisk_fresh (ids : List String) :
    FreshNames (sampleDisk ids : Disk J Unit) sampleContext where
  staging := rfl
  backup := rfl

/-- An accepted request is rejected when nothing can be written. -/
theorem sampleRequest_fails (ids : List String) (fails : Label → Option String) {msg : String}
    (hnodup : ids.Nodup) (hne : "" ∉ ids) (hfail : fails ⟨.staging, 0⟩ = some msg) :
    ∃ d', (upsert sampleSchema sampleContext (sampleRequest [] [])).run (faulty fails)
      (sampleDisk ids) = (.error (.persistFailed msg), d') := by
  have hread := (sampleGraph_storedAs (J := Unit) ids hnodup hne sampleContext.nowIso).read
  obtain ⟨target, hplan⟩ : ∃ target, planUpsert sampleContext.nowIso (sampleRequest [] [])
      (some (sampleGraph ids)) = .ok target := ⟨_, rfl⟩
  have hpersist : (persistGraph sampleContext target).run (faulty fails) (sampleDisk ids) =
      (.error msg, sampleDisk ids) := by
    unfold persistGraph createStagingTree
    exact run_andThen_error _ (run_andThen_error _ (mutate_error hfail rfl _))
  have hvalid : validatePersistedGraph (sampleRequest [] []) sampleSchema = .ok () := rfl
  exact ⟨_, upsert_of_persist_error hvalid rfl hread hplan hpersist⟩

/-- Nothing can be staged, and the rollback works. -/
theorem failed_staging_unchanged : ∃ d',
    (upsert sampleSchema sampleContext (sampleRequest [] [])).run
      (faulty (diskFullAt [⟨.staging, 0⟩])) (sampleDisk ["a"]) =
        (.error (.persistFailed "ENOSPC"), d') ∧
    (Unchanged d' "main" "later" (sampleGraph ["a"]) ↔
      RollbackSafe (diskFullAt [⟨.staging, 0⟩]) (sampleRequest [] []) (sampleGraph ["a"])) := by
  have hstored :=
    sampleGraph_storedAs (J := Unit) ["a"] (by decide) (by decide) sampleContext.nowIso
  obtain ⟨d', hrun⟩ := sampleRequest_fails ["a"] (diskFullAt [⟨.staging, 0⟩]) (by decide)
    (by decide) rfl
  exact ⟨d', hrun, persistFailed_unchanged_iff _ sampleSchema sampleContext _ (sampleDisk ["a"]) d'
    _ _ "ENOSPC" "later" rfl hstored (sampleDisk_fresh ["a"]) hrun⟩

/-- Nothing can be staged, and the rollback cannot make the node directory again: the stored
node is gone. -/
theorem failed_rollback_loses_node : ∃ d',
    (upsert sampleSchema sampleContext (sampleRequest [] [])).run
      (faulty (diskFullAt [⟨.staging, 0⟩, ⟨.rollback, 1⟩])) (sampleDisk ["a"]) =
        (.error (.persistFailed "ENOSPC"), d') ∧
    StoredAs (stagedTree (sampleGraph ["a"]) : GraphTree Unit Unit) "main" "now"
      (sampleGraph ["a"]) ∧
    ¬ Unchanged d' "main" "later" (sampleGraph ["a"]) := by
  have hstored :=
    sampleGraph_storedAs (J := Unit) ["a"] (by decide) (by decide) sampleContext.nowIso
  obtain ⟨d', hrun⟩ := sampleRequest_fails ["a"]
    (diskFullAt [⟨.staging, 0⟩, ⟨.rollback, 1⟩]) (by decide) (by decide) rfl
  refine ⟨d', hrun, hstored, ?_⟩
  have hsecond : FirstFails (diskFullAt [⟨.staging, 0⟩, ⟨.rollback, 1⟩]) .rollback 0
      (4 + 3 * (graphWrites (J := Unit) (sampleGraph ["a"])).length) 1 "ENOSPC" := by
    refine ⟨by omega, by omega, rfl, ?_⟩
    intro j hs he
    obtain rfl : j = 0 := by omega
    rfl
  obtain ⟨start, ⟨hlost, -⟩ | ⟨-, rfl⟩, ⟨hnone, -⟩ | ⟨j, msg', hfirst, hroot'⟩⟩ :=
    upsert_rolledBack rfl hstored.read (sampleDisk_fresh ["a"]) hrun
  · exact absurd hnone hsecond.not_noneFail
  · cases hlost.staged 0 (by omega) (by omega)
  · exact absurd hnone hsecond.not_noneFail
  · rw [partlyRestored_unchanged_iff hstored hroot', hfirst.unique hsecond]
    unfold HarmlessAt
    decide

end Samples

end Agyn
