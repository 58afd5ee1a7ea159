import Agyn.GraphCommit

/-!
What `initIfNeeded` makes of the disk that an earlier process left. A backup
becomes the root when there is no root, all other temporary directories are
discarded, and the root gets its directories and its meta file if they are missing.
-/
namespace Agyn

open Prog FsGraphRepository

variable {J G : Type}

/-- A disk as `initIfNeeded` leaves it. -/
structure Initialised (d : Disk J G) (t : GraphTree J G) : Prop where
  root : d.tree .root = some t
  metaFile : t.metaFile.isSome
  dirs : t.HasDirs
  clean : ∀ p, p ≠ .root → d.tree p = none

theorem Initialised.fresh {d : Disk J G} {t : GraphTree J G} (h : Initialised d t)
    (ctx : CallContext) : FreshNames d ctx where
  staging := h.clean _ (by simp)
  backup := h.clean _ (by simp)

/-- A committed upsert leaves the disk as it found it in this respect. -/
theorem Committed.initialised {d d' : Disk J G} {ctx : CallContext} {target : PersistedGraph J}
    {old : GraphTree J G} (h : Committed d ctx target old d') (hd : Initialised d old) :
    Initialised d' { (stagedTree target : GraphTree J G) with git := old.git } where
  root := h.root
  metaFile := rfl
  dirs _ := ⟨_, rfl⟩
  clean := by
    intro p hp
    by_cases hs : p = .staging ctx.stagingId
    · rw [hs, h.staging]
    · by_cases hb : p = .backup ctx.backupId
      · rw [hb, h.backup]
      · rw [h.other p hp hs hb, hd.clean p hp]

section Cleanup

theorem discardAll_working (ps : List Place) (d : Disk J G) :
    ∃ d', (discardAll ps).run working d = ((), d') ∧
      ∀ q, d'.tree q = if q ∈ ps then none else d.tree q := by
  induction ps generalizing d with
  | nil => exact ⟨d, rfl, fun q => (if_neg List.not_mem_nil).symm⟩
  | cons p rest ih =>
    obtain ⟨d', hrun, htree⟩ := ih (d.rm p)
    refine ⟨d', hrun, ?_⟩
    intro q
    rw [htree, Disk.tree_rm]
    by_cases hrest : q ∈ rest
    · rw [if_pos hrest, if_pos (List.mem_cons_of_mem p hrest)]
    · by_cases hp : q = p <;> simp [hp, hrest]

theorem stat_working {d : Disk J G} {p : Place} (h : (d.tree p).isSome) (l : Label) :
    (working _ l (FsOp.stat p) d : Option ℕ × Disk J G) = (some (d.mtime p), d) := by
  obtain ⟨t, ht⟩ := Option.isSome_iff_exists.mp h
  change ((d.tree p).map fun _ => d.mtime p, d) = _
  rw [ht]
  rfl

theorem selectNewest_working {d : Disk J G} (entries : List Place)
    (hthere : ∀ p ∈ entries, (d.tree p).isSome) (best : Place) (tbest : ℕ) :
    ∃ c, (selectNewest (some (best, tbest)) entries).run working d = (some c, d) ∧
      c ∈ best :: entries := by
  induction entries generalizing best tbest with
  | nil => exact ⟨best, rfl, List.mem_cons_self⟩
  | cons entry rest ih =>
    have hrest := fun p hp => hthere p (List.mem_cons_of_mem entry hp)
    rw [selectNewest, run_bind, run_ask, stat_working (hthere entry List.mem_cons_self)]
    dsimp only
    split
    · obtain ⟨c, hrun, hc⟩ := ih hrest entry (d.mtime entry)
      exact ⟨c, hrun, List.mem_cons_of_mem best hc⟩
    · obtain ⟨c, hrun, hc⟩ := ih hrest best tbest
      refine ⟨c, hrun, ?_⟩
      rcases List.mem_cons.mp hc with rfl | hc
      · exact List.mem_cons_self
      · exact List.mem_cons_of_mem best (List.mem_cons_of_mem entry hc)

/-- Of directories that exist, one is selected. -/
theorem selectNewestDir_working {d : Disk J G} {entries : List Place} (hne : entries ≠ [])
    (hthere : ∀ p ∈ entries, (d.tree p).isSome) :
    ∃ c, (selectNewestDir entries).run working d = (some c, d) ∧ c ∈ entries := by
  cases entries with
  | nil => exact absurd rfl hne
  | cons entry rest =>
    rw [selectNewestDir, selectNewest, run_bind, run_ask,
      stat_working (hthere entry List.mem_cons_self)]
    exact selectNewest_working rest (fun p hp => hthere p (List.mem_cons_of_mem entry hp)) entry _

def CleanedRoot (d : Disk J G) (t : Option (GraphTree J G)) : Prop :=
  (t = d.tree .root ∧ ((d.tree .root).isSome ∨ ∀ b, d.tree (.backup b) = none)) ∨
    (d.tree .root = none ∧ ∃ b, (d.tree (.backup b)).isSome ∧ t = d.tree (.backup b))

theorem mem_entries {d : Disk J G} {p : Place} :
    p ∈ d.trees.keys.filter (· ≠ .root) ↔ (d.tree p).isSome ∧ p ≠ .root := by
  rw [List.mem_filter, decide_eq_true_iff, InsMap.mem_keys_iff, ← InsMap.has_iff]
  rfl

theorem isStaging_or_isBackup {p : Place} (hp : p ≠ .root) :
    isStaging p = true ∨ isBackup p = true := by
  cases p with
  | root => exact absurd rfl hp
  | staging id => exact Or.inl rfl
  | backup id => exact Or.inr rfl

/-- Discarding the staging directories and the given backups leaves only the root, when no
other backup is there. -/
theorem discard_working (d d₁ : Disk J G) (backups : List Place)
    (hback : ∀ p ∈ backups, isBackup p = true)
    (hrest : ∀ p, p ≠ .root → (d₁.tree p).isSome →
      (d.tree p).isSome ∧ (isBackup p = true → p ∈ backups)) :
    ∃ d', ((discardAll ((d.trees.keys.filter (· ≠ .root)).filter isStaging)).bind fun _ =>
        (discardAll backups).bind fun _ =>
          (ret (.ok ()) : Fs J (Except String Unit))).run working d₁ = (.ok (), d') ∧
      (∀ p, p ≠ .root → d'.tree p = none) ∧ d'.tree .root = d₁.tree .root := by
  obtain ⟨d₂, hrun₂, htree₂⟩ :=
    discardAll_working ((d.trees.keys.filter (· ≠ .root)).filter isStaging) d₁
  obtain ⟨d', hrun', htree'⟩ := discardAll_working backups d₂
  refine ⟨d', ?_, ?_, ?_⟩
  · rw [run_bind, hrun₂, run_bind, hrun']
    rfl
  · intro p hp
    rw [htree', htree₂]
    by_cases hthere : (d₁.tree p).isSome
    · obtain ⟨hin, hbackup⟩ := hrest p hp hthere
      rcases isStaging_or_isBackup hp with hs | hb
      · have hmem : p ∈ (d.trees.keys.filter (· ≠ .root)).filter isStaging :=
          List.mem_filter.mpr ⟨mem_entries.mpr ⟨hin, hp⟩, hs⟩
        simp only [if_pos hmem, ite_self]
      · rw [if_pos (hbackup hb)]
    · rw [Option.not_isSome_iff_eq_none.mp hthere, ite_self, ite_self]
  · have hroot : Place.root ∉ backups := fun hmem => Bool.false_ne_true (hback _ hmem)
    have hroot' : Place.root ∉ (d.trees.keys.filter (· ≠ .root)).filter isStaging :=
      fun hmem => Bool.false_ne_true (List.mem_filter.mp hmem).2
    rw [htree', htree₂, if_neg hroot, if_neg hroot']

/-- With no root but some backups, one of them becomes the root. -/
theorem restoreNewestBackup_working {d : Disk J G} {backups : List Place}
    (hgone : d.tree .root = none) (hne : backups ≠ [])
    (hmem : ∀ p ∈ backups, (d.tree p).isSome ∧ isBackup p = true) :
    ∃ b t d₁, d.tree (.backup b) = some t ∧
      (restoreNewestBackup backups).run working d = (backups.erase (.backup b), d₁) ∧
      ∀ p, d₁.tree p = if p = .root then some t else if p = .backup b then none else d.tree p := by
  obtain ⟨c, hselect, hc⟩ := selectNewestDir_working hne fun p hp => (hmem p hp).1
  obtain ⟨hthere, hbackup⟩ := hmem c hc
  obtain ⟨t, ht⟩ := Option.isSome_iff_exists.mp hthere
  cases c with
  | root => cases hbackup
  | staging id => cases hbackup
  | backup b =>
    refine ⟨b, t, ((d.rm (.backup b)).setTree .root t).noteInstall (.backup b) .root t, ht, ?_, ?_⟩
    · rw [restoreNewestBackup, run_bind, hselect]
      dsimp only
      rw [run_bind, mutate_working, FsOp.exec, Disk.rename_of_none ht hgone]
      rfl
    · intro p
      rw [Disk.tree_noteInstall, Disk.tree_setTree, Disk.tree_rm]

/-- The clean-up leaves a root at most. -/
theorem cleanupSwapArtifacts_working (d : Disk J G) :
    ∃ d', cleanupSwapArtifacts.run working d = (.ok (), d') ∧
      (∀ p, p ≠ .root → d'.tree p = none) ∧ CleanedRoot d (d'.tree .root) := by
  have hmkdir : (mutate .initialising 2 .mkdirParent : Fs J _).run working d = (.ok (), d) := rfl
  have hentries : (working _ ⟨.initialising, 3⟩ FsOp.readdirParent d : List Place × Disk J G) =
      (d.trees.keys.filter (· ≠ .root), d) := rfl
  have hexists : (working _ ⟨.initialising, 4⟩ (FsOp.pathExists .root) d : Bool × Disk J G) =
      ((d.tree .root).isSome, d) := rfl
  have hmem : ∀ p, p ∈ (d.trees.keys.filter (· ≠ .root)).filter isBackup ↔
      (d.tree p).isSome ∧ isBackup p = true := by
    intro p
    rw [List.mem_filter, mem_entries]
    cases p <;> simp [isBackup]
  have hdiscard := discard_working d
  unfold cleanupSwapArtifacts
  rw [run_andThen_ok _ hmkdir, run_bind, run_ask, hentries, run_bind, run_ask, hexists]
  dsimp only
  rw [run_bind]
  generalize hbackups : (d.trees.keys.filter (· ≠ .root)).filter isBackup = backups at hmem ⊢
  by_cases hrecover : (!(d.tree .root).isSome && !backups.isEmpty) = true
  · obtain ⟨hgone, hne⟩ : d.tree .root = none ∧ backups ≠ [] := by simpa using hrecover
    obtain ⟨b, t, d₁, ht, hrun, htree⟩ := restoreNewestBackup_working hgone hne fun p => (hmem p).mp
    obtain ⟨d', hrun', hclean, hroot⟩ := hdiscard d₁ (backups.erase (.backup b))
      (fun p hp => ((hmem p).mp (List.mem_of_mem_erase hp)).2) (by
        intro p hp hthere
        rw [htree, if_neg hp] at hthere
        by_cases hpb : p = .backup b
        · rw [if_pos hpb] at hthere
          cases hthere
        · rw [if_neg hpb] at hthere
          refine ⟨hthere, fun hb => ?_⟩
          exact (List.mem_erase_of_ne hpb).mpr ((hmem p).mpr ⟨hthere, hb⟩))
    rw [if_pos hrecover, hrun]
    refine ⟨d', hrun', hclean, Or.inr ⟨hgone, b, by rw [ht]; rfl, ?_⟩⟩
    rw [hroot, htree, if_pos rfl, ht]
  · obtain ⟨d', hrun, hclean, hroot⟩ := hdiscard d backups (fun p hp => ((hmem p).mp hp).2)
      (fun p _ hin => ⟨hin, fun hb => (hmem p).mpr ⟨hin, hb⟩⟩)
    rw [if_neg hrecover]
    refine ⟨d', hrun, hclean, Or.inl ⟨hroot, ?_⟩⟩
    by_cases hthere : (d.tree .root).isSome
    · exact Or.inl hthere
    · refine Or.inr fun b => ?_
      by_contra hb
      have hin := (hmem (.backup b)).mpr ⟨Option.isSome_iff_ne_none.mpr hb, rfl⟩
      have hne : backups ≠ [] := List.ne_nil_of_mem hin
      exact hrecover (by simpa [hne] using hthere)

end Cleanup

section Initialising

theorem mkdirIn_mkdirIn_hasDirs (t : GraphTree J G) :
    ((t.mkdirIn .nodes).mkdirIn .edges).HasDirs := by
  intro dir
  cases dir with
  | nodes => exact ⟨_, rfl⟩
  | edges => exact ⟨_, rfl⟩

theorem mkdirIn_mkdirIn_of_hasDirs {t : GraphTree J G} (h : t.HasDirs) :
    (t.mkdirIn .nodes).mkdirIn .edges = t := by
  obtain ⟨nodes, hnodes⟩ := h .nodes
  obtain ⟨edges, hedges⟩ := h .edges
  rw [GraphTree.mkdirIn_eq hnodes, GraphTree.mkdirIn_eq hedges]

/-- What `initIfNeeded` leaves is initialised, and it keeps a tree that was already. -/
theorem initIfNeeded_working (nowIso : String) (d : Disk J G) :
    ∃ d' t, (initIfNeeded nowIso).run working d = (.ok (), d') ∧ Initialised d' t ∧
      ∀ t₀, (∀ t', CleanedRoot d t' → t' = some t₀) → t₀.metaFile.isSome → t₀.HasDirs → t = t₀ := by
  obtain ⟨d₁, hrun, hclean, hroot⟩ := cleanupSwapArtifacts_working d
  obtain ⟨r, hr⟩ : ∃ r, r = (d₁.tree .root).getD .empty := ⟨_, rfl⟩
  have hroot' : (mutate .initialising 6 (.mkdir .root) : Fs J _).run working d₁ =
      (.ok (), d₁.setTree .root r) := by
    rw [mutate_working, FsOp.exec, Disk.mkdir, ← hr]
    rfl
  have hnodes : (mutate .initialising 7 (.mkdirIn .root .nodes) : Fs J _).run working
      (d₁.setTree .root r) = (.ok (), d₁.setTree .root (r.mkdirIn .nodes)) := by
    rw [mutate_working, FsOp.exec, Disk.mkdir_setTree]
  have hedges : (mutate .initialising 8 (.mkdirIn .root .edges) : Fs J _).run working
      (d₁.setTree .root (r.mkdirIn .nodes)) =
        (.ok (), d₁.setTree .root ((r.mkdirIn .nodes).mkdirIn .edges)) := by
    rw [mutate_working, FsOp.exec, Disk.mkdir_setTree]
  have hexists : (working _ ⟨.initialising, 9⟩ (FsOp.metaExists .root)
      (d₁.setTree .root ((r.mkdirIn .nodes).mkdirIn .edges)) : Bool × Disk J G) =
        (r.metaFile.isSome, d₁.setTree .root ((r.mkdirIn .nodes).mkdirIn .edges)) := by
    change (((Disk.tree _ .root).bind GraphTree.metaFile).isSome, _) = _
    rw [Disk.tree_setTree_self]
    rfl
  have hother : ∀ t p, p ≠ .root → (d₁.setTree .root t).tree p = none := by
    intro t p hp
    rw [Disk.tree_setTree, if_neg hp, hclean p hp]
  have hkept : ∀ t₀, (∀ t', CleanedRoot d t' → t' = some t₀) → t₀.metaFile.isSome → t₀.HasDirs →
      r.metaFile.isSome ∧ (r.mkdirIn .nodes).mkdirIn .edges = t₀ := by
    intro t₀ hunique hmeta hdirs
    rw [hunique _ hroot] at hr
    cases hr
    exact ⟨hmeta, mkdirIn_mkdirIn_of_hasDirs hdirs⟩
  unfold initIfNeeded
  rw [run_andThen_ok _ hrun, run_andThen_ok _ hroot', run_andThen_ok _ hnodes,
    run_andThen_ok _ hedges, run_bind, run_ask, hexists]
  dsimp only
  by_cases hmeta : r.metaFile.isSome = true
  · rw [if_pos hmeta]
    refine ⟨_, (r.mkdirIn .nodes).mkdirIn .edges, rfl, ⟨Disk.tree_setTree_self _ _ _, hmeta,
      mkdirIn_mkdirIn_hasDirs r, hother _⟩, ?_⟩
    intro t₀ hunique hmeta₀ hdirs
    exact (hkept t₀ hunique hmeta₀ hdirs).2
  · rw [if_neg hmeta, working_eq_faulty]
    have hwrite := writeYamlAtBase_run (fun _ => none) .initialising .root 10
      (.metaFile ⟨some "main", some 0, some nowIso⟩)
      (Disk.tree_setTree_self d₁ .root ((r.mkdirIn .nodes).mkdirIn .edges))
      (mkdirIn_mkdirIn_hasDirs r)
    rcases hwrite with ⟨-, hwrite⟩ | ⟨j, msg, hfirst, -⟩
    · rw [Disk.setTree_setTree] at hwrite
      refine ⟨_, _, hwrite, ⟨Disk.tree_setTree_self _ _ _, rfl,
        (mkdirIn_mkdirIn_hasDirs r).write _, hother _⟩, ?_⟩
      intro t₀ hunique hmeta₀ hdirs
      exact absurd (hkept t₀ hunique hmeta₀ hdirs).1 hmeta
    · cases hfirst.hit

end Initialising

end Agyn
