import Agyn.StoreFootprints
import Agyn.SwapRecovery

/-!
The disk at every point at which an upsert can stop. Up to the first rename of the
swap the old root is there; between the two renames it is the only backup; after
the second the staged tree is the root, first without and then with the `.git` entry.
-/
namespace Agyn

open Prog FsGraphRepository

variable {J G : Type}

section StopPoints

/-- The tree that initialisation makes the root of, whichever backup it chooses. -/
def RecoversTo (d : Disk J G) (t : GraphTree J G) : Prop :=
  ∀ t', CleanedRoot d t' → t' = some t

theorem recoversTo_root {d : Disk J G} {t : GraphTree J G} (h : d.tree .root = some t) :
    RecoversTo d t := by
  intro t' hclean
  rcases hclean with ⟨rfl, -⟩ | ⟨hnone, -⟩
  · exact h
  · rw [h] at hnone
    cases hnone

variable {d d₁ d' : Disk J G} {ctx : CallContext} {target : PersistedGraph J}
  {old : GraphTree J G} {l : Option Label}

/-- Between the two renames the old root is the only backup. -/
theorem recoversTo_backedUp (hclean : ∀ p, p ≠ .root → p ≠ .staging ctx.stagingId →
    d.tree p = none) : RecoversTo (backedUp d (.backup ctx.backupId) old) old := by
  have htree : ∀ b, (backedUp d (.backup ctx.backupId) old).tree (.backup b) =
      if b = ctx.backupId then some old else none := by
    intro b
    rw [backedUp, Disk.tree_setTree, Disk.tree_rm, hclean _ (by simp) (by simp)]
    simp
  intro t' hcleaned
  rcases hcleaned with ⟨-, hsome | hnone⟩ | ⟨-, b, hsome, rfl⟩
  · rw [Swappable.backedUp_root] at hsome
    cases hsome
  · have hown := hnone ctx.backupId
    rw [htree, if_pos rfl] at hown
    cases hown
  · rw [htree] at hsome ⊢
    by_cases hb : b = ctx.backupId
    · rw [if_pos hb]
    · rw [if_neg hb] at hsome
      cases hsome

/-- What a stop of an upsert that commits `target` leaves of a disk with the root `old` and
the given earlier installs. -/
inductive StopPoint (installs : List (String × GraphTree J G)) (ctx : CallContext)
    (old : GraphTree J G) (target : PersistedGraph J) : Option Label → Disk J G → Prop
  /-- The old root is there. -/
  | before {l : Label} {d₁ : Disk J G}
      (hl : l.site ∈ [.reading, .staging] ∨ l ∈ [⟨.swap, 0⟩, ⟨.swap, 1⟩])
      (hroot : d₁.tree .root = some old) (hinstalls : d₁.installs = installs) :
      StopPoint installs ctx old target (some l) d₁
  /-- There is no root. -/
  | between {d₁ : Disk J G} (hroot : d₁.tree .root = none) (hrecovers : RecoversTo d₁ old)
      (hinstalls : d₁.installs = installs) : StopPoint installs ctx old target (some ⟨.swap, 2⟩) d₁
  /-- The staged tree is the root, and the `.git` entry is being moved. -/
  | moving {step : ℕ} {d₁ : Disk J G} (hroot : d₁.tree .root = some (stagedTree target))
      (hinstalls : d₁.installs = (ctx.stagingId, stagedTree target) :: installs) :
      StopPoint installs ctx old target (some ⟨.auxiliary, step⟩) d₁
  /-- The new root is complete. -/
  | after {l : Option Label} {d₁ : Disk J G} (hl : ∀ l₀, l = some l₀ → l₀.site = .discard)
      (hroot : d₁.tree .root = some { (stagedTree target : GraphTree J G) with git := old.git })
      (hinstalls : d₁.installs = (ctx.stagingId, stagedTree target) :: installs) :
      StopPoint installs ctx old target l d₁

/-- Before the second rename nothing is installed and the root is the old one, if there is
one; after it the staged tree is. -/
theorem StopPoint.cases {installs : List (String × GraphTree J G)}
    (h : StopPoint installs ctx old target l d₁) :
    (d₁.installs = installs ∧ ∀ t, d₁.tree .root = some t → t = old) ∨
      (d₁.installs = (ctx.stagingId, stagedTree target) :: installs ∧
        ∀ t, d₁.tree .root = some t → t.docs = stagedTree target) := by
  cases h with
  | before _ hroot hinstalls =>
    refine Or.inl ⟨hinstalls, fun t ht => ?_⟩
    rw [hroot] at ht
    exact (Option.some.inj ht).symm
  | between hroot _ hinstalls =>
    refine Or.inl ⟨hinstalls, fun t ht => ?_⟩
    rw [hroot] at ht
    cases ht
  | moving hroot hinstalls =>
    refine Or.inr ⟨hinstalls, fun t ht => ?_⟩
    rw [hroot] at ht
    rw [← Option.some.inj ht]
    rfl
  | after _ hroot hinstalls =>
    refine Or.inr ⟨hinstalls, fun t ht => ?_⟩
    rw [hroot] at ht
    rw [← Option.some.inj ht]
    rfl

theorem restoreAuxiliaryEntries_stops {backup : Place} {new : GraphTree J G}
    (hroot : d.tree .root = some new) (hgit : new.git = none)
    (hs : Stops working (restoreAuxiliaryEntries backup) d l d₁) :
    l = none ∨ ∃ step, l = some ⟨.auxiliary, step⟩ ∧ d₁.tree .root = some new ∧
      d₁.installs = d.installs := by
  have hrm : (d.inside .root fun t => { t with git := none }).tree .root = some new := by
    rw [Disk.tree_inside, if_pos rfl, hroot, Option.map_some, ← hgit]
  have hinstalls : (d.inside .root fun t => { t with git := none }).installs = d.installs := by
    unfold Disk.inside
    rw [hroot]
    rfl
  unfold restoreAuxiliaryEntries at hs
  rcases stops_ask_bind _ hs with ⟨hl, rfl⟩ | hs
  · exact Or.inr ⟨0, hl, hroot, rfl⟩
  · split at hs
    · rcases stops_ask_bind _ hs with ⟨hl, rfl⟩ | hs
      · exact Or.inr ⟨1, hl, hroot, rfl⟩
      · rcases stops_ask_bind _ hs with ⟨hl, rfl⟩ | hs
        · exact Or.inr ⟨2, hl, hrm, hinstalls⟩
        · exact Or.inl (stops_ret _ hs).1
    · exact Or.inl (stops_ret _ hs).1

/-- Where the `try` block of a swap can stop before its end. -/
theorem swapSteps_stops (h : Swappable d ctx old (stagedTree target))
    (hclean : ∀ p, p ≠ .root → p ≠ .staging ctx.stagingId → d.tree p = none) {l₀ : Label}
    (hs : Stops working (swapSteps (.staging ctx.stagingId) (.backup ctx.backupId)) d (some l₀)
      d₁) :
    StopPoint d.installs ctx old target (some l₀) d₁ := by
  have hnew : (installed d ctx old (stagedTree target)).tree .root = some (stagedTree target) := by
    rw [installed_tree, if_pos rfl]
  unfold swapSteps at hs
  rcases stops_ask_bind _ hs with ⟨hl, rfl⟩ | hs
  · exact .before (Or.inr (by cases hl; simp)) h.root rfl
  · rcases stops_ask_bind _ hs with ⟨hl, rfl⟩ | hs
    · exact .before (Or.inr (by cases hl; simp)) h.root rfl
    · rw [show working _ ⟨.swap, 1⟩ (FsOp.rename .root (.backup ctx.backupId))
        (working _ ⟨.swap, 0⟩ (FsOp.mkdirParent (J := J)) d).2 = _ from h.rename_root] at hs
      rcases stops_ask_bind _ hs with ⟨hl, rfl⟩ | hs
      · cases hl
        exact .between (Swappable.backedUp_root d ctx.backupId old) (recoversTo_backedUp hclean) rfl
      · rw [show working _ ⟨.swap, 2⟩ (FsOp.rename (.staging ctx.stagingId) .root)
          (backedUp d (.backup ctx.backupId) old) = _ from h.rename_staging] at hs
        rcases stops_bind _ hs with ⟨-, -, hs⟩ | hs
        · rcases restoreAuxiliaryEntries_stops hnew rfl hs with hnone | ⟨step, hl, hroot, hinstalls⟩
          · cases hnone
          · rw [hl]
            exact .moving hroot hinstalls
        · cases (stops_ret _ hs).1

/-- A swap comes to the point between its renames, and then to the one behind them. -/
theorem swapSteps_stops_between (h : Swappable d ctx old (stagedTree target)) :
    Stops working (swapSteps (.staging ctx.stagingId) (.backup ctx.backupId)) d (some ⟨.swap, 2⟩)
      (backedUp d (.backup ctx.backupId) old) := by
  unfold swapSteps
  refine Stops.later (Stops.later ?_)
  rw [show working _ ⟨.swap, 1⟩ (FsOp.rename .root (.backup ctx.backupId))
    (working _ ⟨.swap, 0⟩ (FsOp.mkdirParent (J := J)) d).2 = _ from h.rename_root]
  exact Stops.here _ _

theorem swapSteps_stops_moving (h : Swappable d ctx old (stagedTree target)) :
    Stops working (swapSteps (.staging ctx.stagingId) (.backup ctx.backupId)) d
      (some ⟨.auxiliary, 0⟩) (installed d ctx old (stagedTree target)) := by
  unfold swapSteps
  refine Stops.later (Stops.later ?_)
  rw [show working _ ⟨.swap, 1⟩ (FsOp.rename .root (.backup ctx.backupId))
    (working _ ⟨.swap, 0⟩ (FsOp.mkdirParent (J := J)) d).2 = _ from h.rename_root]
  refine Stops.later ?_
  rw [show working _ ⟨.swap, 2⟩ (FsOp.rename (.staging ctx.stagingId) .root)
    (backedUp d (.backup ctx.backupId) old) = _ from h.rename_staging]
  exact Stops.here _ _

/-- Discarding the temporary directories leaves the root alone. -/
theorem discardTempDirs_stops {step step' : ℕ} {p q : Place} (hp : p ≠ .root) (hq : q ≠ .root)
    {r : Except String Unit}
    (hs : Stops working ((discardTempDir step p).bind fun _ =>
      (discardTempDir step' q).bind fun _ => ret r) d l d₁) :
    (∀ l₀, l = some l₀ → l₀.site = .discard) ∧ d₁.tree .root = d.tree .root ∧
      d₁.installs = d.installs := by
  have hrm : ∀ {p : Place}, p ≠ .root → ∀ step, (discardTempDir (J := J) step p).Every
      fun _ l o => l.site = .discard ∧ ∀ d : Disk J G, (o.exec d).2.tree .root = d.tree .root ∧
        (o.exec d).2.installs = d.installs := by
    intro p hp step
    refine Every.bind (every_ask ⟨rfl, fun d => ⟨?_, rfl⟩⟩) fun _ => .ret ()
    rw [FsOp.exec, Disk.tree_rm, if_neg (Ne.symm hp)]
  have hevery := (hrm hp step).bind fun _ => (hrm hq step').bind fun _ => Every.ret r
  refine ⟨?_, ?_⟩
  · intro l₀ hl
    subst hl
    exact (hevery.mono fun _ _ _ h => h.1).stops_tag hs
  · refine hevery.stops_preserves (I := fun d₁ => d₁.tree .root = d.tree .root ∧
      d₁.installs = d.installs) ?_ ⟨rfl, rfl⟩ hs
    intro β l o d₂ ho hd₂
    exact ⟨(ho.2 d₂).1.trans hd₂.1, (ho.2 d₂).2.trans hd₂.2⟩

theorem swapWorkingTree_stops (h : Swappable d ctx old (stagedTree target))
    (hclean : ∀ p, p ≠ .root → p ≠ .staging ctx.stagingId → d.tree p = none)
    (hs : Stops working (swapWorkingTree (.staging ctx.stagingId) (.backup ctx.backupId)) d l d₁) :
    StopPoint d.installs ctx old target l d₁ := by
  obtain ⟨d₂, hrun, hroot, hinstalls, -⟩ := swapSteps_working h
  unfold swapWorkingTree at hs
  rcases stops_bind _ hs with ⟨l₀, rfl, hs⟩ | hs
  · exact swapSteps_stops h hclean hs
  · rw [hrun] at hs
    obtain ⟨hl, hroot', hinstalls'⟩ := discardTempDirs_stops (by simp) (by simp) hs
    exact .after hl (hroot'.trans hroot) (hinstalls'.trans hinstalls)

/-- Where persisting a graph can stop. -/
theorem persistGraph_stops (hd : Initialised d old)
    (hs : Stops working (persistGraph ctx target) d l d₁) :
    StopPoint d.installs ctx old target l d₁ := by
  have hstage := createStagingTree_working ctx.stagingId target (hd.fresh ctx).staging
  have hswap := swappable_staged target hd.root (hd.fresh ctx)
  have hclean : ∀ p, p ≠ .root → p ≠ .staging ctx.stagingId →
      (d.setTree (.staging ctx.stagingId) (stagedTree target)).tree p = none := by
    intro p hp hs
    rw [Disk.tree_setTree, if_neg hs, hd.clean p hp]
  unfold persistGraph at hs
  rcases stops_bind _ hs with ⟨l₀, rfl, hs⟩ | hs
  · have hevery := createStagingTree_every (G := G) ctx.stagingId target
    have htag := (hevery.mono fun _ _ _ h => h.1).stops_tag hs
    obtain ⟨hroot, hinstalls⟩ := hevery.stops_preserves
      (I := fun d₁ => d₁.tree .root = some old ∧ d₁.installs = d.installs) (by
        intro β l o d₂ ho hd₂
        exact ⟨((ho.2 d₂).2 .root (by simp)).trans hd₂.1, (ho.2 d₂).1.trans hd₂.2⟩)
      ⟨hd.root, rfl⟩ hs
    exact .before (Or.inl (by rw [htag]; simp)) hroot hinstalls
  · rw [hstage] at hs
    obtain ⟨d₂, hrun, hcommitted⟩ := swapWorkingTree_working hswap
    rcases stops_bind _ hs with ⟨l₀, rfl, hs⟩ | hs
    · have hpoint := swapWorkingTree_stops hswap hclean hs
      exact hpoint
    · rw [hrun] at hs
      obtain ⟨rfl, rfl⟩ := stops_ret _ hs
      exact .after (fun _ hl => by cases hl) hcommitted.root hcommitted.installs

theorem Initialised.get_working (hd : Initialised d old) (name nowIso : String) :
    (FsGraphRepository.get name nowIso).run working d =
      (readTree (some old) name nowIso, d) := by
  rw [working_eq_faulty, get_run, hd.root]

/-- Where the critical section of an upsert can stop: without having changed anything, or on
the way to a commit. -/
theorem upsertLocked_stops {req : PersistedGraphUpsertRequest J} (hd : Initialised d old)
    (hs : Stops working (upsertLocked ctx req) d l d₁) :
    (d₁ = d ∧ ∀ l₀, l = some l₀ → l₀.site = .reading) ∨
      ∃ target, ((upsertLocked ctx req).run working d).1 = .ok target ∧
        StopPoint d.installs ctx old target l d₁ := by
  have hget := hd.get_working req.name ctx.nowIso
  unfold upsertLocked at hs
  rcases stops_bind _ hs with ⟨l₀, rfl, hs⟩ | hs
  · have hevery := get_every (J := J) (G := G) req.name ctx.nowIso
    refine Or.inl ⟨?_, ?_⟩
    · refine hevery.stops_preserves (I := fun d₁ => d₁ = d) ?_ rfl hs
      intro β l o d₂ ho hd₂
      exact (ho.2.1.exec_disk d₂).trans hd₂
    · intro l₁ hl
      cases hl
      exact (hevery.mono fun _ _ _ h => h.1).stops_tag hs
  · rw [hget] at hs
    unfold upsertLocked
    rw [run_bind, hget]
    cases hread : readTree (some old) req.name ctx.nowIso with
    | error e =>
      rw [hread] at hs
      obtain ⟨rfl, rfl⟩ := stops_ret _ hs
      exact Or.inl ⟨rfl, fun _ hl => by cases hl⟩
    | ok existing =>
      rw [hread] at hs
      dsimp only at hs ⊢
      cases hplan : planUpsert ctx.nowIso req existing with
      | error e =>
        rw [hplan] at hs
        obtain ⟨rfl, rfl⟩ := stops_ret _ hs
        exact Or.inl ⟨rfl, fun _ hl => by cases hl⟩
      | ok target =>
        obtain ⟨d₂, hpersist, hcommitted⟩ := persistGraph_working target hd.root (hd.fresh ctx)
        rw [hplan] at hs
        refine Or.inr ⟨target, ?_, ?_⟩
        · dsimp only
          rw [run_bind, hpersist]
          rfl
        · rcases stops_bind _ hs with ⟨l₀, rfl, hs⟩ | hs
          · exact persistGraph_stops hd hs
          · rw [hpersist] at hs
            obtain ⟨rfl, rfl⟩ := stops_ret _ hs
            exact .after (fun _ hl => by cases hl) hcommitted.root hcommitted.installs

/-- Every stop of the `try` block of the swap is a stop of the upsert that commits. -/
theorem upsertLocked_stops_in_swap {req : PersistedGraphUpsertRequest J} (hd : Initialised d old)
    (hrun : ((upsertLocked ctx req).run working d).1 = .ok target) {l₀ : Label}
    (hs : Stops working (swapSteps (.staging ctx.stagingId) (.backup ctx.backupId))
      (d.setTree (.staging ctx.stagingId) (stagedTree target)) (some l₀) d₁) :
    Stops working (upsertLocked ctx req) d (some l₀) d₁ := by
  have hget := hd.get_working req.name ctx.nowIso
  have hstage := createStagingTree_working ctx.stagingId target (hd.fresh ctx).staging
  rcases upsertLocked_working ctx req hd.root (hd.fresh ctx) with
    ⟨e, -, hrun'⟩ | ⟨existing, hread, ⟨e, -, hrun'⟩ | ⟨t, d₂, hplan, hrun', -⟩⟩
  · rw [hrun'] at hrun
    cases hrun
  · rw [hrun'] at hrun
    cases hrun
  · rw [hrun'] at hrun
    cases hrun
    apply stops_bind_rest
    rw [hget, hread]
    dsimp only
    rw [hplan]
    apply stops_bind_first
    apply stops_bind_rest
    rw [hstage]
    exact stops_bind_first _ (stops_bind_first _ hs _) _

end StopPoints

end Agyn
