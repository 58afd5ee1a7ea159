import Agyn.StopPoints
import Agyn.UpsertRoundTrip

/-!
Crashes during an upsert. Wherever the process stops, either the old root is still
there or can be put back from its backup, or the new root is complete. The `.git`
entry is moved into the new root only after that is in place, and the backup that
holds it until then is discarded by the next initialisation.
-/
namespace Agyn

open Prog FsGraphRepository

variable {J G : Type}

section Surviving

/-- Starting again on the disk `d₁`, a read finds the graph of `d` or that of `d'`, and the
root has the `.git` entry it had on `d`. -/
def Survives (d d₁ d' : Disk J G) (name later : String) : Prop :=
  ∃ d₂, (initIfNeeded later).run working d₁ = (.ok (), d₂) ∧
    (((FsGraphRepository.get name later).run working d₂).1 =
        ((FsGraphRepository.get name later).run working d).1 ∨
      ((FsGraphRepository.get name later).run working d₂).1 =
        ((FsGraphRepository.get name later).run working d').1) ∧
    (d₂.tree .root).bind GraphTree.git = (d.tree .root).bind GraphTree.git

variable {d d₁ d' : Disk J G} {ctx : CallContext} {schema : List TemplateNodeSchema}
  {req : PersistedGraphUpsertRequest J} {target : PersistedGraph J} {old : GraphTree J G}
  {l : Option Label}

theorem survives_iff {t : GraphTree J G} (hold : d.tree .root = some old)
    (hrecovers : RecoversTo d₁ t) (hmeta : t.metaFile.isSome) (hdirs : t.HasDirs)
    (name later : String) :
    Survives d d₁ d' name later ↔
      (readTree (some t) name later = readTree (some old) name later ∨
        readTree (some t) name later = readTree (d'.tree .root) name later) ∧
      t.git = old.git := by
  obtain ⟨d₂, t', hrun, hinit, hkept⟩ := initIfNeeded_working later d₁
  obtain rfl := hkept t hrecovers hmeta hdirs
  unfold Survives
  rw [hrun, hold, working_eq_faulty]
  simp only [get_run, hold]
  constructor
  · intro h
    obtain ⟨d₃, hd₃, hread, hgit⟩ := h
    cases hd₃
    rw [hinit.root] at hread hgit
    exact ⟨hread, hgit⟩
  · intro h
    refine ⟨d₂, rfl, ?_⟩
    rw [hinit.root]
    exact h

/-- What an upsert that succeeds did. -/
theorem upsert_ok_parts (hd : Initialised d old)
    (h : (upsert schema ctx req).run working d = (.ok target, d')) :
    upsert schema ctx req = upsertLocked ctx req ∧ Committed d ctx target old d' := by
  obtain ⟨hvalid, -, hcommitted⟩ := upsert_working_ok hd.root (hd.fresh ctx) h
  exact ⟨upsert_of_valid hvalid ctx, hcommitted⟩

/-- Where a successful upsert can stop: with the graph it found, or on the way to its commit. -/
theorem upsert_stops (hd : Initialised d old)
    (hrun : (upsert schema ctx req).run working d = (.ok target, d'))
    (hs : Stops working (upsert schema ctx req) d l d₁) :
    (d₁ = d ∧ ∀ l₀, l = some l₀ → l₀.site = .reading) ∨
      StopPoint d.installs ctx old target l d₁ := by
  obtain ⟨hlocked, -⟩ := upsert_ok_parts hd hrun
  rw [hlocked] at hs hrun
  rcases upsertLocked_stops hd hs with hunchanged | ⟨t, ht, hpoint⟩
  · exact Or.inl hunchanged
  · rw [hrun] at ht
    cases ht
    exact Or.inr hpoint

/-- Every successful upsert comes to the point where the staged tree is the root and the
`.git` entry is still in the backup. -/
theorem upsert_stops_moving (hd : Initialised d old)
    (hrun : (upsert schema ctx req).run working d = (.ok target, d')) :
    ∃ d₁, Stops working (upsert schema ctx req) d (some ⟨.auxiliary, 0⟩) d₁ ∧
      d₁.tree .root = some (stagedTree target) := by
  obtain ⟨hlocked, -⟩ := upsert_ok_parts hd hrun
  rw [hlocked] at hrun ⊢
  have hswap := swappable_staged target hd.root (hd.fresh ctx)
  refine ⟨installed (d.setTree (.staging ctx.stagingId) (stagedTree target)) ctx old
    (stagedTree target), ?_, by rw [installed_tree, if_pos rfl]⟩
  exact upsertLocked_stops_in_swap hd (by rw [hrun]) (swapSteps_stops_moving hswap)

/-- For every point at which a successful upsert can stop: after the next initialisation, a
read finds the graph before or after the upsert and the `.git` entry is in the root, iff the
process did not stop while moving a `.git` entry that was there. -/
theorem upsert_survives_iff (schema : List TemplateNodeSchema) (ctx : CallContext)
    (req : PersistedGraphUpsertRequest J) (d d₁ d' : Disk J G) (old : GraphTree J G)
    (target : PersistedGraph J) (l : Option Label) (name later : String)
    (hd : Initialised d old) (hrun : (upsert schema ctx req).run working d = (.ok target, d'))
    (hstop : Stops working (upsert schema ctx req) d l d₁) :
    Survives d d₁ d' name later ↔
      ¬ (old.git.isSome ∧ ∃ step, l = some ⟨.auxiliary, step⟩) := by
  have hcommitted := (upsert_ok_parts hd hrun).2
  have hdirs : ∀ git, ({ (stagedTree target : GraphTree J G) with git } : GraphTree J G).HasDirs :=
    fun git dir => ⟨_, rfl⟩
  have hnot : ∀ {l : Option Label}, (∀ l₀, l = some l₀ → l₀.site ≠ .auxiliary) →
      ¬ (old.git.isSome ∧ ∃ step, l = some ⟨.auxiliary, step⟩) := by
    intro l hl h
    obtain ⟨-, step, hstep⟩ := h
    exact hl _ hstep rfl
  rcases upsert_stops hd hrun hstop with ⟨rfl, hl⟩ | hpoint
  · rw [survives_iff hd.root (recoversTo_root hd.root) hd.metaFile hd.dirs]
    refine iff_of_true ⟨Or.inl rfl, rfl⟩ (hnot fun l₀ hl₀ hsite => ?_)
    rw [hl l₀ hl₀] at hsite
    cases hsite
  · cases hpoint with
    | before hl hroot =>
      rw [survives_iff hd.root (recoversTo_root hroot) hd.metaFile hd.dirs]
      refine iff_of_true ⟨Or.inl rfl, rfl⟩ (hnot fun l₀ hl₀ hsite => ?_)
      cases hl₀
      rcases hl with hl | hl
      · rw [hsite] at hl
        simp at hl
      · rcases List.mem_pair.mp hl with rfl | rfl <;> cases hsite
    | between _ hrecovers =>
      rw [survives_iff hd.root hrecovers hd.metaFile hd.dirs]
      refine iff_of_true ⟨Or.inl rfl, rfl⟩ (hnot fun l₀ hl₀ hsite => ?_)
      cases hl₀
      cases hsite
    | moving hroot =>
      rw [survives_iff hd.root (recoversTo_root hroot) rfl (hdirs none), hcommitted.root]
      have hread : readTree (some (stagedTree target : GraphTree J G)) name later =
          readTree (some { (stagedTree target : GraphTree J G) with git := old.git }) name later :=
        readTree_docs { (stagedTree target : GraphTree J G) with git := old.git } name later
      constructor
      · intro h hmoving
        rw [← h.2] at hmoving
        cases hmoving.1
      · intro h
        refine ⟨Or.inr hread, ?_⟩
        cases hgit : old.git with
        | none => rfl
        | some git => exact absurd ⟨by rw [hgit]; rfl, _, rfl⟩ h
    | after hl hroot =>
      rw [survives_iff hd.root (recoversTo_root hroot) rfl (hdirs old.git), hcommitted.root]
      refine iff_of_true ⟨Or.inr rfl, rfl⟩ (hnot fun l₀ hl₀ hsite => ?_)
      rw [hl l₀ hl₀] at hsite
      cases hsite

/-- A process that stops in the middle of the swap of a tree without a `.git` entry. -/
theorem stopped_swap_without_git : ∃ target d' d₁,
    (upsert sampleSchema sampleContext (sampleRequest ["a"] [])).run working (initialDisk none) =
      (.ok target, d') ∧
    Stops working (upsert sampleSchema sampleContext (sampleRequest ["a"] []))
      (initialDisk none) (some ⟨.auxiliary, 0⟩) d₁ ∧
    (Survives (initialDisk none) d₁ d' "main" "later" ↔
      ¬ ((initialTree none).git.isSome ∧ ∃ step,
        (some ⟨.auxiliary, 0⟩ : Option Label) = some ⟨.auxiliary, step⟩)) := by
  obtain ⟨target, d', hrun⟩ := sampleRequest_commits none ["a"] [] (by decide)
  have hd := initialDisk_initialised none
  obtain ⟨d₁, hstop, -⟩ := upsert_stops_moving hd hrun
  exact ⟨target, d', d₁, hrun, hstop, upsert_survives_iff sampleSchema sampleContext _ _ d₁ d' _
    target _ "main" "later" hd hrun hstop⟩

/-- The process stops when the new tree is in place and the `.git` entry still in the backup,
which the next initialisation discards. -/
theorem stopped_swap_loses_git : ∃ target d' d₁,
    (upsert sampleSchema sampleContext (sampleRequest ["a"] [])).run working
        (initialDisk (some ())) =
      (.ok target, d') ∧
    Stops working (upsert sampleSchema sampleContext (sampleRequest ["a"] []))
      (initialDisk (some ())) (some ⟨.auxiliary, 0⟩) d₁ ∧
    ¬ Survives (initialDisk (some ())) d₁ d' "main" "later" := by
  obtain ⟨target, d', hrun⟩ := sampleRequest_commits (some ()) ["a"] [] (by decide)
  have hd := initialDisk_initialised (some ())
  obtain ⟨d₁, hstop, hroot⟩ := upsert_stops_moving hd hrun
  refine ⟨target, d', d₁, hrun, hstop, ?_⟩
  rw [survives_iff hd.root (recoversTo_root hroot) rfl fun dir => ⟨_, rfl⟩]
  intro h
  cases h.2

end Surviving

end Agyn
