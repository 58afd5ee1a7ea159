import Mathlib.Algebra.Order.Ring.Int
import Mathlib.Data.List.Sort
import Mathlib.Logic.Function.Basic
import Mathlib.Tactic.Linarith
import Mathlib.Tactic.SplitIfs

/-!
The collector of workspace volumes. A sweep takes the newest closed threads up to a number and
attempts each of them unless it was attempted a short time ago; the threads it attempts stay
closed, and nothing takes them out of the selection. Concurrency, the timeout of a sweep and log
lines are left out: the threads of a sweep are distinct and do not depend on each other.
-/
namespace Agyn.VolumeGc

inductive SweepOutcome where
  | removed
  | referenced
  | cooldown
  | error
  | notFound
  deriving DecidableEq

structure Thread where
  id : String
  closed : Bool
  createdAt : ℤ
  deriving DecidableEq

/-- The settings of the service; `resolveInteger` keeps them in their ranges. -/
structure Settings where
  enabled : Bool
  maxPerSweep : ℕ
  cooldownMs : ℤ
  maxPerSweep_pos : 1 ≤ maxPerSweep
  cooldownMs_nonneg : 0 ≤ cooldownMs

abbrev LastAttempt := String → Option ℤ

/-- The container runtime, with the status code of a removal that fails. -/
structure Docker where
  listContainersByVolume : String → Except Unit (List String)
  removeVolume : String → Except (Option ℕ) Unit

/-- What a sweep meets: the time, whether the runner is up, and the closed threads in the order in
which the database returns them. -/
structure Sweep where
  now : ℤ
  runnerUp : Bool
  listing : List Thread
  docker : Docker

variable (cfg : Settings)

/-- The thread was not attempted within the cooldown. -/
def Eligible (last : LastAttempt) (now : ℤ) (id : String) : Prop :=
  ∀ t ∈ last id, cfg.cooldownMs ≤ now - t

def attempt (docker : Docker) (threadId : String) : SweepOutcome :=
  let volumeName := "ha_ws_" ++ threadId
  match docker.listContainersByVolume volumeName with
  | .error _ => .error
  | .ok (_ :: _) => .referenced
  | .ok [] =>
    match docker.removeVolume volumeName with
    | .ok _ => .removed
    | .error statusCode => if statusCode = some 404 then .notFound else .error

def handleThread (docker : Docker) (now : ℤ) (threadId : String) (last : LastAttempt) :
    SweepOutcome × LastAttempt :=
  if (last threadId).any fun t => now - t < cfg.cooldownMs then (.cooldown, last)
  else (attempt docker threadId, Function.update last threadId (some now))

def handleThreads (docker : Docker) (now : ℤ) :
    List String → LastAttempt → List (String × SweepOutcome) × LastAttempt
  | [], last => ([], last)
  | id :: ids, last =>
    let (outcome, last) := handleThread cfg docker now id last
    let (outcomes, last) := handleThreads docker now ids last
    ((id, outcome) :: outcomes, last)

/-- `findMany` with `take`. -/
def candidates (listing : List Thread) : List String :=
  (listing.take cfg.maxPerSweep).map Thread.id

/-- A sweep with the outcome for each of its threads; it handles none when it is skipped. -/
def sweep (s : Sweep) (last : LastAttempt) : List (String × SweepOutcome) × LastAttempt :=
  if !cfg.enabled || !s.runnerUp then ([], last)
  else handleThreads cfg s.docker s.now (candidates cfg s.listing) last

/-- The states before the sweeps, with what each sweep has done. -/
def sweeps : List Sweep → LastAttempt → List (LastAttempt × Sweep × List (String × SweepOutcome))
  | [], _ => []
  | s :: rest, last =>
    (last, s, (sweep cfg s last).1) :: sweeps rest (sweep cfg s last).2

def Attempted (id : String) (outcomes : List (String × SweepOutcome)) : Prop :=
  ∃ outcome, (id, outcome) ∈ outcomes ∧ outcome ≠ .cooldown

/-- The closed threads, the newest first; threads created at the same time stand in any order. -/
structure IsListing (threads listing : List Thread) : Prop where
  perm : listing.Perm (threads.filter Thread.closed)
  sorted : listing.Pairwise fun a b => b.createdAt ≤ a.createdAt

structure Runs (threads : List Thread) (ss : List Sweep) : Prop where
  up : ∀ s ∈ ss, s.runnerUp = true
  listed : ∀ s ∈ ss, IsListing threads s.listing
  spaced : ss.Pairwise fun s t => cfg.cooldownMs ≤ t.now - s.now

variable {cfg} {docker : Docker} {now : ℤ} {id : String} {ids : List String} {last : LastAttempt}
  {s : Sweep} {ss : List Sweep} {threads listing : List Thread}

theorem attempt_ne_cooldown : attempt docker id ≠ .cooldown := by
  unfold attempt
  dsimp only
  split
  · nofun
  · nofun
  · split
    · nofun
    · split <;> nofun

theorem handleThread_of_eligible (h : Eligible cfg last now id) :
    handleThread cfg docker now id last =
      (attempt docker id, Function.update last id (some now)) := by
  rw [handleThread, if_neg]
  intro hany
  obtain ⟨t, ht, hsoon⟩ := (Option.any_eq_true _ _).mp hany
  have hlate := h t ht
  have hsoon : now - t < cfg.cooldownMs := by simpa using hsoon
  omega

/-- Handling a thread leaves the other ones as they are. -/
theorem handleThread_of_ne {other : String} (h : id ≠ other) :
    (handleThread cfg docker now other last).2 id = last id := by
  unfold handleThread
  split
  · rfl
  · exact Function.update_of_ne h _ _

theorem handleThreads_of_not_mem (h : id ∉ ids) (last : LastAttempt) :
    (handleThreads cfg docker now ids last).2 id = last id ∧
      ¬Attempted id (handleThreads cfg docker now ids last).1 := by
  induction ids generalizing last with
  | nil => exact ⟨rfl, fun ⟨_, hmem, _⟩ => List.not_mem_nil hmem⟩
  | cons other ids ih =>
    obtain ⟨hne, hrest⟩ := List.ne_and_not_mem_of_not_mem_cons h
    obtain ⟨hlast, hnot⟩ := ih hrest (handleThread cfg docker now other last).2
    refine ⟨hlast.trans (handleThread_of_ne hne), fun ⟨outcome, hmem, hout⟩ => ?_⟩
    rcases List.mem_cons.mp hmem with heq | hmem
    · exact hne (Prod.mk.inj heq).1
    · exact hnot ⟨outcome, hmem, hout⟩

/-- An eligible thread of the selection is attempted. -/
theorem attempted_of_mem (h : Eligible cfg last now id) (hmem : id ∈ ids) :
    Attempted id (handleThreads cfg docker now ids last).1 := by
  induction ids generalizing last with
  | nil => cases hmem
  | cons other ids ih =>
    by_cases hid : id = other
    · refine ⟨(handleThread cfg docker now other last).1, ?_, ?_⟩
      · rw [hid]
        exact List.mem_cons_self
      · rw [← hid, handleThread_of_eligible h]
        exact attempt_ne_cooldown
    · have hlast : Eligible cfg (handleThread cfg docker now other last).2 now id := by
        intro t ht
        rw [handleThread_of_ne hid] at ht
        exact h t ht
      obtain ⟨outcome, hin, hout⟩ := ih hlast ((List.mem_cons.mp hmem).resolve_left hid)
      exact ⟨outcome, List.mem_cons_of_mem _ hin, hout⟩

/-- A thread that the selections of the sweeps leave out is never attempted. -/
theorem passed_over (id : String) (hout : ∀ s ∈ ss, id ∉ candidates cfg s.listing) :
    ∀ e ∈ sweeps cfg ss last, e.1 id = last id ∧ ¬Attempted id e.2.2 := by
  induction ss generalizing last with
  | nil => nofun
  | cons s ss ih =>
    have hstep : (sweep cfg s last).2 id = last id ∧ ¬Attempted id (sweep cfg s last).1 := by
      unfold sweep
      split
      · exact ⟨rfl, fun ⟨_, hmem, _⟩ => List.not_mem_nil hmem⟩
      · exact handleThreads_of_not_mem (hout s List.mem_cons_self) last
    intro e he
    rcases List.mem_cons.mp he with rfl | he
    · exact ⟨rfl, hstep.2⟩
    · obtain ⟨hlast, hnot⟩ := ih (fun t ht => hout t (List.mem_cons_of_mem s ht)) e he
      exact ⟨hlast.trans hstep.1, hnot⟩

/-- The database can list the closed threads. -/
theorem exists_listing (threads : List Thread) : ∃ listing, IsListing threads listing := by
  let newer (a b : Thread) : Bool := b.createdAt ≤ a.createdAt
  refine ⟨(threads.filter Thread.closed).mergeSort newer, List.mergeSort_perm _ _, ?_⟩
  have hpairs : ((threads.filter Thread.closed).mergeSort newer).Pairwise
      fun a b => newer a b = true := List.pairwise_mergeSort
    (by intro a b c; simp only [newer, decide_eq_true_eq]; omega)
    (by intro a b; simp only [newer, Bool.or_eq_true, decide_eq_true_eq]; omega) _
  exact hpairs.imp fun h => by simpa [newer] using h

theorem IsListing.length (h : IsListing threads listing) :
    listing.length = (threads.filter Thread.closed).length := h.perm.length_eq

/-- With room for all of them the selection has every closed thread. -/
theorem IsListing.mem_candidates (h : IsListing threads listing) {thread : Thread}
    (hmem : thread ∈ threads) (hclosed : thread.closed = true)
    (hroom : (threads.filter Thread.closed).length ≤ cfg.maxPerSweep) :
    thread.id ∈ candidates cfg listing := by
  rw [candidates, List.take_of_length_le (h.length.trans_le hroom)]
  exact List.mem_map_of_mem (h.perm.mem_iff.mpr (List.mem_filter.mpr ⟨hmem, hclosed⟩))

/-- Without room for all of them the oldest one is left out. -/
theorem IsListing.exists_left_out (h : IsListing threads listing)
    (hids : (threads.map Thread.id).Nodup)
    (hfull : cfg.maxPerSweep < (threads.filter Thread.closed).length) :
    ∃ thread ∈ threads, thread.closed = true ∧ thread.id ∉ candidates cfg listing := by
  have hlt : cfg.maxPerSweep < listing.length := h.length ▸ hfull
  have hin : listing[cfg.maxPerSweep] ∈ listing := List.getElem_mem hlt
  obtain ⟨hmem, hclosed⟩ := List.mem_filter.mp (h.perm.mem_iff.mp hin)
  refine ⟨_, hmem, hclosed, fun hcand => ?_⟩
  obtain ⟨other, hother, heq⟩ := List.mem_map.mp hcand
  have hnodup : listing.Nodup :=
    h.perm.nodup_iff.mpr ((List.Nodup.of_map _ hids).filter _)
  have hsame : other = listing[cfg.maxPerSweep] := by
    refine List.inj_on_of_nodup_map hids ?_ hmem heq
    exact (List.mem_filter.mp (h.perm.mem_iff.mp (List.mem_of_mem_take hother))).1
  rw [hsame] at hother
  obtain ⟨i, hi, hget⟩ := List.getElem_of_mem hother
  rw [List.getElem_take] at hget
  rw [List.length_take] at hi
  have hindex : i = cfg.maxPerSweep := hnodup.getElem_inj_iff.mp hget
  omega

/-- A closed thread that is eligible at each of `⌈N / maxPerSweep⌉` sweeps is attempted in one. -/
def Covered (cfg : Settings) (threads : List Thread) (last : LastAttempt) : Prop :=
  let closed := (threads.filter Thread.closed).length
  ∀ ss, Runs cfg threads ss → ss.length = (closed + cfg.maxPerSweep - 1) / cfg.maxPerSweep →
    ∀ thread ∈ threads, thread.closed = true →
      (∀ e ∈ sweeps cfg ss last, Eligible cfg e.1 e.2.1.now thread.id) →
      ∃ e ∈ sweeps cfg ss last, Attempted thread.id e.2.2

/-- The thread is eligible at each of any number of sweeps and never attempted. -/
def Starved (cfg : Settings) (threads : List Thread) (last : LastAttempt) (thread : Thread) :
    Prop :=
  ∀ n, ∃ ss, ss.length = n ∧ Runs cfg threads ss ∧
    ∀ e ∈ sweeps cfg ss last, Eligible cfg e.1 e.2.1.now thread.id ∧ ¬Attempted thread.id e.2.2

def regular (cfg : Settings) (listing : List Thread) (docker : Docker) (first : ℤ) (n : ℕ) :
    List Sweep :=
  (List.range n).map fun (k : ℕ) => ⟨first + (k : ℤ) * cfg.cooldownMs, true, listing, docker⟩

theorem runs_regular (h : IsListing threads listing) (docker : Docker) (first : ℤ) (n : ℕ) :
    Runs cfg threads (regular cfg listing docker first n) where
  up := by
    intro s hs
    obtain ⟨k, -, rfl⟩ := List.mem_map.mp hs
    rfl
  listed := by
    intro s hs
    obtain ⟨k, -, rfl⟩ := List.mem_map.mp hs
    exact h
  spaced := by
    refine List.pairwise_map.mpr (List.pairwise_lt_range.imp fun {i j} hij => ?_)
    have hnonneg := cfg.cooldownMs_nonneg
    have hsteps : (0 : ℤ) ≤ (j : ℤ) - i - 1 := by omega
    have hlong := mul_nonneg hsteps hnonneg
    show cfg.cooldownMs ≤ first + j * cfg.cooldownMs - (first + i * cfg.cooldownMs)
    linarith

theorem sweep_of_mem_sweeps : ∀ e ∈ sweeps cfg ss last, e.2.1 ∈ ss := by
  induction ss generalizing last with
  | nil => nofun
  | cons s ss ih =>
    intro e he
    rcases List.mem_cons.mp he with rfl | he
    · exact List.mem_cons_self
    · exact List.mem_cons_of_mem s (ih e he)

theorem exists_starved (cfg : Settings) (hids : (threads.map Thread.id).Nodup)
    (hfull : cfg.maxPerSweep < (threads.filter Thread.closed).length) (last : LastAttempt) :
    ∃ thread ∈ threads, thread.closed = true ∧ Starved cfg threads last thread := by
  obtain ⟨listing, hlisting⟩ := exists_listing threads
  obtain ⟨thread, hmem, hclosed, hout⟩ := hlisting.exists_left_out hids hfull
  refine ⟨thread, hmem, hclosed, fun n => ?_⟩
  let first := (last thread.id).getD 0 + cfg.cooldownMs
  let docker : Docker := ⟨fun _ => .ok [], fun _ => .ok ()⟩
  refine ⟨regular cfg listing docker first n, by simp [regular], runs_regular hlisting _ _ _, ?_⟩
  have hpassed : ∀ s ∈ regular cfg listing docker first n,
      thread.id ∉ candidates cfg s.listing := by
    intro s hs
    obtain ⟨k, -, rfl⟩ := List.mem_map.mp hs
    exact hout
  intro e he
  obtain ⟨hlast, hnot⟩ := passed_over _ hpassed e he
  refine ⟨fun t ht => ?_, hnot⟩
  obtain ⟨k, -, hk⟩ := List.mem_map.mp (sweep_of_mem_sweeps e he)
  have hlast : last thread.id = some t := hlast.symm.trans ht
  have hfirst : first = t + cfg.cooldownMs := by simp [first, hlast]
  have hlong := mul_nonneg (Int.natCast_nonneg k) cfg.cooldownMs_nonneg
  rw [← hk]
  show cfg.cooldownMs ≤ first + k * cfg.cooldownMs - t
  linarith

/-- Every closed thread is reached in time exactly when a sweep has room for all of them; else one
is passed over forever. -/
theorem covered_iff (henabled : cfg.enabled = true) (hids : (threads.map Thread.id).Nodup)
    (last : LastAttempt) :
    (Covered cfg threads last ↔ (threads.filter Thread.closed).length ≤ cfg.maxPerSweep) ∧
      (cfg.maxPerSweep < (threads.filter Thread.closed).length →
        ∃ thread ∈ threads, thread.closed = true ∧ Starved cfg threads last thread) := by
  refine ⟨⟨fun hcovered => ?_, fun hroom ss hruns hlength thread hmem hclosed heligible => ?_⟩,
    fun hfull => exists_starved cfg hids hfull last⟩
  · by_contra hfull
    obtain ⟨thread, hmem, hclosed, hstarved⟩ :=
      exists_starved cfg hids (Nat.lt_of_not_le hfull) last
    obtain ⟨ss, hlength, hruns, hnever⟩ := hstarved _
    obtain ⟨e, he, hattempted⟩ := hcovered ss hruns hlength thread hmem hclosed
      fun e he => (hnever e he).1
    exact (hnever e he).2 hattempted
  · have hsome : 1 ≤ (threads.filter Thread.closed).length :=
      List.length_pos_of_mem (List.mem_filter.mpr ⟨hmem, hclosed⟩)
    have hone : 1 ≤ ss.length := by
      rw [hlength]
      exact (Nat.one_le_div_iff cfg.maxPerSweep_pos).mpr (by omega)
    cases ss with
    | nil => simp at hone
    | cons s ss =>
      refine ⟨_, List.mem_cons_self, ?_⟩
      have hcandidate := (hruns.listed s List.mem_cons_self).mem_candidates hmem hclosed hroom
      have hfirst : Eligible cfg last s.now thread.id := heligible _ List.mem_cons_self
      rw [sweep, henabled, hruns.up s List.mem_cons_self]
      exact attempted_of_mem hfirst hcandidate

def narrow : Settings := ⟨true, 1, 600000, by decide, by decide⟩

def twoClosed : List Thread := [⟨"old", true, 1⟩, ⟨"new", true, 2⟩]

theorem covered_iff_two :
    ¬Covered narrow twoClosed (fun _ => none) ∧
      ∃ thread ∈ twoClosed, Starved narrow twoClosed (fun _ => none) thread := by
  obtain ⟨hiff, hstarved⟩ : (Covered narrow twoClosed _ ↔ _) ∧ _ :=
    covered_iff rfl (by decide) fun _ => none
  refine ⟨fun hcovered => absurd (hiff.mp hcovered) (by decide), ?_⟩
  obtain ⟨thread, hmem, -, hthread⟩ := hstarved (by decide)
  exact ⟨thread, hmem, hthread⟩

/-- The new thread is taken by both sweeps, and the old one by neither. -/
def twoSweeps : List Sweep :=
  [⟨0, true, [⟨"new", true, 2⟩, ⟨"old", true, 1⟩], ⟨fun _ => .ok ["c"], fun _ => .ok ()⟩⟩,
    ⟨600000, true, [⟨"new", true, 2⟩, ⟨"old", true, 1⟩], ⟨fun _ => .ok ["c"], fun _ => .ok ()⟩⟩]

theorem old_passed_over :
    ¬Covered narrow twoClosed (fun _ => none) := by
  intro hcovered
  have hlisting : IsListing twoClosed [⟨"new", true, 2⟩, ⟨"old", true, 1⟩] :=
    ⟨List.Perm.swap _ _ _, by simp⟩
  have hruns : Runs narrow twoClosed twoSweeps :=
    ⟨by decide, by simpa [twoSweeps] using hlisting, by simp [twoSweeps, narrow]⟩
  obtain ⟨e, he, outcome, hmem, hout⟩ := hcovered twoSweeps hruns rfl ⟨"old", true, 1⟩ (by decide)
    rfl fun e he t ht => by
      have hnone := (passed_over "old" (by decide) e he).1
      simp [hnone] at ht
  have hnever := (passed_over "old" (by decide) e he).2
  exact hnever ⟨outcome, hmem, hout⟩

end Agyn.VolumeGc
