import Mathlib.Data.List.Perm.Basic
import Agyn.ContainerSweeps
import Agyn.GuardedRuns

/-!
Sweeps over a container that is registered again and used in the meantime. A sweep that has found
the container expired claims it without looking at the time again, and a registration puts it back
to running whatever its status.
-/
namespace Agyn.SweepRaces

open ContainerEvents ContainerRegistry ContainerSweeps

/-- `updateLastUsed` between its read and its write. -/
structure Touch where
  snapshot : ContainerMetadata
  now : ℤ
  ttlOverrideSeconds : Option ℤ
  deriving DecidableEq

/-- A claim that a sweep has made, with the time it found in the row. -/
structure Claim where
  sweepNow : ℤ
  killAfterAt : Option ℤ
  deriving DecidableEq

structure State where
  row : Option ContainerRow
  sweeps : List Sweep
  tasks : List Task
  touches : List Touch
  claims : List Claim
  deriving DecidableEq

inductive Action where
  | sweep (now : ℤ)
  /-- The next query of a sweep. -/
  | query (i : ℕ)
  /-- The next step of a task. -/
  | advance (i : ℕ) (claimId : String) (now : ℤ) (message : String)
  /-- The next step of a task throws. -/
  | fail (i : ℕ) (message : String)
  | deleteHistorical
  | registerStart (args : StartArgs) (now : ℤ)
  | readLastUsed (now : ℤ) (ttlOverrideSeconds : Option ℤ)
  | writeLastUsed (i : ℕ)

def claimOf (row : Option ContainerRow) (task : Task) : List Claim :=
  match task.phase, row with
  | .claiming _ _, some row =>
    if row.status = .running then [⟨task.sweepNow, row.killAfterAt⟩] else []
  | _, _ => []

def step (s : State) : Action → Option State
  | .sweep now => some { s with sweeps := s.sweeps ++ [⟨now, .querying⟩] }
  | .query i =>
    match s.sweeps[i]? with
    | none => none
    | some sweep => (sweep.next s.row).map fun out =>
        { s with sweeps := s.sweeps.set i { sweep with phase := out.1 }, tasks := s.tasks ++ out.2 }
  | .advance i claimId now message =>
    match s.tasks[i]? with
    | none => none
    | some task => (task.phase.next s.row claimId now message).map fun out =>
        { s with
          row := out.1
          tasks := s.tasks.set i { task with phase := out.2 }
          claims := s.claims ++ claimOf s.row task }
  | .fail i message =>
    match s.tasks[i]? with
    | none => none
    | some task => (task.phase.fail message).map fun phase =>
        { s with tasks := s.tasks.set i { task with phase } }
  | .deleteHistorical =>
    match s.row with
    | none => none
    | some row =>
      if row.status = .stopped ∨ row.status = .failed then some { s with row := none } else none
  | .registerStart args now =>
    match registerStart args now with
    | .error _ => none
    | .ok row => some { s with row := some row }
  | .readLastUsed now ttlOverrideSeconds =>
    match s.row with
    | none => none
    | some row =>
      some { s with touches := s.touches ++ [⟨row.metadata, now, ttlOverrideSeconds⟩] }
  | .writeLastUsed i =>
    match s.touches[i]? with
    | none => none
    | some touch => some { s with
        row := s.row.map (·.updateLastUsed touch.snapshot touch.now touch.ttlOverrideSeconds)
        touches := s.touches.eraseIdx i }

def init (row : Option ContainerRow) : State := ⟨row, [], [], [], []⟩

/-- No sweep is about to remove the container, and the time of the container does not run past that
of a sweep which is about to claim it. -/
structure Spared (s : State) (killAfterAt : Option ℤ) : Prop where
  tasks : ∀ task ∈ s.tasks, task.phase.holding = false ∧
    (task.phase.unclaimed → isExpired killAfterAt task.sweepNow)
  sweeps : ∀ sweep ∈ s.sweeps, sweep.phase.foundTerminating = false ∧
    (sweep.phase.foundRunning → isExpired killAfterAt sweep.now)

instance (s : State) (killAfterAt : Option ℤ) : Decidable (Spared s killAfterAt) :=
  decidable_of_iff ((∀ task ∈ s.tasks, task.phase.holding = false ∧
      (task.phase.unclaimed → isExpired killAfterAt task.sweepNow)) ∧
    ∀ sweep ∈ s.sweeps, sweep.phase.foundTerminating = false ∧
      (sweep.phase.foundRunning → isExpired killAfterAt sweep.now))
    ⟨fun h => ⟨h.1, h.2⟩, fun h => ⟨h.1, h.2⟩⟩

/-- A container is not registered while a sweep goes on to remove it, and neither a registration nor
a use of the running container moves its time past that of a sweep which has found it expired and
not claimed it yet. -/
def SparesSweeps (s : State) : Action → Prop
  | .registerStart args now => Spared s (computeKillAfter now args.ttlSeconds)
  | .writeLastUsed i => ∀ touch ∈ s.touches[i]?, ∀ row ∈ s.row, row.status = .running →
      Spared s (row.updateLastUsed touch.snapshot touch.now touch.ttlOverrideSeconds).killAfterAt
  | _ => True

instance : ∀ s a, Decidable (SparesSweeps s a)
  | s, .registerStart args now =>
    inferInstanceAs (Decidable (Spared s (computeKillAfter now args.ttlSeconds)))
  | s, .writeLastUsed i =>
    inferInstanceAs (Decidable (∀ touch ∈ s.touches[i]?, ∀ row ∈ s.row, row.status = .running →
      Spared s (row.updateLastUsed touch.snapshot touch.now touch.ttlOverrideSeconds).killAfterAt))
  | _, .sweep _ => isTrue trivial
  | _, .query _ => isTrue trivial
  | _, .advance _ _ _ _ => isTrue trivial
  | _, .fail _ _ => isTrue trivial
  | _, .deleteHistorical => isTrue trivial
  | _, .readLastUsed _ _ => isTrue trivial

variable {s s' : State}

/-- A running container is spared by all sweeps, and the claims made were of expired containers. -/
structure Consistent (s : State) : Prop where
  spared : ∀ row ∈ s.row, row.status = .running → Spared s row.killAfterAt
  claims : ∀ claim ∈ s.claims, isExpired claim.killAfterAt claim.sweepNow

theorem consistent_init (row : Option ContainerRow) : Consistent (init row) :=
  ⟨fun _ _ _ => ⟨by simp [init], by simp [init]⟩, by simp [init]⟩

/-- A query that finds a running container lists it by its time, and does not find it
terminating. -/
theorem Spared.query {row : ContainerRow} {sweep : Sweep} {phase : SweepPhase} {tasks : List Task}
    (h : Spared s row.killAfterAt) (hrunning : row.status = .running) (hsweep : sweep ∈ s.sweeps)
    (hnext : sweep.next (some row) = some (phase, tasks)) :
    (phase.foundTerminating = false ∧ (phase.foundRunning → isExpired row.killAfterAt sweep.now)) ∧
      ∀ task ∈ tasks, task.phase.holding = false ∧
        (task.phase.unclaimed → isExpired row.killAfterAt task.sweepNow) := by
  obtain ⟨hterminating, hexpired⟩ := h.sweeps sweep hsweep
  unfold Sweep.next at hnext
  cases hphase : sweep.phase with
  | querying =>
    rw [hphase] at hnext
    obtain ⟨rfl, rfl⟩ := by simpa using hnext
    simp [SweepPhase.foundTerminating, SweepPhase.foundRunning, isRetryable, hrunning]
  | findingRunning terminating =>
    rw [hphase] at hnext hterminating
    obtain ⟨rfl, rfl⟩ := by simpa using hnext
    refine ⟨⟨hterminating, fun hfound => ?_⟩, by simp⟩
    simpa [SweepPhase.foundRunning, hrunning] using hfound
  | findingDetails terminating running =>
    rw [hphase] at hnext hterminating hexpired
    obtain rfl : terminating = false := hterminating
    obtain ⟨rfl, rfl⟩ := by simpa using hnext
    refine ⟨⟨rfl, nofun⟩, fun task htask => ?_⟩
    cases running with
    | false => simp at htask
    | true =>
      obtain rfl : task = ⟨sweep.now, .listed .running⟩ := by simpa using htask
      exact ⟨rfl, fun _ => hexpired rfl⟩
  | listed =>
    rw [hphase] at hnext
    cases hnext

theorem Spared.of_set {killAfterAt : Option ℤ} {i : ℕ} {sweep : Sweep} {tasks : List Task}
    (h : Spared s killAfterAt)
    (hsweep : sweep.phase.foundTerminating = false ∧
      (sweep.phase.foundRunning → isExpired killAfterAt sweep.now))
    (htasks : ∀ task ∈ tasks, task.phase.holding = false ∧
      (task.phase.unclaimed → isExpired killAfterAt task.sweepNow)) :
    Spared { s with sweeps := s.sweeps.set i sweep, tasks := s.tasks ++ tasks } killAfterAt where
  tasks := by
    intro task htask
    rcases List.mem_append.mp htask with htask | htask
    · exact h.tasks task htask
    · exact htasks task htask
  sweeps := by
    intro other hother
    rcases List.mem_or_eq_of_mem_set hother with hother | rfl
    · exact h.sweeps other hother
    · exact hsweep

theorem Spared.set_task {killAfterAt : Option ℤ} {i : ℕ} {task : Task} {row : Option ContainerRow}
    {claims : List Claim} (h : Spared s killAfterAt)
    (htask : task.phase.holding = false ∧
      (task.phase.unclaimed → isExpired killAfterAt task.sweepNow)) :
    Spared { s with row, tasks := s.tasks.set i task, claims } killAfterAt where
  tasks := by
    intro other hother
    rcases List.mem_or_eq_of_mem_set hother with hother | rfl
    · exact h.tasks other hother
    · exact htask
  sweeps := h.sweeps

theorem Consistent.query (h : Consistent s) {i : ℕ} (hstep : step s (.query i) = some s') :
    Consistent s' := by
  rw [step] at hstep
  cases hsweep : s.sweeps[i]? with
  | none => simp [hsweep] at hstep
  | some sweep =>
    rw [hsweep] at hstep
    obtain ⟨⟨phase, tasks⟩, hnext, rfl⟩ := Option.map_eq_some_iff.mp hstep
    refine ⟨fun row hrow hrunning => ?_, h.claims⟩
    have hspared := h.spared row hrow hrunning
    have hrow : s.row = some row := hrow
    rw [hrow] at hnext
    obtain ⟨hphase, htasks⟩ := hspared.query hrunning (List.mem_of_getElem? hsweep) hnext
    exact hspared.of_set hphase htasks

/-- A task puts no container to running. -/
theorem exists_running_of_next {row : Option ContainerRow} {r' : ContainerRow}
    {claimId message : String} {now : ℤ} {phase phase' : TaskPhase}
    (hnext : phase.next row claimId now message = some (some r', phase'))
    (hrunning : r'.status = .running) : ∃ r, row = some r ∧ r.status = .running := by
  rcases TaskPhase.next_cases hnext with hrow | ⟨_, _, _, _, -, -, -, hrow, -, hterminating⟩ |
    ⟨_, r, -, -, hrow⟩ | ⟨snapshot, m, r, -, hrow, hrow'⟩
  · exact ⟨r', hrow.symm, hrunning⟩
  · obtain rfl := Option.some.inj hrow
    rw [hrunning] at hterminating
    cases hterminating
  · obtain rfl := Option.some.inj hrow
    cases hrunning
  · obtain rfl := Option.some.inj hrow'
    exact ⟨r, hrow, hrunning⟩

/-- A task that a running container is spared by stays one that spares it. -/
theorem phase_of_running {row row' : ContainerRow} {claimId message : String} {now : ℤ}
    {phase phase' : TaskPhase} (hholding : phase.holding = false)
    (hnext : phase.next (some row) claimId now message = some (some row', phase'))
    (hrunning : row'.status = .running) :
    row' = row ∧ phase'.holding = false ∧ (phase'.unclaimed → phase.unclaimed) := by
  rcases TaskPhase.next_cases hnext with hrow | ⟨_, _, _, _, -, -, -, hrow, -, hterminating⟩ |
    ⟨_, _, -, -, hrow⟩ | ⟨_, _, _, rfl, -⟩
  · obtain rfl := Option.some.inj hrow
    refine ⟨rfl, ?_⟩
    cases phase with
    | listed status =>
      obtain rfl : status = .running := by simpa [TaskPhase.holding] using hholding
      obtain ⟨-, rfl⟩ := by simpa [TaskPhase.next] using hnext
      exact ⟨rfl, fun _ => rfl⟩
    | claiming snapshot id =>
      simp [TaskPhase.next, ContainerRow.claimForTermination, hrunning] at hnext
      rw [← hnext.1] at hrunning
      cases hrunning
    | done => simp [TaskPhase.next] at hnext
    | _ => simp [TaskPhase.holding] at hholding
  · obtain rfl := Option.some.inj hrow
    rw [hrunning] at hterminating
    cases hterminating
  · obtain rfl := Option.some.inj hrow
    cases hrunning
  · simp [TaskPhase.holding] at hholding

theorem Consistent.advance (h : Consistent s) {i : ℕ} {claimId message : String} {now : ℤ}
    (hstep : step s (.advance i claimId now message) = some s') : Consistent s' := by
  rw [step] at hstep
  cases htask : s.tasks[i]? with
  | none => simp [htask] at hstep
  | some task =>
    rw [htask] at hstep
    obtain ⟨⟨row', phase⟩, hnext, rfl⟩ := Option.map_eq_some_iff.mp hstep
    have hmem := List.mem_of_getElem? htask
    refine ⟨fun r' hr' hrunning => ?_, fun claim hclaim => ?_⟩
    · obtain rfl : row' = some r' := hr'
      obtain ⟨r, hrow, hrunning'⟩ := exists_running_of_next hnext hrunning
      have hspared := h.spared r hrow hrunning'
      obtain ⟨hholding, hexpired⟩ := hspared.tasks task hmem
      rw [hrow] at hnext
      obtain ⟨rfl, hphase, hunclaimed⟩ := phase_of_running hholding hnext hrunning
      exact hspared.set_task ⟨hphase, fun hnew => hexpired (hunclaimed hnew)⟩
    · rcases List.mem_append.mp hclaim with hclaim | hclaim
      · exact h.claims claim hclaim
      · unfold claimOf at hclaim
        split at hclaim
        · rename_i snapshot id r hphase hrow
          split_ifs at hclaim with hrunning
          · obtain rfl := List.mem_singleton.mp hclaim
            refine ((h.spared r hrow hrunning).tasks task hmem).2 ?_
            rw [hphase]
            rfl
          · simp at hclaim
        · simp at hclaim

theorem Consistent.fail (h : Consistent s) {i : ℕ} {message : String}
    (hstep : step s (.fail i message) = some s') : Consistent s' := by
  rw [step] at hstep
  cases htask : s.tasks[i]? with
  | none => simp [htask] at hstep
  | some task =>
    rw [htask] at hstep
    obtain ⟨phase, hfail, rfl⟩ := Option.map_eq_some_iff.mp hstep
    refine ⟨fun row hrow hrunning => ?_, h.claims⟩
    have hspared := h.spared row hrow hrunning
    have hholding := (hspared.tasks task (List.mem_of_getElem? htask)).1
    have hdone : phase = .done := by
      cases hphase : task.phase <;> simp_all [TaskPhase.fail, TaskPhase.holding]
    rw [hdone]
    exact hspared.set_task ⟨rfl, nofun⟩

/-- What one step keeps, as long as the registrations and uses spare the sweeps. -/
theorem Consistent.step (h : Consistent s) {a : Action} (hspares : SparesSweeps s a)
    (hstep : step s a = some s') : Consistent s' := by
  cases a with
  | sweep now =>
    obtain rfl := Option.some.inj hstep
    refine ⟨fun row hrow hrunning => ?_, h.claims⟩
    have hspared := h.spared row hrow hrunning
    refine ⟨hspared.tasks, fun sweep hsweep => ?_⟩
    rcases List.mem_append.mp hsweep with hsweep | hsweep
    · exact hspared.sweeps sweep hsweep
    · obtain rfl := List.mem_singleton.mp hsweep
      exact ⟨rfl, nofun⟩
  | query i => exact h.query hstep
  | advance i claimId now message => exact h.advance hstep
  | fail i message => exact h.fail hstep
  | deleteHistorical =>
    rw [SweepRaces.step] at hstep
    cases hrow : s.row with
    | none => simp [hrow] at hstep
    | some row =>
      simp only [hrow] at hstep
      split_ifs at hstep
      obtain rfl := Option.some.inj hstep
      exact ⟨by simp, h.claims⟩
  | registerStart args now =>
    rw [SweepRaces.step] at hstep
    cases hregistered : registerStart args now with
    | error e => simp [hregistered] at hstep
    | ok row =>
      simp only [hregistered] at hstep
      obtain rfl := Option.some.inj hstep
      refine ⟨fun row' hrow hrunning => ?_, h.claims⟩
      obtain rfl := Option.some.inj hrow
      rw [(registerStart_spec hregistered).2]
      exact ⟨hspares.tasks, hspares.sweeps⟩
  | readLastUsed now ttlOverrideSeconds =>
    rw [SweepRaces.step] at hstep
    cases hrow : s.row with
    | none => simp [hrow] at hstep
    | some row =>
      simp only [hrow] at hstep
      obtain rfl := Option.some.inj hstep
      refine ⟨fun row' hrow' hrunning => ?_, h.claims⟩
      have hspared := h.spared row' (by rw [hrow]; exact hrow') hrunning
      exact ⟨hspared.tasks, hspared.sweeps⟩
  | writeLastUsed i =>
    rw [SweepRaces.step] at hstep
    cases htouch : s.touches[i]? with
    | none => simp [htouch] at hstep
    | some touch =>
      simp only [htouch] at hstep
      obtain rfl := Option.some.inj hstep
      refine ⟨fun row' hrow' hrunning => ?_, h.claims⟩
      obtain ⟨row, hrow, rfl⟩ := Option.map_eq_some_iff.mp hrow'
      have hspared := hspares touch htouch row hrow hrunning
      exact ⟨hspared.tasks, hspared.sweeps⟩

/-- As long as the registrations and uses of a container spare the sweeps, each claim of a sweep is
of a container whose time is at or before that of the sweep, and a container is not running while a
sweep goes on to remove it. -/
theorem claims_expired {row : Option ContainerRow}
    (h : Reached step SparesSweeps (init row) s) :
    (∀ claim ∈ s.claims, isExpired claim.killAfterAt claim.sweepNow) ∧
      ∀ task ∈ s.tasks, task.phase.holding → ∀ r ∈ s.row, r.status ≠ .running := by
  have hconsistent : Consistent s := h.invariant (consistent_init row)
    fun _ _ _ hinv hspares hstep => hinv.step hspares hstep
  refine ⟨hconsistent.claims, fun task htask hholding r hr hrunning => ?_⟩
  have hspared := (hconsistent.spared r hr hrunning).tasks task htask
  simp [hspared.1] at hholding

def expiredRow : ContainerRow :=
  ⟨"c", "node", none, "image", "name", .running, 0, some 1000, none, none, .empty⟩

/-- The container is used before the sweep lists it and again after it is stopped. -/
def usedApart : List Action :=
  [.readLastUsed 500 (some 1), .writeLastUsed 0, .sweep 2000, .query 0, .query 0, .query 0,
    .advance 0 "claim" 2000 "", .advance 0 "claim" 2000 "", .advance 0 "claim" 2000 "",
    .readLastUsed 2500 none, .writeLastUsed 0, .advance 0 "claim" 2600 "",
    .advance 0 "claim" 2700 "", .advance 0 "claim" 2800 "",
    .registerStart ⟨"c", "node", "", "image", "name", none⟩ 3000]

theorem claims_expired_apart :
    ∃ s, runFrom step (init (some expiredRow)) usedApart = some s ∧
      s.claims = [⟨2000, some 1500⟩] ∧ ∀ claim ∈ s.claims, isExpired claim.killAfterAt 2000 := by
  have hmeet : StepsMeet step SparesSweeps (init (some expiredRow)) usedApart := by
    decide +kernel
  have hclaims : (runFrom step (init (some expiredRow)) usedApart).map (·.claims) =
      some [⟨2000, some 1500⟩] := by
    decide +kernel
  obtain ⟨s, hs, hclaims⟩ := Option.map_eq_some_iff.mp hclaims
  refine ⟨s, hs, hclaims, fun claim hclaim => ?_⟩
  have hexpired := (claims_expired (Reached.init.run hmeet hs)).1 claim hclaim
  rw [hclaims] at hclaim
  obtain rfl := List.mem_singleton.mp hclaim
  exact hexpired

def usedOnceListed : List Action :=
  [.sweep 2000, .query 0, .query 0, .query 0, .readLastUsed 2100 none, .writeLastUsed 0,
    .advance 0 "claim" 2200 "", .advance 0 "claim" 2200 ""]

def registeredWhileStopping : List Action :=
  [.sweep 2000, .query 0, .query 0, .query 0, .advance 0 "claim" 2000 "",
    .advance 0 "claim" 2000 "", .registerStart ⟨"c", "node", "", "image", "name", none⟩ 2100,
    .advance 0 "claim" 2200 ""]

theorem claimed_in_use :
    (∃ s, Reached step (fun _ _ => True) (init (some expiredRow)) s ∧
      ∃ claim ∈ s.claims, isExpired claim.killAfterAt claim.sweepNow = false) ∧
      ∃ s, Reached step (fun _ _ => True) (init (some expiredRow)) s ∧
        (∃ task ∈ s.tasks, task.phase = .removing) ∧ ∃ row ∈ s.row, row.status = .running := by
  constructor
  · have hclaims : (runFrom step (init (some expiredRow)) usedOnceListed).map (·.claims) =
        some [⟨2000, some 86402100⟩] := by
      decide +kernel
    obtain ⟨s, hs, hclaims⟩ := Option.map_eq_some_iff.mp hclaims
    exact ⟨s, .of_run hs, _, hclaims ▸ List.mem_singleton_self _, by decide⟩
  · have hrun : (runFrom step (init (some expiredRow)) registeredWhileStopping).map
        (fun s => (s.tasks, s.row.map (·.status))) =
          some ([⟨2000, .removing⟩], some .running) := by
      decide +kernel
    obtain ⟨s, hs, heq⟩ := Option.map_eq_some_iff.mp hrun
    obtain ⟨htasks, hrow⟩ := Prod.mk.inj heq
    obtain ⟨row, hrow, hrunning⟩ := Option.map_eq_some_iff.mp hrow
    exact ⟨s, .of_run hs, ⟨_, htasks ▸ List.mem_singleton_self _, rfl⟩, row, hrow, hrunning⟩

end Agyn.SweepRaces
