import Agyn.ContainerEventProcessor
import Agyn.ContainerSweeps
import Agyn.GuardedRuns
import Agyn.ThreadTermination

/-!
The writers of the status of a container, statement by statement: registrations, claims, marks and
sweeps of the registry, the events of the runtime, which are handled one at a time, and the
termination of a thread. A claim tests the status in its statement, an event tests the one that it
has read, and the termination of a thread tests none.
-/
namespace Agyn.StatusMachine

open ContainerEvents ContainerRegistry ContainerEventProcessor ContainerSweeps ThreadTermination

/-- `markStopped` or `markDeleted` between its read and its write. -/
structure Mark where
  snapshot : ContainerMetadata
  reason : TerminationReason
  deleted : Bool
  deriving DecidableEq

/-- `claimForTermination` between its read and its write. -/
structure PendingClaim where
  snapshot : ContainerMetadata
  claimId : String
  deriving DecidableEq

/-- An event that is being handled, with the row it has read. -/
structure PendingEvent where
  event : ContainerEvent
  row : ContainerRow
  reason : ContainerEventReason
  deriving DecidableEq

structure State where
  row : Option ContainerRow
  lastOom : Option ℤ
  sweeps : List Sweep
  tasks : List Task
  marks : List Mark
  claims : List PendingClaim
  event : Option PendingEvent
  terminations : List Termination
  deriving DecidableEq

inductive Action where
  | registerStart (args : StartArgs) (now : ℤ)
  | sweep (now : ℤ)
  | query (i : ℕ)
  | advance (i : ℕ) (claimId : String) (now : ℤ) (message : String)
  | fail (i : ℕ) (message : String)
  | deleteHistorical
  | readMark (reason : TerminationReason) (deleted : Bool)
  | writeMark (i : ℕ) (now : ℤ)
  | readClaim (claimId : String)
  | writeClaim (i : ℕ)
  | readEvent (event : ContainerEvent)
  | writeEvent
  | terminateByThread (threadId : String)
  | terminate (i : ℕ) (answer : Answer)
  | failTermination (i : ℕ)

-- `validate` of the package that makes the ids
variable (validateUuid : String → Bool)

def readEvent (s : State) (event : ContainerEvent) : State :=
  match s.row with
  | none => if event.eventType = .oom then { s with lastOom := some event.timestampMs } else s
  | some row =>
    if isStale row event then s
    else { s with
      lastOom := nextOom event s.lastOom
      event := some ⟨event, row, reasonOf event s.lastOom⟩ }

def PendingEvent.update (e : PendingEvent) : ContainerUpdate :=
  updateData validateUuid e.row e.event e.reason

def Mark.write (mark : Mark) (now : ℤ) (row : ContainerRow) : ContainerRow :=
  if mark.deleted then row.markDeleted mark.snapshot now mark.reason
  else row.markStopped mark.snapshot now mark.reason

/-- A row that is deleted takes its event along, as the update of an event names the row. -/
def step (s : State) : Action → Option State
  | .registerStart args now =>
    match registerStart args now with
    | .error _ => none
    | .ok row => some { s with row := some row }
  | .sweep now => some { s with sweeps := s.sweeps ++ [⟨now, .querying⟩] }
  | .query i =>
    match s.sweeps[i]? with
    | none => none
    | some sweep => (sweep.next s.row).map fun out =>
        { s with sweeps := s.sweeps.set i { sweep with phase := out.1 }, tasks := s.tasks ++ out.2 }
  | .advance i claimId now message =>
    match s.tasks[i]? with
    | none => none
    | some task => (task.phase.next s.row claimId now message).map fun out =>
        { s with row := out.1, tasks := s.tasks.set i { task with phase := out.2 } }
  | .fail i message =>
    match s.tasks[i]? with
    | none => none
    | some task => (task.phase.fail message).map fun phase =>
        { s with tasks := s.tasks.set i { task with phase } }
  | .deleteHistorical =>
    match s.row with
    | none => none
    | some row =>
      if row.status = .stopped ∨ row.status = .failed then
        some { s with row := none, event := none }
      else none
  | .readMark reason deleted =>
    match s.row with
    | none => none
    | some row => some { s with marks := s.marks ++ [⟨row.metadata, reason, deleted⟩] }
  | .writeMark i now =>
    match s.marks[i]? with
    | none => none
    | some mark => some { s with row := s.row.map (mark.write now), marks := s.marks.eraseIdx i }
  | .readClaim claimId => some { s with claims := s.claims ++ [⟨getMetadata s.row, claimId⟩] }
  | .writeClaim i =>
    match s.claims[i]? with
    | none => none
    | some claim => some { s with
        row := s.row.map fun row =>
          (row.claimForTermination claim.snapshot claim.claimId).getD row
        claims := s.claims.eraseIdx i }
  | .readEvent event =>
    match s.event with
    | some _ => none
    | none => some (readEvent s event)
  | .writeEvent =>
    match s.event with
    | none => none
    | some e => some { s with row := s.row.map (e.update validateUuid).apply, event := none }
  | .terminateByThread threadId =>
    some { s with terminations := s.terminations ++ [⟨threadId, 0, .finding⟩] }
  | .terminate i answer =>
    match s.terminations[i]? with
    | none => none
    | some t => (t.next s.row answer).map fun out =>
        { s with row := out.1, terminations := s.terminations.set i out.2 }
  | .failTermination i =>
    match s.terminations[i]? with
    | none => none
    | some t => t.phase.fail.map fun phase =>
        { s with terminations := s.terminations.set i { t with phase } }

def init (row : Option ContainerRow) : State := ⟨row, none, [], [], [], [], none, []⟩

def PendingEvent.status (e : PendingEvent) : Option ContainerStatus :=
  nextStatus e.row e.event e.reason

/-- Someone is about to write `terminating`, on a row read before. -/
def State.awaitsTerminating (s : State) : Bool :=
  s.terminations.any (·.phase.pending) || s.event.any (·.status = some .terminating)

def writesDown (s : State) : Action → Bool
  | .advance i _ _ _ => s.tasks[i]?.any fun task =>
      match task.phase with
      | .markWriting _ => true
      | _ => false
  | .writeMark _ _ => true
  | .writeEvent => s.event.any fun e => e.status = some .stopped ∨ e.status = some .failed
  | _ => false

/-- The step reads the row of a container that the runtime has listed by the label of the thread. -/
def readsListed (s : State) : Action → Bool
  | .terminate i _ => s.terminations[i]?.any fun t => t.phase = .ensuring none
  | _ => false

/-- That a container has stopped or failed is not written while someone is about to write
`terminating` on a row read before, and a container that the runtime lists by the label of a thread
is live when its row is read. -/
structure Guarded (s : State) (a : Action) : Prop where
  down : writesDown s a → s.awaitsTerminating = false
  listed : readsListed s a → ∀ row ∈ s.row, isLive row.status

instance (s : State) (a : Action) : Decidable (Guarded s a) :=
  decidable_of_iff ((writesDown s a → s.awaitsTerminating = false) ∧
    (readsListed s a → ∀ row ∈ s.row, isLive row.status)) ⟨fun h => ⟨h.1, h.2⟩, fun h => ⟨h.1, h.2⟩⟩

/-- A registration, or the write of an event that the container is created, started or restarted. -/
def starts (s : State) : Action → Bool
  | .registerStart _ _ => true
  | .writeEvent => s.event.any fun e =>
      e.event.eventType = .create ∨ e.event.eventType = .start ∨ e.event.eventType = .restart
  | _ => false

variable {validateUuid} {s s' : State} {a : Action}

/-- The rows that a step can leave. -/
inductive Change (s : State) (a : Action) : Option ContainerRow → Prop where
  | same : Change s a s.row
  | deleted : Change s a none
  | kept {r r' : ContainerRow} : s.row = some r → r'.status = r.status → Change s a (some r')
  | registered {r' : ContainerRow} : starts s a → r'.status = .running → Change s a (some r')
  | claimed {r r' : ContainerRow} : s.row = some r → r.status = .running →
      r'.status = .terminating → Change s a (some r')
  | terminated {r r' : ContainerRow} : s.row = some r → s.awaitsTerminating →
      r'.status = .terminating → Change s a (some r')
  | down {r r' : ContainerRow} : s.row = some r → writesDown s a →
      (r'.status = .stopped ∨ r'.status = .failed) → Change s a (some r')

theorem Change.of_eq {row' : Option ContainerRow} (h : row' = s.row) : Change s a row' :=
  h ▸ .same

theorem Mark.status_write (mark : Mark) (now : ℤ) (row : ContainerRow) :
    (mark.write now row).status = .stopped := by
  unfold Mark.write
  split_ifs <;> rfl

theorem Change.of_task {i : ℕ} {claimId message : String} {now : ℤ} {task : Task}
    {row' : Option ContainerRow} {phase : TaskPhase} (htask : s.tasks[i]? = some task)
    (hnext : task.phase.next s.row claimId now message = some (row', phase)) :
    Change s (.advance i claimId now message) row' := by
  rcases TaskPhase.next_cases hnext with rfl | ⟨_, _, r, r', -, -, hrow, rfl, hrunning, hterm⟩ |
    ⟨snapshot, r, hphase, hrow, rfl⟩ | ⟨_, _, r, -, hrow, rfl⟩
  · exact .same
  · exact .claimed hrow hrunning hterm
  · refine .down hrow ?_ (.inl rfl)
    simp [writesDown, htask, hphase]
  · exact .kept hrow rfl

theorem Change.of_termination {i : ℕ} {answer : Answer} {t t' : Termination}
    {row' : Option ContainerRow} (ht : s.terminations[i]? = some t)
    (hnext : t.next s.row answer = some (row', t')) : Change s (.terminate i answer) row' := by
  rcases Termination.next_cases hnext with rfl | ⟨r, r', hrow, rfl, hrunning, hterm⟩ |
    ⟨metadata, hphase, rfl⟩
  · exact .same
  · exact .claimed hrow hrunning hterm
  · have hawaits : s.awaitsTerminating := by
      refine Bool.or_eq_true_iff.mpr (.inl (List.any_eq_true.mpr ⟨t, List.mem_of_getElem? ht, ?_⟩))
      rw [hphase]
      rfl
    cases hrow : s.row with
    | none => exact .deleted
    | some r => exact .terminated hrow hawaits rfl

/-- An event writes `running` only when the container is created, started or restarted. -/
theorem starts_of_running {e : PendingEvent} (hevent : s.event = some e)
    (h : e.status = some .running) : starts s .writeEvent := by
  obtain ⟨hstatus, -⟩ := Option.filter_eq_some_iff.mp h
  simp only [starts, hevent, Option.any_some, decide_eq_true_eq]
  cases heventType : e.event.eventType with
  | create => exact .inl rfl
  | start => exact .inr (.inl rfl)
  | restart => exact .inr (.inr rfl)
  | die =>
    rw [heventType, statusForEvent] at hstatus
    split_ifs at hstatus <;> cases hstatus
  | _ => simp [heventType, statusForEvent] at hstatus

theorem Change.of_event {e : PendingEvent} (hevent : s.event = some e) :
    Change s .writeEvent (s.row.map (e.update validateUuid).apply) := by
  cases hrow : s.row with
  | none => exact .deleted
  | some r =>
    have hstatus : ((e.update validateUuid).apply r).status = e.status.getD r.status := rfl
    show Change s .writeEvent (some ((e.update validateUuid).apply r))
    cases hnext : e.status with
    | none => exact .kept hrow (by rw [hstatus, hnext]; rfl)
    | some status =>
      rw [hnext] at hstatus
      cases status with
      | running => exact .registered (starts_of_running hevent hnext) hstatus
      | terminating =>
        refine .terminated hrow ?_ hstatus
        simp [State.awaitsTerminating, hevent, hnext]
      | stopped =>
        refine .down hrow ?_ (.inl hstatus)
        simp [writesDown, hevent, hnext]
      | failed =>
        refine .down hrow ?_ (.inr hstatus)
        simp [writesDown, hevent, hnext]

theorem Change.of_mark {i : ℕ} {now : ℤ} (mark : Mark) :
    Change s (.writeMark i now) (s.row.map (mark.write now)) := by
  cases hrow : s.row with
  | none => exact .deleted
  | some row => exact .down hrow rfl (.inl (mark.status_write now row))

theorem Change.of_claim {i : ℕ} (claim : PendingClaim) :
    Change s (.writeClaim i) (s.row.map fun row =>
      (row.claimForTermination claim.snapshot claim.claimId).getD row) := by
  cases hrow : s.row with
  | none => exact .deleted
  | some row =>
    show Change s _ (some _)
    cases hclaimed : row.claimForTermination claim.snapshot claim.claimId with
    | none => exact .kept hrow (by simp only [hclaimed, Option.getD_none])
    | some row' =>
      obtain ⟨hrunning, hterminating⟩ := ContainerRow.status_of_claim hclaimed
      exact .claimed hrow hrunning (by simp only [hclaimed, Option.getD_some, hterminating])

theorem awaits_of_termination {t : Termination} (ht : t ∈ s.terminations)
    (hpending : t.phase.pending) : s.awaitsTerminating :=
  Bool.or_eq_true_iff.mpr (.inl (List.any_eq_true.mpr ⟨t, ht, hpending⟩))

/-- After a change of one of the terminations, the others are about to write as before. -/
theorem awaits_set {i : ℕ} {t : Termination} {row : Option ContainerRow}
    (h : State.awaitsTerminating { s with row, terminations := s.terminations.set i t }) :
    s.awaitsTerminating ∨ t.phase.pending := by
  rcases Bool.or_eq_true_iff.mp h with h | h
  · obtain ⟨t', ht', hpending⟩ := List.any_eq_true.mp h
    rcases List.mem_or_eq_of_mem_set ht' with ht' | rfl
    · exact .inl (awaits_of_termination ht' hpending)
    · exact .inr hpending
  · exact .inl (Bool.or_eq_true_iff.mpr (.inr h))

theorem live_of_status_terminating {e : PendingEvent} (h : e.status = some .terminating) :
    isLive e.row.status := by
  have hcan := (Option.filter_eq_some_iff.mp h).2
  rw [canTransition] at hcan
  cases hstatus : e.row.status <;> simp [hstatus] at hcan <;> rfl

/-- Who comes to be about to write `terminating` in a step. -/
def Awaits (s : State) (a : Action) (s' : State) : Prop :=
  s'.awaitsTerminating → s.awaitsTerminating ∨
    writesDown s a = false ∧ (readsListed s a ∨ ∀ row ∈ s.row, isLive row.status)

theorem change_of_readEvent {event : ContainerEvent} :
    Change s (.readEvent event) (readEvent s event).row ∧
      Awaits s (.readEvent event) (readEvent s event) := by
  unfold readEvent
  cases hrow : s.row with
  | none =>
    dsimp only
    split_ifs
    · exact ⟨.of_eq hrow.symm, .inl⟩
    · exact ⟨.same, .inl⟩
  | some row =>
    dsimp only
    split_ifs
    · exact ⟨.same, .inl⟩
    · refine ⟨.of_eq hrow.symm, fun hawaits => ?_⟩
      rcases Bool.or_eq_true_iff.mp hawaits with hpending | hterminating
      · exact .inl (Bool.or_eq_true_iff.mpr (.inl hpending))
      · refine .inr ⟨rfl, .inr fun row' hrow' => ?_⟩
        obtain rfl := Option.some.inj (hrow.symm.trans hrow')
        exact live_of_status_terminating (by simpa using hterminating)

theorem change_of_terminate {i : ℕ} {answer : Answer} {t t' : Termination}
    {row' : Option ContainerRow} (ht : s.terminations[i]? = some t)
    (hnext : t.next s.row answer = some (row', t')) :
    Change s (.terminate i answer) row' ∧ Awaits s (.terminate i answer)
      { s with row := row', terminations := s.terminations.set i t' } := by
  refine ⟨.of_termination ht hnext, fun hawaits => ?_⟩
  rcases awaits_set hawaits with hbefore | hpending
  · exact .inl hbefore
  rcases Termination.pending_of_next hnext hpending with hbefore | ⟨-, hlive | hphase⟩
  · exact .inl (awaits_of_termination (List.mem_of_getElem? ht) hbefore)
  · obtain ⟨r, hrow, hlive⟩ := hlive
    refine .inr ⟨rfl, .inr fun row hmem => ?_⟩
    obtain rfl := Option.some.inj (hrow.symm.trans hmem)
    exact hlive
  · exact .inr ⟨rfl, .inl (by simp [readsListed, ht, hphase])⟩

theorem change_of_step (h : step validateUuid s a = some s') :
    Change s a s'.row ∧ Awaits s a s' := by
  cases a with
  | registerStart args now =>
    rw [step] at h
    cases hregistered : registerStart args now with
    | error e => simp [hregistered] at h
    | ok row =>
      simp only [hregistered] at h
      obtain rfl := Option.some.inj h
      exact ⟨.registered rfl ((registerStart_spec hregistered).1), .inl⟩
  | query i =>
    rw [step] at h
    cases hsweep : s.sweeps[i]? with
    | none => simp [hsweep] at h
    | some sweep =>
      rw [hsweep] at h
      obtain ⟨out, -, rfl⟩ := Option.map_eq_some_iff.mp h
      exact ⟨.same, .inl⟩
  | advance i claimId now message =>
    rw [step] at h
    cases htask : s.tasks[i]? with
    | none => simp [htask] at h
    | some task =>
      rw [htask] at h
      obtain ⟨out, hnext, rfl⟩ := Option.map_eq_some_iff.mp h
      exact ⟨.of_task htask hnext, .inl⟩
  | fail i message =>
    rw [step] at h
    cases htask : s.tasks[i]? with
    | none => simp [htask] at h
    | some task =>
      rw [htask] at h
      obtain ⟨phase, -, rfl⟩ := Option.map_eq_some_iff.mp h
      exact ⟨.same, .inl⟩
  | deleteHistorical =>
    rw [step] at h
    cases hrow : s.row with
    | none => simp [hrow] at h
    | some row =>
      simp only [hrow] at h
      split_ifs at h
      obtain rfl := Option.some.inj h
      refine ⟨.deleted, fun hawaits => .inl (Bool.or_eq_true_iff.mpr (.inl ?_))⟩
      simpa [State.awaitsTerminating] using hawaits
  | readMark reason deleted =>
    rw [step] at h
    cases hrow : s.row with
    | none => simp [hrow] at h
    | some row =>
      simp only [hrow] at h
      obtain rfl := Option.some.inj h
      exact ⟨.of_eq hrow.symm, .inl⟩
  | writeMark i now =>
    rw [step] at h
    cases hmark : s.marks[i]? with
    | none => simp [hmark] at h
    | some mark =>
      simp only [hmark] at h
      obtain rfl := Option.some.inj h
      exact ⟨.of_mark mark, .inl⟩
  | writeClaim i =>
    rw [step] at h
    cases hclaim : s.claims[i]? with
    | none => simp [hclaim] at h
    | some claim =>
      simp only [hclaim] at h
      obtain rfl := Option.some.inj h
      exact ⟨.of_claim claim, .inl⟩
  | readEvent event =>
    rw [step] at h
    cases hevent : s.event with
    | some e => simp [hevent] at h
    | none =>
      simp only [hevent] at h
      obtain rfl := Option.some.inj h
      exact change_of_readEvent
  | writeEvent =>
    rw [step] at h
    cases hevent : s.event with
    | none => simp [hevent] at h
    | some e =>
      simp only [hevent] at h
      obtain rfl := Option.some.inj h
      refine ⟨.of_event hevent, fun hawaits => .inl (Bool.or_eq_true_iff.mpr (.inl ?_))⟩
      simpa [State.awaitsTerminating] using hawaits
  | terminateByThread threadId =>
    obtain rfl := Option.some.inj h
    refine ⟨.same, fun hawaits => .inl ?_⟩
    simpa [State.awaitsTerminating, Phase.pending] using hawaits
  | terminate i answer =>
    rw [step] at h
    cases ht : s.terminations[i]? with
    | none => simp [ht] at h
    | some t =>
      rw [ht] at h
      obtain ⟨out, hnext, rfl⟩ := Option.map_eq_some_iff.mp h
      exact change_of_terminate ht hnext
  | failTermination i =>
    rw [step] at h
    cases ht : s.terminations[i]? with
    | none => simp [ht] at h
    | some t =>
      rw [ht] at h
      obtain ⟨phase, hfail, rfl⟩ := Option.map_eq_some_iff.mp h
      refine ⟨.same, fun hawaits => .inl ?_⟩
      rcases awaits_set hawaits with hbefore | hpending
      · exact hbefore
      · exact awaits_of_termination (List.mem_of_getElem? ht) (pending_of_fail hfail hpending)
  | sweep now =>
    obtain rfl := Option.some.inj h
    exact ⟨.same, .inl⟩
  | readClaim claimId =>
    obtain rfl := Option.some.inj h
    exact ⟨.same, .inl⟩

/-- Whoever is about to write `terminating` writes it to a live row. -/
def Consistent (s : State) : Prop := s.awaitsTerminating → ∀ row ∈ s.row, isLive row.status

theorem consistent_init (row : Option ContainerRow) : Consistent (init row) := nofun

theorem isLive_running {status : ContainerStatus} (h : status = .running) : isLive status := by
  rw [h]
  rfl

theorem isLive_terminating {status : ContainerStatus} (h : status = .terminating) :
    isLive status := by
  rw [h]
  rfl

theorem Consistent.step (h : Consistent s) (hguarded : Guarded s a)
    (hstep : step validateUuid s a = some s') : Consistent s' := by
  obtain ⟨hchange, hawaits⟩ := change_of_step hstep
  intro hawaits' row hrow
  have hrow : s'.row = some row := hrow
  have hbefore : writesDown s a = false ∧ ∀ row ∈ s.row, isLive row.status := by
    rcases hawaits hawaits' with hbefore | ⟨hdown, hlisted | hlive⟩
    · refine ⟨Bool.eq_false_iff.mpr fun hdown => ?_, h hbefore⟩
      simp [hguarded.down hdown] at hbefore
    · exact ⟨hdown, hguarded.listed hlisted⟩
    · exact ⟨hdown, hlive⟩
  rw [hrow] at hchange
  generalize hleft : some row = left at hchange
  cases hchange with
  | same => exact hbefore.2 row hleft.symm
  | deleted => cases hleft
  | kept hold hstatus =>
    obtain rfl := Option.some.inj hleft
    rw [hstatus]
    exact hbefore.2 _ hold
  | registered _ hstatus =>
    obtain rfl := Option.some.inj hleft
    exact isLive_running hstatus
  | claimed _ _ hstatus =>
    obtain rfl := Option.some.inj hleft
    exact isLive_terminating hstatus
  | terminated _ _ hstatus =>
    obtain rfl := Option.some.inj hleft
    exact isLive_terminating hstatus
  | down _ hdown _ => simp [hbefore.1] at hdown

/-- A row comes to be terminating from a live row, and running only by a start. -/
theorem Consistent.live_before (h : Consistent s)
    (hstep : StatusMachine.step validateUuid s a = some s')
    {row' : ContainerRow} (hrow' : s'.row = some row') (hlive : isLive row'.status) :
    (∃ row ∈ s.row, isLive row.status) ∨ row'.status = .running ∧ starts s a := by
  obtain ⟨hchange, -⟩ := change_of_step hstep
  rw [hrow'] at hchange
  generalize hleft : some row' = left at hchange
  cases hchange with
  | same => exact .inl ⟨row', hleft.symm, hlive⟩
  | deleted => cases hleft
  | kept hold hstatus =>
    obtain rfl := Option.some.inj hleft
    exact .inl ⟨_, hold, hstatus ▸ hlive⟩
  | registered hstarts hstatus =>
    obtain rfl := Option.some.inj hleft
    exact .inr ⟨hstatus, hstarts⟩
  | claimed hold hrunning _ => exact .inl ⟨_, hold, isLive_running hrunning⟩
  | terminated hold hawaits _ => exact .inl ⟨_, hold, h hawaits _ hold⟩
  | down _ _ hdown =>
    obtain rfl := Option.some.inj hleft
    rcases hdown with hdown | hdown <;> simp [hdown, isLive] at hlive

def ConsistentDown (s : State) : Prop := Consistent s ∧ ∀ r ∈ s.row, isLive r.status = false

/-- Between the steps of a run, as long as they keep out of each other's way, a row comes to be
terminating only from running or terminating; and one that is stopped or failed does not without a
registration or an event that the container is created, started or restarted. -/
theorem terminating_of_live {row : Option ContainerRow}
    (h : Reached (step validateUuid) Guarded (init row) s) :
    (∀ a s', step validateUuid s a = some s' → ∀ r' ∈ s'.row, r'.status = .terminating →
      ∃ r ∈ s.row, isLive r.status) ∧
      ((∀ r ∈ s.row, isLive r.status = false) → ∀ s',
        Reached (step validateUuid) (fun s a => Guarded s a ∧ starts s a = false) s s' →
          ∀ r' ∈ s'.row, r'.status ≠ .terminating) := by
  have hconsistent : Consistent s := h.invariant (consistent_init row)
    fun _ _ _ hinv hguarded hstep => hinv.step hguarded hstep
  constructor
  · intro a s' hstep r' hr' hterminating
    rcases hconsistent.live_before hstep hr' (isLive_terminating hterminating) with
      hlive | ⟨hrunning, -⟩
    · exact hlive
    · rw [hrunning] at hterminating
      cases hterminating
  · intro hdown s' hrun r' hr' hterminating
    have hkept : ConsistentDown s' := by
      refine hrun.invariant ⟨hconsistent, hdown⟩ fun t a t' ht hok hstep => ?_
      refine ⟨ht.1.step hok.1 hstep, fun r hr => Bool.eq_false_iff.mpr fun hlive => ?_⟩
      rcases ht.1.live_before hstep hr hlive with ⟨r₀, hr₀, hlive₀⟩ | ⟨-, hstarts⟩
      · simp [ht.2 r₀ hr₀] at hlive₀
      · simp [hok.2] at hstarts
    have hlive := isLive_terminating hterminating
    simp [hkept.2 r' hr'] at hlive

def rowOf (status : ContainerStatus) : ContainerRow :=
  ⟨"c", "node", some "thread", "image", "name", status, 0, none, none, none, .empty⟩

def answer : Answer := ⟨true, "claim", 1000⟩

/-- The termination of a thread up to its last write, with a container that is registered and listed
by the runtime, and a kill of the container in between. -/
def terminatingRunning : List Action :=
  [.terminateByThread "thread", .terminate 0 answer, .terminate 0 answer,
    .readEvent ⟨"c", .kill, none, none, none, false, none, none, 500⟩, .writeEvent,
    .terminate 0 answer, .terminate 0 answer, .terminate 0 answer, .terminate 0 answer]

theorem terminating_of_live_running :
    ∃ s s',
      runFrom (step fun _ => true) (init (some (rowOf .running))) terminatingRunning = some s ∧
      step (fun _ => true) s (.terminate 0 answer) = some s' ∧
        s'.row.map (·.status) = some .terminating ∧ ∃ r ∈ s.row, isLive r.status := by
  have hmeet : StepsMeet (step fun _ => true) Guarded (init (some (rowOf .running)))
      terminatingRunning := by
    decide +kernel
  have hrun : ((runFrom (step fun _ => true) (init (some (rowOf .running))) terminatingRunning).bind
      fun s => (step (fun _ => true) s (.terminate 0 answer)).bind (·.row.map (·.status))) =
        some .terminating := by
    decide +kernel
  obtain ⟨s, hs, hrun⟩ := Option.bind_eq_some_iff.mp hrun
  obtain ⟨s', hs', hstatus⟩ := Option.bind_eq_some_iff.mp hrun
  obtain ⟨r', hr', hterminating⟩ := Option.map_eq_some_iff.mp hstatus
  exact ⟨s, s', hs, hs', hstatus,
    (terminating_of_live (Reached.init.run hmeet hs)).1 _ s' hs' r' hr' hterminating⟩

/-- The termination of a thread with a stopped container that the runtime lists by its label. -/
def terminatingStopped : List Action :=
  [.terminateByThread "thread", .terminate 0 answer, .terminate 0 answer, .terminate 0 answer,
    .terminate 0 answer, .terminate 0 answer]

theorem stopped_terminating :
    ∃ s s', Reached (step fun _ => true) (fun s a => starts s a = false)
        (init (some (rowOf .stopped))) s ∧
      step (fun _ => true) s (.terminate 0 answer) = some s' ∧
        s.row.map (·.status) = some .stopped ∧ s'.row.map (·.status) = some .terminating := by
  have hmeet : StepsMeet (step fun _ => true) (fun s a => starts s a = false)
      (init (some (rowOf .stopped))) terminatingStopped := by
    decide +kernel
  have hbefore :
      (runFrom (step fun _ => true) (init (some (rowOf .stopped))) terminatingStopped).map
      (fun s => (s.row.map (·.status),
        (step (fun _ => true) s (.terminate 0 answer)).map (·.row.map (·.status)))) =
      some (some .stopped, some (some .terminating)) := by
    decide +kernel
  obtain ⟨s, hs, heq⟩ := Option.map_eq_some_iff.mp hbefore
  obtain ⟨hstopped, hafter⟩ := Prod.mk.inj heq
  obtain ⟨s', hs', hterminating⟩ := Option.map_eq_some_iff.mp hafter
  exact ⟨s, s', Reached.init.run hmeet hs, hs', hstopped, hterminating⟩

end Agyn.StatusMachine
