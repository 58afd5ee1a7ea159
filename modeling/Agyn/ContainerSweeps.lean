import Agyn.ContainerRegistry

/-!
A sweep of the cleanup service over one container, statement by statement: the three queries of
`getExpired`, then a task for each document found. What a sweep does with a container neither reads
nor writes the rows of the others, and its tasks run in any order.
-/
namespace Agyn.ContainerSweeps

open ContainerEvents ContainerRegistry

/-- A task by its next statement or its next request to the runtime. -/
inductive TaskPhase where
  | listed (status : ContainerStatus)
  | claiming (snapshot : ContainerMetadata) (claimId : String)
  | stopping
  | removing
  | marking
  | markWriting (snapshot : ContainerMetadata)
  | failing (message : String)
  | failWriting (snapshot : ContainerMetadata) (message : String)
  | done
  deriving DecidableEq

structure Task where
  sweepNow : ℤ
  phase : TaskPhase
  deriving DecidableEq

/-- A sweep by its next query, with what the queries before have found of the container. -/
inductive SweepPhase where
  | querying
  | findingRunning (terminating : Bool)
  | findingDetails (terminating running : Bool)
  | listed
  deriving DecidableEq

structure Sweep where
  now : ℤ
  phase : SweepPhase
  deriving DecidableEq

/-- The terminating containers that `getExpired` queries, by the time of their retry. -/
def isRetryable (row : ContainerRow) (now : ℤ) : Bool :=
  row.status = .terminating ∧ row.metadata.retryAfter.all (· ≤ now)

def isExpired (killAfterAt : Option ℤ) (now : ℤ) : Bool := killAfterAt.any (· ≤ now)

/-- The next query of `getExpired`; the last one makes the tasks. -/
def Sweep.next (row : Option ContainerRow) (sweep : Sweep) : Option (SweepPhase × List Task) :=
  match sweep.phase with
  | .querying => some (.findingRunning (row.any (isRetryable · sweep.now)), [])
  | .findingRunning terminating =>
    some (.findingDetails terminating
      (row.any fun row => row.status = .running && isExpired row.killAfterAt sweep.now), [])
  | .findingDetails terminating running =>
    some (.listed, (if running then [⟨sweep.now, .listed .running⟩] else []) ++
      if terminating then row.toList.map fun row => ⟨sweep.now, .listed row.status⟩ else [])
  | .listed => none

/-- `getMetadata`, of a missing row as well. -/
def getMetadata (row : Option ContainerRow) : ContainerMetadata :=
  normalizeMetadata ((row.map (·.metadata)).getD .empty)

/-- What a step of a task leaves of the row and of the task; `now` is the clock, and `message` is
the error of an update that misses its row. -/
def TaskPhase.next (row : Option ContainerRow) (claimId : String) (now : ℤ) (message : String) :
    TaskPhase → Option (Option ContainerRow × TaskPhase)
  | .listed status =>
    some (row, if status = .running then .claiming (getMetadata row) claimId else .stopping)
  | .claiming snapshot claimId =>
    some (match row.bind (·.claimForTermination snapshot claimId) with
      | some row => (some row, .stopping)
      | none => (row, .done))
  | .stopping => some (row, .removing)
  | .removing => some (row, .marking)
  | .marking =>
    some (row, match row with
      | some row => .markWriting row.metadata
      | none => .done)
  | .markWriting snapshot =>
    some (match row with
      | some row => (some (row.markStopped snapshot now .ttlExpired), .done)
      | none => (none, .failing message))
  | .failing message =>
    some (row, match row with
      | some row => .failWriting row.metadata message
      | none => .done)
  | .failWriting snapshot message =>
    some (row.map (·.recordTerminationFailure snapshot message now), .done)
  | .done => none

/-- A step that throws: what comes before the claim is given up, what comes after it is recorded. -/
def TaskPhase.fail (message : String) : TaskPhase → Option TaskPhase
  | .listed status => if status = .running then some .done else none
  | .claiming _ _ => some .done
  | .stopping => some (.failing message)
  | .removing => some (.failing message)
  | .marking => some (.failing message)
  | .markWriting _ => some (.failing message)
  | .failing _ => some .done
  | .failWriting _ _ => some .done
  | .done => none

/-- The task has not tried its claim yet. -/
def TaskPhase.unclaimed : TaskPhase → Bool
  | .listed status => status = .running
  | .claiming _ _ => true
  | _ => false

def TaskPhase.holding : TaskPhase → Bool
  | .listed status => status ≠ .running
  | .claiming _ _ => false
  | .done => false
  | _ => true

def SweepPhase.foundRunning : SweepPhase → Bool
  | .findingDetails _ running => running
  | _ => false

def SweepPhase.foundTerminating : SweepPhase → Bool
  | .findingRunning terminating => terminating
  | .findingDetails terminating _ => terminating
  | _ => false

section Status

variable {row : Option ContainerRow} {claimId message : String} {now : ℤ}
  {phase phase' : TaskPhase} {row' : Option ContainerRow}

/-- A step of a task leaves the row as it is, claims it, marks it as stopped or records a
failure. -/
theorem TaskPhase.next_cases (h : phase.next row claimId now message = some (row', phase')) :
    row' = row ∨
      (∃ snapshot id r r', phase = .claiming snapshot id ∧ phase' = .stopping ∧ row = some r ∧
        row' = some r' ∧ r.status = .running ∧ r'.status = .terminating) ∨
      (∃ snapshot r, phase = .markWriting snapshot ∧ row = some r ∧
        row' = some (r.markStopped snapshot now .ttlExpired)) ∨
      ∃ snapshot m r, phase = .failWriting snapshot m ∧ row = some r ∧
        row' = some (r.recordTerminationFailure snapshot m now) := by
  cases phase with
  | claiming snapshot id =>
    cases row with
    | none =>
      obtain ⟨rfl, rfl⟩ := by simpa [TaskPhase.next] using h
      exact .inl rfl
    | some r =>
      cases hclaim : r.claimForTermination snapshot id with
      | none =>
        obtain ⟨rfl, rfl⟩ := by simpa [TaskPhase.next, hclaim] using h
        exact .inl rfl
      | some r' =>
        obtain ⟨rfl, rfl⟩ := by simpa [TaskPhase.next, hclaim] using h
        obtain ⟨hrunning, hterminating⟩ := ContainerRow.status_of_claim hclaim
        exact .inr (.inl ⟨snapshot, id, r, r', rfl, rfl, rfl, rfl, hrunning, hterminating⟩)
  | markWriting snapshot =>
    cases row with
    | none =>
      obtain ⟨rfl, rfl⟩ := by simpa [TaskPhase.next] using h
      exact .inl rfl
    | some r =>
      obtain ⟨rfl, rfl⟩ := by simpa [TaskPhase.next] using h
      exact .inr (.inr (.inl ⟨snapshot, r, rfl, rfl, rfl⟩))
  | failWriting snapshot m =>
    cases row with
    | none =>
      obtain ⟨rfl, rfl⟩ := by simpa [TaskPhase.next] using h
      exact .inl rfl
    | some r =>
      obtain ⟨rfl, rfl⟩ := by simpa [TaskPhase.next] using h
      exact .inr (.inr (.inr ⟨snapshot, m, r, rfl, rfl, rfl⟩))
  | done => simp [TaskPhase.next] at h
  | _ =>
    simp only [TaskPhase.next, Option.some.injEq, Prod.mk.injEq] at h
    exact .inl h.1.symm

end Status

end Agyn.ContainerSweeps
