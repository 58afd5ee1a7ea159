import Agyn.ContainerRegistry

/-!
`terminateByThread` on one container, statement by statement. The container is in its queue when the
first query finds it running or terminating, or when the runtime lists it by the label of the
thread, whatever its row says.
-/
namespace Agyn.ThreadTermination

open ContainerEvents ContainerRegistry

/-- The columns of a row that are read. -/
structure Record where
  status : ContainerStatus
  metadata : ContainerMetadata
  deriving DecidableEq

inductive Phase where
  | finding
  | discovering (cached : Option Record)
  | ensuring (cached : Option Record)
  | processing (record : Record)
  | claiming (record : Record) (snapshot : ContainerMetadata) (candidate : String)
  | refreshing (record : Record) (claimId : Option String)
  | writing (metadata : ContainerMetadata)
  | done
  deriving DecidableEq

structure Termination where
  threadId : String
  nowIso : ℤ
  phase : Phase
  deriving DecidableEq

/-- The `normalizeMetadata` of the service, which has no fields for the events of a container. -/
def normalizeThreadMetadata (metadata : ContainerMetadata) : ContainerMetadata :=
  { normalizeMetadata metadata with autoRemoved := none, health := none, lastEventAt := none }

def isLive (status : ContainerStatus) : Bool := status = .running ∨ status = .terminating

def recordOf (row : ContainerRow) : Record := ⟨row.status, normalizeThreadMetadata row.metadata⟩

def markTerminating (row : ContainerRow) (metadata : ContainerMetadata) : ContainerRow :=
  { row with status := .terminating, terminationReason := some .threadClosed, metadata }

/-- What comes from outside: whether the runtime lists the container by its label, the claim id and
the clock. -/
structure Answer where
  discovered : Bool
  candidate : String
  now : ℤ

def Termination.next (row : Option ContainerRow) (answer : Answer) (t : Termination) :
    Option (Option ContainerRow × Termination) :=
  match t.phase with
  | .finding =>
    let found := row.filter fun row => row.threadId = some t.threadId && isLive row.status
    some (row, { t with phase := .discovering (found.map recordOf) })
  | .discovering cached =>
    some (row, { t with
      nowIso := answer.now
      phase := if cached.isSome ∨ answer.discovered then .ensuring cached else .done })
  | .ensuring (some record) => some (row, { t with phase := .processing record })
  | .ensuring none =>
    some (row, { t with
      phase := match row with
        | some row => .processing (recordOf row)
        | none => .done })
  | .processing record =>
    some (row, { t with
      phase := if record.status = .running then
          .claiming record (normalizeMetadata ((row.map (·.metadata)).getD .empty)) answer.candidate
        else .refreshing record none })
  | .claiming record snapshot candidate =>
    some (match row.bind (·.claimForTermination snapshot candidate) with
      | some row => (some row, { t with phase := .refreshing record (some candidate) })
      | none => (row, { t with phase := .refreshing record none }))
  | .refreshing record claimId =>
    let metadata := normalizeThreadMetadata ((row.map (·.metadata)).getD record.metadata)
    some (row, { t with
      phase := .writing { metadata with
        claimId := claimId.or metadata.claimId, retryAfter := some t.nowIso } })
  | .writing metadata => some (row.map (markTerminating · metadata), { t with phase := .done })
  | .done => none

/-- A statement that throws: a claim is given up, a read ends the call. -/
def Phase.fail : Phase → Option Phase
  | .processing record => if record.status = .running then some (.refreshing record none) else none
  | .claiming record _ _ => some (.refreshing record none)
  | .ensuring (some _) => none
  | .done => none
  | _ => some .done

/-- The call has a record of the container and will mark it as terminating. -/
def Phase.pending : Phase → Bool
  | .discovering cached => cached.isSome
  | .ensuring cached => cached.isSome
  | .processing _ => true
  | .claiming _ _ _ => true
  | .refreshing _ _ => true
  | .writing _ => true
  | .finding => false
  | .done => false

section Status

variable {row row' : Option ContainerRow} {answer : Answer} {t t' : Termination}

/-- A step leaves the row as it is, claims it while it runs, or marks it as terminating. -/
theorem Termination.next_cases (h : t.next row answer = some (row', t')) :
    row' = row ∨
      (∃ r r', row = some r ∧ row' = some r' ∧ r.status = .running ∧ r'.status = .terminating) ∨
        ∃ metadata, t.phase = .writing metadata ∧ row' = row.map (markTerminating · metadata) := by
  unfold Termination.next at h
  cases hphase : t.phase with
  | claiming record snapshot candidate =>
    rw [hphase] at h
    cases row with
    | none =>
      obtain ⟨rfl, -⟩ := by simpa using h
      exact .inl rfl
    | some r =>
      cases hclaim : r.claimForTermination snapshot candidate with
      | none =>
        obtain ⟨rfl, -⟩ := by simpa [hclaim] using h
        exact .inl rfl
      | some r' =>
        obtain ⟨rfl, -⟩ := by simpa [hclaim] using h
        obtain ⟨hrunning, hterminating⟩ := ContainerRow.status_of_claim hclaim
        exact .inr (.inl ⟨r, r', rfl, rfl, hrunning, hterminating⟩)
  | writing metadata =>
    rw [hphase] at h
    obtain ⟨rfl, -⟩ := by simpa using h
    exact .inr (.inr ⟨metadata, rfl, rfl⟩)
  | ensuring cached =>
    rw [hphase] at h
    cases cached with
    | none =>
      obtain ⟨rfl, -⟩ := by simpa using h
      exact .inl rfl
    | some record =>
      obtain ⟨rfl, -⟩ := by simpa using h
      exact .inl rfl
  | done => simp [hphase] at h
  | _ =>
    simp only [hphase, Option.some.injEq, Prod.mk.injEq] at h
    exact .inl h.1.symm

/-- A call that comes to have a record has read a live row, unless the runtime has listed it. -/
theorem Termination.pending_of_next (h : t.next row answer = some (row', t'))
    (hpending : t'.phase.pending) :
    t.phase.pending ∨ row' = row ∧
      ((∃ r, row = some r ∧ isLive r.status) ∨ t.phase = .ensuring none) := by
  unfold Termination.next at h
  cases hphase : t.phase with
  | finding =>
    rw [hphase] at h
    obtain ⟨rfl, rfl⟩ := by simpa using h
    obtain ⟨record, hrecord⟩ := Option.isSome_iff_exists.mp hpending
    obtain ⟨r, hr, -⟩ := Option.map_eq_some_iff.mp hrecord
    obtain ⟨hrow, hlive⟩ := Option.filter_eq_some_iff.mp hr
    exact .inr ⟨rfl, .inl ⟨r, hrow, (Bool.and_eq_true_iff.mp hlive).2⟩⟩
  | discovering cached =>
    cases cached with
    | some record => exact .inl rfl
    | none =>
      rw [hphase] at h
      obtain ⟨rfl, rfl⟩ := by simpa using h
      cases hdiscovered : answer.discovered <;> simp [hdiscovered, Phase.pending] at hpending
  | ensuring cached =>
    cases cached with
    | some record => exact .inl rfl
    | none =>
      rw [hphase] at h
      obtain ⟨rfl, rfl⟩ := by simpa using h
      exact .inr ⟨rfl, .inr rfl⟩
  | writing metadata => exact .inl rfl
  | processing record => exact .inl rfl
  | claiming record snapshot candidate => exact .inl rfl
  | refreshing record claimId => exact .inl rfl
  | done => simp [hphase] at h

/-- A call that throws has no record that it did not have. -/
theorem pending_of_fail {phase phase' : Phase} (h : phase.fail = some phase')
    (hpending : phase'.pending) : phase.pending := by
  cases phase with
  | processing record => rfl
  | claiming record snapshot candidate => rfl
  | ensuring cached =>
    cases cached with
    | some record => rfl
    | none =>
      obtain rfl : Phase.done = phase' := by simpa [Phase.fail] using h
      cases hpending
  | done => simp [Phase.fail] at h
  | _ =>
    obtain rfl : Phase.done = phase' := by simpa [Phase.fail] using h
    cases hpending

end Status

end Agyn.ThreadTermination
