import Mathlib.Algebra.Group.Nat.Defs
import Mathlib.Data.Int.Notation
import Agyn.ContainerEvents

/-!
The row of a container and the statements of the registry that write it. A statement that follows
a read is given the metadata that was read. Times are in milliseconds; labels, platform and mounts
are left out of the metadata, as nothing here depends on them.
-/
namespace Agyn

open ContainerEvents

namespace ContainerRegistry

inductive TerminationReason where
  | event (reason : ContainerEventReason)
  | ttlExpired
  | threadClosed
  | workspaceVolumeRemoved
  | manualDelete
  deriving DecidableEq, Repr

structure ContainerMetadata where
  ttlSeconds : Option ℤ
  lastError : Option String
  retryAfter : Option ℤ
  terminationAttempts : Option ℕ
  claimId : Option String
  autoRemoved : Option Bool
  health : Option ContainerHealthStatus
  lastEventAt : Option ℤ
  deriving DecidableEq, Repr

structure ContainerRow where
  dockerContainerId : String
  nodeId : String
  threadId : Option String
  image : String
  name : String
  status : ContainerStatus
  lastUsedAt : ℤ
  killAfterAt : Option ℤ
  terminationReason : Option TerminationReason
  deletedAt : Option ℤ
  metadata : ContainerMetadata
  deriving DecidableEq, Repr

def defaultTtlSeconds : ℤ := 86400

def computeKillAfter (lastUsed : ℤ) (ttlSeconds : Option ℤ) : Option ℤ :=
  let ttl := ttlSeconds.getD defaultTtlSeconds
  if ttl ≤ 0 then none else some (lastUsed + ttl * 1000)

def normalizeMetadata (metadata : ContainerMetadata) : ContainerMetadata :=
  { metadata with ttlSeconds := some (metadata.ttlSeconds.getD defaultTtlSeconds) }

def ContainerMetadata.empty : ContainerMetadata :=
  ⟨none, none, none, none, none, none, none, none⟩

structure StartArgs where
  containerId : String
  nodeId : String
  threadId : String
  image : String
  name : String
  ttlSeconds : Option ℤ
  deriving DecidableEq

def sanitizeName (value : String) : Except String String :=
  match (trim value).toList with
  | [] => .error "ContainerRegistry.registerStart received an empty container name"
  | '/' :: rest => .ok (String.ofList rest)
  | trimmed => .ok (String.ofList trimmed)

/-- The row that `registerStart` writes, whether there is one for the container or not. -/
def registerStart (args : StartArgs) (now : ℤ) : Except String ContainerRow := do
  let name ← sanitizeName args.name
  return {
    dockerContainerId := args.containerId
    nodeId := args.nodeId
    threadId := truthy (some args.threadId)
    image := args.image
    name
    status := .running
    lastUsedAt := now
    killAfterAt := computeKillAfter now args.ttlSeconds
    terminationReason := none
    deletedAt := none
    metadata := { ContainerMetadata.empty with
      ttlSeconds := some (args.ttlSeconds.getD defaultTtlSeconds)
      lastEventAt := some now } }

/-- A row that was registered is a running one that is kept for its time. -/
theorem registerStart_spec {args : StartArgs} {now : ℤ} {row : ContainerRow}
    (h : registerStart args now = .ok row) :
    row.status = .running ∧ row.killAfterAt = computeKillAfter now args.ttlSeconds := by
  unfold registerStart at h
  cases hname : sanitizeName args.name with
  | error e => simp [hname, bind, Except.bind] at h
  | ok name =>
    simp only [hname, bind, Except.bind, pure, Except.pure, Except.ok.injEq] at h
    rw [← h]
    exact ⟨rfl, rfl⟩

namespace ContainerRow

/-- The write of `updateLastUsed`. -/
def updateLastUsed (row : ContainerRow) (snapshot : ContainerMetadata) (now : ℤ)
    (ttlOverrideSeconds : Option ℤ) : ContainerRow :=
  let ttl := ttlOverrideSeconds.or (normalizeMetadata snapshot).ttlSeconds
  { row with lastUsedAt := now, killAfterAt := computeKillAfter now ttl }

/-- The write of `markStopped`. -/
def markStopped (row : ContainerRow) (snapshot : ContainerMetadata) (now : ℤ)
    (reason : TerminationReason) : ContainerRow :=
  { row with
    status := .stopped
    deletedAt := none
    terminationReason := some reason
    metadata := { normalizeMetadata snapshot with lastEventAt := some now } }

/-- The write of `markDeleted`. -/
def markDeleted (row : ContainerRow) (snapshot : ContainerMetadata) (now : ℤ)
    (reason : TerminationReason) : ContainerRow :=
  { row.markStopped snapshot now reason with deletedAt := some now }

/-- The write of `claimForTermination`, which finds the row only while it is running. -/
def claimForTermination (row : ContainerRow) (snapshot : ContainerMetadata) (claimId : String) :
    Option ContainerRow :=
  if row.status = .running then
    some { row with
      status := .terminating
      metadata := { normalizeMetadata snapshot with claimId := some claimId } }
  else none

theorem status_of_claim {row row' : ContainerRow} {snapshot : ContainerMetadata} {claimId : String}
    (h : row.claimForTermination snapshot claimId = some row') :
    row.status = .running ∧ row'.status = .terminating := by
  unfold claimForTermination at h
  split_ifs at h with hrunning
  exact ⟨hrunning, by rw [← Option.some.inj h]⟩

/-- The write of `recordTerminationFailure`. -/
def recordTerminationFailure (row : ContainerRow) (snapshot : ContainerMetadata)
    (message : String) (now : ℤ) : ContainerRow :=
  let metadata := normalizeMetadata snapshot
  let attempts := metadata.terminationAttempts.getD 0
  let delayMs : ℕ := min (2 ^ attempts * 1000) (15 * 60 * 1000)
  { row with metadata := { metadata with
      lastError := some message
      retryAfter := some (now + delayMs)
      terminationAttempts := some (attempts + 1) } }

end ContainerRow

end ContainerRegistry

end Agyn
