import Mathlib.Data.Nat.Notation
import Mathlib.Logic.Function.Basic
import Agyn.GuardedRuns

/-!
The reminders of a `remind_me` tool: executions that write a row and then set a timer, timers
whose callback marks the row and then invokes the agent, cancellations by thread and by id, and
the destruction of the tool. Every awaited write is a step of its own. A reminder is named by the
execution that creates it, which has its thread.
-/
namespace Agyn.ReminderTool

structure ReminderRow where
  completedAt : Bool
  cancelledAt : Bool
  deriving DecidableEq

/-- Where the execution of a reminder and then the callback of its timer stand. -/
inductive ReminderPhase where
  | idle
  | started
  | created
  | scheduled
  | firing
  | marked
  | ended
  deriving DecidableEq

inductive CancelTarget where
  | thread (threadId : String)
  | reminder (id : ℕ)
  deriving DecidableEq

/-- A cancellation under way: `cancelReminder` after its read, and any cancellation after its
write, with the reminders whose rows it found. -/
inductive Cancel where
  | read (id : ℕ) (snapshot : ReminderRow)
  | written (target : CancelTarget) (covered : ℕ → Bool)

/-- An invocation of the agent; whether a cancellation of the reminder or the destruction of the
tool had completed before it. -/
structure Delivery where
  reminder : ℕ
  afterCancel : Bool
  afterDestroy : Bool
  deriving DecidableEq

structure ReminderState where
  destroyed : Bool
  active : List ℕ
  /-- The timers that are set. -/
  timers : ℕ → Bool
  phase : ℕ → ReminderPhase
  rows : ℕ → Option ReminderRow
  cancels : ℕ → Option Cancel
  /-- The reminders of which a cancellation has completed. -/
  cancelled : ℕ → Bool
  deliveries : List Delivery

def ReminderState.initial : ReminderState :=
  ⟨false, [], fun _ => false, fun _ => .idle, fun _ => none, fun _ => none, fun _ => false, []⟩

/-- A flag says whether a database write succeeds. -/
inductive ReminderStep where
  | begin (id : ℕ)
  | abort (id : ℕ)
  | create (id : ℕ)
  | register (id : ℕ)
  | fire (id : ℕ)
  | complete (id : ℕ) (written : Bool)
  | deliver (id : ℕ)
  | cancelThread (cancel : ℕ) (threadId : String) (written : Bool)
  | cancelRead (cancel id : ℕ)
  | cancelWrite (cancel : ℕ) (written : Bool)
  | clearTimers (cancel : ℕ)
  | destroy

variable (threadOf : ℕ → String) (maxActive : ℕ)

def CancelTarget.matches (target : CancelTarget) (id : ℕ) : Bool :=
  match target with
  | .thread threadId => threadOf id = threadId
  | .reminder reminderId => id = reminderId

def Cancel.targets (cancel : Cancel) (id : ℕ) : Bool :=
  match cancel with
  | .read reminderId _ => id = reminderId
  | .written target _ => target.matches threadOf id

namespace ReminderState

def setPhase (s : ReminderState) (id : ℕ) (phase : ReminderPhase) : ReminderState :=
  { s with phase := Function.update s.phase id phase }

def setCancel (s : ReminderState) (cancel : ℕ) (state : Option Cancel) : ReminderState :=
  { s with cancels := Function.update s.cancels cancel state }

def setRow (s : ReminderState) (id : ℕ) (row : ReminderRow) : ReminderState :=
  { s with rows := Function.update s.rows id (some row) }

/-- The checks at the start of `execute`. -/
def begin (s : ReminderState) (id : ℕ) : ReminderState :=
  if s.destroyed = true ∨ maxActive ≤ s.active.length then s.setPhase id .ended
  else s.setPhase id .started

def register (s : ReminderState) (id : ℕ) : ReminderState :=
  { s.setPhase id .scheduled with
    timers := Function.update s.timers id true
    active := s.active ++ [id] }

/-- The callback of a timer, up to its first write. -/
def fire (s : ReminderState) (id : ℕ) : ReminderState :=
  let s := { s with timers := Function.update s.timers id false }
  if id ∈ s.active then s.setPhase id .firing else s

def complete (s : ReminderState) (id : ℕ) (written : Bool) : ReminderState :=
  let s := s.setPhase id .marked
  match s.rows id with
  | some row => if written then s.setRow id { row with completedAt := true } else s
  | none => s

/-- The callback of a timer after its write. -/
def deliver (s : ReminderState) (id : ℕ) : ReminderState :=
  { s.setPhase id .ended with
    active := s.active.erase id
    deliveries := s.deliveries ++ [⟨id, s.cancelled id, s.destroyed⟩] }

/-- `updateMany` over the pending reminders of a thread. -/
def cancelRows (s : ReminderState) (threadId : String) : ReminderState :=
  { s with
    rows := fun id => (s.rows id).map fun row =>
      if threadOf id = threadId ∧ row.completedAt = false ∧ row.cancelledAt = false then
        { row with cancelledAt := true }
      else row }

def cancelThread (s : ReminderState) (cancel : ℕ) (threadId : String) (written : Bool) :
    ReminderState :=
  if written then
    (s.cancelRows threadOf threadId).setCancel cancel
      (some (.written (.thread threadId)
        fun id => (s.rows id).isSome && decide (threadOf id = threadId)))
  else s.setCancel cancel (some (.written (.thread threadId) fun _ => false))

/-- The write of `cancelReminder`, which is made when the row was pending at the read. -/
def cancelWrite (s : ReminderState) (cancel id : ℕ) (snapshot : ReminderRow) (written : Bool) :
    ReminderState :=
  let done := s.setCancel cancel (some (.written (.reminder id) fun i => decide (i = id)))
  if snapshot.completedAt = false ∧ snapshot.cancelledAt = false then
    match s.rows id with
    | some row =>
      if written then done.setRow id { row with cancelledAt := true }
      else s.setCancel cancel (some (.written (.reminder id) fun _ => false))
    | none => s.setCancel cancel (some (.written (.reminder id) fun _ => false))
  else done

/-- `clearTimersByThread` or `clearTimerById`, with which a cancellation completes. -/
def clearTimers (s : ReminderState) (cancel : ℕ) (target : CancelTarget) (covered : ℕ → Bool) :
    ReminderState :=
  let cleared := fun id => decide (id ∈ s.active) && target.matches threadOf id
  { s.setCancel cancel none with
    active := s.active.filter fun id => !target.matches threadOf id
    timers := fun id => s.timers id && !cleared id
    cancelled := fun id => s.cancelled id || covered id || cleared id }

def destroy (s : ReminderState) : ReminderState :=
  { s with
    destroyed := true
    timers := fun id => s.timers id && decide (id ∉ s.active)
    active := [] }

def step (s : ReminderState) : ReminderStep → Option ReminderState
  | .begin id => if s.phase id = .idle then some (s.begin maxActive id) else none
  | .abort id => if s.phase id = .started then some (s.setPhase id .ended) else none
  | .create id =>
    if s.phase id = .started then some ((s.setPhase id .created).setRow id ⟨false, false⟩)
    else none
  | .register id => if s.phase id = .created then some (s.register id) else none
  | .fire id => if s.timers id = true then some (s.fire id) else none
  | .complete id written =>
    if s.phase id = .firing then some (s.complete id written) else none
  | .deliver id => if s.phase id = .marked then some (s.deliver id) else none
  | .cancelThread cancel threadId written =>
    match s.cancels cancel with
    | none => some (s.cancelThread threadOf cancel threadId written)
    | some _ => none
  | .cancelRead cancel id =>
    match s.cancels cancel, s.rows id with
    | none, some row => some (s.setCancel cancel (some (.read id row)))
    | _, _ => none
  | .cancelWrite cancel written =>
    match s.cancels cancel with
    | some (.read id snapshot) => some (s.cancelWrite cancel id snapshot written)
    | _ => none
  | .clearTimers cancel =>
    match s.cancels cancel with
    | some (.written target covered) => some (s.clearTimers threadOf cancel target covered)
    | _ => none
  | .destroy => some s.destroy

end ReminderState

end Agyn.ReminderTool
