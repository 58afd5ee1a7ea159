import Mathlib.Data.Int.Notation
import Agyn.AgentLoop
import Agyn.LLMReducers
import Agyn.RunLifecycle

/-!
The buffer of the messages that arrive while a run of their thread is active. A message leaves it
only at the front of the queue, and only outside of the debounce window, which starts again with
each arrival. Times are milliseconds and need not grow. One thread of an agent node: its queue, the
run that is active on it, and what happened. A message that arrives while a run is active is queued.
The queue is drained inside a run after its tools, where the config asks for it, and once after a
run that did not fail; what that drain takes starts the next run at once. Threads share nothing but
the debounce time.
-/
namespace Agyn

section Queue

structure QueuedItem where
  msg : BufferMessage
  ts : ℤ
  deriving DecidableEq

structure ThreadQueue where
  queue : List QueuedItem
  lastEnqueueAt : ℤ
  deriving DecidableEq

namespace MessagesBuffer

def empty : ThreadQueue := ⟨[], 0⟩

def enqueue (msgs : List BufferMessage) (now : ℤ) (s : ThreadQueue) : ThreadQueue :=
  if msgs = [] then s
  else ⟨s.queue ++ msgs.map fun m => ⟨m, now⟩, now⟩

def debounced (debounceMs : ℕ) (now : ℤ) (s : ThreadQueue) : Bool :=
  debounceMs > 0 && now - s.lastEnqueueAt < (debounceMs : ℤ)

def tryDrain (debounceMs : ℕ) (mode : ProcessBuffer) (now : ℤ) (s : ThreadQueue) :
    List BufferMessage × ThreadQueue :=
  match s.queue with
  | [] => ([], s)
  | item :: rest =>
    if debounced debounceMs now s then ([], s)
    else
      match mode with
      | .allTogether => ((item :: rest).map QueuedItem.msg, { s with queue := [] })
      | .oneByOne => ([item.msg], { s with queue := rest })

end MessagesBuffer

def ThreadQueue.messages (s : ThreadQueue) : List BufferMessage := s.queue.map QueuedItem.msg

section Draining

open MessagesBuffer

variable {msgs : List BufferMessage} {now : ℤ} {s : ThreadQueue} {debounceMs : ℕ}
  {mode : ProcessBuffer}

theorem enqueue_messages : (enqueue msgs now s).messages = s.messages ++ msgs := by
  unfold enqueue ThreadQueue.messages
  by_cases hnil : msgs = []
  · rw [if_pos hnil, hnil, List.append_nil]
  · rw [if_neg hnil, List.map_append, List.map_map]
    congr 1
    exact List.map_id msgs

/-- A drain takes messages from the front of the queue. -/
theorem tryDrain_messages :
    (tryDrain debounceMs mode now s).1 ++ (tryDrain debounceMs mode now s).2.messages =
      s.messages := by
  unfold tryDrain ThreadQueue.messages
  cases hqueue : s.queue with
  | nil => simp [hqueue]
  | cons item rest =>
    cases hdebounced : debounced debounceMs now s with
    | true => simp [hqueue]
    | false => cases mode <;> simp

theorem tryDrain_eq_nil_iff :
    (tryDrain debounceMs mode now s).1 = [] ↔
      s.queue = [] ∨ debounced debounceMs now s = true := by
  unfold tryDrain
  cases hqueue : s.queue with
  | nil => simp
  | cons item rest =>
    cases hdebounced : debounced debounceMs now s with
    | true => simp
    | false => cases mode <;> simp

/-- A drain that takes nothing changes nothing. -/
theorem tryDrain_of_eq_nil (h : (tryDrain debounceMs mode now s).1 = []) :
    (tryDrain debounceMs mode now s).2 = s := by
  unfold tryDrain at h ⊢
  cases hqueue : s.queue with
  | nil => rfl
  | cons item rest =>
    rw [hqueue] at h
    cases hdebounced : debounced debounceMs now s with
    | true => simp
    | false => cases mode <;> simp [hdebounced] at h

theorem messages_eq_nil_iff : s.messages = [] ↔ s.queue = [] := List.map_eq_nil_iff

end Draining

end Queue

section Thread

open Loops

structure LoopingRun where
  cfg : AgentLoopConfig
  mode : ProcessBuffer
  env : InvokeEnv
  messages : List BufferMessage
  start : LLMStore
  machine : AgentMachine

inductive ActiveRun where
  | idle
  /-- The thread is marked as running, and the run is being begun and prepared. -/
  | starting (messages : List BufferMessage)
  | looping (run : LoopingRun)

structure AgentThread where
  buffer : ThreadQueue
  debounceMs : ℕ
  active : ActiveRun
  store : LLMStore
  /-- The messages that `invoke` was given, in order. -/
  received : List BufferMessage
  /-- The runs that came to an end after their loop had begun, the first one first. -/
  ended : List LoopingRun

inductive ThreadEvent where
  | invoke (messages : List BufferMessage) (now : ℤ)
  | begin (env : InvokeEnv) (cfg : AgentLoopConfig) (mode : ProcessBuffer) (debounceMs : ℕ)
  | turn (env : LoopEnv) (now : ℤ)
  | settle (now : ℤ)
  /-- A run of another thread sets the debounce time of the shared buffer. -/
  | setDebounceMs (ms : ℕ)

def AgentThread.initial (w : LLMStore) : AgentThread :=
  ⟨MessagesBuffer.empty, 0, .idle, w, [], []⟩

def LoopingRun.result (run : LoopingRun) : Option (Except String LLMState) :=
  match run.machine.status with
  | .running _ _ => none
  | .done state => some (.ok state)
  | .failed message => some (.error message)

/-- A turn drains the queue after its tools were saved, unless the finish signal is active. -/
def drainsIn (cfg : AgentLoopConfig) (env : LoopEnv) (m : AgentMachine) : Bool :=
  match m.status with
  | .running .toolsSave state =>
    cfg.injectAfterTools && !env.finish && env.fault.isNone && !state.messages.any LLMMessage.isAI
  | _ => false

namespace AgentThread

/-- A call of `invoke`: the messages are queued, or start a run. -/
def invoke (messages : List BufferMessage) (now : ℤ) (s : AgentThread) : AgentThread :=
  let s := { s with received := s.received ++ messages }
  match s.active with
  | .idle => { s with active := .starting messages }
  | _ => { s with buffer := MessagesBuffer.enqueue messages now s.buffer }

/-- The run is begun, its model ensured, the debounce time set and its loop prepared. A failure
ends the run, and its queue is not looked at. -/
def begin (env : InvokeEnv) (cfg : AgentLoopConfig) (mode : ProcessBuffer) (debounceMs : ℕ)
    (messages : List BufferMessage) (s : AgentThread) : AgentThread :=
  match (beginRunThread env).1, env.modelFault, env.prepareFault with
  | .error _, _, _ => { s with active := .idle }
  | .ok _, some _, _ => { s with active := .idle }
  | .ok _, none, some _ => { s with active := .idle, debounceMs }
  | .ok _, none, none =>
    { s with
      debounceMs
      active := .looping ⟨cfg, mode, env, messages, s.store, startRun messages s.store⟩ }

variable (yamlLength : LLMMessage → ℕ)

def turn (env : LoopEnv) (now : ℤ) (run : LoopingRun) (s : AgentThread) : AgentThread :=
  let (drained, buffer) :=
    if drainsIn run.cfg env run.machine then
      MessagesBuffer.tryDrain s.debounceMs run.mode now s.buffer
    else ([], s.buffer)
  let machine := step (prepareLoop yamlLength run.cfg) { env with drained } run.machine
  { s with buffer, active := .looping { run with machine } }

/-- The run is completed, and if that and its loop did not fail the queue is drained. -/
def settle (now : ℤ) (run : LoopingRun) (s : AgentThread) : AgentThread :=
  match run.result with
  | none => s
  | some loop =>
    let s := { s with active := .idle, store := run.machine.world, ended := s.ended ++ [run] }
    match (runAndComplete run.env loop createdRow).1 with
    | .error _ => s
    | .ok _ =>
      match MessagesBuffer.tryDrain s.debounceMs run.mode now s.buffer with
      | ([], buffer) => { s with buffer }
      | (message :: messages, buffer) =>
        { s with buffer, active := .starting (message :: messages) }

/-- What an event makes of the thread; one that does not fit the active run changes nothing. -/
def step (e : ThreadEvent) (s : AgentThread) : AgentThread :=
  match e, s.active with
  | .invoke messages now, _ => s.invoke messages now
  | .begin env cfg mode debounceMs, .starting messages => s.begin env cfg mode debounceMs messages
  | .turn env now, .looping run => s.turn yamlLength env now run
  | .settle now, .looping run => s.settle now run
  | .setDebounceMs ms, _ => { s with debounceMs := ms }
  | _, _ => s

def after (w : LLMStore) (history : List ThreadEvent) : AgentThread :=
  history.foldl (fun s e => step yamlLength e s) (initial w)

end AgentThread

end Thread

end Agyn
