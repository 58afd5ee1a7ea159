import Mathlib.Data.Nat.Notation
import Mathlib.Logic.Function.Basic
import Mathlib.Tactic.SplitIfs
import Agyn.GuardedRuns
import Agyn.PersistedGraph

/-!
The `send_message` command of the manage tool in sync mode. A call registers a waiter under its
child thread and hands its message to the worker, which starts a run on the thread or queues the
message while one is active. Whatever text a run of the thread sends goes to the waiter that is
registered there at that moment. Calls are numbered. Which call gets a reply. A waiter holds no
identity of its request, so a call gets the text of a run that was given its message only while
nobody else can speak on its thread: the reply of an earlier call, late or still being worked on,
resolves whatever call waits when it is sent.
-/
namespace Agyn.ManageReplies

section SendMessages

/-- An agent and a thread that it works on. -/
structure Child where
  worker : ℕ
  threadId : String
  deriving DecidableEq

/-- A call of `send_message` once its worker and its child thread are resolved. -/
structure SendMessage where
  child : Child
  parentThreadId : String
  workerName : String
  message : String
  /-- `getTimeoutMs()`; no timer is set for zero. -/
  timeoutMs : ℕ

/-- A text that a run sent to its thread, with the calls whose messages the run had by then. -/
structure Reply where
  text : String
  sender : Child
  answered : List ℕ
  deriving DecidableEq

structure InvocationContext where
  parentThreadId : String
  workerName : String
  deriving DecidableEq

/-- The maps of a `ManageToolNode`; a waiter and a timer are named by their call. -/
structure ManageNode where
  invocationContexts : String → Option InvocationContext
  pendingWaiters : String → Option ℕ
  timeoutHandles : String → Option ℕ
  queuedMessages : String → List Reply
  /-- What went to the parents. -/
  forwarded : List (InvocationContext × Reply)

inductive Awaited where
  | queued (reply : Reply)
  | rejected (error : String)
  | waiting

inductive SendResult where
  | resolved (call : ℕ)
  | error (error : String)

namespace ManageNode

def initial : ManageNode := ⟨fun _ => none, fun _ => none, fun _ => none, fun _ => [], []⟩

def flushQueuedMessages (n : ManageNode) (childThreadId : String)
    (context : Option InvocationContext) : ManageNode :=
  match n.queuedMessages childThreadId with
  | [] => n
  | queue =>
    { n with
      queuedMessages := Function.update n.queuedMessages childThreadId []
      forwarded := n.forwarded ++ context.toList.flatMap fun c => queue.map fun r => (c, r) }

def registerInvocation (n : ManageNode) (childThreadId : String) (context : InvocationContext) :
    ManageNode :=
  let trimmedChildId := trim childThreadId
  if trimmedChildId = "" then n
  else
    let n := n.flushQueuedMessages trimmedChildId (n.invocationContexts trimmedChildId)
    { n with
      invocationContexts := Function.update n.invocationContexts trimmedChildId (some context) }

def awaitChildResponse (n : ManageNode) (call : ℕ) (childThreadId : String) (timeoutMs : ℕ) :
    ManageNode × Awaited :=
  let trimmed := trim childThreadId
  if trimmed = "" then (n, .rejected "manage_invalid_child_thread")
  else
    match n.queuedMessages trimmed with
    | next :: queue =>
      ({ n with queuedMessages := Function.update n.queuedMessages trimmed queue }, .queued next)
    | [] =>
      if (n.pendingWaiters trimmed).isSome then (n, .rejected "manage_waiter_already_registered")
      else
        ({ n with
            timeoutHandles := Function.update n.timeoutHandles trimmed
              (if 0 < timeoutMs then some call else none)
            pendingWaiters := Function.update n.pendingWaiters trimmed (some call) }, .waiting)

def dropWaiter (n : ManageNode) (threadId : String) : ManageNode :=
  { n with
    pendingWaiters := Function.update n.pendingWaiters threadId none
    timeoutHandles := Function.update n.timeoutHandles threadId none }

/-- `sendToChannel` in sync mode. -/
def sendToChannel (n : ManageNode) (threadId text : String) : ManageNode × SendResult :=
  let normalizedThreadId := trim threadId
  if normalizedThreadId = "" then (n, .error "missing_thread_id")
  else if trim text = "" then (n, .error "empty_message")
  else
    match n.pendingWaiters normalizedThreadId with
    | some call => (n.dropWaiter normalizedThreadId, .resolved call)
    | none => (n, .error "missing_waiter")

end ManageNode

def renderWorkerResponse (workerName text : String) : String :=
  if text = "" then "Response from: " ++ workerName
  else "Response from: " ++ workerName ++ "\n" ++ text

/-- A message for a child, with the call it is from when it is from one. -/
structure ChildMessage where
  text : String
  call : Option ℕ
  deriving DecidableEq

def callsOf (messages : List ChildMessage) : List ℕ := messages.filterMap ChildMessage.call

/-- A thread of an agent: the messages that its active run was given, and those that wait in
the buffer. -/
structure ChildThread where
  run : Option (List ChildMessage)
  queue : List ChildMessage

namespace ChildThread

/-- `AgentNode.invoke`: a busy thread queues the messages, an idle one starts a run. -/
def invoke (c : ChildThread) (messages : List ChildMessage) : ChildThread :=
  match c.run with
  | some _ => { c with queue := c.queue ++ messages }
  | none => { c with run := some messages }

/-- The active run takes messages from the buffer. -/
def inject (c : ChildThread) (count : ℕ) : Option ChildThread :=
  c.run.map fun given => ⟨some (given ++ c.queue.take count), c.queue.drop count⟩

/-- The active run ends; what is drained from the buffer starts the next one. -/
def finish (c : ChildThread) (count : ℕ) : Option ChildThread :=
  c.run.map fun _ =>
    match c.queue.take count with
    | [] => { c with run := none }
    | drained => ⟨some drained, c.queue.drop count⟩

end ChildThread

inductive CallResult where
  | returned (reply : Reply)
  | failed (error : String)
  deriving DecidableEq

inductive CallPhase where
  | idle
  | registered
  | waiting
  | settled (result : CallResult)
  deriving DecidableEq

structure ManageState where
  node : ManageNode
  phase : ℕ → CallPhase
  children : Child → ChildThread

def ManageState.initial : ManageState := ⟨.initial, fun _ => .idle, fun _ => ⟨none, []⟩⟩

/-- What happens around a manage tool. Other parties may invoke a child as well, and `clear`
empties its buffer. -/
inductive ManageStep where
  | register (call : ℕ)
  | request (call : ℕ)
  | expire (threadId : String)
  | invoke (child : Child) (texts : List String)
  | inject (child : Child) (count : ℕ)
  | send (child : Child) (text : String)
  | finish (child : Child) (count : ℕ)
  | clear (child : Child)

namespace ManageState

def setPhase (s : ManageState) (call : ℕ) (phase : CallPhase) : ManageState :=
  { s with phase := Function.update s.phase call phase }

def setChild (s : ManageState) (child : Child) (thread : ChildThread) : ManageState :=
  { s with children := Function.update s.children child thread }

/-- The phase of a call after `awaitChildResponse`. -/
def awaitedPhase : Awaited → CallPhase
  | .queued reply => .settled (.returned reply)
  | .rejected error => .settled (.failed error)
  | .waiting => .waiting

/-- `awaitChildResponse` and `invoke` run one after the other without a pause, and a rejected
waiter does not keep the message from the worker. -/
def request (s : ManageState) (call : ℕ) (args : SendMessage) : ManageState :=
  let (node, awaited) := s.node.awaitChildResponse call args.child.threadId args.timeoutMs
  ({ s with node }.setPhase call (awaitedPhase awaited)).setChild args.child
    ((s.children args.child).invoke [⟨args.message, some call⟩])

def send (s : ManageState) (child : Child) (given : List ChildMessage) (text : String) :
    ManageState :=
  match s.node.sendToChannel child.threadId text with
  | (node, .resolved call) =>
    { s with node }.setPhase call
      (.settled (.returned ⟨text, child, callsOf given⟩))
  | (node, .error _) => { s with node }

variable (calls : ℕ → SendMessage)

def step (s : ManageState) : ManageStep → Option ManageState
  | .register i =>
    if s.phase i = .idle then
      some { s.setPhase i .registered with
        node := s.node.registerInvocation (calls i).child.threadId
          ⟨(calls i).parentThreadId, (calls i).workerName⟩ }
    else none
  | .request i => if s.phase i = .registered then some (s.request i (calls i)) else none
  | .expire threadId =>
    (s.node.timeoutHandles threadId).map fun i =>
      { s with node := s.node.dropWaiter threadId }.setPhase i
        (.settled (.failed "manage_timeout"))
  | .invoke child texts =>
    some (s.setChild child ((s.children child).invoke (texts.map fun text => ⟨text, none⟩)))
  | .inject child count => ((s.children child).inject count).map (s.setChild child)
  | .send child text => (s.children child).run.map fun given => s.send child given text
  | .finish child count => ((s.children child).finish count).map (s.setChild child)
  | .clear child => some (s.setChild child { s.children child with queue := [] })

def response (s : ManageState) (call : ℕ) : Option String :=
  match s.phase call with
  | .settled (.returned reply) => some (renderWorkerResponse (calls call).workerName reply.text)
  | _ => none

end ManageState

end SendMessages

section Replies

open ManageState

variable {calls : ℕ → SendMessage} {s s' : ManageState} {i : ℕ} {c : Child}

/-- Every call that returned a text got it from its own worker, from a run that had been given
the message of the call. -/
def RepliesMatch (calls : ℕ → SendMessage) (s : ManageState) : Prop :=
  ∀ i reply, s.phase i = .settled (.returned reply) →
    reply.sender = (calls i).child ∧ i ∈ reply.answered

namespace ManageState

def Queued (s : ManageState) (c : Child) (i : ℕ) : Prop :=
  i ∈ callsOf (s.children c).queue

instance (s : ManageState) (c : Child) (i : ℕ) : Decidable (s.Queued c i) :=
  inferInstanceAs (Decidable (_ ∈ _))

def MayStart (calls : ℕ → SendMessage) (s : ManageState) (c : Child) : Prop :=
  ∀ i ∈ s.node.pendingWaiters (trim c.threadId), (calls i).child = c → s.Queued c i

instance (s : ManageState) (c : Child) : Decidable (s.MayStart calls c) :=
  inferInstanceAs (Decidable (∀ i ∈ s.node.pendingWaiters (trim c.threadId), _))

def MaySend (calls : ℕ → SendMessage) (s : ManageState) (c : Child) : Prop :=
  ∀ i ∈ s.node.pendingWaiters (trim c.threadId), (calls i).child = c ∧ ¬ s.Queued c i

instance (s : ManageState) (c : Child) : Decidable (s.MaySend calls c) :=
  inferInstanceAs (Decidable (∀ i ∈ s.node.pendingWaiters (trim c.threadId), _))

end ManageState

/-- While a call waits: only its worker sends on its thread, not before the message of the call
has left the buffer, the buffer is not cleared of the message, and no further run starts once
the message has left it. -/
def Undisturbed (calls : ℕ → SendMessage) (s : ManageState) : ManageStep → Prop
  | .request i =>
      (s.children (calls i).child).run.isNone = true → s.MayStart calls (calls i).child
  | .invoke c _ => (s.children c).run.isNone = true → s.MayStart calls c
  | .send c _ => s.MaySend calls c
  | .finish c count => (s.children c).queue.take count ≠ [] → s.MayStart calls c
  | .clear c => ∀ i ∈ s.node.pendingWaiters (trim c.threadId), ¬ s.Queued c i
  | _ => True

instance (s : ManageState) (a : ManageStep) : Decidable (Undisturbed calls s a) := by
  cases a <;> unfold Undisturbed <;> infer_instance

/-- The message of a call waits in the buffer, was given to the active run, or there is no
active run. -/
def ChildThread.Serves (t : ChildThread) (i : ℕ) : Prop :=
  i ∈ callsOf t.queue ∨ ∀ given ∈ t.run, i ∈ callsOf given

/-- What every undisturbed run keeps. -/
structure Sound (calls : ℕ → SendMessage) (s : ManageState) : Prop where
  waiters : ∀ threadId, ∀ i ∈ s.node.pendingWaiters threadId,
    threadId = trim (calls i).child.threadId ∧ (s.children (calls i).child).Serves i
  queues : ∀ threadId, s.node.queuedMessages threadId = []
  returned : RepliesMatch calls s

namespace ChildThread

variable {t t' : ChildThread}

@[simp] theorem callsOf_append (xs ys : List ChildMessage) :
    callsOf (xs ++ ys) = callsOf xs ++ callsOf ys :=
  List.filterMap_append

/-- A message of the buffer is drained or stays there. -/
theorem mem_callsOf_take_or_drop {queue : List ChildMessage} (h : i ∈ callsOf queue) (count : ℕ) :
    i ∈ callsOf (queue.take count) ∨ i ∈ callsOf (queue.drop count) := by
  rw [← List.take_append_drop count queue, callsOf_append] at h
  exact List.mem_append.mp h

theorem Serves.invoke (h : t.Serves i) {messages : List ChildMessage}
    (hstart : t.run.isNone = true → i ∈ callsOf t.queue ∨ i ∈ callsOf messages) :
    (t.invoke messages).Serves i := by
  cases hrun : t.run with
  | some given =>
    simp only [ChildThread.invoke, hrun, Serves, callsOf_append, List.mem_append]
    rcases h with h | h
    · exact Or.inl (Or.inl h)
    · exact Or.inr fun _ hg => h _ (hrun ▸ hg)
  | none =>
    simp only [ChildThread.invoke, hrun, Serves, Option.mem_some_iff]
    refine (hstart (by simp [hrun])).imp id ?_
    rintro hmem _ rfl
    exact hmem

/-- An invocation serves the call it is from. -/
theorem serves_invoke_self (t : ChildThread) (text : String) (i : ℕ) :
    (t.invoke [⟨text, some i⟩]).Serves i := by
  cases hrun : t.run with
  | some given => simp [ChildThread.invoke, hrun, Serves, callsOf]
  | none => simp [ChildThread.invoke, hrun, Serves, callsOf]

theorem Serves.inject (h : t.Serves i) {count : ℕ} (hstep : t.inject count = some t') :
    t'.Serves i := by
  obtain ⟨given, hrun, rfl⟩ := Option.map_eq_some_iff.mp hstep
  simp only [Serves, Option.mem_some_iff, forall_eq', callsOf_append, List.mem_append]
  rcases h with h | h
  · rcases mem_callsOf_take_or_drop h count with h | h
    · exact Or.inr (Or.inr h)
    · exact Or.inl h
  · exact Or.inr (Or.inl (h given hrun))

theorem serves_finish {count : ℕ} (hstep : t.finish count = some t')
    (hstart : t.queue.take count ≠ [] → i ∈ callsOf t.queue) : t'.Serves i := by
  obtain ⟨given, hrun, rfl⟩ := Option.map_eq_some_iff.mp hstep
  cases htake : t.queue.take count with
  | nil => simp [Serves]
  | cons m drained =>
    have hmem := mem_callsOf_take_or_drop (hstart (by simp [htake])) count
    rw [htake] at hmem
    simp only [Serves, Option.mem_some_iff, forall_eq']
    exact hmem.symm

theorem Serves.clear (h : t.Serves i) (hclear : i ∉ callsOf t.queue) :
    ({ t with queue := [] } : ChildThread).Serves i :=
  Or.inr (h.resolve_left hclear)

end ChildThread

namespace ManageNode

variable {n : ManageNode} {threadId : String}

theorem registerInvocation_of_no_queue (hqueues : ∀ t, n.queuedMessages t = [])
    (threadId : String) (context : InvocationContext) :
    (n.registerInvocation threadId context).pendingWaiters = n.pendingWaiters ∧
      (n.registerInvocation threadId context).queuedMessages = n.queuedMessages := by
  unfold registerInvocation flushQueuedMessages
  simp only [hqueues]
  split_ifs <;> simp

theorem mem_pendingWaiters_dropWaiter {t : String}
    (h : i ∈ (n.dropWaiter threadId).pendingWaiters t) : i ∈ n.pendingWaiters t := by
  by_cases ht : t = threadId
  · subst ht
    simp [dropWaiter] at h
  · simpa [dropWaiter, ht] using h

/-- A call waits, or is rejected and changes nothing. -/
theorem awaitChildResponse_cases (hqueues : ∀ t, n.queuedMessages t = []) (i : ℕ)
    (threadId : String) (timeoutMs : ℕ) :
    (∃ error, n.awaitChildResponse i threadId timeoutMs = (n, .rejected error)) ∨
      ∃ n', n.awaitChildResponse i threadId timeoutMs = (n', .waiting) ∧
        n.pendingWaiters (trim threadId) = none ∧
        n'.pendingWaiters = Function.update n.pendingWaiters (trim threadId) (some i) ∧
        n'.queuedMessages = n.queuedMessages := by
  unfold awaitChildResponse
  simp only [hqueues]
  by_cases hempty : trim threadId = ""
  · exact Or.inl ⟨_, if_pos hempty⟩
  · rw [if_neg hempty]
    by_cases hwaiter : (n.pendingWaiters (trim threadId)).isSome = true
    · exact Or.inl ⟨_, if_pos hwaiter⟩
    · exact Or.inr ⟨_, if_neg hwaiter, by simpa using hwaiter, rfl, rfl⟩

/-- A text resolves the waiter of its thread, or nothing changes. -/
theorem sendToChannel_cases (n : ManageNode) (threadId text : String) :
    (∃ error, n.sendToChannel threadId text = (n, .error error)) ∨
      ∃ call ∈ n.pendingWaiters (trim threadId),
        n.sendToChannel threadId text = (n.dropWaiter (trim threadId), .resolved call) := by
  unfold sendToChannel
  dsimp only
  split_ifs with hthread htext
  · exact Or.inl ⟨_, rfl⟩
  · exact Or.inl ⟨_, rfl⟩
  · cases hwaiter : n.pendingWaiters (trim threadId) with
    | none => exact Or.inl ⟨_, rfl⟩
    | some call => exact Or.inr ⟨call, rfl, rfl⟩

end ManageNode

theorem sound_initial : Sound calls .initial := by
  constructor <;> simp [initial, ManageNode.initial, RepliesMatch]

/-- A step of a child that keeps serving the calls that wait for it. -/
theorem sound_setChild (h : Sound calls s) {t : ChildThread}
    (hserves : ∀ i ∈ s.node.pendingWaiters (trim c.threadId), (calls i).child = c →
      (s.children c).Serves i → t.Serves i) : Sound calls (s.setChild c t) where
  waiters threadId i hi := by
    obtain ⟨rfl, hserved⟩ := h.waiters threadId i hi
    refine ⟨rfl, ?_⟩
    by_cases hc : (calls i).child = c
    · subst hc
      simpa [setChild] using hserves i hi rfl hserved
    · simpa [setChild, hc] using hserved
  queues := h.queues
  returned := h.returned

/-- A step of the node that registers no waiter. -/
theorem sound_setNode (h : Sound calls s) {n : ManageNode}
    (hwaiters : ∀ threadId, ∀ i ∈ n.pendingWaiters threadId, i ∈ s.node.pendingWaiters threadId)
    (hqueues : n.queuedMessages = s.node.queuedMessages) :
    Sound calls { s with node := n } where
  waiters threadId i hi := h.waiters threadId i (hwaiters threadId i hi)
  queues := hqueues ▸ h.queues
  returned := h.returned

theorem sound_setPhase (h : Sound calls s) {phase : CallPhase}
    (hphase : ∀ reply, phase = .settled (.returned reply) →
      reply.sender = (calls i).child ∧ i ∈ reply.answered) : Sound calls (s.setPhase i phase) where
  waiters := h.waiters
  queues := h.queues
  returned j reply hj := by
    by_cases hji : j = i
    · subst hji
      exact hphase reply (by simpa [setPhase] using hj)
    · exact h.returned j reply (by simpa [setPhase, hji] using hj)

theorem sound_request (h : Sound calls s)
    (hok : (s.children (calls i).child).run.isNone = true → s.MayStart calls (calls i).child) :
    Sound calls (s.request i (calls i)) := by
  have hkeep : ∀ j ∈ s.node.pendingWaiters (trim (calls i).child.threadId),
      (calls j).child = (calls i).child → (s.children (calls i).child).Serves j →
      ((s.children (calls i).child).invoke [⟨(calls i).message, some i⟩]).Serves j :=
    fun j hj hchild hserves => hserves.invoke fun hidle => Or.inl (hok hidle j hj hchild)
  rcases ManageNode.awaitChildResponse_cases h.queues i (calls i).child.threadId
    (calls i).timeoutMs with ⟨error, heq⟩ | ⟨n, heq, hfree, hwaiters, hqueues⟩
  · simp only [request, heq]
    exact sound_setChild (sound_setPhase h (by simp [awaitedPhase])) hkeep
  · simp only [request, heq]
    refine ⟨fun threadId j hj => ?_, hqueues ▸ h.queues, ?_⟩
    · change j ∈ n.pendingWaiters threadId at hj
      rw [hwaiters] at hj
      by_cases hthread : threadId = trim (calls i).child.threadId
      · subst hthread
        obtain rfl : i = j := by simpa using hj
        refine ⟨rfl, ?_⟩
        simpa [setChild] using ChildThread.serves_invoke_self _ _ _
      · obtain ⟨rfl, hserves⟩ := h.waiters threadId j (by simpa [hthread] using hj)
        refine ⟨rfl, ?_⟩
        have hne : (calls j).child ≠ (calls i).child := fun heq => hthread (by rw [heq])
        simpa [setChild, setPhase, hne] using hserves
    · exact (sound_setPhase h (by simp [awaitedPhase])).returned

/-- The run that sends to a waiting call was given its message. -/
theorem sound_send (h : Sound calls s) {given : List ChildMessage} (text : String)
    (hrun : (s.children c).run = some given) (hok : s.MaySend calls c) :
    Sound calls (s.send c given text) := by
  rcases ManageNode.sendToChannel_cases s.node c.threadId text with
    ⟨error, heq⟩ | ⟨call, hcall, heq⟩
  · simpa only [send, heq] using h
  · simp only [send, heq]
    refine sound_setPhase (sound_setNode h
      (fun _ _ => ManageNode.mem_pendingWaiters_dropWaiter) rfl) ?_
    rintro _ ⟨⟩
    obtain ⟨hchild, hleft⟩ := hok call hcall
    have hserves := (h.waiters _ call hcall).2
    rw [hchild] at hserves
    exact ⟨hchild.symm, hserves.resolve_left hleft given hrun⟩

theorem sound_step (h : Sound calls s) {a : ManageStep} (hok : Undisturbed calls s a)
    (hstep : s.step calls a = some s') : Sound calls s' := by
  cases a with
  | register i =>
    obtain ⟨-, hs⟩ := Option.ite_none_right_eq_some.mp hstep
    obtain rfl := Option.some.inj hs
    have hnode := ManageNode.registerInvocation_of_no_queue h.queues (calls i).child.threadId
      ⟨(calls i).parentThreadId, (calls i).workerName⟩
    exact sound_setNode (sound_setPhase h (by simp)) (by simp [hnode.1, setPhase]) hnode.2
  | request i =>
    obtain ⟨-, hs⟩ := Option.ite_none_right_eq_some.mp hstep
    obtain rfl := Option.some.inj hs
    exact sound_request h hok
  | expire threadId =>
    obtain ⟨i, -, rfl⟩ := Option.map_eq_some_iff.mp hstep
    exact sound_setPhase (sound_setNode h
      (fun _ _ => ManageNode.mem_pendingWaiters_dropWaiter) rfl) (by simp)
  | invoke c texts =>
    obtain rfl := Option.some.inj hstep
    exact sound_setChild h fun i hi hchild hserves =>
      hserves.invoke fun hidle => Or.inl (hok hidle i hi hchild)
  | inject c count =>
    obtain ⟨t, ht, rfl⟩ := Option.map_eq_some_iff.mp hstep
    exact sound_setChild h fun i _ _ hserves => hserves.inject ht
  | send c text =>
    obtain ⟨given, hrun, rfl⟩ := Option.map_eq_some_iff.mp hstep
    exact sound_send h text hrun hok
  | finish c count =>
    obtain ⟨t, ht, rfl⟩ := Option.map_eq_some_iff.mp hstep
    exact sound_setChild h fun i hi hchild _ =>
      ChildThread.serves_finish ht fun htake => hok htake i hi hchild
  | clear c =>
    obtain rfl := Option.some.inj hstep
    exact sound_setChild h fun i hi _ hserves => hserves.clear (hok i hi)

/-- In a run whose steps are all undisturbed, every call that returns a text got it from a run
of its worker that had been given its message. -/
theorem replies_match (h : Reached (ManageState.step calls) (Undisturbed calls) .initial s) :
    RepliesMatch calls s :=
  (h.invariant sound_initial fun _ _ _ hs hok hstep => sound_step hs hok hstep).returned

def requests (call : ℕ) : SendMessage :=
  ⟨⟨0, "child"⟩, "parent", "worker", if call = 0 then "first" else "second", 15000⟩

/-- The first call times out and its reply comes before the second call. -/
def requestsInTurn : List ManageStep :=
  [.register 0, .request 0, .expire "child", .send ⟨0, "child"⟩ "one", .finish ⟨0, "child"⟩ 0,
    .register 1, .request 1, .send ⟨0, "child"⟩ "two"]

theorem requestsInTurn_match :
    ∃ s, runFrom (ManageState.step requests) .initial requestsInTurn = some s ∧
      s.response requests 1 = some "Response from: worker\ntwo" ∧ RepliesMatch requests s := by
  have hmeet : StepsMeet (ManageState.step requests) (Undisturbed requests) .initial
    requestsInTurn := by decide
  exact ⟨_, rfl, rfl, replies_match (Reached.init.run hmeet rfl)⟩

/-- The second call comes while the run of the first one is still active, and gets its reply. -/
theorem late_reply_returned :
    ∃ s, runFrom (ManageState.step requests) .initial
      [.register 0, .request 0, .expire "child", .register 1, .request 1,
        .send ⟨0, "child"⟩ "one"] = some s ∧
      s.response requests 1 = some "Response from: worker\none" ∧ ¬ RepliesMatch requests s := by
  refine ⟨_, rfl, rfl, fun h => ?_⟩
  have hanswered := (h 1 _ rfl).2
  revert hanswered
  decide

end Replies

end Agyn.ManageReplies
