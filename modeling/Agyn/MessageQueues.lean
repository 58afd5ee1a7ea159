import Agyn.InsertionMap
import Agyn.LLMReducers
import Mathlib.Algebra.Order.Ring.Rat
import Mathlib.Logic.Function.Basic
import Mathlib.Tactic.Linarith

/-!
The messages buffer of an agent with the queues of all threads, tokens and the debounce window. A
queue is first in, first out but for messages that are dropped by their token, and the window only
holds a drain back. Times and delays are finite numbers; the ids of queued items and the snapshot
that shows them are left out.
-/
namespace Agyn.MessageQueues

structure QueuedItem where
  msg : BufferMessage
  tokenId : Option String
  ts : ℚ
  deriving DecidableEq

structure ThreadState where
  queue : List QueuedItem
  lastEnqueueAt : ℚ
  deriving DecidableEq

structure MessagesBuffer where
  debounceMs : ℚ
  threads : InsMap String ThreadState
  deriving DecidableEq

structure Descriptor where
  messages : List BufferMessage
  tokenParts : List (String × ℕ)
  deriving DecidableEq

def toQueuedItem (now : ℚ) (tokenId : Option String) (msg : BufferMessage) : QueuedItem :=
  ⟨msg, tokenId, now⟩

def tokenParts (consumed : List QueuedItem) : List (String × ℕ) :=
  (consumed.foldl (fun parts q =>
    match q.tokenId with
    | some tokenId =>
      if tokenId = "" then parts else parts.set tokenId ((parts.get tokenId).getD 0 + 1)
    | none => parts) InsMap.empty).entries

def trunc (ms : ℚ) : ℚ := if 0 ≤ ms then (ms.floor : ℚ) else (ms.ceil : ℚ)

def isDropped (tokenIds : List String) (q : QueuedItem) : Bool :=
  match q.tokenId with
  | some tokenId => decide (tokenId ≠ "") && tokenIds.contains tokenId
  | none => false

namespace MessagesBuffer

def new (debounceMs : Option ℚ) : MessagesBuffer := ⟨max 0 (debounceMs.getD 0), .empty⟩

def setDebounceMs (ms : ℚ) (b : MessagesBuffer) : MessagesBuffer :=
  { b with debounceMs := max 0 (trunc ms) }

def ensure (thread : String) (b : MessagesBuffer) : ThreadState :=
  (b.threads.get thread).getD ⟨[], 0⟩

/-- What `enqueue` and `enqueueWithToken` share. -/
def push (thread : String) (tokenId : Option String) (batch : List BufferMessage) (now : ℚ)
    (b : MessagesBuffer) : MessagesBuffer :=
  if batch = [] then b
  else
    { b with
      threads := b.threads.set thread
        ⟨(b.ensure thread).queue ++ batch.map (toQueuedItem now tokenId), now⟩ }

def enqueue (thread : String) (msgs : List BufferMessage) (now : ℚ) (b : MessagesBuffer) :
    MessagesBuffer := b.push thread none msgs now

def enqueueWithToken (thread tokenId : String) (msgs : List BufferMessage) (now : ℚ)
    (b : MessagesBuffer) : MessagesBuffer := b.push thread (some tokenId) msgs now

def debounced (now : ℚ) (s : ThreadState) (b : MessagesBuffer) : Bool :=
  decide (0 < b.debounceMs) && decide (now - s.lastEnqueueAt < b.debounceMs)

def setQueue (thread : String) (s : ThreadState) (queue : List QueuedItem) (b : MessagesBuffer) :
    MessagesBuffer := { b with threads := b.threads.set thread { s with queue } }

def tryDrain (thread : String) (mode : ProcessBuffer) (now : ℚ) (b : MessagesBuffer) :
    List BufferMessage × MessagesBuffer :=
  match b.threads.get thread with
  | none => ([], b)
  | some s =>
    match s.queue with
    | [] => ([], b)
    | item :: rest =>
      if b.debounced now s then ([], b)
      else
        match mode with
        | .allTogether => ((item :: rest).map QueuedItem.msg, b.setQueue thread s [])
        | .oneByOne => ([item.msg], b.setQueue thread s rest)

def tryDrainDescriptor (thread : String) (mode : ProcessBuffer) (now : ℚ) (b : MessagesBuffer) :
    Descriptor × MessagesBuffer :=
  match b.threads.get thread with
  | none => (⟨[], []⟩, b)
  | some s =>
    match s.queue with
    | [] => (⟨[], []⟩, b)
    | item :: rest =>
      if b.debounced now s then (⟨[], []⟩, b)
      else
        let taken := match mode with
          | .allTogether => (item :: rest, b.setQueue thread s [])
          | .oneByOne => ([item], b.setQueue thread s rest)
        (⟨taken.1.map QueuedItem.msg, tokenParts taken.1⟩, taken.2)

def nextReadyAt (thread : String) (now : ℚ) (b : MessagesBuffer) : Option ℚ :=
  match b.threads.get thread with
  | none => none
  | some s =>
    if s.queue = [] then none
    else if b.debounceMs = 0 then some now
    else some (s.lastEnqueueAt + b.debounceMs)

def clearThread (thread : String) (b : MessagesBuffer) : ℕ × MessagesBuffer :=
  match b.threads.get thread with
  | none => (0, b)
  | some s =>
    if s.queue.length = 0 then (0, b)
    else (s.queue.length, { b with threads := b.threads.set thread ⟨[], 0⟩ })

def destroy (b : MessagesBuffer) : MessagesBuffer := { b with threads := .empty }

def dropTokens (thread : String) (tokenIds : List String) (b : MessagesBuffer) : MessagesBuffer :=
  match b.threads.get thread with
  | none => b
  | some s =>
    if s.queue = [] then b
    else b.setQueue thread s (s.queue.filter fun q => !(isDropped tokenIds q))

def items (b : MessagesBuffer) (thread : String) : List QueuedItem :=
  (b.threads.get thread).elim [] ThreadState.queue

def waiting (b : MessagesBuffer) (thread : String) : List BufferMessage :=
  (b.items thread).map QueuedItem.msg

/-- The messages of a thread that `dropTokens` takes out. -/
def dropped (b : MessagesBuffer) (thread : String) (tokenIds : List String) : List BufferMessage :=
  ((b.items thread).filter (isDropped tokenIds)).map QueuedItem.msg

def undebounced (b : MessagesBuffer) : MessagesBuffer := { b with debounceMs := 0 }

end MessagesBuffer

inductive Op where
  | setDebounceMs (ms : ℚ)
  | enqueue (thread : String) (msgs : List BufferMessage) (now : ℚ)
  | enqueueWithToken (thread tokenId : String) (msgs : List BufferMessage) (now : ℚ)
  | tryDrain (thread : String) (mode : ProcessBuffer) (now : ℚ)
  | tryDrainDescriptor (thread : String) (mode : ProcessBuffer) (now : ℚ)
  | clearThread (thread : String)
  | dropTokens (thread : String) (tokenIds : List String)
  | destroy
  deriving DecidableEq

/-- The queues that an operation may change. -/
def Op.touches (thread : String) : Op → Bool
  | .setDebounceMs _ => false
  | .enqueue t _ _ => t = thread
  | .enqueueWithToken t _ _ _ => t = thread
  | .tryDrain t _ _ => t = thread
  | .tryDrainDescriptor t _ _ => t = thread
  | .clearThread t => t = thread
  | .dropTokens t _ => t = thread
  | .destroy => true

def Op.isWrite : Op → Bool
  | .setDebounceMs _ => false
  | .tryDrain _ _ _ => false
  | .tryDrainDescriptor _ _ _ => false
  | _ => true

/-- The messages that a thread was given, those drained or cleared, in the order in which they left,
and those dropped by their token. -/
structure Ledger where
  enqueued : List BufferMessage
  left : List BufferMessage
  dropped : List BufferMessage
  deriving DecidableEq

structure World where
  buffer : MessagesBuffer
  ledger : String → Ledger

namespace World

def start (debounceMs : Option ℚ) : World := ⟨.new debounceMs, fun _ => ⟨[], [], []⟩⟩

def enqueued (thread : String) (msgs : List BufferMessage) (w : World) : String → Ledger :=
  Function.update w.ledger thread
    { w.ledger thread with enqueued := (w.ledger thread).enqueued ++ msgs }

def leaves (thread : String) (msgs : List BufferMessage) (w : World) : String → Ledger :=
  Function.update w.ledger thread { w.ledger thread with left := (w.ledger thread).left ++ msgs }

def drops (thread : String) (msgs : List BufferMessage) (w : World) : String → Ledger :=
  Function.update w.ledger thread
    { w.ledger thread with dropped := (w.ledger thread).dropped ++ msgs }

def step (w : World) : Op → World
  | .setDebounceMs ms => { w with buffer := w.buffer.setDebounceMs ms }
  | .enqueue thread msgs now => ⟨w.buffer.enqueue thread msgs now, w.enqueued thread msgs⟩
  | .enqueueWithToken thread tokenId msgs now =>
    ⟨w.buffer.enqueueWithToken thread tokenId msgs now, w.enqueued thread msgs⟩
  | .tryDrain thread mode now =>
    let drained := w.buffer.tryDrain thread mode now
    ⟨drained.2, w.leaves thread drained.1⟩
  | .tryDrainDescriptor thread mode now =>
    let drained := w.buffer.tryDrainDescriptor thread mode now
    ⟨drained.2, w.leaves thread drained.1.messages⟩
  | .clearThread thread =>
    ⟨(w.buffer.clearThread thread).2, w.leaves thread (w.buffer.waiting thread)⟩
  | .dropTokens thread tokenIds =>
    ⟨w.buffer.dropTokens thread tokenIds, w.drops thread (w.buffer.dropped thread tokenIds)⟩
  | .destroy =>
    ⟨w.buffer.destroy, fun thread =>
      { w.ledger thread with left := (w.ledger thread).left ++ w.buffer.waiting thread }⟩

def run (w : World) (ops : List Op) : World := ops.foldl step w

def undebounced (w : World) : World := { w with buffer := w.buffer.undebounced }

end World

namespace MessagesBuffer

variable {b : MessagesBuffer} {thread : String} {s : ThreadState} {mode : ProcessBuffer} {now : ℚ}

theorem items_of_get (hget : b.threads.get thread = some s) : b.items thread = s.queue := by
  rw [items, hget]
  rfl

theorem waiting_of_get (hget : b.threads.get thread = some s) :
    b.waiting thread = s.queue.map QueuedItem.msg := by
  rw [waiting, items_of_get hget]

theorem waiting_setQueue (queue : List QueuedItem) (t : String) :
    (b.setQueue thread s queue).waiting t =
      if t = thread then queue.map QueuedItem.msg else b.waiting t := by
  unfold setQueue waiting items
  dsimp only
  rw [InsMap.get_set]
  split <;> rfl

theorem waiting_push (tokenId : Option String) (batch : List BufferMessage) (t : String) :
    (b.push thread tokenId batch now).waiting t =
      if t = thread then b.waiting t ++ batch else b.waiting t := by
  unfold push
  by_cases hnone : batch = []
  · rw [if_pos hnone, hnone, List.append_nil, ite_self]
  · rw [if_neg hnone]
    unfold waiting items
    dsimp only
    rw [InsMap.get_set]
    by_cases ht : t = thread
    · rw [if_pos ht, if_pos ht, ht, Option.elim_some, List.map_append, List.map_map, ensure]
      have hbatch : batch.map (QueuedItem.msg ∘ toQueuedItem now tokenId) = batch :=
        List.map_id batch
      rw [hbatch]
      cases b.threads.get thread <;> rfl
    · rw [if_neg ht, if_neg ht]

/-- A drain takes the messages that it returns off the front of one queue. -/
theorem waiting_tryDrain (t : String) :
    (if t = thread then (b.tryDrain thread mode now).1 else []) ++
      (b.tryDrain thread mode now).2.waiting t = b.waiting t := by
  unfold tryDrain
  cases hget : b.threads.get thread with
  | none => simp
  | some s =>
    cases hqueue : s.queue with
    | nil => simp [hqueue]
    | cons item rest =>
      by_cases hdebounced : b.debounced now s = true
      · simp [hqueue, hdebounced]
      · dsimp only
        rw [hqueue]
        dsimp only
        rw [if_neg hdebounced]
        cases mode with
        | allTogether =>
          dsimp only
          rw [waiting_setQueue]
          by_cases ht : t = thread
          · rw [if_pos ht, if_pos ht, ht, waiting_of_get hget, hqueue]
            exact List.append_nil _
          · rw [if_neg ht, if_neg ht]
            rfl
        | oneByOne =>
          dsimp only
          rw [waiting_setQueue]
          by_cases ht : t = thread
          · rw [if_pos ht, if_pos ht, ht, waiting_of_get hget, hqueue]
            rfl
          · rw [if_neg ht, if_neg ht]
            rfl

/-- The two ways to drain agree. -/
theorem tryDrainDescriptor_eq (b : MessagesBuffer) (thread : String) (mode : ProcessBuffer)
    (now : ℚ) :
    (b.tryDrainDescriptor thread mode now).1.messages = (b.tryDrain thread mode now).1 ∧
      (b.tryDrainDescriptor thread mode now).2 = (b.tryDrain thread mode now).2 := by
  unfold tryDrainDescriptor tryDrain
  cases hget : b.threads.get thread with
  | none => exact ⟨rfl, rfl⟩
  | some s =>
    dsimp only
    cases s.queue with
    | nil => exact ⟨rfl, rfl⟩
    | cons item rest =>
      dsimp only
      cases b.debounced now s with
      | true => exact ⟨rfl, rfl⟩
      | false => cases mode <;> exact ⟨rfl, rfl⟩

theorem waiting_clearThread (t : String) :
    (b.clearThread thread).2.waiting t = if t = thread then [] else b.waiting t := by
  unfold clearThread
  cases hget : b.threads.get thread with
  | none =>
    by_cases ht : t = thread
    · rw [if_pos ht, ht, waiting, items, hget]
      rfl
    · rw [if_neg ht]
  | some s =>
    dsimp only
    by_cases hlength : s.queue.length = 0
    · rw [if_pos hlength]
      by_cases ht : t = thread
      · rw [if_pos ht, ht, waiting_of_get hget, List.eq_nil_of_length_eq_zero hlength]
        rfl
      · rw [if_neg ht]
    · rw [if_neg hlength]
      dsimp only
      unfold waiting items
      dsimp only
      rw [InsMap.get_set]
      split <;> rfl

theorem items_dropTokens (tokenIds : List String) (t : String) :
    (b.dropTokens thread tokenIds).items t =
      if t = thread then (b.items t).filter fun q => !(isDropped tokenIds q) else b.items t := by
  unfold dropTokens
  cases hget : b.threads.get thread with
  | none =>
    by_cases ht : t = thread
    · rw [if_pos ht, ht, items, hget]
      rfl
    · rw [if_neg ht]
  | some s =>
    dsimp only
    by_cases hnone : s.queue = []
    · rw [if_pos hnone]
      by_cases ht : t = thread
      · rw [if_pos ht, ht, items_of_get hget, hnone]
        rfl
      · rw [if_neg ht]
    · rw [if_neg hnone]
      by_cases ht : t = thread
      · rw [if_pos ht, ht, items_of_get hget]
        unfold setQueue items
        dsimp only
        rw [InsMap.get_set_self]
        rfl
      · rw [if_neg ht]
        unfold setQueue items
        dsimp only
        rw [InsMap.get_set_ne _ _ ht]

def ChangesOnly (thread : String) (b b' : MessagesBuffer) : Prop :=
  ∀ t, t ≠ thread → b'.threads.get t = b.threads.get t

theorem ChangesOnly.refl (thread : String) (b : MessagesBuffer) : ChangesOnly thread b b :=
  fun _ _ => rfl

theorem ChangesOnly.set (thread : String) (b : MessagesBuffer) (s : ThreadState) :
    ChangesOnly thread b { b with threads := b.threads.set thread s } :=
  fun _ ht => b.threads.get_set_ne s ht

theorem changesOnly_push (tokenId : Option String) (batch : List BufferMessage) :
    ChangesOnly thread b (b.push thread tokenId batch now) := by
  unfold push
  split
  · exact .refl thread b
  · exact .set thread b _

theorem changesOnly_tryDrain : ChangesOnly thread b (b.tryDrain thread mode now).2 := by
  unfold tryDrain
  split
  · exact .refl thread b
  · split
    · exact .refl thread b
    · split
      · exact .refl thread b
      · split
        · exact .set thread b _
        · exact .set thread b _

theorem changesOnly_clearThread : ChangesOnly thread b (b.clearThread thread).2 := by
  unfold clearThread
  split
  · exact .refl thread b
  · split
    · exact .refl thread b
    · exact .set thread b _

theorem changesOnly_dropTokens (tokenIds : List String) :
    ChangesOnly thread b (b.dropTokens thread tokenIds) := by
  unfold dropTokens
  split
  · exact .refl thread b
  · split
    · exact .refl thread b
    · exact .set thread b _

/-- A drain is held back as a whole or takes what it takes without the window. -/
theorem tryDrain_undebounced (b : MessagesBuffer) (thread : String) (mode : ProcessBuffer)
    (now : ℚ) :
    b.tryDrain thread mode now = ([], b) ∨
      (b.tryDrain thread mode now).1 = (b.undebounced.tryDrain thread mode now).1 ∧
        (b.tryDrain thread mode now).2.undebounced =
          (b.undebounced.tryDrain thread mode now).2 := by
  unfold tryDrain undebounced
  dsimp only
  cases hget : b.threads.get thread with
  | none => exact Or.inl rfl
  | some s =>
    dsimp only
    cases hqueue : s.queue with
    | nil => exact Or.inl rfl
    | cons item rest =>
      dsimp only
      by_cases hdebounced : b.debounced now s = true
      · rw [if_pos hdebounced]
        exact Or.inl rfl
      · rw [if_neg hdebounced, if_neg (by simp [debounced])]
        cases mode <;> exact Or.inr ⟨rfl, rfl⟩

/-- From some time on no drain is held back. -/
theorem tryDrain_late (b : MessagesBuffer) (thread : String) :
    ∃ ready, ∀ mode now, ready ≤ now →
      (b.tryDrain thread mode now).1 = (b.undebounced.tryDrain thread mode now).1 := by
  cases hget : b.threads.get thread with
  | none =>
    refine ⟨0, fun mode now _ => ?_⟩
    unfold tryDrain undebounced
    dsimp only
    rw [hget]
  | some s =>
    refine ⟨s.lastEnqueueAt + b.debounceMs, fun mode now hready => ?_⟩
    have hdebounced : ¬ b.debounced now s = true := by
      unfold debounced
      rw [Bool.and_eq_true, not_and]
      intro _ hrecent
      have hlate : now - s.lastEnqueueAt < b.debounceMs := of_decide_eq_true hrecent
      linarith
    unfold tryDrain undebounced
    dsimp only
    rw [hget]
    dsimp only
    cases s.queue with
    | nil => rfl
    | cons item rest =>
      dsimp only
      rw [if_neg hdebounced, if_neg (by simp [debounced])]
      cases mode <;> rfl

end MessagesBuffer

/-- The messages enqueued are those that have left and then those that wait, but for the ones that
were dropped on the way. -/
def Accounted (l : Ledger) (waiting : List BufferMessage) : Prop :=
  (l.left ++ waiting).Sublist l.enqueued ∧ l.enqueued.Perm (l.left ++ waiting ++ l.dropped)

variable {l : Ledger} {waiting : List BufferMessage}

theorem Accounted.enqueue (h : Accounted l waiting) (msgs : List BufferMessage) :
    Accounted { l with enqueued := l.enqueued ++ msgs } (waiting ++ msgs) := by
  obtain ⟨horder, hall⟩ := h
  constructor
  · rw [← List.append_assoc]
    exact horder.append (List.Sublist.refl msgs)
  · refine (hall.append_right msgs).trans ?_
    rw [← List.append_assoc, List.append_assoc, List.append_assoc (l.left ++ waiting)]
    exact List.perm_append_comm.append_left (l.left ++ waiting)

theorem Accounted.leave (h : Accounted l waiting) {out rest : List BufferMessage}
    (heq : out ++ rest = waiting) : Accounted { l with left := l.left ++ out } rest := by
  unfold Accounted
  dsimp only
  rw [List.append_assoc, heq]
  exact h

theorem Accounted.drop {items : List QueuedItem} (h : Accounted l (items.map QueuedItem.msg))
    (p : QueuedItem → Bool) :
    Accounted { l with dropped := l.dropped ++ (items.filter p).map QueuedItem.msg }
      ((items.filter fun q => !(p q)).map QueuedItem.msg) := by
  obtain ⟨horder, hall⟩ := h
  have hparts : (items.map QueuedItem.msg).Perm
      ((items.filter fun q => !(p q)).map QueuedItem.msg ++
        (items.filter p).map QueuedItem.msg) := by
    rw [← List.map_append]
    exact (List.perm_append_comm.trans (List.filter_append_perm p items)).symm.map _
  constructor
  · refine List.Sublist.trans ?_ horder
    exact ((List.filter_sublist).map QueuedItem.msg).append_left l.left
  · refine hall.trans ?_
    dsimp only
    rw [List.append_assoc, List.append_assoc]
    refine List.Perm.append_left l.left ((hparts.append_right l.dropped).trans ?_)
    rw [List.append_assoc]
    exact List.perm_append_comm.append_left _

/-- With nothing dropped a queue is first in, first out. -/
theorem Accounted.fifo (h : Accounted l waiting) (hnone : l.dropped = []) :
    l.enqueued = l.left ++ waiting := by
  obtain ⟨horder, hall⟩ := h
  rw [hnone, List.append_nil] at hall
  exact (horder.eq_of_length hall.length_eq.symm).symm

namespace World

variable {w : World}

theorem accounted_update {f : String → Ledger} {g : String → List BufferMessage} {l : Ledger}
    {waiting : List BufferMessage} (h : ∀ t, Accounted (f t) (g t)) (thread : String)
    (hthread : Accounted l waiting) (t : String) :
    Accounted (Function.update f thread l t) (if t = thread then waiting else g t) := by
  by_cases ht : t = thread
  · rw [if_pos ht, ht, Function.update_self]
    exact hthread
  · rw [if_neg ht, Function.update_of_ne ht]
    exact h t

theorem accounted_push (h : ∀ t, Accounted (w.ledger t) (w.buffer.waiting t)) (thread : String)
    (tokenId : Option String) (msgs : List BufferMessage) (now : ℚ) (t : String) :
    Accounted (w.enqueued thread msgs t)
      ((w.buffer.push thread tokenId msgs now).waiting t) := by
  have hpushed := accounted_update h thread ((h thread).enqueue msgs) t
  rw [MessagesBuffer.waiting_push]
  by_cases ht : t = thread
  · rw [if_pos ht, ht] at hpushed ⊢
    exact hpushed
  · rw [if_neg ht] at hpushed ⊢
    exact hpushed

theorem accounted_tryDrain (h : ∀ t, Accounted (w.ledger t) (w.buffer.waiting t)) (thread : String)
    (mode : ProcessBuffer) (now : ℚ) (t : String) :
    Accounted (w.leaves thread (w.buffer.tryDrain thread mode now).1 t)
      ((w.buffer.tryDrain thread mode now).2.waiting t) := by
  have htaken : (if t = thread then (w.buffer.tryDrain thread mode now).1 else []) ++
      (w.buffer.tryDrain thread mode now).2.waiting t = w.buffer.waiting t :=
    MessagesBuffer.waiting_tryDrain t
  unfold leaves
  by_cases ht : t = thread
  · rw [if_pos ht] at htaken
    rw [ht] at htaken ⊢
    rw [Function.update_self]
    exact (h thread).leave htaken
  · rw [if_neg ht] at htaken
    rw [Function.update_of_ne ht, ← List.nil_append (MessagesBuffer.waiting _ t), htaken]
    exact h t

theorem accounted_step (h : ∀ t, Accounted (w.ledger t) (w.buffer.waiting t)) (op : Op)
    (t : String) : Accounted ((w.step op).ledger t) ((w.step op).buffer.waiting t) := by
  cases op with
  | setDebounceMs ms => exact h t
  | enqueue thread msgs now => exact accounted_push h thread none msgs now t
  | enqueueWithToken thread tokenId msgs now =>
    exact accounted_push h thread (some tokenId) msgs now t
  | tryDrain thread mode now => exact accounted_tryDrain h thread mode now t
  | tryDrainDescriptor thread mode now =>
    obtain ⟨hmessages, hnext⟩ := MessagesBuffer.tryDrainDescriptor_eq w.buffer thread mode now
    dsimp only [step]
    rw [hmessages, hnext]
    exact accounted_tryDrain h thread mode now t
  | clearThread thread =>
    dsimp only [step]
    rw [MessagesBuffer.waiting_clearThread]
    exact accounted_update h thread ((h thread).leave (List.append_nil _)) t
  | dropTokens thread tokenIds =>
    have hdropped := accounted_update h thread ((h thread).drop (isDropped tokenIds)) t
    dsimp only [step]
    rw [MessagesBuffer.waiting, MessagesBuffer.items_dropTokens]
    by_cases ht : t = thread
    · rw [if_pos ht] at hdropped ⊢
      rw [ht] at hdropped ⊢
      exact hdropped
    · rw [if_neg ht] at hdropped ⊢
      exact hdropped
  | destroy => exact (h t).leave (List.append_nil _)

theorem accounted_run (ops : List Op) (h : ∀ t, Accounted (w.ledger t) (w.buffer.waiting t))
    (t : String) : Accounted ((w.run ops).ledger t) ((w.run ops).buffer.waiting t) := by
  induction ops generalizing w with
  | nil => exact h t
  | cons op ops ih => exact ih (accounted_step h op)

theorem accounted_start (debounceMs : Option ℚ) (t : String) :
    Accounted ((start debounceMs).ledger t) ((start debounceMs).buffer.waiting t) :=
  ⟨List.Sublist.refl [], List.Perm.refl []⟩

/-- An operation leaves alone the queues that it does not name. -/
theorem step_untouched {op : Op} {thread : String} (h : op.touches thread = false) :
    (w.step op).buffer.threads.get thread = w.buffer.threads.get thread := by
  cases op with
  | setDebounceMs ms => rfl
  | enqueue t msgs now =>
    exact MessagesBuffer.changesOnly_push none msgs thread (Ne.symm (of_decide_eq_false h))
  | enqueueWithToken t tokenId msgs now =>
    exact MessagesBuffer.changesOnly_push (some tokenId) msgs thread
      (Ne.symm (of_decide_eq_false h))
  | tryDrain t mode now =>
    exact MessagesBuffer.changesOnly_tryDrain thread (Ne.symm (of_decide_eq_false h))
  | tryDrainDescriptor t mode now =>
    dsimp only [step]
    rw [(MessagesBuffer.tryDrainDescriptor_eq w.buffer t mode now).2]
    exact MessagesBuffer.changesOnly_tryDrain thread (Ne.symm (of_decide_eq_false h))
  | clearThread t =>
    exact MessagesBuffer.changesOnly_clearThread thread (Ne.symm (of_decide_eq_false h))
  | dropTokens t tokenIds =>
    exact MessagesBuffer.changesOnly_dropTokens tokenIds thread (Ne.symm (of_decide_eq_false h))
  | destroy => cases h

theorem leaves_nil (w : World) (thread : String) : w.leaves thread [] = w.ledger := by
  unfold leaves
  rw [List.append_nil]
  exact Function.update_eq_self thread w.ledger

theorem undebounced_push (b : MessagesBuffer) (thread : String) (tokenId : Option String)
    (msgs : List BufferMessage) (now : ℚ) :
    (b.push thread tokenId msgs now).undebounced = b.undebounced.push thread tokenId msgs now := by
  unfold MessagesBuffer.push
  split <;> rfl

theorem undebounced_clearThread (b : MessagesBuffer) (thread : String) :
    (b.clearThread thread).2.undebounced = (b.undebounced.clearThread thread).2 := by
  unfold MessagesBuffer.clearThread MessagesBuffer.undebounced
  dsimp only
  cases b.threads.get thread with
  | none => rfl
  | some s =>
    dsimp only
    split <;> rfl

theorem undebounced_dropTokens (b : MessagesBuffer) (thread : String) (tokenIds : List String) :
    (b.dropTokens thread tokenIds).undebounced = b.undebounced.dropTokens thread tokenIds := by
  unfold MessagesBuffer.dropTokens MessagesBuffer.undebounced
  dsimp only
  cases b.threads.get thread with
  | none => rfl
  | some s =>
    dsimp only
    split <;> rfl

theorem undebounced_tryDrain (w : World) (thread : String) (mode : ProcessBuffer) (now : ℚ) :
    (w.step (.tryDrain thread mode now)).undebounced = w.undebounced ∨
      (w.step (.tryDrain thread mode now)).undebounced =
        w.undebounced.step (.tryDrain thread mode now) := by
  dsimp only [step, undebounced]
  rcases MessagesBuffer.tryDrain_undebounced w.buffer thread mode now with hheld | ⟨hout, hnext⟩
  · left
    rw [hheld]
    dsimp only
    rw [leaves_nil]
  · right
    rw [hnext, hout]
    rfl

/-- Without the window an operation does the same, but for a drain that is held back. -/
theorem undebounced_step (w : World) (op : Op) :
    (op.isWrite = false ∧ (w.step op).undebounced = w.undebounced) ∨
      ((∀ ms, op ≠ .setDebounceMs ms) ∧ (w.step op).undebounced = w.undebounced.step op) := by
  cases op with
  | setDebounceMs ms => exact Or.inl ⟨rfl, rfl⟩
  | enqueue thread msgs now =>
    refine Or.inr ⟨nofun, ?_⟩
    exact congrArg (World.mk · _) (undebounced_push w.buffer thread none msgs now)
  | enqueueWithToken thread tokenId msgs now =>
    refine Or.inr ⟨nofun, ?_⟩
    exact congrArg (World.mk · _) (undebounced_push w.buffer thread (some tokenId) msgs now)
  | tryDrain thread mode now =>
    rcases undebounced_tryDrain w thread mode now with hheld | hsame
    · exact Or.inl ⟨rfl, hheld⟩
    · exact Or.inr ⟨nofun, hsame⟩
  | tryDrainDescriptor thread mode now =>
    have hstep : ∀ v : World, v.step (.tryDrainDescriptor thread mode now) =
        v.step (.tryDrain thread mode now) := by
      intro v
      obtain ⟨hmessages, hnext⟩ := MessagesBuffer.tryDrainDescriptor_eq v.buffer thread mode now
      dsimp only [step]
      rw [hmessages, hnext]
    rw [hstep, hstep]
    rcases undebounced_tryDrain w thread mode now with hheld | hsame
    · exact Or.inl ⟨rfl, hheld⟩
    · exact Or.inr ⟨nofun, hsame⟩
  | clearThread thread =>
    refine Or.inr ⟨nofun, ?_⟩
    exact congrArg (World.mk · _) (undebounced_clearThread w.buffer thread)
  | dropTokens thread tokenIds =>
    refine Or.inr ⟨nofun, ?_⟩
    exact congrArg (World.mk · _) (undebounced_dropTokens w.buffer thread tokenIds)
  | destroy => exact Or.inr ⟨nofun, rfl⟩

/-- What a run delivers it delivers without the window, too, when the drains that were held back are
left out. -/
theorem undebounced_run (w : World) (ops : List Op) :
    ∃ ops', ops'.Sublist ops ∧ ops'.filter Op.isWrite = ops.filter Op.isWrite ∧
      (∀ ms, .setDebounceMs ms ∉ ops') ∧ w.undebounced.run ops' = (w.run ops).undebounced := by
  induction ops generalizing w with
  | nil => exact ⟨[], List.Sublist.refl [], rfl, fun _ => List.not_mem_nil, rfl⟩
  | cons op ops ih =>
    obtain ⟨ops', hsub, hwrites, hwindow, hrun⟩ := ih (w.step op)
    rcases undebounced_step w op with ⟨hread, hsame⟩ | ⟨hne, hstep⟩
    · refine ⟨ops', hsub.cons op, ?_, hwindow, ?_⟩
      · rw [List.filter_cons_of_neg (by simp [hread]), hwrites]
      · rw [← hsame]
        exact hrun
    · refine ⟨op :: ops', hsub.cons_cons op, ?_, fun ms hmem => ?_, ?_⟩
      · rw [List.filter_cons, List.filter_cons, hwrites]
      · rcases List.mem_cons.mp hmem with heq | hrest
        · exact hne ms heq.symm
        · exact hwindow ms hrest
      · change (w.undebounced.step op).run ops' = _
        rw [← hstep]
        exact hrun

end World

/-- In every run each thread's messages are accounted for, first in, first out where none is dropped
by its token; an operation on one thread leaves the others alone; the window only holds drains back,
each of them until some time; and the two ways to drain agree. -/
theorem buffer_refines_queues (debounceMs : Option ℚ) (ops : List Op) :
    (∀ thread, Accounted (((World.start debounceMs).run ops).ledger thread)
        (((World.start debounceMs).run ops).buffer.waiting thread) ∧
      ((((World.start debounceMs).run ops).ledger thread).dropped = [] →
        (((World.start debounceMs).run ops).ledger thread).enqueued =
          (((World.start debounceMs).run ops).ledger thread).left ++
            ((World.start debounceMs).run ops).buffer.waiting thread)) ∧
    (∀ (w : World) (op : Op) thread, op.touches thread = false →
      (w.step op).buffer.threads.get thread = w.buffer.threads.get thread) ∧
    (∃ ops', ops'.Sublist ops ∧ ops'.filter Op.isWrite = ops.filter Op.isWrite ∧
      (∀ ms, .setDebounceMs ms ∉ ops') ∧
      (World.start none).run ops' = ((World.start debounceMs).run ops).undebounced) ∧
    (∀ (b : MessagesBuffer) thread, ∃ ready, ∀ mode now, ready ≤ now →
      (b.tryDrain thread mode now).1 = (b.undebounced.tryDrain thread mode now).1) ∧
    ∀ (b : MessagesBuffer) thread mode now,
      (b.tryDrainDescriptor thread mode now).1.messages = (b.tryDrain thread mode now).1 ∧
        (b.tryDrainDescriptor thread mode now).2 = (b.tryDrain thread mode now).2 := by
  refine ⟨fun thread => ?_, fun w op thread h => World.step_untouched h, ?_,
    MessagesBuffer.tryDrain_late, MessagesBuffer.tryDrainDescriptor_eq⟩
  · have haccounted := World.accounted_run ops (World.accounted_start debounceMs) thread
    exact ⟨haccounted, haccounted.fifo⟩
  · exact World.undebounced_run (.start debounceMs) ops

/-- Two messages, of which the second is dropped by its token while the first one waits. -/
def secondDropped : World :=
  (World.start none).run [.enqueueWithToken "thread" "first" [.human "a"] 0,
    .enqueueWithToken "thread" "second" [.human "b"] 1, .dropTokens "thread" ["second"]]

/-- The message dropped stands after the one that still waits. -/
theorem second_dropped_first :
    ¬ ∃ gone : List BufferMessage, gone.Perm ((secondDropped.ledger "thread").left ++
        (secondDropped.ledger "thread").dropped) ∧
      (secondDropped.ledger "thread").enqueued =
        gone ++ secondDropped.buffer.waiting "thread" := by
  rintro ⟨gone, hgone, heq⟩
  have hdropped : (secondDropped.ledger "thread").left ++
      (secondDropped.ledger "thread").dropped = [.human "b"] := by
    decide +kernel
  rw [hdropped] at hgone
  rw [List.perm_singleton.mp hgone] at heq
  revert heq
  decide +kernel

end Agyn.MessageQueues
