import Agyn.GuardedRuns
import Mathlib.Data.Int.Notation
import Mathlib.Data.Nat.Notation
import Mathlib.Logic.Function.Basic

/-!
The rooms of the graph socket. Hooks subscribe to rooms and unsubscribe from them on their own, and
the socket remembers the rooms in one set, from which it subscribes anew after each connect. The
order of two cursors depends on how dates are parsed and on the locale.
-/
namespace Agyn.SocketRooms

structure RunTimelineEventsCursor where
  ts : String
  id : String
  deriving DecidableEq

variable (parse : String → Option ℤ) (localeCompare : String → String → ℤ)

def compareCursors (a b : RunTimelineEventsCursor) : ℤ :=
  let timeA := (parse a.ts).getD 0
  let timeB := (parse b.ts).getD 0
  if timeA ≠ timeB then timeA - timeB
  else
    let lexical := localeCompare a.ts b.ts
    if lexical ≠ 0 then lexical else localeCompare a.id b.id

structure GraphSocket where
  /-- The socket has been created. -/
  socket : Bool
  subscribedRooms : List String
  runCursors : String → Option RunTimelineEventsCursor
  /-- The subscriptions emitted since the last connect or reconnect. -/
  emitted : List (List String)

/-- The rooms subscribed after a call, and those of them that are new. -/
def joinRooms : List String → List String → List String × List String
  | subscribedRooms, [] => (subscribedRooms, [])
  | subscribedRooms, room :: rooms =>
    if room = "" ∨ room ∈ subscribedRooms then joinRooms subscribedRooms rooms
    else
      let joined := joinRooms (subscribedRooms ++ [room]) rooms
      (joined.1, room :: joined.2)

/-- The run of a room `run:${runId}`. -/
def runOf (room : String) : Option String :=
  if "run:".toList.isPrefixOf room.toList then some (String.ofList (room.toList.drop 4)) else none

namespace GraphSocket

def bumpRunCursor (runId : String) (candidate : Option RunTimelineEventsCursor) (force : Bool)
    (s : GraphSocket) : GraphSocket :=
  if runId = "" then s
  else
    match candidate with
    | none => { s with runCursors := Function.update s.runCursors runId none }
    | some cursor =>
      match s.runCursors runId with
      | none => { s with runCursors := Function.update s.runCursors runId (some cursor) }
      | some current =>
        if force || decide (0 < compareCursors parse localeCompare cursor current) then
          { s with runCursors := Function.update s.runCursors runId (some cursor) }
        else s

def emitSubscriptions (rooms : List String) (s : GraphSocket) : GraphSocket :=
  if rooms = [] then s
  else if !s.socket then s else { s with emitted := s.emitted ++ [rooms] }

def resubscribeAll (s : GraphSocket) : GraphSocket :=
  if !s.socket || decide (s.subscribedRooms = []) then s
  else s.emitSubscriptions s.subscribedRooms

def connect (s : GraphSocket) : GraphSocket := { s with socket := true }

def subscribe (rooms : List String) (s : GraphSocket) : GraphSocket :=
  let s := s.connect
  let joined := joinRooms s.subscribedRooms rooms
  { s with subscribedRooms := joined.1 }.emitSubscriptions joined.2

def leave (s : GraphSocket) (room : String) : GraphSocket :=
  let s := { s with subscribedRooms := s.subscribedRooms.filter (· ≠ room) }
  match runOf room with
  | some runId => { s with runCursors := Function.update s.runCursors runId none }
  | none => s

def unsubscribe (rooms : List String) (s : GraphSocket) : GraphSocket := rooms.foldl leave s

/-- The handlers of `connect` and `reconnect` up to the callbacks. -/
def handleConnect (s : GraphSocket) : GraphSocket := { s with emitted := [] }.resubscribeAll

end GraphSocket

structure World (ι : Type) where
  socket : GraphSocket
  /-- The rooms that each subscriber holds. -/
  holds : List (ι × String)

def World.start (ι : Type) : World ι := ⟨⟨false, [], fun _ => none, []⟩, []⟩

inductive Action (ι : Type) where
  | connect
  | subscribe (i : ι) (rooms : List String)
  | unsubscribe (i : ι) (rooms : List String)
  | connected
  | reconnected
  | runEvent (runId : String) (cursor : RunTimelineEventsCursor) (updated : Bool)
  | setRunCursor (runId : String) (cursor : Option RunTimelineEventsCursor) (force : Bool)

variable {ι : Type}

/-- A subscriber has subscribed to what it unsubscribes from. -/
def Owned (s : World ι) (i : ι) (rooms : List String) : Prop :=
  ∀ room ∈ rooms, room = "" ∨ (i, room) ∈ s.holds

instance [DecidableEq ι] (s : World ι) (i : ι) (rooms : List String) :
    Decidable (Owned s i rooms) :=
  inferInstanceAs (Decidable (∀ room ∈ rooms, room = "" ∨ (i, room) ∈ s.holds))

def step [DecidableEq ι] (s : World ι) : Action ι → Option (World ι)
  | .connect => some { s with socket := s.socket.connect }
  | .subscribe i rooms =>
    some ⟨s.socket.subscribe rooms, s.holds ++ (rooms.filter (· ≠ "")).map fun room => (i, room)⟩
  | .unsubscribe i rooms =>
    if Owned s i rooms then
      some ⟨s.socket.unsubscribe rooms, s.holds.filter fun h => ¬ (h.1 = i ∧ h.2 ∈ rooms)⟩
    else none
  | .connected => if s.socket.socket then some { s with socket := s.socket.handleConnect } else none
  | .reconnected =>
    if s.socket.socket then some { s with socket := s.socket.handleConnect } else none
  | .runEvent runId cursor updated =>
    some { s with socket := s.socket.bumpRunCursor parse localeCompare runId (some cursor) updated }
  | .setRunCursor runId cursor force =>
    some { s with socket := s.socket.bumpRunCursor parse localeCompare runId cursor force }

def Covered (s : World ι) : Prop := ∀ h ∈ s.holds, ∃ rooms ∈ s.socket.emitted, h.2 ∈ rooms

/-- The rooms held are covered, also after a connect or reconnect that would come next, and a run
cursor that is gone was reset on request or belongs to a run room that nobody holds. -/
def Served [DecidableEq ι] (s : World ι) (a : Action ι) (t : World ι) : Prop :=
  Covered t ∧
    (∀ t', step parse localeCompare t .connected = some t' ∨
      step parse localeCompare t .reconnected = some t' → Covered t') ∧
    ∀ runId, (s.socket.runCursors runId).isSome → t.socket.runCursors runId = none →
      (∃ force, a = .setRunCursor runId none force) ∨ ∀ h ∈ t.holds, h.2 ≠ "run:" ++ runId

/-- No one else holds a room that a subscriber gives up. -/
def KeepsOthers (s : World ι) : Action ι → Prop
  | .unsubscribe i rooms => Owned s i rooms → ∀ h ∈ s.holds, h.2 ∈ rooms → h.1 = i
  | _ => True

theorem joinRooms_fst (subscribedRooms rooms : List String) :
    (joinRooms subscribedRooms rooms).1 =
      subscribedRooms ++ (joinRooms subscribedRooms rooms).2 := by
  induction rooms generalizing subscribedRooms with
  | nil => exact (List.append_nil _).symm
  | cons room rooms ih =>
    rw [joinRooms]
    split
    · exact ih subscribedRooms
    · dsimp only
      rw [ih, List.append_assoc]
      rfl

theorem mem_joinRooms {subscribedRooms rooms : List String} {room : String} (hroom : room ∈ rooms)
    (hne : room ≠ "") : room ∈ (joinRooms subscribedRooms rooms).1 := by
  induction rooms generalizing subscribedRooms with
  | nil => cases hroom
  | cons first rooms ih =>
    rw [joinRooms]
    rcases List.mem_cons.mp hroom with rfl | hrest
    · split
      · rename_i hknown
        rw [joinRooms_fst]
        exact List.mem_append_left _ (hknown.resolve_left hne)
      · dsimp only
        rw [joinRooms_fst]
        exact List.mem_append_left _ (List.mem_append_right _ (List.mem_singleton.mpr rfl))
    · split
      · exact ih hrest
      · exact ih hrest

theorem runOf_eq_some {room runId : String} (h : runOf room = some runId) :
    room = "run:" ++ runId := by
  unfold runOf at h
  split at h
  · rename_i hprefix
    obtain ⟨rest, hrest⟩ := List.isPrefixOf_iff_prefix.mp hprefix
    obtain rfl := Option.some.inj h
    have hdrop : room.toList.drop 4 = rest := by
      rw [← hrest]
      rfl
    rw [hdrop, ← String.toList_inj, String.toList_append, String.toList_ofList (l := rest), hrest]
  · cases h

namespace GraphSocket

variable {s : GraphSocket} {room : String}

@[simp] theorem socket_leave : (s.leave room).socket = s.socket := by
  unfold leave
  dsimp only
  split <;> rfl

@[simp] theorem emitted_leave : (s.leave room).emitted = s.emitted := by
  unfold leave
  dsimp only
  split <;> rfl

@[simp] theorem subscribedRooms_leave :
    (s.leave room).subscribedRooms = s.subscribedRooms.filter (· ≠ room) := by
  unfold leave
  dsimp only
  split <;> rfl

/-- A cursor that goes with a room is the cursor of its run. -/
theorem runCursors_leave {runId : String} (hne : room ≠ "run:" ++ runId) :
    (s.leave room).runCursors runId = s.runCursors runId := by
  unfold leave
  dsimp only
  split
  · rename_i other hother
    refine Function.update_of_ne (fun heq => hne ?_) _ _
    rw [heq]
    exact runOf_eq_some hother
  · rfl

variable {rooms : List String}

@[simp] theorem socket_unsubscribe : (s.unsubscribe rooms).socket = s.socket := by
  induction rooms generalizing s with
  | nil => rfl
  | cons room rooms ih => exact ih.trans socket_leave

@[simp] theorem emitted_unsubscribe : (s.unsubscribe rooms).emitted = s.emitted := by
  induction rooms generalizing s with
  | nil => rfl
  | cons room rooms ih => exact ih.trans emitted_leave

theorem mem_unsubscribe {room : String} :
    room ∈ (s.unsubscribe rooms).subscribedRooms ↔ room ∈ s.subscribedRooms ∧ room ∉ rooms := by
  induction rooms generalizing s with
  | nil => exact (and_iff_left (List.not_mem_nil)).symm
  | cons first rooms ih =>
    refine (ih (s := s.leave first)).trans ?_
    rw [subscribedRooms_leave, List.mem_filter, List.mem_cons, not_or, decide_eq_true_iff,
      and_assoc]

theorem runCursors_unsubscribe {runId : String} (hnot : "run:" ++ runId ∉ rooms) :
    (s.unsubscribe rooms).runCursors runId = s.runCursors runId := by
  induction rooms generalizing s with
  | nil => rfl
  | cons first rooms ih =>
    obtain ⟨hne, hrest⟩ := List.ne_and_not_mem_of_not_mem_cons hnot
    exact (ih hrest).trans (runCursors_leave (Ne.symm hne))

/-- A connect changes nothing but what the connection has emitted. -/
theorem handleConnect_eq (hsocket : s.socket = true) :
    s.handleConnect = { s with
      emitted := if s.subscribedRooms = [] then [] else [s.subscribedRooms] } := by
  unfold handleConnect resubscribeAll emitSubscriptions
  by_cases hnone : s.subscribedRooms = []
  · simp [hsocket, hnone]
  · simp [hsocket, hnone]

/-- The socket is created before anything is emitted. -/
theorem subscribe_eq (s : GraphSocket) (rooms : List String) :
    s.subscribe rooms = { s with
      socket := true
      subscribedRooms := (joinRooms s.subscribedRooms rooms).1
      emitted := s.emitted ++
        if (joinRooms s.subscribedRooms rooms).2 = [] then []
        else [(joinRooms s.subscribedRooms rooms).2] } := by
  unfold subscribe connect emitSubscriptions
  dsimp only
  by_cases hnone : (joinRooms s.subscribedRooms rooms).2 = []
  · simp [hnone]
  · simp [hnone]

variable {parse : String → Option ℤ} {localeCompare : String → String → ℤ}

theorem bumpRunCursor_eq (runId : String) (candidate : Option RunTimelineEventsCursor)
    (force : Bool) (s : GraphSocket) :
    s.bumpRunCursor parse localeCompare runId candidate force =
      { s with
        runCursors := (s.bumpRunCursor parse localeCompare runId candidate force).runCursors } := by
  unfold bumpRunCursor
  split
  · rfl
  · split
    · rfl
    · split
      · rfl
      · split <;> rfl

/-- Only a missing candidate takes a cursor away. -/
theorem bumpRunCursor_drops {runId run : String} {candidate : Option RunTimelineEventsCursor}
    {force : Bool} (hsome : (s.runCursors run).isSome)
    (hnone : (s.bumpRunCursor parse localeCompare runId candidate force).runCursors run = none) :
    candidate = none ∧ run = runId := by
  have hset : ∀ cursor, Function.update s.runCursors runId (some cursor) run ≠ none := by
    intro cursor hupdate
    by_cases hrun : run = runId
    · rw [hrun, Function.update_self] at hupdate
      cases hupdate
    · rw [Function.update_of_ne hrun] at hupdate
      rw [hupdate] at hsome
      cases hsome
  unfold bumpRunCursor at hnone
  split at hnone
  · rw [hnone] at hsome
    cases hsome
  · split at hnone
    · refine ⟨rfl, ?_⟩
      by_contra hrun
      have hkept : s.runCursors run = none := (Function.update_of_ne hrun _ _).symm.trans hnone
      rw [hkept] at hsome
      cases hsome
    · split at hnone
      · exact absurd hnone (hset _)
      · split at hnone
        · exact absurd hnone (hset _)
        · rw [hnone] at hsome
          cases hsome

end GraphSocket

structure Consistent (s : World ι) : Prop where
  socket : s.holds ≠ [] → s.socket.socket = true
  held : ∀ h ∈ s.holds, h.2 ∈ s.socket.subscribedRooms
  emitted : ∀ room ∈ s.socket.subscribedRooms, ∃ rooms ∈ s.socket.emitted, room ∈ rooms

variable {s t : World ι} {a : Action ι}

theorem consistent_start : Consistent (World.start ι) := ⟨nofun, nofun, nofun⟩

theorem Consistent.covered (h : Consistent s) : Covered s := fun p hp =>
  h.emitted p.2 (h.held p hp)

/-- A connect emits all that is subscribed. -/
theorem Consistent.handleConnect (h : Consistent s) (hsocket : s.socket.socket = true) :
    Consistent { s with socket := s.socket.handleConnect } where
  socket _ := by
    rw [GraphSocket.handleConnect_eq hsocket]
    exact hsocket
  held p hp := by
    rw [GraphSocket.handleConnect_eq hsocket]
    exact h.held p hp
  emitted room hroom := by
    rw [GraphSocket.handleConnect_eq hsocket] at hroom ⊢
    dsimp only at hroom ⊢
    rw [if_neg (List.ne_nil_of_mem hroom)]
    exact ⟨_, List.mem_singleton.mpr rfl, hroom⟩

theorem Consistent.subscribe (h : Consistent s) (i : ι) (rooms : List String) :
    Consistent ⟨s.socket.subscribe rooms,
      s.holds ++ (rooms.filter (· ≠ "")).map fun room => (i, room)⟩ where
  socket _ := by rw [GraphSocket.subscribe_eq]
  held p hp := by
    rw [GraphSocket.subscribe_eq]
    rcases List.mem_append.mp hp with hold | hnew
    · dsimp only
      rw [joinRooms_fst]
      exact List.mem_append_left _ (h.held p hold)
    · obtain ⟨room, hroom, rfl⟩ := List.mem_map.mp hnew
      obtain ⟨hmem, hne⟩ := List.mem_filter.mp hroom
      exact mem_joinRooms hmem (of_decide_eq_true hne)
  emitted room hroom := by
    rw [GraphSocket.subscribe_eq] at hroom ⊢
    dsimp only at hroom ⊢
    rw [joinRooms_fst] at hroom
    rcases List.mem_append.mp hroom with hold | hnew
    · obtain ⟨emitted, hmem, hin⟩ := h.emitted room hold
      exact ⟨emitted, List.mem_append_left _ hmem, hin⟩
    · rw [if_neg (List.ne_nil_of_mem hnew)]
      exact ⟨_, List.mem_append_right _ (List.mem_singleton.mpr rfl), hnew⟩

variable {parse : String → Option ℤ} {localeCompare : String → String → ℤ}

theorem Consistent.bumpRunCursor (h : Consistent s) (runId : String)
    (candidate : Option RunTimelineEventsCursor) (force : Bool) :
    Consistent { s with
      socket := s.socket.bumpRunCursor parse localeCompare runId candidate force } := by
  rw [GraphSocket.bumpRunCursor_eq]
  exact ⟨h.socket, h.held, h.emitted⟩

variable [DecidableEq ι]

theorem Consistent.unsubscribe (h : Consistent s) {i : ι} {rooms : List String}
    (hkeeps : ∀ p ∈ s.holds, p.2 ∈ rooms → p.1 = i) :
    Consistent ⟨s.socket.unsubscribe rooms,
      s.holds.filter fun p => ¬ (p.1 = i ∧ p.2 ∈ rooms)⟩ where
  socket hsome := by
    rw [GraphSocket.socket_unsubscribe]
    refine h.socket fun hnone => hsome ?_
    dsimp only
    rw [hnone, List.filter_nil]
  held p hp := by
    obtain ⟨hmem, hleft⟩ := List.mem_filter.mp hp
    have hout : p.2 ∉ rooms := fun hin => of_decide_eq_true hleft ⟨hkeeps p hmem hin, hin⟩
    exact GraphSocket.mem_unsubscribe.mpr ⟨h.held p hmem, hout⟩
  emitted room hroom := by
    rw [GraphSocket.emitted_unsubscribe]
    exact h.emitted room (GraphSocket.mem_unsubscribe.mp hroom).1

theorem Consistent.step (h : Consistent s) (hkeeps : KeepsOthers s a)
    (hstep : step parse localeCompare s a = some t) : Consistent t := by
  cases a with
  | connect =>
    obtain rfl := Option.some.inj hstep
    exact ⟨fun _ => rfl, h.held, h.emitted⟩
  | subscribe i rooms =>
    obtain rfl := Option.some.inj hstep
    exact h.subscribe i rooms
  | unsubscribe i rooms =>
    rw [SocketRooms.step] at hstep
    split at hstep
    · rename_i howned
      obtain rfl := Option.some.inj hstep
      exact h.unsubscribe (hkeeps howned)
    · cases hstep
  | connected =>
    rw [SocketRooms.step] at hstep
    split at hstep
    · rename_i hsocket
      obtain rfl := Option.some.inj hstep
      exact h.handleConnect hsocket
    · cases hstep
  | reconnected =>
    rw [SocketRooms.step] at hstep
    split at hstep
    · rename_i hsocket
      obtain rfl := Option.some.inj hstep
      exact h.handleConnect hsocket
    · cases hstep
  | runEvent runId cursor updated =>
    obtain rfl := Option.some.inj hstep
    exact h.bumpRunCursor runId _ updated
  | setRunCursor runId cursor force =>
    obtain rfl := Option.some.inj hstep
    exact h.bumpRunCursor runId cursor force

/-- A cursor is dropped on request or with its room. -/
theorem cursor_dropped (hkeeps : KeepsOthers s a) (hstep : step parse localeCompare s a = some t)
    {runId : String} (hsome : (s.socket.runCursors runId).isSome)
    (hnone : t.socket.runCursors runId = none) :
    (∃ force, a = .setRunCursor runId none force) ∨ ∀ p ∈ t.holds, p.2 ≠ "run:" ++ runId := by
  have hsame : t.socket.runCursors runId ≠ s.socket.runCursors runId := by
    intro heq
    rw [← heq, hnone] at hsome
    cases hsome
  cases a with
  | connect =>
    obtain rfl := Option.some.inj hstep
    exact absurd rfl hsame
  | subscribe i rooms =>
    obtain rfl := Option.some.inj hstep
    refine absurd ?_ hsame
    rw [GraphSocket.subscribe_eq]
  | unsubscribe i rooms =>
    rw [SocketRooms.step] at hstep
    split at hstep
    · rename_i howned
      obtain rfl := Option.some.inj hstep
      right
      intro p hp hrun
      obtain ⟨hmem, hleft⟩ := List.mem_filter.mp hp
      by_cases hin : "run:" ++ runId ∈ rooms
      · rw [← hrun] at hin
        exact of_decide_eq_true hleft ⟨hkeeps howned p hmem hin, hin⟩
      · exact hsame (GraphSocket.runCursors_unsubscribe hin)
    · cases hstep
  | connected =>
    rw [SocketRooms.step] at hstep
    split at hstep
    · rename_i hsocket
      obtain rfl := Option.some.inj hstep
      exact absurd (by rw [GraphSocket.handleConnect_eq hsocket]) hsame
    · cases hstep
  | reconnected =>
    rw [SocketRooms.step] at hstep
    split at hstep
    · rename_i hsocket
      obtain rfl := Option.some.inj hstep
      exact absurd (by rw [GraphSocket.handleConnect_eq hsocket]) hsame
    · cases hstep
  | runEvent other cursor updated =>
    obtain rfl := Option.some.inj hstep
    exact nomatch (GraphSocket.bumpRunCursor_drops hsome hnone).1
  | setRunCursor other cursor force =>
    obtain rfl := Option.some.inj hstep
    obtain ⟨rfl, rfl⟩ := GraphSocket.bumpRunCursor_drops hsome hnone
    exact Or.inl ⟨force, rfl⟩

theorem Consistent.served (h : Consistent s) (hkeeps : KeepsOthers s a)
    (hstep : SocketRooms.step parse localeCompare s a = some t) :
    Served parse localeCompare s a t := by
  have ht := h.step hkeeps hstep
  refine ⟨ht.covered, fun t' hnext => ?_, fun runId => cursor_dropped hkeeps hstep⟩
  rcases hnext with hnext | hnext
  · exact (ht.step (a := .connected) trivial hnext).covered
  · exact (ht.step (a := .reconnected) trivial hnext).covered

/-- Whoever still holds a room that has been given up is not covered after the next connect. -/
theorem Consistent.keepsOthers (h : Consistent s)
    (hserved : ∀ t, SocketRooms.step parse localeCompare s a = some t →
      Served parse localeCompare s a t) : KeepsOthers s a := by
  cases a with
  | unsubscribe i rooms =>
    intro howned p hp hin
    by_contra hother
    have hsocket : (s.socket.unsubscribe rooms).socket = true := by
      rw [GraphSocket.socket_unsubscribe]
      exact h.socket (List.ne_nil_of_mem hp)
    obtain ⟨-, hnext, -⟩ := hserved _ (if_pos howned)
    obtain ⟨emitted, hemitted, hroom⟩ := hnext _ (Or.inl (if_pos hsocket)) p
      (List.mem_filter.mpr ⟨hp, decide_eq_true fun hleft => hother hleft.1⟩)
    dsimp only at hemitted
    rw [GraphSocket.handleConnect_eq hsocket] at hemitted
    split at hemitted
    · cases hemitted
    · rw [List.mem_singleton.mp hemitted] at hroom
      exact (GraphSocket.mem_unsubscribe.mp hroom).2 hin
  | _ => trivial

/-- The rooms held are covered after every connect, and no cursor of a run that is still watched is
lost, exactly in the runs in which nobody gives up a room that another subscriber holds. -/
theorem rooms_served (as : List (Action ι)) :
    StepsMeet (SocketRooms.step parse localeCompare)
        (fun s a => ∀ t, SocketRooms.step parse localeCompare s a = some t →
          Served parse localeCompare s a t) (World.start ι) as ↔
      StepsMeet (SocketRooms.step parse localeCompare) KeepsOthers (World.start ι) as :=
  stepsMeet_congr
    (fun _ _ (h : Consistent _) => ⟨h.keepsOthers, fun hkeeps _ hstep => h.served hkeeps hstep⟩)
    (fun _ _ _ h hkeeps hstep => h.step hkeeps hstep) as consistent_start

/-- Two screens of one run; the first one is left, and the connection is lost. -/
theorem room_lost :
    ∃ s t u : World ℕ, Reached (step (fun _ => none) fun _ _ => 0) (fun _ _ => True)
        (World.start ℕ) s ∧
      (s.socket.runCursors "r1").isSome ∧
      step (fun _ => none) (fun _ _ => 0) s (.unsubscribe 0 ["run:r1"]) = some t ∧
      t.holds = [(1, "run:r1")] ∧ t.socket.runCursors "r1" = none ∧
      step (fun _ => none) (fun _ _ => 0) t .reconnected = some u ∧
      u.holds = [(1, "run:r1")] ∧ u.socket.emitted = [] := by
  have hrun : ((runFrom (step (fun _ => none) fun _ _ => 0) (World.start ℕ)
      [.subscribe 0 ["run:r1"], .subscribe 1 ["run:r1"], .connected,
        .setRunCursor "r1" (some ⟨"2025-01-01T00:00:00.000Z", "e1"⟩) false]).any fun s =>
      decide ((s.socket.runCursors "r1").isSome) &&
        (step (fun _ => none) (fun _ _ => 0) s (.unsubscribe 0 ["run:r1"])).any fun t =>
          decide (t.holds = [(1, "run:r1")] ∧ t.socket.runCursors "r1" = none) &&
            (step (fun _ => none) (fun _ _ => 0) t .reconnected).any fun u =>
              decide (u.holds = [(1, "run:r1")] ∧ u.socket.emitted = [])) = true := by
    decide +kernel
  obtain ⟨s, hs, heq⟩ := (Option.any_eq_true _ _).mp hrun
  obtain ⟨hcursor, heq⟩ := Bool.and_eq_true_iff.mp heq
  obtain ⟨t, ht, heq⟩ := (Option.any_eq_true _ _).mp heq
  obtain ⟨hleft, heq⟩ := Bool.and_eq_true_iff.mp heq
  obtain ⟨u, hu, heq⟩ := (Option.any_eq_true _ _).mp heq
  obtain ⟨hholds, hdropped⟩ := of_decide_eq_true hleft
  obtain ⟨hheld, hemitted⟩ := of_decide_eq_true heq
  exact ⟨s, t, u, .of_run hs, of_decide_eq_true hcursor, ht, hholds, hdropped, hu, hheld, hemitted⟩

end Agyn.SocketRooms
