import Agyn.StreamedOutput

/-!
Which chunks the view of the output of a tool misses. Nothing stored up to its last number is
missing as long as each answer is for the event shown and starts no later than the view. A chunk
that was passed over is not shown again before the view starts anew, and catch-ups on a quiet line
bring everything else.
-/
namespace Agyn.OutputStreaming

open RunEvents

variable {dates : Dates} {w w' : World} {a : Action} {c d : Payload}
  {events : List (RunEvent String)} {hids : (events.map RunEvent.id).Nodup}
  {runId eventId : String} {enabled : Bool}

/-- An answer that is received is for the event shown, and what it is appended to reaches the
number that it starts from. -/
def Timely (w : World) : Action → Prop
  | .receive i => ∀ r, w.hook.requests[i]? = some r →
    r.eventId = w.hook.eventId ∧ r.since ≤ (w.hook.state.base r.sinceSeq).lastSeq
  | _ => True

/-- Every stored chunk of the event up to the last number is there, and nothing else. -/
structure Whole (dates : Dates) (w : World) : Prop where
  eventId : ∀ c ∈ w.hook.state.chunks, c.eventId = w.hook.eventId
  complete : ∀ c, Stored dates w.db c → c.eventId = w.hook.eventId →
    c.seqGlobal ≤ w.hook.state.lastSeq → c ∈ w.hook.state.chunks

/-- The view after a step of its own, put on what it holds. -/
theorem Whole.of_hook {hook : Hook} (heventId : ∀ c ∈ hook.state.chunks, c.eventId = hook.eventId)
    (hcomplete : ∀ c, Stored dates w.db c → c.eventId = hook.eventId →
      c.seqGlobal ≤ hook.state.lastSeq → c ∈ hook.state.chunks) :
    Whole dates { w with hook } := ⟨heventId, hcomplete⟩

theorem state_requestCatchup (h : Hook) (fromSeq : ℤ) :
    (h.requestCatchup fromSeq).state = h.state ∧
      (h.requestCatchup fromSeq).eventId = h.eventId := by
  unfold Hook.requestCatchup Hook.fetchSnapshot
  split_ifs <;> exact ⟨rfl, rfl⟩

theorem state_reset (h : Hook) : h.reset.state = INITIAL_STATE ∧ h.reset.eventId = h.eventId := by
  unfold Hook.reset Hook.fetchSnapshot
  dsimp only
  split_ifs <;> exact ⟨rfl, rfl⟩

/-- A chunk of the socket leaves the state, or appends itself where it is the next one. -/
theorem state_receiveChunk (h : Hook) (d : Payload) :
    (h.receiveChunk d).eventId = h.eventId ∧
      ((h.receiveChunk d).state = h.state ∨
        d.eventId = h.eventId ∧ d.seqGlobal = h.state.lastSeq + 1 ∧
          (h.receiveChunk d).state = { h.state.concat d with hydrated := true }) := by
  unfold Hook.receiveChunk StreamState.onChunk
  dsimp only
  split_ifs with henabled hother hle hgap
  · exact ⟨rfl, .inl rfl⟩
  · exact ⟨rfl, .inl rfl⟩
  · exact ⟨rfl, .inl rfl⟩
  · obtain ⟨hstate, heventId⟩ := state_requestCatchup (h.applyState h.state) h.state.lastSeq
    exact ⟨heventId, .inl hstate⟩
  · refine ⟨rfl, .inr ⟨?_, by omega, rfl⟩⟩
    by_contra hne
    exact hother (.inr hne)

theorem state_receiveTerminal (dates : Dates) (h : Hook) (payload : ToolOutputTerminal) :
    (h.receiveTerminal dates payload).eventId = h.eventId ∧
      (h.receiveTerminal dates payload).state.chunks = h.state.chunks ∧
      (h.receiveTerminal dates payload).state.lastSeq = h.state.lastSeq := by
  unfold Hook.receiveTerminal
  split_ifs
  · exact ⟨rfl, rfl, rfl⟩
  · exact ⟨rfl, rfl, rfl⟩
  · obtain ⟨terminal, heq⟩ := onTerminal_eq dates h.state payload
    rw [heq]
    exact ⟨rfl, rfl, rfl⟩

theorem Whole.of_state (h : Whole dates w) {hook : Hook} (heventId : hook.eventId = w.hook.eventId)
    (hchunks : hook.state.chunks = w.hook.state.chunks)
    (hlast : hook.state.lastSeq = w.hook.state.lastSeq) : Whole dates { w with hook } := by
  refine .of_hook ?_ ?_
  · rw [heventId, hchunks]
    exact h.eventId
  · rw [heventId, hchunks, hlast]
    exact h.complete

/-- Before the first number there is nothing. -/
theorem Whole.initial (hpub : Published dates w) {hook : Hook}
    (hstate : hook.state = INITIAL_STATE) : Whole dates { w with hook } := by
  refine .of_hook ?_ fun c hc _ hle => ?_
  · rw [hstate]
    exact fun c hc => absurd hc List.not_mem_nil
  · rw [hstate] at hle
    have hle : c.seqGlobal ≤ 0 := hle
    have hnumber := (hpub.numbered c (hpub.stored c hc)).1
    omega

/-- The last number of a view of one event is a number of that event. -/
theorem Whole.lastSeq_le (h : Whole dates w) (hsound : Sound dates w) :
    w.hook.state.lastSeq ≤ w.numbers w.hook.eventId := by
  obtain hzero | ⟨c, hc, hlast⟩ := hsound.tracks.derived.last
  · omega
  · rw [← hlast, ← h.eventId c hc]
    exact (hsound.published.numbered c (hsound.tracks.shown c hc)).2

theorem Whole.appendChunk (h : Whole dates w) (hsound : Sound dates w) {event : RunEvent String}
    {seqStream : ℤ} {source : ToolOutputSource} {data : String} {ts : ℤ} {available : Bool}
    (hevent : event ∈ w.db.events) (numbers : String → ℕ) (sent : List Payload) :
    Whole dates { w with
      db := (appendToolOutputChunk dates w.db
        (w.chunkArgs event seqStream source data ts) available).1
      numbers
      sent } := by
  refine ⟨h.eventId, fun c hc hid hle => ?_⟩
  obtain hc | rfl := stored_append ⟨rfl, rfl, rfl⟩ hevent hc
  · exact h.complete c hc hid hle
  · -- the new chunk is after everything shown of its event
    have hlast := h.lastSeq_le hsound
    have hnumber : (w.numbers event.id : ℤ) + 1 ≤ w.hook.state.lastSeq := hle
    have hsame : event.id = w.hook.eventId := hid
    rw [hsame] at hnumber
    omega

theorem Whole.receiveChunk (h : Whole dates w) (hsound : Sound dates w) (hd : d ∈ w.sent) :
    Whole dates { w with hook := w.hook.receiveChunk d } := by
  obtain ⟨heventId, hstate | ⟨hid, hnext, hstate⟩⟩ := state_receiveChunk w.hook d
  · exact h.of_state heventId (by rw [hstate]) (by rw [hstate])
  · refine .of_hook ?_ ?_ <;> rw [heventId, hstate]
    · intro c hc
      obtain hc | hc := List.mem_append.mp hc
      · exact h.eventId c hc
      · rw [List.mem_singleton.mp hc]
        exact hid
    · intro c hc hcid hle
      have hle : c.seqGlobal ≤ d.seqGlobal := hle
      by_cases hold : c.seqGlobal ≤ w.hook.state.lastSeq
      · exact List.mem_append_left _ (h.complete c hc hcid hold)
      · -- no other chunk of the event has the number of this one
        obtain rfl : c = d := hsound.published.unique c (hsound.published.stored c hc) d hd
          (hcid.trans hid.symm) (by omega)
        exact List.mem_append_right _ List.mem_cons_self

theorem Whole.fulfil (h : Whole dates w) (hsound : Sound dates w) {i : ℕ} {r : Request}
    {snapshot : Snapshot} (hi : w.hook.requests[i]? = some r) (hanswer : r.answer = some snapshot)
    (hid : r.eventId = w.hook.eventId)
    (hsince : r.since ≤ (w.hook.state.base r.sinceSeq).lastSeq) (requests : List Request) :
    Whole dates { w with hook := w.hook.fulfil r snapshot requests } := by
  obtain ⟨hanswers, -⟩ := hsound.tracks.answers r (List.mem_of_getElem? hi) snapshot hanswer
  have hbase : Whole dates { w with
      hook := { w.hook with state := w.hook.state.base r.sinceSeq } } := by
    by_cases happends : appends r.sinceSeq = true
    · refine h.of_state rfl ?_ ?_ <;> simp [StreamState.base, happends]
    · exact Whole.initial hsound.published (by simp [StreamState.base, happends])
  refine .of_hook (fun c hc => ?_) (fun c hc hcid hle => ?_)
  · obtain hc | ⟨hc, -⟩ := (mem_applySnapshot hanswers.sorted).mp hc
    · exact hbase.eventId c hc
    · exact (hanswers.eventId c hc).trans hid
  · refine (mem_applySnapshot hanswers.sorted).mpr ?_
    by_cases hold : c.seqGlobal ≤ (w.hook.state.base r.sinceSeq).lastSeq
    · exact .inl (hbase.complete c hc hcid hold)
    · -- the last number moved, so it is that of an item, and the answer covers what is before it
      have hle : c.seqGlobal ≤
          (snapshot.items.foldl StreamState.push (w.hook.state.base r.sinceSeq)).lastSeq := hle
      obtain ⟨-, -, hsame | ⟨item, hitem, hlast⟩⟩ :=
        lastSeq_foldl_push (w.hook.state.base r.sinceSeq) snapshot.items
      · omega
      · exact .inr ⟨hanswers.covers c hc (hcid.trans hid.symm) (by omega)
          ⟨item, hitem, hlast ▸ hle⟩, not_le.mp hold⟩

theorem whole_step (h : Whole dates w) (hsound : Sound dates w) (hok : Timely w a)
    (hstep : step dates w a = some w') : Whole dates w' := by
  cases steps_of_step hstep with
  | appendChunk hevent => exact h.appendChunk hsound hevent _ _
  | @finalize args available =>
    exact ⟨h.eventId, fun c hc => h.complete c ((stored_finalize args available).mp hc)⟩
  | deliverChunk hsent => exact h.receiveChunk hsound hsent
  | @deliverTerminal payload =>
    obtain ⟨heventId, hchunks, hlast⟩ := state_receiveTerminal dates w.hook payload
    exact h.of_state heventId hchunks hlast
  | reconnected =>
    have hstate : w.hook.reconnected.state = w.hook.state ∧
        w.hook.reconnected.eventId = w.hook.eventId := by
      unfold Hook.reconnected
      split_ifs
      · exact ⟨rfl, rfl⟩
      · exact state_requestCatchup w.hook w.hook.lastSeqRef
    exact h.of_state hstate.2 (by rw [hstate.1]) (by rw [hstate.1])
  | @render runId eventId enabled =>
    unfold Hook.render
    split_ifs
    · exact h
    · exact Whole.initial hsound.published (state_reset _).1
  | serve => exact ⟨h.eventId, h.complete⟩
  | receive hi hanswer =>
    obtain ⟨hid, hsince⟩ := hok _ hi
    exact h.fulfil hsound hi hanswer hid hsince _
  | fail => exact ⟨h.eventId, h.complete⟩

/-- In every order of the steps the texts are those of the chunks, which ascend and were stored or
published, and at most one catch-up is in flight. -/
theorem shown_of_reached
    (h : Reached (step dates) (fun _ _ => True)
      (World.start events hids (.mount runId eventId enabled)) w) :
    Derived w.hook.state ∧ (∀ c ∈ w.hook.state.chunks, c ∈ w.sent) ∧ w.hook.catchups ≤ 1 := by
  obtain ⟨-, htracks⟩ := sound_of_reached h
  refine ⟨htracks.derived, htracks.shown, ?_⟩
  rw [htracks.catchups]
  split_ifs <;> omega

theorem whole_of_reached
    (h : Reached (step dates) Timely
      (World.start events hids (.mount runId eventId enabled)) w) : Whole dates w := by
  have hstart : Sound dates (World.start events hids (.mount runId eventId enabled)) :=
    sound_start runId eventId enabled
  have hinit : Whole dates (World.start events hids (.mount runId eventId enabled)) :=
    Whole.initial hstart.published (state_reset _).1
  have hboth : Sound dates w ∧ Whole dates w := by
    induction h with
    | init => exact ⟨hstart, hinit⟩
    | step a _ hok hstep ih => exact ⟨sound_step ih.1 hstep, whole_step ih.2 ih.1 hok hstep⟩
  exact hboth.2

/-- The view goes on: its options stay, and no answer replaces what it holds. -/
def GoesOn (w : World) : Action → Prop
  | .render runId eventId enabled =>
    w.hook.runId = runId ∧ w.hook.eventId = eventId ∧ w.hook.enabled = enabled
  | .receive i => ∀ r, w.hook.requests[i]? = some r → appends r.sinceSeq = true
  | _ => True

/-- The last number of the view is at a chunk or after it, and the chunk is not shown. -/
def PassedOver (w : World) (c : Payload) : Prop :=
  c.seqGlobal ≤ w.hook.state.lastSeq ∧ c ∉ w.hook.state.chunks

theorem PassedOver.of_hook (h : PassedOver w c) {hook : Hook}
    (hlast : w.hook.state.lastSeq ≤ hook.state.lastSeq)
    (hchunks : ∀ d ∈ hook.state.chunks, d ∈ w.hook.state.chunks ∨
      w.hook.state.lastSeq < d.seqGlobal) : PassedOver { w with hook } c := by
  refine ⟨h.1.trans hlast, fun hmem => ?_⟩
  obtain hold | hafter := hchunks c hmem
  · exact h.2 hold
  · exact absurd h.1 (not_le.mpr hafter)

theorem passedOver_step (hsound : Sound dates w) (h : PassedOver w c) (hok : GoesOn w a)
    (hstep : step dates w a = some w') : PassedOver w' c := by
  have hsame : ∀ hook : Hook, hook.state = w.hook.state → PassedOver { w with hook } c := by
    intro hook hstate
    exact h.of_hook (by rw [hstate]) fun d hd => .inl (hstate ▸ hd)
  cases steps_of_step hstep with
  | appendChunk => exact h
  | finalize => exact h
  | @deliverChunk payload =>
    obtain ⟨-, hstate | ⟨-, hnext, hstate⟩⟩ := state_receiveChunk w.hook payload
    · exact hsame _ hstate
    · refine h.of_hook ?_ fun d hd => ?_
      · rw [hstate]
        show w.hook.state.lastSeq ≤ payload.seqGlobal
        omega
      · rw [hstate] at hd
        obtain hd | hd := List.mem_append.mp hd
        · exact .inl hd
        · rw [List.mem_singleton.mp hd]
          exact .inr (by omega)
  | @deliverTerminal payload =>
    obtain ⟨-, hchunks, hlast⟩ := state_receiveTerminal dates w.hook payload
    exact h.of_hook hlast.ge fun d hd => .inl (hchunks ▸ hd)
  | reconnected =>
    refine hsame _ ?_
    unfold Hook.reconnected
    split_ifs
    · rfl
    · exact (state_requestCatchup _ _).1
  | @render runId eventId enabled =>
    have hkept : w.hook.runId = runId ∧ w.hook.eventId = eventId ∧ w.hook.enabled = enabled := hok
    refine hsame _ ?_
    rw [Hook.render, if_pos hkept]
  | serve => exact h
  | @receive i r snapshot hi hanswer =>
    obtain ⟨hanswers, -⟩ := hsound.tracks.answers r (List.mem_of_getElem? hi) snapshot hanswer
    have hbase : w.hook.state.base r.sinceSeq = w.hook.state := by
      simp [StreamState.base, hok r hi]
    refine h.of_hook ?_ fun d hd => ?_
    · show _ ≤ (snapshot.items.foldl StreamState.push (w.hook.state.base r.sinceSeq)).lastSeq
      rw [hbase]
      exact (lastSeq_foldl_push _ _).1
    · have hd := (mem_applySnapshot hanswers.sorted).mp hd
      rw [hbase] at hd
      exact hd.imp_right fun h => h.2
  | fail => exact h

/-- Neither the socket nor a catch-up brings back what was passed over. -/
theorem passedOver_of_reached
    (h : Reached (step dates) (fun _ _ => True)
      (World.start events hids (.mount runId eventId enabled)) w)
    (hc : PassedOver w c) (hrun : Reached (step dates) GoesOn w w') : PassedOver w' c := by
  have hboth : Sound dates w' ∧ PassedOver w' c := by
    induction hrun with
    | init => exact ⟨sound_of_reached h, hc⟩
    | step a _ hok hstep ih => exact ⟨sound_step ih.1 hstep, passedOver_step ih.1 ih.2 hok hstep⟩
  exact hboth.2

/-- The stored chunks of the event after the last number. -/
def World.unseen (w : World) : ℕ :=
  (w.db.chunksOf w.hook.eventId).countP fun row => w.hook.state.lastSeq < row.seqGlobal

/-- A view that can catch up: it shows an event of the table and waits for no catch-up. -/
structure Idle (w : World) : Prop where
  enabled : w.hook.enabled = true
  runId : w.hook.runId ≠ ""
  eventId : w.hook.eventId ≠ ""
  event : ∃ event ∈ w.db.events, event.id = w.hook.eventId ∧ event.runId = w.hook.runId
  catchup : w.hook.catchupRef = false

def Hook.catchup (h : Hook) : Request := ⟨h.runId, h.eventId, some h.lastSeqRef, true, none⟩

def catchUp (n : ℕ) : List Action := [.reconnected, .serve n, .receive n]

theorem reconnected_idle (h : Idle w) : w.hook.reconnected = { w.hook with
    loading := fromStart (some w.hook.lastSeqRef) || w.hook.loading
    requests := w.hook.requests ++ [w.hook.catchup]
    catchupRef := true } := by
  simp [Hook.reconnected, Hook.requestCatchup, Hook.fetchSnapshot, Hook.catchup, h.enabled,
    h.runId, h.eventId, h.catchup]

theorem exists_snapshot (dates : Dates) (h : Idle w) :
    ∃ snapshot, getToolOutputSnapshot dates w.db w.hook.catchup.params = some snapshot := by
  obtain ⟨event, hevent, hid, hrun⟩ := h.event
  unfold getToolOutputSnapshot
  cases hfind : w.db.events.find? (fun e => e.id = w.hook.catchup.params.eventId) with
  | none =>
    have hnone := List.find?_eq_none.mp hfind event hevent
    simp only [decide_eq_true_eq] at hnone
    exact absurd hid hnone
  | some found =>
    have hfound : found = event := by
      have hsome := List.find?_some hfind
      rw [decide_eq_true_eq] at hsome
      exact List.inj_on_of_nodup_map w.db.events_nodup (List.mem_of_find?_eq_some hfind) hevent
        (hsome.trans hid.symm)
    have hrun : found.runId = w.hook.catchup.params.runId := hfound ▸ hrun
    dsimp only
    rw [if_neg (not_not.mpr hrun)]
    exact ⟨_, rfl⟩

/-- The last number after a catch-up leaves what the limit left. -/
theorem unseen_fulfil (htracks : Tracks dates w.db w.sent w.hook) {snapshot : Snapshot}
    (hsnapshot : getToolOutputSnapshot dates w.db w.hook.catchup.params = some snapshot) :
    (w.db.chunksOf w.hook.eventId).countP (fun row =>
      (w.hook.state.applySnapshot w.hook.catchup.sinceSeq snapshot).lastSeq < row.seqGlobal) =
      w.unseen - 1000 := by
  have hsince : w.hook.catchup.since = w.hook.state.lastSeq := htracks.ref
  have hnonneg : 0 ≤ w.hook.catchup.since := hsince ▸ htracks.derived.lastSeq_nonneg
  have hbase : (w.hook.state.base w.hook.catchup.sinceSeq).lastSeq = w.hook.state.lastSeq := by
    unfold StreamState.base
    split_ifs with happends
    · rfl
    · have hle : ¬ 0 < w.hook.catchup.since := fun hpos => happends (decide_eq_true hpos)
      show (0 : ℤ) = _
      omega
  obtain ⟨event, -, -, -, hitems⟩ := snapshot_items hsnapshot
  obtain ⟨rows, hrows⟩ : ∃ rows, (w.hook.catchup.params.sorted w.db).filter
    (sinceCondition w.hook.catchup.params.sinceSeq) = rows := ⟨_, rfl⟩
  have hasc : (w.hook.catchup.params.sorted w.db).Pairwise (SeqBefore .asc) :=
    sorted_pairwise_seq w.db w.hook.catchup.params
  have hsorted : rows.Pairwise (SeqBefore .asc) := hrows ▸ hasc.sublist List.filter_sublist
  have hcond : ∀ row, sinceCondition w.hook.catchup.params.sinceSeq row =
      decide (w.hook.state.lastSeq < row.seqGlobal) := fun row => by
    rw [sinceCondition_params _ hnonneg, hsince]
  have hperm := perm_sorted w.hook.catchup.params w.db
  have hunseen : rows.length = w.unseen := by
    rw [← hrows, ← List.countP_eq_length_filter, hperm.countP_eq, World.unseen]
    exact List.countP_congr fun row _ => by rw [hcond]
  rw [hrows] at hitems
  obtain ⟨hle, hall, hlast⟩ :=
    lastSeq_foldl_push (w.hook.state.base w.hook.catchup.sinceSeq) snapshot.items
  obtain ⟨last, hlastSeq⟩ : ∃ last, (snapshot.items.foldl StreamState.push
    (w.hook.state.base w.hook.catchup.sinceSeq)).lastSeq = last := ⟨_, rfl⟩
  show (w.db.chunksOf w.hook.eventId).countP (fun row => (snapshot.items.foldl StreamState.push
    (w.hook.state.base w.hook.catchup.sinceSeq)).lastSeq < row.seqGlobal) = _
  rw [hlastSeq] at hle hall hlast ⊢
  rw [hbase] at hle hlast
  -- what is after the new last number was after the old one
  have hcount : (w.db.chunksOf w.hook.eventId).countP (fun row => last < row.seqGlobal) =
      (rows.filter fun row => last < row.seqGlobal).length := by
    rw [← hrows, List.filter_filter, ← List.countP_eq_length_filter, hperm.countP_eq]
    refine List.countP_congr fun row _ => ?_
    rw [hcond, Bool.and_eq_true, decide_eq_true_eq, decide_eq_true_eq]
    exact (and_iff_left_of_imp fun hlt => by omega).symm
  rw [hcount, ← hunseen]
  by_cases hnil : rows = []
  · subst hnil
    rfl
  obtain ⟨next, hnext, -, hfilter⟩ := filter_nextSeq dates event
    (show 1 ≤ 1000 by omega) hsorted hnil (.inl rfl)
  have htake : snapshot.items = (rows.take 1000).map (chunkPayload dates event) := hitems
  have hne : snapshot.items ≠ [] := by
    rw [htake, Ne, List.map_eq_nil_iff, List.take_eq_nil_iff]
    exact not_or.mpr ⟨by omega, hnil⟩
  obtain ⟨s, hs, ⟨item, hitem, heq⟩, hmax⟩ := nextSeq_spec snapshot.items hne
  rw [← htake, hs] at hnext
  obtain rfl := Option.some.inj hnext
  -- an item is after the old last number, so the new one is the greatest of the items
  have hafter : w.hook.state.lastSeq < item.seqGlobal := by
    obtain ⟨row, hrow, rfl⟩ := List.mem_map.mp (htake ▸ hitem)
    have hrow := (List.mem_filter.mp (hrows ▸ List.mem_of_mem_take hrow)).2
    rw [hcond, decide_eq_true_eq] at hrow
    exact hrow
  have hsame : last = s := by
    have hup := hall item hitem
    obtain hlast | ⟨c, hc, hlast⟩ := hlast
    · omega
    · have := hmax c hc
      omega
  rw [hsame, hfilter, List.length_drop]

theorem catchUp_step (hsound : Sound dates w) (h : Idle w) :
    ∃ w', runFrom (step dates) w (catchUp w.hook.requests.length) = some w' ∧ w'.db = w.db ∧
      w'.hook.eventId = w.hook.eventId ∧ w'.hook.requests = w.hook.requests ∧ Idle w' ∧
      Sound dates w' ∧ (Whole dates w → Whole dates w') ∧ w'.unseen = w.unseen - 1000 := by
  obtain ⟨snapshot, hsnapshot⟩ := exists_snapshot dates h
  have hreconnected := reconnected_idle h
  -- the three states of the round
  obtain ⟨asked, hasked⟩ : ∃ asked, { w with hook := w.hook.reconnected } = asked := ⟨_, rfl⟩
  have hstep₁ : step dates w .reconnected = some asked := congrArg some hasked
  have hrequests : asked.hook.requests = w.hook.requests ++ [w.hook.catchup] := by
    rw [← hasked, hreconnected]
  have hdb : asked.db = w.db := by rw [← hasked]
  have hlast : asked.hook.requests[w.hook.requests.length]? = some w.hook.catchup := by
    rw [hrequests, List.getElem?_concat_length]
  have hstep₂ : step dates asked (.serve w.hook.requests.length) = some { asked with
      hook := { asked.hook with
        requests := w.hook.requests ++ [{ w.hook.catchup with answer := some snapshot }] } } := by
    simp only [step, hlast]
    rw [if_neg (by simp [Hook.catchup]), hdb, hsnapshot, hrequests, Option.map_some,
      List.set_append_right _ _ le_rfl, Nat.sub_self, List.set_cons_zero]
  obtain ⟨served, hserved⟩ : ∃ served, { asked with
    hook := { asked.hook with
      requests := w.hook.requests ++ [{ w.hook.catchup with answer := some snapshot }] } } =
    served := ⟨_, rfl⟩
  rw [hserved] at hstep₂
  have hanswered : served.hook.requests[w.hook.requests.length]? =
      some { w.hook.catchup with answer := some snapshot } := by
    rw [← hserved, List.getElem?_concat_length]
  have hstate : served.hook.state = w.hook.state := by
    rw [← hserved, ← hasked, hreconnected]
  obtain ⟨w', hw'⟩ : ∃ w', { served with
    hook := served.hook.fulfil { w.hook.catchup with answer := some snapshot } snapshot
      w.hook.requests } = w' := ⟨_, rfl⟩
  have hstep₃ : step dates served (.receive w.hook.requests.length) = some w' := by
    simp only [step, hanswered, Option.map_some]
    rw [← hw', ← hserved]
    dsimp only
    rw [List.eraseIdx_append_of_length_le le_rfl, Nat.sub_self]
    simp
  have hsame : w'.db = w.db ∧ w'.hook.eventId = w.hook.eventId ∧
      w'.hook.requests = w.hook.requests ∧ w'.hook.enabled = w.hook.enabled ∧
      w'.hook.runId = w.hook.runId ∧ w'.hook.catchupRef = false := by
    rw [← hw', ← hserved, ← hasked, hreconnected]
    exact ⟨rfl, rfl, rfl, rfl, rfl, rfl⟩
  obtain ⟨hdb', heventId', hrequests', henabled', hrunId', hcatchup'⟩ := hsame
  have hsound₁ := sound_step hsound hstep₁
  have hsound₂ := sound_step hsound₁ hstep₂
  refine ⟨w', ?_, hdb', heventId', hrequests', ?_, sound_step hsound₂ hstep₃, fun hwhole => ?_, ?_⟩
  · simp only [catchUp, runFrom, hstep₁, hstep₂, hstep₃, Option.bind_some]
  · exact ⟨henabled'.trans h.enabled, hrunId' ▸ h.runId, heventId' ▸ h.eventId,
      by rw [hdb', heventId', hrunId']; exact h.event, hcatchup'⟩
  · have htimely₁ : Timely w .reconnected := trivial
    have htimely₂ : Timely asked (.serve w.hook.requests.length) := trivial
    have hwhole₁ := whole_step hwhole hsound htimely₁ hstep₁
    have hwhole₂ := whole_step hwhole₁ hsound₁ htimely₂ hstep₂
    refine whole_step hwhole₂ hsound₂ ?_ hstep₃
    intro r hr
    obtain rfl := Option.some.inj (hanswered.symm.trans hr)
    have heventId : served.hook.eventId = w.hook.eventId := by
      rw [← hserved, ← hasked, hreconnected]
    refine ⟨heventId.symm, ?_⟩
    have hsince : w.hook.catchup.since = w.hook.state.lastSeq := hsound.tracks.ref
    show w.hook.catchup.since ≤ (served.hook.state.base w.hook.catchup.sinceSeq).lastSeq
    rw [hstate]
    unfold StreamState.base
    split_ifs with happends
    · exact hsince.le
    · exact not_lt.mp fun hpos => happends (decide_eq_true hpos)
  · rw [World.unseen, heventId', hdb', ← unseen_fulfil hsound.tracks hsnapshot, ← hstate, ← hw']
    rfl

def catchUps (n : ℕ) : ℕ → List Action
  | 0 => []
  | k + 1 => catchUp n ++ catchUps n k

/-- From a view that misses nothing, so many catch-ups on a quiet line as its limit needs show every
chunk that is stored. -/
theorem catchUps_complete
    (h : Reached (step dates) Timely
      (World.start events hids (.mount runId eventId enabled)) w)
    (hidle : Idle w) (k : ℕ) (hk : w.unseen ≤ 1000 * k) :
    ∃ w', runFrom (step dates) w (catchUps w.hook.requests.length k) = some w' ∧ w'.db = w.db ∧
      ∀ c, Stored dates w.db c → c.eventId = w.hook.eventId → c ∈ w'.hook.state.chunks := by
  have hsound := sound_of_reached h
  have hwhole := whole_of_reached h
  clear h
  induction k generalizing w with
  | zero =>
    refine ⟨w, rfl, rfl, fun c hc hid => hwhole.complete c hc hid ?_⟩
    obtain ⟨row, hrow, hrid, hseq⟩ := hc.eventId
    have hnone := List.countP_eq_zero.mp (Nat.le_zero.mp hk) row
      (List.mem_filter.mpr ⟨hrow, decide_eq_true (hrid.trans hid)⟩)
    rw [decide_eq_true_eq, hseq] at hnone
    exact not_lt.mp hnone
  | succ k ih =>
    obtain ⟨next, hrun, hdb, heventId, hrequests, hidle', hsound', hwhole', hunseen⟩ :=
      catchUp_step hsound hidle
    obtain ⟨w', hrest, hdb', hall⟩ := ih hidle' (by omega) hsound' (hwhole' hwhole)
    rw [hdb, heventId] at hall
    refine ⟨w', ?_, hdb'.trans hdb, hall⟩
    rw [catchUps, runFrom_append hrun, ← hrequests]
    exact hrest

def shell : World :=
  World.start [execution] (by simp) (.mount "r1" "e1" true)

def published (n : ℤ) : Payload :=
  ⟨"r1", "t1", "e1", n, n, .stdout, "1970-01-01T00:00:00.000Z", "a"⟩

/-- Two chunks are shown before the first snapshot, which has one of them. -/
def lateSnapshot : List Action :=
  [.appendChunk execution 1 .stdout "a" 0 true, .serve 0, .deliverChunk (published 1),
    .appendChunk execution 2 .stdout "a" 0 true, .deliverChunk (published 2), .reconnected,
    .appendChunk execution 3 .stdout "a" 0 true, .serve 1, .receive 0]

theorem lateSnapshot_runs :
    (runFrom (step epoch) shell (lateSnapshot ++ [.receive 0])).isSome = true := by decide +kernel

/-- The catch-up asked for what comes after the second chunk, which the late snapshot took away. -/
def raced : World :=
  (runFrom (step epoch) shell (lateSnapshot ++ [.receive 0])).get lateSnapshot_runs

example : raced.hook.state.chunks.map (·.seqGlobal) = [1, 3] := by decide +kernel

theorem shown_of_reached_raced :
    Derived raced.hook.state ∧ (∀ c ∈ raced.hook.state.chunks, c ∈ raced.sent) ∧
      raced.hook.catchups ≤ 1 :=
  shown_of_reached (Reached.of_run (Option.some_get lateSnapshot_runs).symm)

theorem passedOver_of_reached_raced : ∃ w, step epoch raced .reconnected = some w ∧
    PassedOver w (published 2) := by
  have hover : PassedOver raced (published 2) := by
    unfold PassedOver
    decide +kernel
  exact ⟨_, rfl, passedOver_of_reached
    (Reached.of_run (Option.some_get lateSnapshot_runs).symm) hover
    (.step .reconnected .init trivial rfl)⟩

theorem firstChunk_runs : (runFrom (step epoch) shell
    [.appendChunk execution 1 .stdout "a" 0 true]).isSome = true := rfl

/-- The first chunk is stored, and its publication was lost. -/
def unheard : World :=
  (runFrom (step epoch) shell [.appendChunk execution 1 .stdout "a" 0 true]).get firstChunk_runs

theorem reached_unheard : Reached (step epoch) Timely shell unheard := by
  have hmeets : StepsMeet (step epoch) Timely shell
      [.appendChunk execution 1 .stdout "a" 0 true] := ⟨trivial, fun _ _ => trivial⟩
  exact Reached.init.run hmeets (Option.some_get firstChunk_runs).symm

theorem whole_of_reached_unheard : Whole epoch unheard := whole_of_reached reached_unheard

theorem catchUps_complete_unheard : ∃ w', runFrom (step epoch) unheard (catchUps 1 1) = some w' ∧
    published 1 ∈ w'.hook.state.chunks := by
  obtain ⟨w', hrun, -, hall⟩ := catchUps_complete reached_unheard
    ⟨rfl, by decide, by decide, ⟨execution, List.mem_cons_self, rfl, rfl⟩, rfl⟩ 1
    (by decide +kernel)
  refine ⟨w', hrun, hall _ ?_ rfl⟩
  exact ⟨_, List.mem_cons_self, execution, List.mem_cons_self, rfl, rfl⟩

end Agyn.OutputStreaming
