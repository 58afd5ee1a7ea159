import Mathlib.Data.List.Perm.Basic
import Agyn.OutputStreaming

/-!
What the view of the output of a tool shows, in every order of the steps:
- the texts are those of the chunks, and the chunks ascend and were published;
- nothing stored up to the last number is missing, where each answer that is received is for the
  event shown and starts no later than the view;
- what was passed over is not shown any more until the view starts again.
-/
namespace Agyn.OutputStreaming

open RunEvents

def textOf (chunks : List Payload) : String := String.join (chunks.map (·.data))

structure Derived (s : StreamState) : Prop where
  text : s.text = textOf s.chunks
  stdoutText : s.stdoutText = textOf (s.chunks.filter (·.source = .stdout))
  stderrText : s.stderrText = textOf (s.chunks.filter (·.source = .stderr))
  sorted : s.chunks.Pairwise (·.seqGlobal < ·.seqGlobal)
  numbered : ∀ c ∈ s.chunks, 1 ≤ c.seqGlobal ∧ c.seqGlobal ≤ s.lastSeq
  last : s.lastSeq = 0 ∨ ∃ c ∈ s.chunks, c.seqGlobal = s.lastSeq

section Texts

variable {s : StreamState} {chunk : Payload} {items : List Payload}

theorem textOf_concat (chunks : List Payload) (chunk : Payload) :
    textOf (chunks ++ [chunk]) = textOf chunks ++ chunk.data := by
  simp [textOf, String.join, List.foldl_append]

theorem textOf_filter_concat (chunks : List Payload) (chunk : Payload) (p : Payload → Bool) :
    textOf ((chunks ++ [chunk]).filter p) =
      if p chunk then textOf (chunks.filter p) ++ chunk.data else textOf (chunks.filter p) := by
  rw [List.filter_append]
  by_cases h : p chunk = true
  · rw [if_pos h, List.filter_cons_of_pos h, List.filter_nil, textOf_concat]
  · rw [if_neg h, List.filter_cons_of_neg h, List.filter_nil, List.append_nil]

theorem derived_initial : Derived INITIAL_STATE :=
  ⟨rfl, rfl, rfl, .nil, fun _ h => absurd h List.not_mem_nil, .inl rfl⟩

theorem Derived.lastSeq_nonneg (h : Derived s) : 0 ≤ s.lastSeq := by
  obtain hzero | ⟨c, hc, hlast⟩ := h.last
  · omega
  · have := (h.numbered c hc).1
    omega

theorem Derived.concat (h : Derived s) (hnumber : 1 ≤ chunk.seqGlobal)
    (hlast : s.lastSeq < chunk.seqGlobal) : Derived (s.concat chunk) where
  text := by
    rw [StreamState.concat, textOf_concat, ← h.text]
  stdoutText := by
    simp only [StreamState.concat, textOf_filter_concat, ← h.stdoutText, decide_eq_true_eq]
  stderrText := by
    simp only [StreamState.concat, textOf_filter_concat, ← h.stderrText, decide_eq_true_eq]
  sorted := by
    refine List.pairwise_append.mpr ⟨h.sorted, List.pairwise_singleton _ _, ?_⟩
    intro c hc d hd
    obtain rfl := List.mem_singleton.mp hd
    have := (h.numbered c hc).2
    omega
  numbered := by
    intro c hc
    show 1 ≤ c.seqGlobal ∧ c.seqGlobal ≤ chunk.seqGlobal
    obtain hc | hc := List.mem_append.mp hc
    · have := h.numbered c hc
      omega
    · obtain rfl := List.mem_singleton.mp hc
      omega
  last := .inr ⟨chunk, List.mem_append_right _ List.mem_cons_self, rfl⟩

theorem Derived.of_eq {t : StreamState} (h : Derived s) (htext : t.text = s.text)
    (hstdout : t.stdoutText = s.stdoutText) (hstderr : t.stderrText = s.stderrText)
    (hchunks : t.chunks = s.chunks) (hlast : t.lastSeq = s.lastSeq) : Derived t := by
  constructor
  · rw [htext, hchunks, h.text]
  · rw [hstdout, hchunks, h.stdoutText]
  · rw [hstderr, hchunks, h.stderrText]
  · rw [hchunks]
    exact h.sorted
  · rw [hchunks, hlast]
    exact h.numbered
  · rw [hchunks, hlast]
    exact h.last

theorem Derived.foldl_push (h : Derived s) (hitems : ∀ c ∈ items, 1 ≤ c.seqGlobal) :
    Derived (items.foldl StreamState.push s) := by
  induction items generalizing s with
  | nil => exact h
  | cons c items ih =>
    refine ih ?_ fun d hd => hitems d (List.mem_cons_of_mem c hd)
    unfold StreamState.push
    split_ifs with hle
    · exact h
    · exact h.concat (hitems c List.mem_cons_self) (not_le.mp hle)

theorem Derived.base (h : Derived s) (sinceSeq : Option ℤ) : Derived (s.base sinceSeq) := by
  unfold StreamState.base
  split_ifs
  · exact h
  · exact derived_initial

theorem Derived.applySnapshot {snapshot : Snapshot} (h : Derived s) (sinceSeq : Option ℤ)
    (hitems : ∀ c ∈ snapshot.items, 1 ≤ c.seqGlobal) :
    Derived (s.applySnapshot sinceSeq snapshot) :=
  ((h.base sinceSeq).foldl_push hitems).of_eq rfl rfl rfl rfl rfl

theorem Derived.onChunk (h : Derived s) (hnumber : 1 ≤ chunk.seqGlobal) :
    Derived (s.onChunk chunk).1 := by
  unfold StreamState.onChunk
  split_ifs with hle hgap
  · exact h
  · exact h
  · exact (h.concat hnumber (not_le.mp hle)).of_eq rfl rfl rfl rfl rfl

theorem onTerminal_eq (dates : Dates) (s : StreamState) (payload : ToolOutputTerminal) :
    ∃ terminal, s.onTerminal dates payload = { s with terminal } := by
  unfold StreamState.onTerminal
  split
  · exact ⟨_, rfl⟩
  · split_ifs
    · exact ⟨s.terminal, rfl⟩
    · exact ⟨_, rfl⟩

/-- The items of a snapshot that come after the state are appended to it. -/
theorem chunks_foldl_push (hsorted : items.Pairwise (·.seqGlobal < ·.seqGlobal)) :
    (items.foldl StreamState.push s).chunks =
      s.chunks ++ items.filter fun c => decide (s.lastSeq < c.seqGlobal) := by
  induction items generalizing s with
  | nil => simp
  | cons c items ih =>
    obtain ⟨hc, hitems⟩ := List.pairwise_cons.mp hsorted
    rw [List.foldl_cons, ih hitems, StreamState.push]
    split_ifs with hle
    · rw [List.filter_cons_of_neg (by simpa using hle)]
    · -- the later items are greater, and all of them come after the new last number too
      have hall : (items.filter fun d => decide (c.seqGlobal < d.seqGlobal)) =
          items.filter fun d => decide (s.lastSeq < d.seqGlobal) := by
        refine List.filter_congr fun d hd => ?_
        have := hc d hd
        rw [decide_eq_decide]
        omega
      show (s.chunks ++ [c]) ++ items.filter (fun d => decide (c.seqGlobal < d.seqGlobal)) = _
      rw [hall, List.filter_cons_of_pos (by simpa using hle), List.append_assoc,
        List.singleton_append]

/-- A snapshot ends at the last of its items, if one of them comes after the state. -/
theorem lastSeq_foldl_push (s : StreamState) (items : List Payload) :
    s.lastSeq ≤ (items.foldl StreamState.push s).lastSeq ∧
      (∀ c ∈ items, c.seqGlobal ≤ (items.foldl StreamState.push s).lastSeq) ∧
      ((items.foldl StreamState.push s).lastSeq = s.lastSeq ∨
        ∃ c ∈ items, c.seqGlobal = (items.foldl StreamState.push s).lastSeq) := by
  induction items generalizing s with
  | nil => exact ⟨le_rfl, fun _ h => absurd h List.not_mem_nil, .inl rfl⟩
  | cons c items ih =>
    obtain ⟨hle, hall, hlast⟩ := ih (s.push c)
    have hpush : s.lastSeq ≤ (s.push c).lastSeq ∧ c.seqGlobal ≤ (s.push c).lastSeq ∧
        ((s.push c).lastSeq = s.lastSeq ∨ c.seqGlobal = (s.push c).lastSeq) := by
      unfold StreamState.push
      split_ifs with hcase
      · exact ⟨le_rfl, hcase, .inl rfl⟩
      · exact ⟨(not_le.mp hcase).le, le_rfl, .inr rfl⟩
    rw [List.foldl_cons]
    refine ⟨hpush.1.trans hle, List.forall_mem_cons.mpr ⟨hpush.2.1.trans hle, hall⟩, ?_⟩
    obtain hlast | ⟨d, hd, hlast⟩ := hlast
    · rw [hlast]
      exact hpush.2.2.imp_right fun h => ⟨c, List.mem_cons_self, h⟩
    · exact .inr ⟨d, List.mem_cons_of_mem c hd, hlast⟩

end Texts

variable {dates : Dates} {db : Database} {w w' : World} {a : Action} {c d : Payload}

def Stored (dates : Dates) (db : Database) (c : Payload) : Prop :=
  ∃ row ∈ db.chunks, ∃ event ∈ db.events, event.id = row.eventId ∧ chunkPayload dates event row = c

theorem Stored.eventId (h : Stored dates db c) :
    ∃ row ∈ db.chunks, row.eventId = c.eventId ∧ row.seqGlobal = c.seqGlobal := by
  obtain ⟨row, hrow, event, -, hid, rfl⟩ := h
  exact ⟨row, hrow, hid.symm, rfl⟩

/-- What is stored was published, and the numbers of an event are its own. -/
structure Published (dates : Dates) (w : World) : Prop where
  stored : ∀ c, Stored dates w.db c → c ∈ w.sent
  numbered : ∀ c ∈ w.sent, 1 ≤ c.seqGlobal ∧ c.seqGlobal ≤ w.numbers c.eventId
  unique : ∀ c ∈ w.sent, ∀ d ∈ w.sent, c.eventId = d.eventId → c.seqGlobal = d.seqGlobal → c = d

/-- What an appended chunk does: it is published with the next number, and stored or not. -/
theorem appendToolOutputChunk_cases (dates : Dates) (db : Database) (args : ToolOutputChunkArgs)
    (available : Bool) :
    (appendToolOutputChunk dates db args available).2 = args.payload dates ∧
      (appendToolOutputChunk dates db args available).1.events = db.events ∧
      ((appendToolOutputChunk dates db args available).1.chunks = db.chunks ∨
        (appendToolOutputChunk dates db args available).1.chunks = db.chunks ++ [args.record]) := by
  have hcreate : ∀ db', createChunk db args.record = some db' →
      db'.events = db.events ∧ db'.chunks = db.chunks ++ [args.record] := by
    intro db' h
    unfold createChunk at h
    split_ifs at h
    obtain rfl := Option.some.inj h
    exact ⟨rfl, rfl⟩
  unfold appendToolOutputChunk
  cases hcase : if available then createChunk db args.record else none with
  | none => exact ⟨rfl, rfl, .inl rfl⟩
  | some db' =>
    cases available with
    | false => exact absurd hcase.symm (Option.some_ne_none db')
    | true => exact ⟨rfl, (hcreate db' hcase).1, .inr (hcreate db' hcase).2⟩

/-- What an appended chunk leaves stored: what was, and at most the chunk itself. -/
theorem stored_append {event : RunEvent String} {args : ToolOutputChunkArgs} {available : Bool}
    (hargs : args.runId = event.runId ∧ args.threadId = event.threadId ∧ args.eventId = event.id)
    (hevent : event ∈ db.events)
    (h : Stored dates (appendToolOutputChunk dates db args available).1 c) :
    Stored dates db c ∨ c = args.payload dates := by
  obtain ⟨-, hevents, hchunks⟩ := appendToolOutputChunk_cases dates db args available
  obtain ⟨row, hrow, e, he, hid, rfl⟩ := h
  rw [hevents] at he
  have hold : row ∈ db.chunks ∨ row = args.record := by
    obtain hchunks | hchunks := hchunks <;> rw [hchunks] at hrow
    · exact .inl hrow
    · simpa using hrow
  obtain hrow | rfl := hold
  · exact .inl ⟨row, hrow, e, he, hid, rfl⟩
  · have hsame : e = event :=
      List.inj_on_of_nodup_map db.events_nodup he hevent (hid.trans hargs.2.2)
    subst hsame
    right
    simp only [chunkPayload, ToolOutputChunkArgs.payload, ToolOutputChunkArgs.record, hargs]

theorem stored_finalize (args : ToolOutputTerminal) (available : Bool) :
    Stored dates (finalizeToolOutputTerminal db args available).1 c ↔ Stored dates db c := by
  unfold finalizeToolOutputTerminal
  cases available <;> exact Iff.rfl

/-- The items of an answer: the chunks of the event from a number on, up to the limit. -/
theorem snapshot_items {p : SnapshotParams String} {snapshot : Snapshot}
    (h : getToolOutputSnapshot dates db p = some snapshot) :
    ∃ event ∈ db.events, event.id = p.eventId ∧ event.runId = p.runId ∧
      snapshot.items = (((p.sorted db).filter (sinceCondition p.sinceSeq)).take
        (chunkLimit p.limit)).map (chunkPayload dates event) := by
  have hpoll : p.poll dates db p.sinceSeq = (snapshot.items, snapshot.nextSeq) := by
    rw [SnapshotParams.poll, h]
  unfold getToolOutputSnapshot at h
  cases hfind : db.events.find? (fun e => e.id = p.eventId) with
  | none => simp [hfind] at h
  | some event =>
    have hrun : event.runId = p.runId := by
      by_contra hne
      simp [hfind, hne] at h
    have hevent := List.mem_of_find?_eq_some hfind
    have hid : event.id = p.eventId := by simpa using List.find?_some hfind
    refine ⟨event, hevent, hid, hrun, ?_⟩
    rw [poll_eq dates hevent hid hrun p.sinceSeq rfl] at hpoll
    exact (congrArg Prod.fst hpoll).symm

def Request.since (r : Request) : ℤ := r.sinceSeq.getD 0

theorem sinceCondition_params (r : Request) (hsince : 0 ≤ r.since)
    (row : ToolOutputChunk String) :
    sinceCondition r.params.sinceSeq row = decide (r.since < row.seqGlobal) := by
  have hnumbered := row.numbered
  unfold Request.since at *
  unfold Request.params appends
  cases hcase : r.sinceSeq with
  | none =>
    simp only [Option.getD_none, lt_self_iff_false, decide_false, Bool.false_eq_true, ↓reduceIte]
    simp only [sinceCondition]
    exact (decide_eq_true (by omega)).symm
  | some since =>
    rw [hcase] at hsince
    simp only [Option.getD_some] at hsince ⊢
    by_cases hpos : 0 < since
    · simp only [hpos, decide_true, ↓reduceIte, sinceCondition]
      rw [decide_eq_decide]
      omega
    · simp only [hpos, decide_false, Bool.false_eq_true, ↓reduceIte, sinceCondition]
      exact (decide_eq_true (by omega)).symm

/-- An answer is for its request: chunks of the event in order, and everything stored between the
number asked from and the last item. -/
structure Answers (dates : Dates) (db : Database) (r : Request) (items : List Payload) : Prop where
  sorted : items.Pairwise (·.seqGlobal < ·.seqGlobal)
  eventId : ∀ c ∈ items, c.eventId = r.eventId
  covers : ∀ c, Stored dates db c → c.eventId = r.eventId → r.since < c.seqGlobal →
    (∃ d ∈ items, c.seqGlobal ≤ d.seqGlobal) → c ∈ items

theorem pairwise_asc {rows : List (ToolOutputChunk String)}
    (h : rows.Pairwise (SeqBefore .asc)) (event : RunEvent String) :
    (rows.map (chunkPayload dates event)).Pairwise (·.seqGlobal < ·.seqGlobal) :=
  List.pairwise_map.mpr (h.imp fun hlt => hlt)

theorem answers_of_snapshot {r : Request} {snapshot : Snapshot} (hsince : 0 ≤ r.since)
    (h : getToolOutputSnapshot dates db r.params = some snapshot) :
    Answers dates db r snapshot.items ∧ ∀ c ∈ snapshot.items, Stored dates db c := by
  obtain ⟨event, hevent, hid, -, hitems⟩ := snapshot_items h
  have hsorted : (r.params.sorted db).Pairwise (SeqBefore .asc) := sorted_pairwise_seq db r.params
  obtain ⟨rows, hrows⟩ :
    ∃ rows, (r.params.sorted db).filter (sinceCondition r.params.sinceSeq) = rows := ⟨_, rfl⟩
  have hpairwise : rows.Pairwise (SeqBefore .asc) := hrows ▸ hsorted.sublist List.filter_sublist
  have hmem : ∀ row, row ∈ rows ↔
      row ∈ db.chunks ∧ row.eventId = r.eventId ∧ r.since < row.seqGlobal := by
    intro row
    rw [← hrows, List.mem_filter, (perm_sorted r.params db).mem_iff, Tables.chunksOf,
      List.mem_filter, sinceCondition_params r hsince, decide_eq_true_eq, decide_eq_true_eq,
      and_assoc]
    rfl
  rw [hrows] at hitems
  refine ⟨⟨?_, ?_, ?_⟩, ?_⟩
  · rw [hitems]
    exact pairwise_asc (hpairwise.sublist (List.take_sublist _ _)) event
  · intro c hc
    obtain ⟨row, -, rfl⟩ := List.mem_map.mp (hitems ▸ hc)
    exact hid
  · rintro c ⟨row, hrow, e, he, heid, rfl⟩ hcid hlt ⟨d, hd, hle⟩
    have hsame : e = event :=
      List.inj_on_of_nodup_map db.events_nodup he hevent (hcid.trans hid.symm)
    subst hsame
    have hin : row ∈ rows := (hmem row).mpr ⟨hrow, heid.symm.trans hcid, hlt⟩
    rw [hitems] at hd ⊢
    obtain ⟨last, hlast, rfl⟩ := List.mem_map.mp hd
    refine List.mem_map_of_mem ?_
    -- a row after the ones taken would have a greater number than the item
    rw [← List.take_append_drop (chunkLimit r.params.limit) rows] at hin hpairwise
    obtain hin | hin := List.mem_append.mp hin
    · exact hin
    · have hafter : last.seqGlobal < row.seqGlobal :=
        (List.pairwise_append.mp hpairwise).2.2 last hlast row hin
      exact absurd hle (not_le.mpr hafter)
  · intro c hc
    obtain ⟨row, hrow, rfl⟩ := List.mem_map.mp (hitems ▸ hc)
    have hrow := (hmem row).mp (List.mem_of_mem_take hrow)
    exact ⟨row, hrow.1, event, hevent, hid.trans hrow.2.1.symm, rfl⟩

def Hook.catchups (h : Hook) : ℕ := h.requests.countP (·.catchup)

/-- What holds of the view in every order of the steps. -/
structure Tracks (dates : Dates) (db : Database) (sent : List Payload) (h : Hook) : Prop where
  derived : Derived h.state
  ref : h.lastSeqRef = h.state.lastSeq
  shown : ∀ c ∈ h.state.chunks, c ∈ sent
  since : ∀ r ∈ h.requests, 0 ≤ r.since
  answers : ∀ r ∈ h.requests, ∀ snapshot, r.answer = some snapshot →
    Answers dates db r snapshot.items ∧ ∀ c ∈ snapshot.items, c ∈ sent
  catchups : h.catchups = if h.catchupRef then 1 else 0

section Hooks

variable {sent sent' : List Payload} {h : Hook} {r : Request} {i : ℕ} {db' : Database}

theorem Tracks.applyState (ht : Tracks dates db sent h) {next : StreamState}
    (hnext : Derived next) (hshown : ∀ c ∈ next.chunks, c ∈ sent) :
    Tracks dates db sent (h.applyState next) :=
  ⟨hnext, rfl, hshown, ht.since, ht.answers, ht.catchups⟩

theorem Tracks.fetchSnapshot (ht : Tracks dates db sent h) :
    Tracks dates db sent (h.fetchSnapshot none false) := by
  unfold Hook.fetchSnapshot
  split_ifs
  · exact ht
  · exact ht
  · refine ⟨ht.derived, ht.ref, ht.shown, ?_, ?_, ?_⟩
    · intro r hr
      obtain hr | hr := List.mem_append.mp hr
      · exact ht.since r hr
      · rw [List.mem_singleton.mp hr]
        exact le_rfl
    · intro r hr snapshot hanswer
      obtain hr | hr := List.mem_append.mp hr
      · exact ht.answers r hr snapshot hanswer
      · rw [List.mem_singleton.mp hr] at hanswer
        exact absurd hanswer.symm (Option.some_ne_none snapshot)
    · rw [Hook.catchups, List.countP_append]
      exact ht.catchups

theorem Tracks.requestCatchup (ht : Tracks dates db sent h) {fromSeq : ℤ} (hfrom : 0 ≤ fromSeq) :
    Tracks dates db sent (h.requestCatchup fromSeq) := by
  unfold Hook.requestCatchup Hook.fetchSnapshot
  split_ifs with henabled hids hcatchup
  · exact ht
  · exact ht
  · exact ht
  · refine ⟨ht.derived, ht.ref, ht.shown, ?_, ?_, ?_⟩
    · intro r hr
      obtain hr | hr := List.mem_append.mp hr
      · exact ht.since r hr
      · rw [List.mem_singleton.mp hr]
        exact hfrom
    · intro r hr snapshot hanswer
      obtain hr | hr := List.mem_append.mp hr
      · exact ht.answers r hr snapshot hanswer
      · rw [List.mem_singleton.mp hr] at hanswer
        exact absurd hanswer.symm (Option.some_ne_none snapshot)
    · have hzero : h.requests.countP (·.catchup) = 0 := ht.catchups.trans (if_neg hcatchup)
      rw [Hook.catchups, List.countP_append, hzero]
      rfl

theorem Tracks.reset (ht : Tracks dates db sent h) : Tracks dates db sent h.reset := by
  have hinitial : Tracks dates db sent
      { h.applyState INITIAL_STATE with error := none, loading := h.enabled } :=
    ⟨derived_initial, rfl, fun _ hc => absurd hc List.not_mem_nil, ht.since, ht.answers,
      ht.catchups⟩
  unfold Hook.reset
  dsimp only
  split_ifs
  · exact hinitial
  · exact hinitial.fetchSnapshot

theorem Tracks.render (ht : Tracks dates db sent h) (runId eventId : String) (enabled : Bool) :
    Tracks dates db sent (h.render runId eventId enabled) := by
  unfold Hook.render
  split_ifs
  · exact ht
  · exact Tracks.reset ⟨ht.derived, ht.ref, ht.shown, ht.since, ht.answers, ht.catchups⟩

theorem mem_onChunk {s : StreamState} (hc : c ∈ (s.onChunk d).1.chunks) :
    c ∈ s.chunks ∨ c = d ∧ d.seqGlobal = s.lastSeq + 1 := by
  unfold StreamState.onChunk at hc
  split_ifs at hc with hle hgap
  · exact .inl hc
  · exact .inl hc
  · obtain hc | hc := List.mem_append.mp hc
    · exact .inl hc
    · exact .inr ⟨List.mem_singleton.mp hc, by omega⟩

theorem onChunk_request {s : StreamState} {fromSeq : ℤ} (h : (s.onChunk d).2 = some fromSeq) :
    fromSeq = s.lastSeq := by
  unfold StreamState.onChunk at h
  split_ifs at h
  exact (Option.some.inj h).symm

theorem Tracks.receiveChunk (ht : Tracks dates db sent h) (hd : d ∈ sent)
    (hnumber : 1 ≤ d.seqGlobal) : Tracks dates db sent (h.receiveChunk d) := by
  have hnext : Tracks dates db sent (h.applyState (h.state.onChunk d).1) := by
    refine ht.applyState (ht.derived.onChunk hnumber) fun c hc => ?_
    obtain hc | ⟨rfl, -⟩ := mem_onChunk hc
    · exact ht.shown c hc
    · exact hd
  unfold Hook.receiveChunk
  dsimp only
  split_ifs
  · exact ht
  · exact ht
  · cases hrequest : (h.state.onChunk d).2 with
    | none => exact hnext
    | some fromSeq =>
      refine hnext.requestCatchup ?_
      rw [onChunk_request hrequest]
      exact ht.derived.lastSeq_nonneg

theorem Tracks.receiveTerminal (ht : Tracks dates db sent h) (payload : ToolOutputTerminal) :
    Tracks dates db sent (h.receiveTerminal dates payload) := by
  unfold Hook.receiveTerminal
  split_ifs
  · exact ht
  · exact ht
  · obtain ⟨terminal, heq⟩ := onTerminal_eq dates h.state payload
    rw [heq]
    exact ht.applyState (ht.derived.of_eq rfl rfl rfl rfl rfl) ht.shown

theorem Tracks.reconnected (ht : Tracks dates db sent h) : Tracks dates db sent h.reconnected := by
  unfold Hook.reconnected
  split_ifs
  · exact ht
  · exact ht.requestCatchup (ht.ref ▸ ht.derived.lastSeq_nonneg)

theorem Tracks.finish (ht : Tracks dates db sent h) (hi : h.requests[i]? = some r) :
    Tracks dates db sent (h.finish r (h.requests.eraseIdx i)) := by
  obtain ⟨hlt, hr⟩ := List.getElem?_eq_some_iff.mp hi
  refine ⟨ht.derived, ht.ref, ht.shown, fun r' hr' => ht.since r' (List.mem_of_mem_eraseIdx hr'),
    fun r' hr' => ht.answers r' (List.mem_of_mem_eraseIdx hr'), ?_⟩
  have hcount := (List.getElem_cons_eraseIdx_perm hlt).countP_eq (·.catchup)
  have hold := ht.catchups
  rw [Hook.catchups] at hold
  rw [List.countP_cons, hold, hr] at hcount
  show (h.requests.eraseIdx i).countP (·.catchup) =
    if (!r.catchup && h.catchupRef) = true then 1 else 0
  generalize (h.requests.eraseIdx i).countP (·.catchup) = n, r.catchup = catchup,
    h.catchupRef = inFlight at hcount ⊢
  cases catchup <;> cases inFlight <;> simp at hcount ⊢ <;> omega

theorem mem_applySnapshot {s : StreamState} {sinceSeq : Option ℤ} {snapshot : Snapshot}
    (hsorted : snapshot.items.Pairwise (·.seqGlobal < ·.seqGlobal)) :
    c ∈ (s.applySnapshot sinceSeq snapshot).chunks ↔ c ∈ (s.base sinceSeq).chunks ∨
      c ∈ snapshot.items ∧ (s.base sinceSeq).lastSeq < c.seqGlobal := by
  show c ∈ (snapshot.items.foldl StreamState.push (s.base sinceSeq)).chunks ↔ _
  rw [chunks_foldl_push hsorted, List.mem_append, List.mem_filter, decide_eq_true_eq]

theorem mem_base {s : StreamState} {sinceSeq : Option ℤ} (h : c ∈ (s.base sinceSeq).chunks) :
    c ∈ s.chunks := by
  unfold StreamState.base at h
  split_ifs at h
  · exact h
  · exact absurd h List.not_mem_nil

theorem Tracks.fulfil (ht : Tracks dates db sent h) (hnumbers : ∀ c ∈ sent, 1 ≤ c.seqGlobal)
    (hi : h.requests[i]? = some r) {snapshot : Snapshot} (hanswer : r.answer = some snapshot) :
    Tracks dates db sent (h.fulfil r snapshot (h.requests.eraseIdx i)) := by
  obtain ⟨hanswers, hitems⟩ := ht.answers r (List.mem_of_getElem? hi) snapshot hanswer
  have hnext : Tracks dates db sent
      ({ h with error := none }.applyState (h.state.applySnapshot r.sinceSeq snapshot)) := by
    refine ⟨ht.derived.applySnapshot _ fun c hc => hnumbers c (hitems c hc), rfl, ?_, ht.since,
      ht.answers, ht.catchups⟩
    intro c hc
    obtain hc | ⟨hc, -⟩ := (mem_applySnapshot hanswers.sorted).mp hc
    · exact ht.shown c (mem_base hc)
    · exact hitems c hc
  exact hnext.finish hi

theorem Tracks.reject (ht : Tracks dates db sent h) (hi : h.requests[i]? = some r)
    (message : String) : Tracks dates db sent (h.reject r message (h.requests.eraseIdx i)) := by
  have hnext : Tracks dates db sent
      { h with error := if fromStart r.sinceSeq then some message else h.error } :=
    ⟨ht.derived, ht.ref, ht.shown, ht.since, ht.answers, ht.catchups⟩
  exact hnext.finish hi

theorem Tracks.serve (ht : Tracks dates db sent h) (hstored : ∀ c, Stored dates db c → c ∈ sent)
    (hi : h.requests[i]? = some r) {snapshot : Snapshot}
    (hsnapshot : getToolOutputSnapshot dates db r.params = some snapshot) :
    Tracks dates db sent
      { h with requests := h.requests.set i { r with answer := some snapshot } } := by
  obtain ⟨hlt, hr⟩ := List.getElem?_eq_some_iff.mp hi
  have hsince := ht.since r (List.mem_of_getElem? hi)
  refine ⟨ht.derived, ht.ref, ht.shown, ?_, ?_, ?_⟩
  · intro r' hr'
    obtain hr' | rfl := List.mem_or_eq_of_mem_set hr'
    · exact ht.since r' hr'
    · exact hsince
  · intro r' hr' snapshot' hanswer
    obtain hr' | rfl := List.mem_or_eq_of_mem_set hr'
    · exact ht.answers r' hr' snapshot' hanswer
    · obtain rfl := Option.some.inj hanswer
      obtain ⟨hanswers, hitems⟩ := answers_of_snapshot hsince hsnapshot
      exact ⟨⟨hanswers.sorted, hanswers.eventId, hanswers.covers⟩,
        fun c hc => hstored c (hitems c hc)⟩
  · rw [Hook.catchups, List.countP_set hlt, hr]
    have hcount := (List.getElem_cons_eraseIdx_perm hlt).countP_eq (·.catchup)
    rw [List.countP_cons, hr] at hcount
    have hold := ht.catchups
    rw [Hook.catchups] at hold
    show h.requests.countP (·.catchup) - (if r.catchup = true then 1 else 0) +
      (if r.catchup = true then 1 else 0) = if h.catchupRef = true then 1 else 0
    omega

/-- A chunk that is stored later comes after the items of every answer. -/
theorem Answers.mono {items : List Payload} (h : Answers dates db r items)
    (hstored : ∀ c, Stored dates db' c → c.eventId = r.eventId →
      Stored dates db c ∨ ∀ d ∈ items, d.seqGlobal < c.seqGlobal) : Answers dates db' r items where
  sorted := h.sorted
  eventId := h.eventId
  covers := by
    rintro c hc hid hlt ⟨d, hd, hle⟩
    obtain hc | hafter := hstored c hc hid
    · exact h.covers c hc hid hlt ⟨d, hd, hle⟩
    · exact absurd hle (not_le.mpr (hafter d hd))

theorem Tracks.mono (ht : Tracks dates db sent h) (hsent : ∀ c ∈ sent, c ∈ sent')
    (hstored : ∀ c, Stored dates db' c → Stored dates db c ∨
      ∀ d ∈ sent, d.eventId = c.eventId → d.seqGlobal < c.seqGlobal) :
    Tracks dates db' sent' h where
  derived := ht.derived
  ref := ht.ref
  shown := fun c hc => hsent c (ht.shown c hc)
  since := ht.since
  answers := by
    intro r hr snapshot hanswer
    obtain ⟨hanswers, hitems⟩ := ht.answers r hr snapshot hanswer
    refine ⟨hanswers.mono fun c hc hid => ?_, fun c hc => hsent c (hitems c hc)⟩
    obtain hc | hafter := hstored c hc
    · exact .inl hc
    · exact .inr fun d hd => hafter d (hitems d hd) ((hanswers.eventId d hd).trans hid.symm)
  catchups := ht.catchups

end Hooks

/-- What a step does: the server appends a chunk or writes a terminal, and the view does not move,
or one event of the view happens. -/
inductive Steps (dates : Dates) (w : World) : Action → World → Prop
  | appendChunk {event seqStream source data ts available} (hevent : event ∈ w.db.events) :
    Steps dates w (.appendChunk event seqStream source data ts available)
      { w with
        db := (appendToolOutputChunk dates w.db
          (w.chunkArgs event seqStream source data ts) available).1
        numbers := Function.update w.numbers event.id (w.numbers event.id + 1)
        sent := w.sent ++ [(w.chunkArgs event seqStream source data ts).payload dates] }
  | finalize {args available} :
    Steps dates w (.finalize args available)
      { w with
        db := (finalizeToolOutputTerminal w.db args available).1
        sentTerminals := w.sentTerminals ++ [(finalizeToolOutputTerminal w.db args available).2] }
  | deliverChunk {payload} (hsent : payload ∈ w.sent) :
    Steps dates w (.deliverChunk payload) { w with hook := w.hook.receiveChunk payload }
  | deliverTerminal {payload} :
    Steps dates w (.deliverTerminal payload)
      { w with hook := w.hook.receiveTerminal dates payload }
  | reconnected : Steps dates w .reconnected { w with hook := w.hook.reconnected }
  | render {runId eventId enabled} :
    Steps dates w (.render runId eventId enabled)
      { w with hook := w.hook.render runId eventId enabled }
  | serve {i r snapshot} (hi : w.hook.requests[i]? = some r)
    (hsnapshot : getToolOutputSnapshot dates w.db r.params = some snapshot) :
    Steps dates w (.serve i)
      { w with hook := { w.hook with
        requests := w.hook.requests.set i { r with answer := some snapshot } } }
  | receive {i r snapshot} (hi : w.hook.requests[i]? = some r)
    (hanswer : r.answer = some snapshot) :
    Steps dates w (.receive i)
      { w with hook := w.hook.fulfil r snapshot (w.hook.requests.eraseIdx i) }
  | fail {i r message} (hi : w.hook.requests[i]? = some r) :
    Steps dates w (.fail i message)
      { w with hook := w.hook.reject r message (w.hook.requests.eraseIdx i) }

theorem steps_of_step (h : step dates w a = some w') : Steps dates w a w' := by
  cases a <;> simp only [step] at h
  case appendChunk event seqStream source data ts available =>
    split_ifs at h with hevent
    obtain rfl := Option.some.inj h
    rw [(appendToolOutputChunk_cases ..).1]
    exact .appendChunk hevent
  case finalize args available =>
    obtain rfl := Option.some.inj h
    exact .finalize
  case deliverChunk payload =>
    split_ifs at h with hsent
    obtain rfl := Option.some.inj h
    exact .deliverChunk hsent
  case deliverTerminal payload =>
    split_ifs at h
    obtain rfl := Option.some.inj h
    exact .deliverTerminal
  case reconnected =>
    obtain rfl := Option.some.inj h
    exact .reconnected
  case render runId eventId enabled =>
    obtain rfl := Option.some.inj h
    exact .render
  case serve i =>
    cases hi : w.hook.requests[i]? with
    | none => simp [hi] at h
    | some r =>
      simp only [hi] at h
      split_ifs at h
      obtain ⟨snapshot, hsnapshot, rfl⟩ := Option.map_eq_some_iff.mp h
      exact .serve hi hsnapshot
  case receive i =>
    cases hi : w.hook.requests[i]? with
    | none => simp [hi] at h
    | some r =>
      simp only [hi] at h
      obtain ⟨snapshot, hanswer, rfl⟩ := Option.map_eq_some_iff.mp h
      exact .receive hi hanswer
  case fail i message =>
    cases hi : w.hook.requests[i]? with
    | none => simp [hi] at h
    | some r =>
      simp only [hi] at h
      obtain rfl := Option.some.inj h
      exact .fail hi

/-- What holds in every order of the steps. -/
structure Sound (dates : Dates) (w : World) : Prop where
  published : Published dates w
  tracks : Tracks dates w.db w.sent w.hook

/-- Numbers of an event are before the next one. -/
theorem Published.lt_next (h : Published dates w) (hc : c ∈ w.sent) {eventId : String}
    (hid : c.eventId = eventId) : c.seqGlobal < (w.numbers eventId : ℤ) + 1 := by
  have := (h.numbered c hc).2
  rw [hid] at this
  omega

theorem Published.appendChunk {event : RunEvent String} {seqStream : ℤ}
    {source : ToolOutputSource} {data : String} {ts : ℤ} {available : Bool}
    (h : Published dates w) (hevent : event ∈ w.db.events) :
    Published dates { w with
      db := (appendToolOutputChunk dates w.db
        (w.chunkArgs event seqStream source data ts) available).1
      numbers := Function.update w.numbers event.id (w.numbers event.id + 1)
      sent := w.sent ++ [(w.chunkArgs event seqStream source data ts).payload dates] } := by
  refine ⟨fun c hc => ?_, fun c hc => ?_, fun c hc d hd hid hseq => ?_⟩
  · obtain hc | rfl := stored_append ⟨rfl, rfl, rfl⟩ hevent hc
    · exact List.mem_append_left _ (h.stored c hc)
    · exact List.mem_append_right _ List.mem_cons_self
  · show 1 ≤ c.seqGlobal ∧ c.seqGlobal ≤
      (Function.update w.numbers event.id (w.numbers event.id + 1) c.eventId : ℕ)
    obtain hc | hc := List.mem_append.mp hc
    · have hold := h.numbered c hc
      by_cases hsame : c.eventId = event.id
      · rw [hsame, Function.update_self]
        rw [hsame] at hold
        omega
      · rw [Function.update_of_ne hsame]
        exact hold
    · rw [List.mem_singleton.mp hc]
      show 1 ≤ (w.numbers event.id : ℤ) + 1 ∧ (w.numbers event.id : ℤ) + 1 ≤
        (Function.update w.numbers event.id (w.numbers event.id + 1) event.id : ℕ)
      rw [Function.update_self]
      omega
  · -- the new chunk has a greater number than those of its event
    obtain hc | hc := List.mem_append.mp hc <;> obtain hd | hd := List.mem_append.mp hd
    · exact h.unique c hc d hd hid hseq
    · rw [List.mem_singleton.mp hd] at hid hseq
      have hlt := h.lt_next hc hid
      exact absurd hseq (ne_of_lt hlt)
    · rw [List.mem_singleton.mp hc] at hid hseq
      have hlt := h.lt_next hd hid.symm
      exact absurd hseq.symm (ne_of_lt hlt)
    · rw [List.mem_singleton.mp hc, List.mem_singleton.mp hd]

theorem sound_step (h : Sound dates w) (hstep : step dates w a = some w') : Sound dates w' := by
  obtain ⟨hpub, htracks⟩ := h
  have hview : ∀ hook, Tracks dates w.db w.sent hook → Sound dates { w with hook } :=
    fun hook ht => ⟨⟨hpub.stored, hpub.numbered, hpub.unique⟩, ht⟩
  cases steps_of_step hstep with
  | appendChunk hevent =>
    refine ⟨hpub.appendChunk hevent, ?_⟩
    refine htracks.mono (fun c hc => List.mem_append_left _ hc) fun c hc => ?_
    obtain hc | rfl := stored_append ⟨rfl, rfl, rfl⟩ hevent hc
    · exact .inl hc
    · exact .inr fun d hd hid => hpub.lt_next hd hid
  | @finalize args available =>
    refine ⟨⟨fun c hc => hpub.stored c ((stored_finalize args available).mp hc), hpub.numbered,
      hpub.unique⟩, htracks.mono (fun _ hc => hc) fun c hc => .inl ?_⟩
    exact (stored_finalize args available).mp hc
  | deliverChunk hsent => exact hview _ (htracks.receiveChunk hsent (hpub.numbered _ hsent).1)
  | deliverTerminal => exact hview _ (htracks.receiveTerminal _)
  | reconnected => exact hview _ htracks.reconnected
  | render => exact hview _ (htracks.render _ _ _)
  | serve hi hsnapshot => exact hview _ (htracks.serve hpub.stored hi hsnapshot)
  | receive hi hanswer =>
    exact hview _ (htracks.fulfil (fun c hc => (hpub.numbered c hc).1) hi hanswer)
  | fail hi => exact hview _ (htracks.reject hi _)

variable {events : List (RunEvent String)} {hids : (events.map RunEvent.id).Nodup}
  {ok : World → Action → Prop}

theorem not_stored_start {hook : Hook} : ¬ Stored dates (World.start events hids hook).db c := by
  rintro ⟨row, hrow, -⟩
  exact List.not_mem_nil hrow

theorem sound_start (runId eventId : String) (enabled : Bool) :
    Sound dates (World.start events hids (.mount runId eventId enabled)) where
  published := ⟨fun _ hc => absurd hc not_stored_start, fun _ hc => absurd hc List.not_mem_nil,
    fun _ hc => absurd hc List.not_mem_nil⟩
  tracks := Tracks.reset ⟨derived_initial, rfl, fun _ hc => absurd hc List.not_mem_nil,
    fun _ hr => absurd hr List.not_mem_nil, fun _ hr => absurd hr List.not_mem_nil, rfl⟩

theorem sound_of_reached {runId eventId : String} {enabled : Bool}
    (h : Reached (step dates) ok (World.start events hids (.mount runId eventId enabled)) w) :
    Sound dates w :=
  h.invariant (sound_start runId eventId enabled) fun _ _ _ hs _ => sound_step hs

end Agyn.OutputStreaming
