import Agyn.InteractiveExec

/-!
The bookkeeping of interactive execs. A session that finishes deletes the entry under its current
id and no other, and a call that is registered after its session has finished is never deleted; the
end of the stream settles the promise unless an exit has come before the start.
-/
namespace Agyn.InteractiveExec

variable {κ : Type} {cfg : ExecConfig} {call other : κ}

section Settlement

variable {α : Type} {p : Settlement α}

theorem Settlement.resolve_of_settled (h : p ≠ .pending) (value : α) : p.resolve value = p := by
  cases p with
  | pending => exact absurd rfl h
  | resolved value => rfl
  | rejected error => rfl

theorem Settlement.reject_of_settled (h : p ≠ .pending) (error : ExecFailure) :
    p.reject error = p := by
  cases p with
  | pending => exact absurd rfl h
  | resolved value => rfl
  | rejected error => rfl

theorem Settlement.resolve_settles (p : Settlement α) (value : α) :
    p.resolve value ≠ .pending := by
  cases p <;> simp [Settlement.resolve]

theorem Settlement.reject_settles (p : Settlement α) (error : ExecFailure) :
    p.reject error ≠ .pending := by
  cases p <;> simp [Settlement.reject]

end Settlement

/-- The session is returned once its promise is resolved, and is cancelled locally once it is
returned. -/
structure Session.Opened (s : Session) : Prop where
  returned : s.resolvedExecId.isSome → s.readyPromise = .resolved ()
  cancelled : s.cancelledLocally → s.resolvedExecId.isSome

structure Session.Goes (s s' : Session) : Prop where
  settled : s.readyPromise ≠ .pending → s'.readyPromise = s.readyPromise
  resolvedExecId : s'.resolvedExecId = s.resolvedExecId
  cancelledLocally : s'.cancelledLocally → s.cancelledLocally ∨ s.resolvedExecId.isSome
  streamEnded : s'.streamEnded = s.streamEnded

theorem Session.Goes.refl (s : Session) : s.Goes s := ⟨fun _ => rfl, rfl, .inl, rfl⟩

theorem Session.Goes.trans {s t u : Session} (h : s.Goes t) (h' : t.Goes u) : s.Goes u where
  settled hs := by
    have ht := h.settled hs
    rw [h'.settled (by rwa [ht]), ht]
  resolvedExecId := h'.resolvedExecId.trans h.resolvedExecId
  cancelledLocally hu := (h'.cancelledLocally hu).elim h.cancelledLocally
    fun hid => .inr (h.resolvedExecId ▸ hid)
  streamEnded := h'.streamEnded.trans h.streamEnded

theorem Session.Opened.goes {s s' : Session} (h : s.Opened) (hgoes : s.Goes s') : s'.Opened where
  returned hs' := by
    have hready := h.returned (hgoes.resolvedExecId ▸ hs')
    rw [hgoes.settled (by simp [hready]), hready]
  cancelled hs' := by
    rw [hgoes.resolvedExecId]
    exact (hgoes.cancelledLocally hs').elim h.cancelled id

namespace Exec

variable {x y x' : Exec κ} {a : Action}

/-- The session finishes, and its own entry is deleted. -/
structure Finishes (x x' : Exec κ) : Prop where
  goes : x.session.Goes x'.session
  finished : x'.session.finished = true
  streams : ∀ id, x'.interactiveStreams.get id =
    if x.session.activeId = some id then none else x.interactiveStreams.get id

/-- The session does not finish, and nothing is registered. -/
structure Quiet (x x' : Exec κ) : Prop where
  goes : x.session.Goes x'.session
  finished : x'.session.finished = x.session.finished
  streams : ∀ id entry, x'.interactiveStreams.get id = some entry →
    x.interactiveStreams.get id = some entry

theorem get_cleanupStream (x : Exec κ) (id : String) :
    x.cleanupStream.interactiveStreams.get id =
      if x.session.activeId = some id then none else x.interactiveStreams.get id := by
  unfold cleanupStream
  cases h : x.session.activeId with
  | none => simp
  | some own =>
    rw [InsMap.get_delete]
    exact if_congr (by rw [Option.some_inj, eq_comm]) rfl rfl

@[simp] theorem session_cleanupStream (x : Exec κ) : x.cleanupStream.session = x.session := by
  unfold cleanupStream
  split <;> rfl

theorem finishes_finalize (h : x.session.finished = false) (result : ExecResult) :
    Finishes x (x.finalize result) := by
  rw [finalize, if_neg (by simp [h])]
  exact ⟨⟨fun _ => rfl, rfl, .inl, rfl⟩, rfl, get_cleanupStream x⟩

/-- What finishes a session after its own entry is deleted, or something else is set, finishes
it. -/
theorem Finishes.of_goes (h : Finishes y x') (hgoes : x.session.Goes y.session)
    (hid : y.session.activeId = x.session.activeId)
    (hstreams : ∀ id, y.session.activeId ≠ some id →
      y.interactiveStreams.get id = x.interactiveStreams.get id) : Finishes x x' where
  goes := hgoes.trans h.goes
  finished := h.finished
  streams id := by
    rw [h.streams, hid]
    split_ifs with hown
    · rfl
    · exact hstreams id (hid ▸ hown)

/-- A failure also settles the promise. -/
theorem finishes_fail (h : x.session.finished = false) (error : ExecFailure) :
    Finishes x (x.fail error) ∧ (x.fail error).session.readyPromise ≠ .pending := by
  rw [fail, if_neg (by simp [h])]
  by_cases hcancel : error.isCancellation
  · rw [if_pos hcancel]
    let y : Exec κ :=
      { x with session := { x.session with readyPromise := x.session.readyPromise.resolve () } }
    have hy : Finishes y (y.finalize emptyResult) := finishes_finalize (x := y) h emptyResult
    refine ⟨hy.of_goes ⟨fun hs => ?_, rfl, .inl, rfl⟩ rfl fun _ _ => rfl, ?_⟩
    · exact Settlement.resolve_of_settled hs ()
    · show (y.finalize emptyResult).session.readyPromise ≠ .pending
      rw [hy.goes.settled (Settlement.resolve_settles _ ())]
      exact Settlement.resolve_settles _ ()
  · rw [if_neg hcancel]
    refine ⟨⟨⟨fun hs => ?_, rfl, .inl, rfl⟩, rfl, get_cleanupStream x⟩, ?_⟩
    · exact Settlement.reject_of_settled hs error
    · exact Settlement.reject_settles _ error

theorem finalize_of_finished (h : x.session.finished = true) (result : ExecResult) :
    x.finalize result = x := if_pos h

theorem fail_of_finished (h : x.session.finished = true) (error : ExecFailure) :
    x.fail error = x := if_pos h

theorem Quiet.of_goes (hgoes : x.session.Goes x'.session)
    (hfinished : x'.session.finished = x.session.finished)
    (hstreams : x'.interactiveStreams = x.interactiveStreams) : Quiet x x' where
  goes := hgoes
  finished := hfinished
  streams _ _ h := hstreams ▸ h

theorem Quiet.refl (x : Exec κ) : Quiet x x := .of_goes (.refl _) rfl rfl

theorem quiet_onStdout (x : Exec κ) (data : Bytes) : Quiet x (x.onStdout data) := by
  unfold onStdout
  split
  · exact .of_goes ⟨fun _ => rfl, rfl, .inl, rfl⟩ rfl rfl
  · exact .refl x

theorem quiet_onStderr (x : Exec κ) (data : Bytes) : Quiet x (x.onStderr data) := by
  unfold onStderr
  split
  · exact .refl x
  · split
    · exact .of_goes ⟨fun _ => rfl, rfl, .inl, rfl⟩ rfl rfl
    · exact .of_goes ⟨fun _ => rfl, rfl, .inl, rfl⟩ rfl rfl

/-- What finishes a session that has not finished, and does nothing to one that has. -/
def Ends (x x' : Exec κ) : Prop :=
  (x.session.finished = true ∧ Quiet x x') ∨ (x.session.finished = false ∧ Finishes x x')

theorem ends_fail (x : Exec κ) (error : ExecFailure) : Ends x (x.fail error) := by
  cases h : x.session.finished with
  | true =>
    rw [fail_of_finished h]
    exact .inl ⟨h, .refl x⟩
  | false => exact .inr ⟨h, (finishes_fail h error).1⟩

theorem ends_finalize (x : Exec κ) (result : ExecResult) : Ends x (x.finalize result) := by
  cases h : x.session.finished with
  | true =>
    rw [finalize_of_finished h]
    exact .inl ⟨h, .refl x⟩
  | false => exact .inr ⟨h, finishes_finalize h result⟩

/-- What ends the session after something else is set in it ends it. -/
theorem Ends.of_goes (h : Ends y x') (hgoes : x.session.Goes y.session)
    (hfinished : y.session.finished = x.session.finished)
    (hid : y.session.activeId = x.session.activeId)
    (hstreams : y.interactiveStreams = x.interactiveStreams) : Ends x x' := by
  obtain ⟨hy, hquiet⟩ | ⟨hy, hfin⟩ := h
  · refine .inl ⟨hfinished ▸ hy, hgoes.trans hquiet.goes, hquiet.finished.trans hfinished, ?_⟩
    exact fun id entry h => hstreams ▸ hquiet.streams id entry h
  · exact .inr ⟨hfinished ▸ hy, hfin.of_goes hgoes hid fun _ _ => by rw [hstreams]⟩

/-- An exit ends the session in each of its branches. -/
theorem ends_onExit (cfg : ExecConfig) (x : Exec κ) (exitCode : ℤ) (reason : ExecExitReason)
    (stdoutTail stderrTail : Bytes) :
    Ends x (x.onExit cfg exitCode reason stdoutTail stderrTail) := by
  let y : Exec κ := { x with session := { x.session with forcedTerminationReason := none } }
  have hunforced : ∀ stdout stderr, Ends y (y.unforcedExit cfg exitCode reason stdout stderr) := by
    intro stdout stderr
    unfold unforcedExit
    split
    · split_ifs
      · exact ends_finalize y _
      · exact ends_fail y _
    · exact ends_finalize y _
  refine Ends.of_goes (y := y) ?_ ⟨fun _ => rfl, rfl, .inl, rfl⟩ rfl rfl rfl
  unfold onExit
  dsimp only
  split
  · split
    · exact ends_fail y _
    · exact hunforced _ _
  · exact hunforced _ _

theorem ends_onError (cfg : ExecConfig) (x : Exec κ) (err : ServiceError) :
    Ends x (x.onError cfg err) := by
  unfold onError
  split_ifs with h
  · exact .inl ⟨h, .refl x⟩
  · dsimp only
    split
    · exact ends_fail x _
    · exact ends_fail x _

def atEnd (x : Exec κ) : Exec κ := { x with session := { x.session with streamEnded := true } }

/-- The end of the stream settles the promise of a session that it finishes: one that is cancelled
locally has been returned. -/
theorem onEnd_effect (hopened : x.session.Opened) :
    x.onEnd.session.streamEnded = true ∧
      ((x.session.finished = true ∧ x.onEnd.session.finished = true ∧
          x.onEnd.session.readyPromise = x.session.readyPromise ∧
          x.onEnd.interactiveStreams = x.interactiveStreams) ∨
        (x.session.finished = false ∧ x.onEnd.session.readyPromise ≠ .pending ∧
          Finishes x.atEnd x.onEnd)) := by
  let y := x.atEnd
  cases h : x.session.finished with
  | true =>
    have heq : x.onEnd = y := if_pos h
    rw [heq]
    exact ⟨rfl, .inl ⟨rfl, h, rfl, rfl⟩⟩
  | false =>
    have hclean : y.cleanupStream.session = y.session := session_cleanupStream y
    have hunfinished : y.cleanupStream.session.finished = false := by
      rw [hclean]
      exact h
    have hof : ∀ {x'}, Finishes y.cleanupStream x' → Finishes y x' := by
      intro x' hfin
      refine hfin.of_goes (hclean ▸ .refl _) (by rw [hclean]) fun id hid => ?_
      rw [get_cleanupStream, if_neg (hclean ▸ hid)]
    have hbranch : x.onEnd = if y.cleanupStream.session.cancelledLocally then
        y.cleanupStream.finalize emptyResult
      else y.cleanupStream.fail
        (.request 0 "runner_stream_closed" true "Exec stream ended before exit event") :=
      if_neg (by simp [h])
    rw [hbranch]
    split_ifs with hcancelled
    · have hfin := hof (finishes_finalize hunfinished emptyResult)
      refine ⟨hfin.goes.streamEnded, .inr ⟨rfl, ?_, hfin⟩⟩
      have hready : y.session.readyPromise = .resolved () :=
        hopened.returned (hopened.cancelled (by rwa [hclean] at hcancelled))
      rw [hfin.goes.settled (by simp [hready]), hready]
      simp
    · obtain ⟨hfin, hready⟩ := finishes_fail hunfinished
        (.request 0 "runner_stream_closed" true "Exec stream ended before exit event")
      exact ⟨(hof hfin).goes.streamEnded, .inr ⟨rfl, hready, hof hfin⟩⟩

theorem ends_finishClose (x : Exec κ) : Ends x x.finishClose := by
  unfold finishClose
  split_ifs with h
  · exact .inl ⟨h, .refl x⟩
  · exact ends_finalize x emptyResult

def NoEntry (call : κ) (x : Exec κ) : Prop := ∀ id, x.interactiveStreams.get id ≠ some call

/-- Every entry of the call is under the id that `cleanupStream` deletes. -/
def OwnOnly (call : κ) (x : Exec κ) : Prop :=
  ∀ e ∈ x.interactiveStreams.entries, e.2 = call → x.session.activeId = some e.1

instance [DecidableEq κ] : Decidable (OwnOnly call x) := List.decidableBAll _ _

def finishes (x : Exec κ) : Action → Bool
  | .data (some (.exit ..)) => true
  | .data (some (.error ..)) => true
  | .error _ => true
  | .streamEnd => true
  | .close => x.session.finalResult = none ∧ x.session.activeId = none
  | .closeGoesOn => true
  | _ => false

/-- Nothing is registered for a session that has finished, a session finishes with no entry but its
own, and the end of the stream does not come to a session that has finished without a start. -/
def Clear (call : κ) (x : Exec κ) (a : Action) : Prop :=
  if x.session.finished then
    match a with
    | .data (some (.started executionId)) => executionId = ""
    | .returns _ => x.session.activeId.isSome
    | .streamEnd => x.session.readyPromise ≠ .pending
    | _ => True
  else x.finishes a → OwnOnly call x

instance [DecidableEq κ] (a : Action) : Decidable (Clear call x a) := by
  unfold Clear
  split
  · split <;> infer_instance
  · infer_instance

inductive Effect (call : κ) (x x' : Exec κ) : Action → Prop
  | quiet {a : Action} : Quiet x x' → Clear call x a → Effect call x x' a
  | finishes {a : Action} : x.session.finished = false → x.finishes a → Finishes x x' →
      Effect call x x' a
  | started (executionId : String) : x' = x.onStarted call executionId →
      Effect call x x' (.data (some (.started executionId)))
  | returns (uuid : String) : x.session.readyPromise = .resolved () → x' = x.afterReady call uuid →
      Effect call x x' (.returns uuid)
  | streamEnd : x' = x.onEnd → Effect call x x' .streamEnd

theorem Effect.of_ends (h : Ends x x') (hfin : x.finishes a = true)
    (hclear : x.session.finished = true → Clear call x a) : Effect call x x' a := by
  obtain ⟨hx, hquiet⟩ | ⟨hx, hfinishes⟩ := h
  · exact .quiet hquiet (hclear hx)
  · exact .finishes hx hfin hfinishes

theorem effect_onData (cfg : ExecConfig) (call : κ) (x : Exec κ) (event : Option ExecEvent) :
    Effect call x (x.onData cfg call event) (.data event) := by
  cases event with
  | none => exact .quiet (.refl x) (by simp [Clear, finishes])
  | some event =>
    cases event with
    | started executionId => exact .started executionId rfl
    | stdout data => exact .quiet (quiet_onStdout x data) (by simp [Clear, finishes])
    | stderr data => exact .quiet (quiet_onStderr x data) (by simp [Clear, finishes])
    | exit exitCode reason stdoutTail stderrTail =>
      refine .of_ends (ends_onExit cfg x exitCode reason stdoutTail stderrTail) rfl fun h => ?_
      simp [Clear, h]
    | error code message retryable =>
      exact .of_ends (ends_fail x _) rfl fun h => by simp [Clear, h]

theorem effect_close (call : κ) (hid : x.session.resolvedExecId.isSome) :
    Effect call x x.close .close := by
  unfold close
  split_ifs with hresult
  · exact .quiet (.refl x) (by simp [Clear, finishes, Option.isSome_iff_ne_none.mp hresult])
  · let y : Exec κ := { x with session := { x.session with cancelledLocally := true } }
    dsimp only
    split
    · rename_i hactive
      refine .quiet (.of_goes ⟨fun _ => rfl, rfl, fun _ => .inr hid, rfl⟩ rfl rfl) ?_
      have hne : x.session.activeId ≠ none := Option.isSome_iff_ne_none.mp hactive
      simp [Clear, finishes, hne]
    · rename_i hactive
      have hnone : x.session.activeId = none := Option.not_isSome_iff_eq_none.mp hactive
      refine .of_ends ((ends_finishClose y).of_goes ?_ rfl rfl rfl) ?_ fun h => by simp [Clear, h]
      · exact ⟨fun _ => rfl, rfl, fun _ => .inr hid, rfl⟩
      · simpa [finishes, hnone] using hresult

theorem effect_destroyStdin (call : κ) (hid : x.session.resolvedExecId.isSome) :
    Effect call x x.destroyStdin .destroyStdin := by
  refine .quiet ⟨?_, ?_, fun id entry h => ?_⟩ (by simp [Clear, finishes])
  · rw [destroyStdin, session_cleanupStream]
    exact ⟨fun _ => rfl, rfl, fun _ => .inr hid, rfl⟩
  · rw [destroyStdin, session_cleanupStream]
  · rw [destroyStdin, get_cleanupStream] at h
    split_ifs at h
    exact h

theorem effect_terminate (call : κ) (x : Exec κ) (id : String) (reason : TerminationReason) :
    Effect call x (x.terminateProcessGroup id reason) (.terminate reason) := by
  refine .quiet ?_ (by simp [Clear, finishes])
  unfold terminateProcessGroup
  split_ifs
  · exact .refl x
  · exact .of_goes ⟨fun _ => rfl, rfl, .inl, rfl⟩ rfl rfl

theorem effect_terminateGoesOn (call : κ) (hid : x.session.resolvedExecId.isSome)
    (cancelled : Option Bool) :
    Effect call x (x.terminationAnswered cancelled) (.terminateGoesOn cancelled) := by
  refine .quiet ?_ (by simp [Clear, finishes])
  unfold terminationAnswered
  dsimp only
  split_ifs
  · exact .of_goes ⟨fun _ => rfl, rfl, fun _ => .inr hid, rfl⟩ rfl rfl
  · exact .of_goes ⟨fun _ => rfl, rfl, .inl, rfl⟩ rfl rfl

theorem step_effect (h : x.step cfg call a = some x') : Effect call x x' a := by
  unfold step at h
  split at h
  case h_1 event => exact Option.some.inj h ▸ effect_onData cfg call x event
  case h_2 err =>
    exact Option.some.inj h ▸ .of_ends (ends_onError cfg x err) rfl fun hx => by simp [Clear, hx]
  case h_3 => exact .streamEnd (Option.some.inj h).symm
  case h_4 uuid _ =>
    split_ifs at h with hready
    exact .returns uuid hready (Option.some.inj h).symm
  case h_5 id hid => exact Option.some.inj h ▸ effect_close call (by rw [hid]; rfl)
  case h_6 id hid =>
    split_ifs at h
    refine .of_ends (Option.some.inj h ▸ (ends_finishClose _).of_goes ?_ rfl rfl rfl) rfl
      fun hx => by simp [Clear, hx]
    exact ⟨fun _ => rfl, rfl, .inl, rfl⟩
  case h_7 id hid => exact Option.some.inj h ▸ effect_destroyStdin call (by rw [hid]; rfl)
  case h_8 reason id _ => exact Option.some.inj h ▸ effect_terminate call x id reason
  case h_9 cancelled id hid =>
    split_ifs at h
    exact Option.some.inj h ▸ effect_terminateGoesOn call (by rw [hid]; rfl) cancelled
  case h_10 => exact absurd h (by simp)

theorem opened_step (ho : x.session.Opened) (h : x.step cfg call a = some x') :
    x'.session.Opened := by
  cases step_effect h with
  | quiet hquiet _ => exact ho.goes hquiet.goes
  | finishes _ _ hfin => exact ho.goes hfin.goes
  | started executionId heq =>
    subst heq
    exact ho.goes ⟨fun hs => Settlement.resolve_of_settled hs (), rfl, .inl, rfl⟩
  | returns uuid hready heq =>
    subst heq
    exact ⟨fun _ => hready, fun _ => rfl⟩
  | streamEnd heq =>
    subst heq
    obtain ⟨-, ⟨h, -, hready, -⟩ | ⟨-, -, hfin⟩⟩ := onEnd_effect ho
    · have heq : x.onEnd = x.atEnd := if_pos h
      rw [heq]
      exact ⟨ho.returned, ho.cancelled⟩
    · have hopened : x.atEnd.session.Opened := ⟨ho.returned, ho.cancelled⟩
      exact hopened.goes hfin.goes

/-- An action of one call registers no other. -/
theorem get_of_step (ho : x.session.Opened) (h : x.step cfg call a = some x') (hne : other ≠ call)
    {id : String} (hget : x'.interactiveStreams.get id = some other) :
    x.interactiveStreams.get id = some other := by
  have hset : ∀ {key : String},
      (x.interactiveStreams.set key call).get id = some other →
        x.interactiveStreams.get id = some other := by
    intro key hkey
    rw [InsMap.get_set] at hkey
    split_ifs at hkey
    · exact absurd (Option.some.inj hkey).symm hne
    · exact hkey
  have hfinishes : ∀ {y : Exec κ}, y.interactiveStreams = x.interactiveStreams → Finishes y x' →
      x.interactiveStreams.get id = some other := by
    intro y hy hfin
    rw [hfin.streams, hy] at hget
    split_ifs at hget
    exact hget
  cases step_effect h with
  | quiet hquiet _ => exact hquiet.streams id other hget
  | finishes _ _ hfin => exact hfinishes rfl hfin
  | started executionId heq =>
    rw [heq, onStarted] at hget
    dsimp only at hget
    split_ifs at hget
    · exact hset hget
    · exact hget
  | returns uuid _ heq =>
    rw [heq, afterReady] at hget
    dsimp only at hget
    split_ifs at hget
    · exact hset hget
    · exact hget
  | streamEnd heq =>
    subst heq
    obtain ⟨-, ⟨-, -, -, hstreams⟩ | ⟨-, -, hfin⟩⟩ := onEnd_effect ho
    · exact hstreams ▸ hget
    · exact hfinishes (y := x.atEnd) rfl hfin

structure Kept (call : κ) (x : Exec κ) : Prop where
  settles : x.session.streamEnded → x.session.readyPromise ≠ .pending
  unregistered : x.session.finished → NoEntry call x

theorem noEntry_iff (h : Finishes x x') : NoEntry call x' ↔ OwnOnly call x := by
  constructor
  · rintro hno ⟨id, entry⟩ hmem rfl
    have hget : x.interactiveStreams.get id = some entry := (InsMap.get_eq_some_iff _ _ _).mpr hmem
    by_contra hown
    refine hno id ?_
    rw [h.streams, if_neg hown, hget]
  · intro hown id hget
    rw [h.streams] at hget
    split_ifs at hget with hid
    exact hid (hown (id, call) ((InsMap.get_eq_some_iff _ _ _).mp hget) rfl)

theorem not_noEntry_set (m : InsMap String κ) (s : Session) (id : String) :
    ¬NoEntry call ⟨s, m.set id call⟩ := by
  intro hno
  refine hno id ?_
  show (m.set id call).get id = some call
  rw [InsMap.get_set, if_pos rfl]

theorem kept_iff (ho : x.session.Opened) (hk : Kept call x) (h : x.step cfg call a = some x') :
    Kept call x' ↔ Clear call x a := by
  cases step_effect h with
  | quiet hquiet hclear =>
    refine iff_of_true ⟨fun hended => ?_, fun hfinished id hget => ?_⟩ hclear
    · have hready := hk.settles (hquiet.goes.streamEnded ▸ hended)
      rwa [hquiet.goes.settled hready]
    · exact hk.unregistered (hquiet.finished ▸ hfinished) id (hquiet.streams id call hget)
  | finishes hx hfin hfinishes =>
    have hclear : Clear call x a ↔ OwnOnly call x := by simp [Clear, hx, hfin]
    rw [hclear, ← noEntry_iff hfinishes]
    refine ⟨fun h => h.unregistered hfinishes.finished, fun h => ⟨fun hended => ?_, fun _ => h⟩⟩
    have hready := hk.settles (hfinishes.goes.streamEnded ▸ hended)
    rwa [hfinishes.goes.settled hready]
  | started executionId heq =>
    subst heq
    have hsettles : (x.onStarted call executionId).session.readyPromise ≠ .pending :=
      Settlement.resolve_settles _ ()
    cases hx : x.session.finished with
    | false =>
      refine iff_of_true ⟨fun _ => hsettles, fun h => ?_⟩ (by simp [Clear, finishes, hx])
      exact absurd (hx.symm.trans h) (by simp)
    | true =>
      have hclear : Clear call x (.data (some (.started executionId))) ↔ executionId = "" := by
        simp [Clear, hx]
      rw [hclear]
      constructor
      · intro h
        by_contra hid
        have hno := h.unregistered hx
        rw [onStarted, if_pos hid] at hno
        exact not_noEntry_set _ _ _ hno
      · rintro rfl
        exact ⟨fun _ => hsettles, fun _ => hk.unregistered hx⟩
  | returns uuid hready heq =>
    subst heq
    have hsettles : (x.afterReady call uuid).session.readyPromise ≠ .pending := by
      show x.session.readyPromise ≠ .pending
      simp [hready]
    cases hx : x.session.finished with
    | false =>
      refine iff_of_true ⟨fun _ => hsettles, fun h => ?_⟩ (by simp [Clear, finishes, hx])
      exact absurd (hx.symm.trans h) (by simp)
    | true =>
      have hclear : Clear call x (.returns uuid) ↔ x.session.activeId ≠ none := by
        simp [Clear, hx, Option.isSome_iff_ne_none]
      rw [hclear]
      constructor
      · intro h hid
        have hno := h.unregistered hx
        rw [afterReady, if_pos hid] at hno
        exact not_noEntry_set _ _ _ hno
      · intro hid
        refine ⟨fun _ => hsettles, fun _ => ?_⟩
        rw [afterReady, if_neg hid]
        exact hk.unregistered hx
  | streamEnd heq =>
    subst heq
    obtain ⟨hended, ⟨hx, -, hready, hstreams⟩ | ⟨hx, hready, hfin⟩⟩ := onEnd_effect ho
    · have hclear : Clear call x .streamEnd ↔ x.session.readyPromise ≠ .pending := by
        simp [Clear, hx]
      rw [hclear, ← hready]
      refine ⟨fun h => h.settles hended, fun h => ⟨fun _ => h, fun _ id => ?_⟩⟩
      rw [hstreams]
      exact hk.unregistered hx id
    · have hclear : Clear call x .streamEnd ↔ OwnOnly call x := by simp [Clear, finishes, hx]
      rw [hclear]
      have hno : NoEntry call x.onEnd ↔ OwnOnly call x.atEnd := noEntry_iff hfin
      refine Iff.trans ?_ hno
      exact ⟨fun h => h.unregistered hfin.finished, fun h => ⟨fun _ => hready, fun _ => h⟩⟩

end Exec

namespace Client

variable [DecidableEq κ] {c c' : Client κ}

/-- The promise of a call once the code that is queued, if it is, has run. -/
def settledPromise (cfg : ExecConfig) (c : Client κ) (call : κ) (uuid : String) :
    Settlement String :=
  (((c.step cfg (call, .returns uuid)).getD c).sessions call).promise

def execNotFound (execId : String) : ExecFailure :=
  .request 404 "runner_exec_not_found" false s!"Execution {execId} not active"

/-- The promise of a call whose stream has ended is settled, and a call whose session has finished
has no entry, so that its ids are not found unless another call has them. -/
structure Tidy (cfg : ExecConfig) (c : Client κ) (call : κ) : Prop where
  settles : (c.sessions call).streamEnded → ∀ uuid, c.settledPromise cfg call uuid ≠ .pending
  unregistered : (c.sessions call).finished → ∀ id, c.interactiveStreams.get id ≠ some call
  notFound : (c.sessions call).finished → ∀ id,
    (∀ entry, c.interactiveStreams.get id = some entry → entry = call) →
      ∀ write cols rows, c.resizeExec write id cols rows = .error (execNotFound id)

theorem settledPromise_eq_pending_iff (cfg : ExecConfig) (c : Client κ) (call : κ) (uuid : String) :
    c.settledPromise cfg call uuid = .pending ↔ (c.sessions call).readyPromise = .pending := by
  have hstep : c.step cfg (call, .returns uuid) =
      (if (c.sessions call).resolvedExecId = none ∧
          (c.sessions call).readyPromise = .resolved () then
        some (c.put call ((c.exec call).afterReady call uuid)) else none) := by
    cases hid : (c.sessions call).resolvedExecId with
    | none =>
      by_cases hready : (c.sessions call).readyPromise = .resolved ()
      · simp [step, Exec.step, exec, hid, hready]
      · simp [step, Exec.step, exec, hid, hready]
    | some id => simp [step, Exec.step, exec, hid]
  unfold settledPromise
  rw [hstep]
  split_ifs with h
  · simp [h.2, put, Exec.afterReady, exec, Session.promise]
  · cases hready : (c.sessions call).readyPromise with
    | pending => simp [Session.promise, hready]
    | rejected error => simp [Session.promise, hready]
    | resolved value =>
      cases hid : (c.sessions call).resolvedExecId with
      | none => exact absurd ⟨hid, hready⟩ h
      | some id => simp [Session.promise, hready, hid]

theorem tidy_iff (cfg : ExecConfig) (c : Client κ) (call : κ) :
    c.Tidy cfg call ↔ (c.exec call).Kept call := by
  constructor
  · intro h
    refine ⟨fun hended hready => h.settles hended "" ?_, h.unregistered⟩
    exact (settledPromise_eq_pending_iff cfg c call "").mpr hready
  · intro h
    refine ⟨fun hended uuid hpending => h.settles hended ?_, h.unregistered, ?_⟩
    · exact (settledPromise_eq_pending_iff cfg c call uuid).mp hpending
    · intro hfinished id hentry write cols rows
      have hnone : c.interactiveStreams.get id = none := by
        refine Option.eq_none_iff_forall_ne_some.mpr fun entry hget => ?_
        obtain rfl := hentry entry hget
        exact h.unregistered hfinished id hget
      rw [resizeExec, hnone, execNotFound]

def Clear (c : Client κ) (a : κ × Action) : Prop := (c.exec a.1).Clear a.1 a.2

instance (c : Client κ) (a : κ × Action) : Decidable (c.Clear a) :=
  inferInstanceAs (Decidable ((c.exec a.1).Clear a.1 a.2))

theorem step_cases {a : κ × Action} (h : c.step cfg a = some c') :
    ∃ x', (c.exec a.1).step cfg a.1 a.2 = some x' ∧ c'.exec a.1 = x' ∧
      ∀ other, other ≠ a.1 →
        c'.exec other = { c.exec other with interactiveStreams := x'.interactiveStreams } := by
  obtain ⟨x', hx, rfl⟩ := Option.map_eq_some_iff.mp h
  refine ⟨x', hx, ?_, fun other hne => ?_⟩
  · simp [exec, put]
  · simp [exec, put, hne]

theorem opened_step {a : κ × Action} (ho : ∀ call, (c.sessions call).Opened)
    (h : c.step cfg a = some c') (call : κ) : (c'.sessions call).Opened := by
  obtain ⟨x', hx, hown, hothers⟩ := step_cases h
  by_cases hcall : call = a.1
  · subst hcall
    show (c'.exec a.1).session.Opened
    rw [hown]
    exact Exec.opened_step (ho a.1) hx
  · show (c'.exec call).session.Opened
    rw [hothers call hcall]
    exact ho call

/-- An action of one call keeps the bookkeeping of every call exactly when it meets the condition
on it. -/
theorem tidy_step_iff {a : κ × Action} (ho : ∀ call, (c.sessions call).Opened)
    (hk : ∀ call, c.Tidy cfg call) (h : c.step cfg a = some c') :
    (∀ call, c'.Tidy cfg call) ↔ c.Clear a := by
  obtain ⟨x', hx, hown, hothers⟩ := step_cases h
  have hkept := fun call => (tidy_iff cfg c call).mp (hk call)
  have hiff := Exec.kept_iff (ho a.1) (hkept a.1) hx
  constructor
  · intro hall
    have := (tidy_iff cfg c' a.1).mp (hall a.1)
    rw [hown] at this
    exact hiff.mp this
  · intro hclear call
    refine (tidy_iff cfg c' call).mpr ?_
    by_cases hcall : call = a.1
    · subst hcall
      rw [hown]
      exact hiff.mpr hclear
    · rw [hothers call hcall]
      refine ⟨(hkept call).settles, fun hfinished id hget => ?_⟩
      exact (hkept call).unregistered hfinished id (Exec.get_of_step (ho a.1) hx hcall hget)

/-- The bookkeeping of every call holds throughout a run exactly when every action of the run meets
the condition in the state in which it happens. -/
theorem tidy_throughout_iff (cfg : ExecConfig) (demuxStderr : κ → Bool) (as : List (κ × Action))
    (c : Client κ) (hrun : runFrom (step cfg) (opened demuxStderr) as = some c) :
    (∀ pre c', pre <+: as → runFrom (step cfg) (opened demuxStderr) pre = some c' →
      ∀ call, c'.Tidy cfg call) ↔ StepsMeet (step cfg) Clear (opened demuxStderr) as := by
  refine throughout_iff_stepsMeet (fun c : Client κ => ∀ call, (c.sessions call).Opened)
    (fun c => ∀ call, c.Tidy cfg call) (fun _ _ _ ho h => opened_step ho h)
    (fun _ _ _ ho hk h => tidy_step_iff ho hk h) ?_ ?_ hrun
  · exact fun call => ⟨fun h => absurd h (by simp [opened, Session.opened]),
      fun h => absurd h (by simp [opened, Session.opened])⟩
  · refine fun call => (tidy_iff cfg _ call).mpr ⟨fun h => ?_, fun h => ?_⟩
    · exact absurd h (by simp [opened, exec, Session.opened])
    · exact absurd h (by simp [opened, exec, Session.opened])

/-- A start, the return of the session, and an exit. -/
def plainRun : List (ℕ × Action) :=
  [(0, .data (some (.started "e"))), (0, .returns "u"), (0, .data (some (.stdout [104, 105]))),
    (0, .data (some (.exit 0 .completed [] []))), (0, .streamEnd)]

def noLimits : ExecConfig := ⟨none, none, none⟩

theorem tidy_throughout_plainRun :
    ∃ c, runFrom (step noLimits) (opened fun _ => true) plainRun = some c ∧
      ∀ call, c.Tidy noLimits call :=
  ⟨_, rfl, (tidy_throughout_iff noLimits (fun _ => true) plainRun _ rfl).mpr (by decide) plainRun _
    List.prefix_rfl rfl⟩

/-- An execution that exits before it is started. -/
def unstartedRun : List (ℕ × Action) :=
  [(0, .data (some (.exit 0 .completed [] []))), (0, .streamEnd)]

/-- A call that the runner cancels before the start. -/
def cancelledRun : List (ℕ × Action) :=
  [(0, .error ⟨some 1, "cancelled"⟩), (0, .returns "u"), (0, .streamEnd)]

/-- The promise of the first is never settled, and the second can be resized after its end. -/
theorem not_tidy_unstarted :
    (∃ c, runFrom (step noLimits) (opened fun _ => true) unstartedRun = some c ∧
      (c.sessions 0).streamEnded = true ∧ c.settledPromise noLimits 0 "u" = .pending) ∧
    ∃ c, runFrom (step noLimits) (opened fun _ => true) cancelledRun = some c ∧
      (c.sessions 0).finished = true ∧
      c.resizeExec (fun _ => none) "u" 80 24 = .ok ⟨0, 80, 24⟩ :=
  ⟨⟨_, rfl, rfl, rfl⟩, _, rfl, rfl, rfl⟩

end Client

end Agyn.InteractiveExec
