import Agyn.TerminalGateway

/-!
What a connection does with its session. Only the end of a cleanup gives a session up, and it does
so only once the connection has an exec or has been marked as connected; the streams and the
messages are listened to only by a connection that was marked.
-/
namespace Agyn.TerminalGateway

variable {c c' c'' : Connection} {a : Action} {next : Phase}

/-- The phases after the checks of the session in which the handler still goes on. -/
def Phase.checked : Phase → Bool
  | .preExec | .opening | .execStarted | .marked true | .resizing => true
  | _ => false

/-- The handler stays where it is, or it ends, or it is still before its checks. -/
def Phase.Stays (phase next : Phase) : Prop :=
  next = phase ∨ next.checked = false ∧ (next.beforeExec = true → phase.beforeExec = true)

theorem Phase.Stays.trans {phase next last : Phase} (h : phase.Stays next) (h' : next.Stays last) :
    phase.Stays last := by
  obtain rfl | ⟨hchecked, hearly⟩ := h'
  · exact h
  · refine .inr ⟨hchecked, fun hlast => ?_⟩
    obtain rfl | ⟨-, hearly'⟩ := h
    · exact hearly hlast
    · exact hearly' (hearly hlast)

namespace Connection

def holds (c : Connection) : Bool := c.sessionMarkedConnected || c.hasExecId

def live (c : Connection) : Bool := c.streaming || c.onMessage

/-- What no part of the handler does but the validation, the opening of the exec, the marking and
the attachment of the listeners. -/
structure Spares (c c' : Connection) : Prop where
  marked : c'.sessionMarkedConnected = c.sessionMarkedConnected
  execId : c'.execId = c.execId
  session : c'.session = c.session
  param : c'.workspaceIdParam = c.workspaceIdParam
  live : c'.live = true → c.live = true
  phase : c.phase.Stays c'.phase
  effects : ∃ es, c'.effects = c.effects ++ es ∧ .markConnected ∉ es ∧
    (.closeSession ∈ es → c.holds = true)

theorem Spares.holds (h : Spares c c') : c'.holds = c.holds := by
  rw [Connection.holds, Connection.holds, hasExecId, hasExecId, h.marked, h.execId]

theorem Spares.refl (c : Connection) : Spares c c :=
  ⟨rfl, rfl, rfl, rfl, id, .inl rfl, [], (List.append_nil _).symm, List.not_mem_nil,
    fun h => absurd h List.not_mem_nil⟩

theorem Spares.trans (h : Spares c c') (h' : Spares c' c'') : Spares c c'' := by
  obtain ⟨es, heffects, hmark, hclose⟩ := h.effects
  obtain ⟨es', heffects', hmark', hclose'⟩ := h'.effects
  refine ⟨h'.marked.trans h.marked, h'.execId.trans h.execId, h'.session.trans h.session,
    h'.param.trans h.param, fun hlive => h.live (h'.live hlive), h.phase.trans h'.phase,
    es ++ es', ?_, ?_, ?_⟩
  · rw [heffects', heffects, List.append_assoc]
  · exact fun hmem => (List.mem_append.mp hmem).elim hmark hmark'
  · exact fun hmem => (List.mem_append.mp hmem).elim hclose fun hmem => h.holds ▸ hclose' hmem

theorem Spares.effects_holds (h : Spares c c') : ∃ es, c'.effects = c.effects ++ es ∧
    (.closeSession ∈ es ∨ .markConnected ∈ es → c'.holds = true) := by
  obtain ⟨es, heffects, hmark, hclose⟩ := h.effects
  exact ⟨es, heffects, fun hmem => h.holds.trans (hclose (hmem.resolve_right hmark))⟩

theorem Spares.withPhase (h : Spares c c') (hnext : c.phase.Stays next) :
    Spares c { c' with phase := next } :=
  ⟨h.marked, h.execId, h.session, h.param, h.live, hnext, h.effects⟩

theorem spares_effect {e : Effect} (hmark : e ≠ .markConnected)
    (hclose : e = .closeSession → c.holds = true) : Spares c (c.effect e) :=
  ⟨rfl, rfl, rfl, rfl, id, .inl rfl, [e], rfl, fun hmem => hmark (List.mem_singleton.mp hmem).symm,
    fun hmem => hclose (List.mem_singleton.mp hmem).symm⟩

theorem spares_send (c : Connection) (payload : Payload) : Spares c (c.send payload) := by
  unfold send
  split_ifs
  · exact spares_effect Effect.noConfusion Effect.noConfusion
  · exact .refl c

theorem spares_close (c : Connection) (code : ℕ) (reason : String) :
    Spares c (c.close code reason) := by
  have heffect : Spares c (c.effect (.closeSocket code reason)) :=
    spares_effect Effect.noConfusion Effect.noConfusion
  rw [close]
  split_ifs
  · exact ⟨heffect.marked, heffect.execId, heffect.session, heffect.param, heffect.live,
      heffect.phase, heffect.effects⟩
  · exact heffect

theorem spares_sendExit (c : Connection) (result : Option (Except String ℤ)) :
    Spares c (c.sendExit result) := by
  unfold sendExit
  split
  · exact spares_send c _
  · exact spares_send c _
  · exact .refl c

/-- The session is kept unless the connection holds it. -/
theorem spares_endCleanup (c : Connection) (reason : String) (options : CleanupOptions)
    (result : Option (Except String ℤ)) : Spares c (c.endCleanup reason options result) := by
  obtain ⟨sent, hsent⟩ : ∃ sent, (if options.skipStatus then c else c.sendExit result) = sent :=
    ⟨_, rfl⟩
  have hspares : Spares c sent := by
    subst hsent
    split_ifs
    · exact .refl c
    · exact spares_sendExit c result
  have hkept : Spares sent (sent.effect (if
      options.preserveSession || (!sent.sessionMarkedConnected && !sent.hasExecId)
    then .touchSession else .closeSession)) := by
    split_ifs with hpreserve
    · exact spares_effect Effect.noConfusion Effect.noConfusion
    · refine spares_effect Effect.noConfusion fun _ => ?_
      simp only [Bool.or_eq_true, Bool.and_eq_true, Bool.not_eq_true', not_or,
        not_and] at hpreserve
      rw [holds]
      cases hmarked : sent.sessionMarkedConnected
      · simpa using hpreserve.2 hmarked
      · rfl
  obtain ⟨kept, heq⟩ : ∃ kept, sent.effect (if options.preserveSession ||
      (!sent.sessionMarkedConnected && !sent.hasExecId) then .touchSession else .closeSession) =
      kept := ⟨_, rfl⟩
  rw [heq] at hkept
  unfold endCleanup
  dsimp only
  rw [hsent, heq]
  split_ifs
  · exact hspares.trans hkept
  · exact (hspares.trans hkept).trans (spares_close kept 1000 reason)
  · exact hspares.trans hkept

theorem spares_cleanup (c : Connection) (reason : String) (options : CleanupOptions) :
    Spares c (c.cleanup reason options) := by
  rw [cleanup]
  split_ifs
  · exact .refl c
  · exact ⟨rfl, rfl, rfl, rfl, Bool.noConfusion, .inl rfl, (Spares.refl c).effects⟩
  · refine Spares.trans ?_ (spares_endCleanup _ reason options none)
    exact ⟨rfl, rfl, rfl, rfl, Bool.noConfusion, .inl rfl, (Spares.refl c).effects⟩

theorem spares_abort (c : Connection) (context : String) : Spares c (c.abort context) := by
  have hearly : Spares c { c with closedEarly := true } :=
    ⟨rfl, rfl, rfl, rfl, id, .inl rfl, (Spares.refl c).effects⟩
  unfold abort
  dsimp only
  split_ifs
  · exact hearly.trans (spares_cleanup _ _ _)
  · exact spares_cleanup c _ _

theorem stays_returning (phase : Phase) : phase.Stays .returning :=
  .inr ⟨rfl, Bool.noConfusion⟩

/-- What aborts ends the handler, wherever it was. -/
theorem abortOr_cases (c : Connection) (context : String) (next : Phase) :
    (∀ phase, Spares { c with phase } (c.abortOr context next)) ∨
      c.abortOr context next = { c with phase := next } := by
  rw [abortOr]
  split_ifs
  · have hspares := spares_abort c context
    exact .inl fun phase => ⟨hspares.marked, hspares.execId, hspares.session, hspares.param,
      hspares.live, stays_returning phase, hspares.effects⟩
  · exact .inr rfl

theorem spares_resetIdleTimer (c : Connection) : Spares c c.resetIdleTimer :=
  ⟨rfl, rfl, rfl, rfl, id, .inl rfl, (Spares.refl c).effects⟩

theorem spares_refreshActivity (c : Connection) : Spares c c.refreshActivity :=
  (spares_effect Effect.noConfusion Effect.noConfusion).trans (spares_resetIdleTimer _)

theorem spares_execFailed (c : Connection) (statusCode : Option ℕ) (message : String) :
    Spares c (c.execFailed statusCode message) := by
  unfold execFailed
  dsimp only
  split_ifs <;>
    exact (((spares_send c _).trans (spares_cleanup _ _ _))).withPhase (stays_returning c.phase)

theorem spares_closeListener (c : Connection) : Spares c c.closeListener := by
  have hearly : Spares c { c with closedEarly := true } :=
    ⟨rfl, rfl, rfl, rfl, id, .inl rfl, (Spares.refl c).effects⟩
  rw [closeListener]
  split_ifs
  · exact (hearly.trans (spares_effect Effect.noConfusion Effect.noConfusion)).trans
      (spares_cleanup _ _ _)
  · exact spares_cleanup c _ _

theorem spares_socketClosed (c : Connection) : Spares c c.socketClosed := by
  have hclosed : Spares c { c with socket := .closed } :=
    ⟨rfl, rfl, rfl, rfl, id, .inl rfl, (Spares.refl c).effects⟩
  obtain ⟨heard, hheard⟩ : ∃ heard, (if ({ c with socket := .closed } : Connection).listening then
      ({ c with socket := .closed } : Connection).closeListener
    else { c with socket := .closed }) = heard := ⟨_, rfl⟩
  have hspares : Spares c heard := by
    subst hheard
    split_ifs
    · exact hclosed.trans (spares_closeListener _)
    · exact hclosed
  unfold socketClosed
  dsimp only at hheard ⊢
  rw [hheard]
  split_ifs with hphase
  · refine hspares.withPhase (hspares.phase.trans (.inr ⟨rfl, fun _ => ?_⟩))
    rw [hphase]
    rfl
  · exact hspares

theorem spares_socketError (c : Connection) : Spares c c.socketError := by
  unfold socketError
  split_ifs
  · exact spares_cleanup c _ _
  · exact .refl c

theorem spares_message (c : Connection) (m : ClientMessage) : Spares c (c.message m) := by
  unfold message
  by_cases hignored : (!c.listening || !c.onMessage || c.closed) = true
  · rw [if_pos hignored]
    exact .refl c
  rw [if_neg hignored]
  cases m with
  | invalidJson => exact spares_send c _
  | invalidPayload => exact spares_send c _
  | input data =>
    dsimp only
    split_ifs
    · have hwrite : Spares c (c.effect (.write (normalized data))) :=
        spares_effect Effect.noConfusion Effect.noConfusion
      exact ⟨hwrite.marked, hwrite.execId, hwrite.session, hwrite.param, hwrite.live, hwrite.phase,
        hwrite.effects⟩
    · exact spares_send c _
  | resize cols rows =>
    dsimp only
    split
    · exact .refl c
    · exact (spares_refreshActivity c).trans (spares_effect Effect.noConfusion Effect.noConfusion)
  | ping ts => exact (spares_send c _).trans (spares_refreshActivity _)
  | close => exact spares_cleanup c _ _

theorem spares_timers (c : Connection) (idleTimer maxTimer : Bool) :
    Spares c { c with idleTimer, maxTimer } :=
  ⟨rfl, rfl, rfl, rfl, id, .inl rfl, (Spares.refl c).effects⟩

theorem spares_timeout (c : Connection) (idleTimer maxTimer : Bool) (payload : Payload)
    (reason : String) (options : CleanupOptions) :
    Spares c (({ c with idleTimer, maxTimer }.send payload).cleanup reason options) := by
  exact ((spares_timers c idleTimer maxTimer).trans (spares_send _ payload)).trans
    (spares_cleanup _ reason options)

end Connection

open Connection

/-- The checks that a connection has passed where it is. -/
structure Held (c : Connection) : Prop where
  early : c.phase.beforeExec = true → c.sessionMarkedConnected = false ∧ c.execId = none
  checked : c.phase.checked = true ∨ c.sessionMarkedConnected = true →
    ∃ r, c.session = some r ∧ c.workspaceIdParam = r.workspaceId
  running : c.phase = .marked true ∨ c.phase = .resizing → c.sessionMarkedConnected = true
  live : c.live = true → c.sessionMarkedConnected = true

theorem Held.spares (h : Held c) (hspares : Spares c c') : Held c' := by
  obtain ⟨hmarked, hexec, hsession, hparam, hlive, hphase, -⟩ := hspares
  refine ⟨fun hearly => ?_, fun hchecked => ?_, fun hrunning => ?_, fun hlive' => ?_⟩
  · rw [hmarked, hexec]
    obtain hphase | ⟨-, hstays⟩ := hphase
    · exact h.early (hphase ▸ hearly)
    · exact h.early (hstays hearly)
  · rw [hsession, hparam]
    refine h.checked (hchecked.imp (fun hchecked => ?_) fun hmark => hmarked ▸ hmark)
    obtain hphase | ⟨hunchecked, -⟩ := hphase
    · exact hphase ▸ hchecked
    · exact absurd hchecked (hunchecked ▸ Bool.false_ne_true)
  · rw [hmarked]
    obtain hphase | ⟨hunchecked, -⟩ := hphase
    · exact h.running (hphase ▸ hrunning)
    · obtain hrunning | hrunning := hrunning <;>
        · rw [hrunning] at hunchecked
          exact absurd hunchecked.symm Bool.false_ne_true
  · exact hmarked ▸ h.live (hlive hlive')

structure Use (c : Connection) (a : Action) (c' : Connection) : Prop where
  param : c'.workspaceIdParam = c.workspaceIdParam
  marked : c'.sessionMarkedConnected = c.sessionMarkedConnected ∨
    a = .markConnected none ∧ c'.sessionMarkedConnected = true ∧
      c'.effects = c.effects ++ [.markConnected]
  holds : c.holds = true → c'.holds = true
  session : c'.session = c.session ∨ ∃ r, a = .validated (.ok r) ∧ c'.session = some r
  effects : ∃ es, c'.effects = c.effects ++ es ∧
    (.closeSession ∈ es ∨ .markConnected ∈ es → c'.holds = true)

theorem Use.spares (h : Spares c c') (a : Action) : Use c a c' :=
  ⟨h.param, .inl h.marked, fun hholds => h.holds ▸ hholds, .inl h.session, h.effects_holds⟩

theorem Use.withPhase (h : Use c a c') (next : Phase) : Use c a { c' with phase := next } :=
  ⟨h.param, h.marked, h.holds, h.session, h.effects⟩

theorem held_use_of_spares (hheld : Held c) (h : Spares c c') : Held c' ∧ Use c a c' :=
  ⟨hheld.spares h, .spares h a⟩

/-- The handler goes on to a phase in which the connection is marked if it has to be. -/
theorem Held.goOn (h : Held c) (hearly : next.beforeExec = true → c.phase.beforeExec = true)
    (hnext : next.checked = true → c.phase.checked = true)
    (hrunning : next = .marked true ∨ next = .resizing → c.sessionMarkedConnected = true) :
    Held { c with phase := next } :=
  ⟨fun hnext => h.early (hearly hnext), fun hchecked => h.checked (hchecked.imp_left hnext),
    hrunning, h.live⟩

theorem validated_use (result : Except String TerminalSessionRecord)
    (hphase : c.phase = .earlyClosed false) (h : Held c) :
    Held (c.validated result) ∧ Use c (.validated result) (c.validated result) := by
  obtain ⟨hmarked, hexec⟩ := h.early (by rw [hphase]; rfl)
  unfold validated
  cases result with
  | error code =>
    have hstarted : Spares c { c with started := true } :=
      ⟨rfl, rfl, rfl, rfl, id, .inl rfl, (Spares.refl c).effects⟩
    refine held_use_of_spares h (Spares.withPhase ?_ (stays_returning c.phase))
    exact ((hstarted.trans (spares_send _ _)).trans (spares_close _ 1008 code)).trans
      (spares_cleanup _ _ _)
  | ok r =>
    have hfound : Held { c with started := true, session := some r } := by
      refine ⟨h.early, fun hchecked => ?_, h.running, h.live⟩
      rw [hphase, hmarked] at hchecked
      exact absurd hchecked (by decide)
    have huse : ∀ {c' : Connection}, Spares { c with started := true, session := some r } c' →
        Use c (.validated (.ok r)) c' := by
      intro c' hspares
      exact ⟨hspares.param, .inl hspares.marked, fun hholds => hspares.holds.trans hholds,
        .inr ⟨r, rfl, hspares.session⟩, hspares.effects_holds⟩
    dsimp only
    split_ifs with hmismatch
    · have hspares := (((spares_send { c with started := true, session := some r }
        (.error "workspace_mismatch" "Terminal session belongs to different workspace")).trans
          (spares_close _ 1008 "workspace_mismatch")).trans
            (spares_cleanup _ "workspace_mismatch" {})).withPhase (stays_returning c.phase)
      exact ⟨hfound.spares hspares, huse hspares⟩
    · have hsent := spares_send { c with started := true, session := some r } .starting
      obtain hspares | hnext := abortOr_cases
        (({ c with started := true, session := some r } : Connection).send .starting) "pre_exec"
        .preExec
      · have hspares := hsent.trans (hspares _)
        exact ⟨hfound.spares hspares, huse hspares⟩
      · rw [hnext]
        refine ⟨⟨fun _ => ?_, fun _ => ⟨r, hsent.session, ?_⟩, ?_, (hfound.spares hsent).live⟩,
          (huse hsent).withPhase _⟩
        · exact ⟨hsent.marked.trans hmarked, hsent.execId.trans hexec⟩
        · exact hsent.param.trans (not_not.mp hmismatch)
        · exact fun hrunning => hrunning.elim Phase.noConfusion Phase.noConfusion

theorem execOpened_use (exec : InteractiveExec) (hphase : c.phase = .opening) (h : Held c) :
    Held (c.execOpened exec) ∧ Use c (.opened exec) (c.execOpened exec) := by
  obtain ⟨hmarked, hexec⟩ := h.early (by rw [hphase]; rfl)
  have hholds : c.holds = false := by
    rw [Connection.holds, Connection.hasExecId, hmarked, hexec]
    rfl
  obtain ⟨found, hfound⟩ : ∃ found : Connection, { c with
    execId := some exec.execId
    stdin := exec.stdin
    stdout := exec.stdout
    stderr := exec.stderr
    closeExec := true
    opened := c.opened + 1
    phase := .execStarted } = found := ⟨_, rfl⟩
  have hheld : Held found := by
    subst hfound
    exact ⟨Bool.noConfusion, fun _ => h.checked (.inl (by rw [hphase]; rfl)),
      fun hrunning => hrunning.elim Phase.noConfusion Phase.noConfusion, h.live⟩
  have huse : ∀ {c' : Connection}, Spares found c' → Use c (.opened exec) c' := by
    intro c' hspares
    subst hfound
    exact ⟨hspares.param, .inl hspares.marked,
      fun hheld => absurd hheld (hholds ▸ Bool.false_ne_true), .inl hspares.session,
      hspares.effects_holds⟩
  have hspares : Spares found (c.execOpened exec) := by
    unfold execOpened
    obtain hspares | hnext := abortOr_cases { c with
      execId := some exec.execId
      stdin := exec.stdin
      stdout := exec.stdout
      stderr := exec.stderr
      closeExec := true
      opened := c.opened + 1 } "post_exec_start" .execStarted
    · exact hfound ▸ hspares .execStarted
    · rw [hnext, hfound]
      exact .refl found
  exact ⟨hheld.spares hspares, huse hspares⟩

theorem markSessionConnected_use (failure : Option String) (hphase : c.phase = .execStarted)
    (h : Held c) : Held (c.markSessionConnected failure) ∧
      Use c (.markConnected failure) (c.markSessionConnected failure) := by
  have hsession := h.checked (.inl (by rw [hphase]; rfl))
  unfold markSessionConnected
  split_ifs with hmarked
  · exact ⟨h.goOn Bool.noConfusion (fun _ => by rw [hphase]; rfl) fun _ => hmarked,
      (Use.spares (.refl c) _).withPhase _⟩
  · exact held_use_of_spares h ((Spares.refl c).withPhase (hphase ▸ .inr ⟨rfl, Bool.noConfusion⟩))
  · exact held_use_of_spares h ((Spares.refl c).withPhase (hphase ▸ .inr ⟨rfl, Bool.noConfusion⟩))
  · cases failure with
    | none =>
      refine ⟨⟨Bool.noConfusion, fun _ => hsession, fun _ => rfl, fun _ => rfl⟩, rfl,
        .inr ⟨rfl, rfl, rfl⟩, fun _ => rfl, .inl rfl, [.markConnected], rfl, fun _ => rfl⟩
    | some code =>
      refine held_use_of_spares h (Spares.withPhase ?_ (hphase ▸ .inr ⟨rfl, Bool.noConfusion⟩))
      exact (spares_send c _).trans (spares_cleanup _ _ _)

/-- The listeners are attached once the connection is marked. -/
theorem Held.attach (h : Held c) (hphase : c.phase = .marked true ∨ c.phase = .resizing) :
    Held c.attach := by
  have hmarked := h.running hphase
  refine ⟨Bool.noConfusion, fun _ => h.checked (.inr hmarked), fun hrunning => ?_, fun _ => hmarked⟩
  exact hrunning.elim Phase.noConfusion Phase.noConfusion

theorem Use.attach (h : Use c a c') : Use c a c'.attach :=
  ⟨h.param, h.marked, h.holds, h.session, h.effects⟩

theorem running_use (hphase : c.phase = .marked true) (h : Held c) :
    Held c.running ∧ Use c .running c.running := by
  have hspares := (spares_send c .running).trans (spares_refreshActivity _)
  have hsame : (c.send .running).refreshActivity.phase = .marked true :=
    (phase_send c .running).trans hphase
  have hheld := h.spares hspares
  unfold Connection.running
  dsimp only
  split
  · rename_i execId _
    have hresize := hspares.trans (spares_effect (e := .resizeExec execId) Effect.noConfusion
      Effect.noConfusion)
    refine ⟨(h.spares hresize).goOn Bool.noConfusion (fun _ => ?_) fun _ => ?_,
      (Use.spares hresize _).withPhase _⟩
    · exact congrArg Phase.checked hsame
    · exact (h.spares hresize).running (.inl hsame)
  · exact ⟨hheld.attach (.inl hsame), (Use.spares hspares _).attach⟩

/-- What any step does with the session of the connection, and that the checks passed stay so. -/
theorem step_use (hstep : step c a = some c') (h : Held c) : Held c' ∧ Use c a c' := by
  cases a <;> simp only [step] at hstep
  case earlyTimeout =>
    split_ifs at hstep with hphase
    obtain rfl := Option.some.inj hstep
    exact held_use_of_spares h ((Spares.refl c).withPhase (hphase ▸ .inr ⟨rfl, fun _ => rfl⟩))
  case aborted =>
    split_ifs at hstep with hphase
    obtain rfl := Option.some.inj hstep
    exact held_use_of_spares h ((spares_abort c _).withPhase (stays_returning c.phase))
  case validated result =>
    split_ifs at hstep with hphase hstarted <;> obtain rfl := Option.some.inj hstep
    · exact held_use_of_spares h ((Spares.refl c).withPhase (hphase ▸ .inr ⟨rfl, Bool.noConfusion⟩))
    · exact validated_use result hphase h
  case startTimers now =>
    split_ifs at hstep with hphase
    obtain rfl := Option.some.inj hstep
    have hspares := spares_timers c c.resetIdleTimer.idleTimer (c.startTimers now).maxTimer
    refine ⟨(h.spares hspares).goOn (fun _ => ?_) (fun _ => ?_) fun hrunning => ?_,
      (Use.spares hspares _).withPhase .opening⟩
    · exact congrArg Phase.beforeExec hphase
    · exact congrArg Phase.checked hphase
    · exact hrunning.elim Phase.noConfusion Phase.noConfusion
  case opened exec =>
    split_ifs at hstep with hphase
    obtain rfl := Option.some.inj hstep
    exact execOpened_use exec hphase h
  case openFailed statusCode message =>
    split_ifs at hstep with hphase
    obtain rfl := Option.some.inj hstep
    exact held_use_of_spares h (spares_execFailed c statusCode message)
  case markConnected failure =>
    split_ifs at hstep with hphase
    obtain rfl := Option.some.inj hstep
    exact markSessionConnected_use failure hphase h
  case running =>
    split_ifs at hstep with hphase
    obtain rfl := Option.some.inj hstep
    exact running_use hphase h
  case resized =>
    split_ifs at hstep with hphase
    obtain rfl := Option.some.inj hstep
    exact ⟨h.attach (.inr hphase), (Use.spares (.refl c) _).attach⟩
  case returned =>
    split_ifs at hstep with hphase
    obtain rfl := Option.some.inj hstep
    exact held_use_of_spares h ((Spares.refl c).withPhase (.inr ⟨rfl, Bool.noConfusion⟩))
  case execClosed result =>
    obtain ⟨⟨reason, options⟩, -, rfl⟩ := Option.map_eq_some_iff.mp hstep
    have hcleaned : Spares c { c with cleaning := none } :=
      ⟨rfl, rfl, rfl, rfl, id, .inl rfl, (Spares.refl c).effects⟩
    exact held_use_of_spares h (hcleaned.trans (spares_endCleanup _ reason options _))
  case socketClosing =>
    split_ifs at hstep
    obtain rfl := Option.some.inj hstep
    exact held_use_of_spares h ⟨rfl, rfl, rfl, rfl, id, .inl rfl, (Spares.refl c).effects⟩
  case socketClosed =>
    split_ifs at hstep
    obtain rfl := Option.some.inj hstep
    exact held_use_of_spares h (spares_socketClosed c)
  case socketError =>
    obtain rfl := Option.some.inj hstep
    exact held_use_of_spares h (spares_socketError c)
  case message m =>
    obtain rfl := Option.some.inj hstep
    exact held_use_of_spares h (spares_message c m)
  case resizeFailed =>
    obtain rfl := Option.some.inj hstep
    exact held_use_of_spares h (spares_send c _)
  case idleTimeout =>
    split_ifs at hstep
    obtain rfl := Option.some.inj hstep
    exact held_use_of_spares h (spares_timeout c false c.maxTimer _ _ _)
  case maxDuration =>
    split_ifs at hstep
    obtain rfl := Option.some.inj hstep
    exact held_use_of_spares h (spares_timeout c c.idleTimer false _ _ _)
  case streamEnd =>
    split_ifs at hstep
    obtain rfl := Option.some.inj hstep
    exact held_use_of_spares h (spares_cleanup c _ _)
  case output data =>
    split_ifs at hstep with _ hempty <;> obtain rfl := Option.some.inj hstep
    · exact held_use_of_spares h (spares_refreshActivity c)
    · exact held_use_of_spares h ((spares_send c _).trans (spares_refreshActivity _))
  case written =>
    split_ifs at hstep
    obtain rfl := Option.some.inj hstep
    have hwritten : Spares c { c with writes := c.writes - 1 } :=
      ⟨rfl, rfl, rfl, rfl, id, .inl rfl, (Spares.refl c).effects⟩
    exact held_use_of_spares h (hwritten.trans (spares_refreshActivity _))

/-- A connection that has just come in, with or without the route of a workspace. -/
structure Fresh (c : Connection) : Prop where
  held : Held c
  holds : c.holds = false
  session : c.session = none
  effects : .closeSession ∉ c.effects ∧ .markConnected ∉ c.effects

theorem Fresh.spares (h : Fresh c) (hspares : Spares c c') : Fresh c' := by
  obtain ⟨es, heffects, hmark, hclose⟩ := hspares.effects
  refine ⟨h.held.spares hspares, hspares.holds.trans h.holds, hspares.session.trans h.session, ?_⟩
  rw [heffects, List.mem_append, List.mem_append]
  refine ⟨fun hmem => hmem.elim h.effects.1 fun hmem => ?_, fun hmem =>
    hmem.elim h.effects.2 hmark⟩
  exact Bool.false_ne_true (h.holds.symm.trans (hclose hmem))

theorem fresh_handleConnection (socket : Socket) (workspaceIdParam : Option String)
    (validQuery : Bool) : Fresh (handleConnection socket workspaceIdParam validQuery) := by
  have hfresh : ∀ workspaceIdParam listening, Fresh ⟨socket, listening, .returned,
      workspaceIdParam, none, false, false, none, false, false, false, false, false, false, false,
      false, false, false, 0, none, [], 0, 0⟩ := fun _ _ =>
    ⟨⟨Bool.noConfusion, fun h => h.elim Bool.noConfusion Bool.noConfusion,
      fun h => h.elim Phase.noConfusion Phase.noConfusion, Bool.noConfusion⟩, rfl, rfl,
      List.not_mem_nil, List.not_mem_nil⟩
  unfold handleConnection
  split
  · exact (hfresh "" false).spares ((spares_send _ _).trans (spares_close _ _ _))
  · rename_i param _
    split_ifs
    · obtain hspares | hnext := abortOr_cases ⟨socket, true, .returned, param, none, false, false,
        none, false, false, false, false, false, false, false, false, false, false, 0, none, [],
        0, 0⟩ "pre_validation" .earlyClose
      · exact (hfresh param true).spares (hspares .returned)
      · dsimp only
        rw [hnext]
        exact ⟨⟨fun _ => ⟨rfl, rfl⟩, fun h => h.elim Bool.noConfusion Bool.noConfusion,
          fun h => h.elim Phase.noConfusion Phase.noConfusion, Bool.noConfusion⟩, rfl, rfl,
          List.not_mem_nil, List.not_mem_nil⟩
    · exact (hfresh "" false).spares ((spares_send _ _).trans (spares_close _ _ _))

end Agyn.TerminalGateway
