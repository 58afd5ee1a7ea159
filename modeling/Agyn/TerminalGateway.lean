import Agyn.ContainerEvents
import Agyn.GuardedRuns
import Mathlib.Data.Int.Notation

/-!
The terminal gateway: one connection from its upgrade to the end of its handler. The handler opens
an interactive exec in its middle; `cleanup` runs once, closes the exec that has been opened by then
and detaches the listeners. Events of the socket, the timers and the streams come wherever the
handler waits. The decoding of the output and the logs are left out.
-/
namespace Agyn.TerminalGateway

open ContainerEvents (truthy)

/-- `readyState`: open, not open with the `close` event still to come, and closed. -/
inductive Socket where
  | open
  | closing
  | closed
  deriving DecidableEq

structure TerminalSessionRecord where
  workspaceId : String
  createdAt : ℤ
  idleTimeoutMs : ℤ
  maxDurationMs : ℤ
  deriving DecidableEq

structure CleanupOptions where
  preserveSession : Bool := false
  skipStatus : Bool := false
  skipCloseSocket : Bool := false
  deriving DecidableEq

/-- Where the handler waits. -/
inductive Phase where
  /-- `waitForEarlyClose`, until its timer or the `close` event. -/
  | earlyClose
  | earlyClosed (aborted : Bool)
  | preExec
  | opening
  | execStarted
  | marked (connected : Bool)
  | resizing
  /-- The handler returns when it goes on. -/
  | returning
  | returned
  deriving DecidableEq

inductive Payload where
  | starting
  | running
  | exited (exitCode : ℤ)
  | statusError (reason : String)
  | error (code message : String)
  | output (data : String)
  | pong (ts : ℤ)
  deriving DecidableEq

inductive Effect where
  | send (payload : Payload)
  | closeSocket (code : ℕ) (reason : String)
  | touchSession
  | closeSession
  | markConnected
  | write (data : String)
  | resizeExec (execId : String)
  deriving DecidableEq

structure Connection where
  socket : Socket
  /-- The listeners of the handler are attached to the socket. -/
  listening : Bool
  phase : Phase
  workspaceIdParam : String
  session : Option TerminalSessionRecord
  idleTimer : Bool
  maxTimer : Bool
  execId : Option String
  sessionMarkedConnected : Bool
  started : Bool
  closedEarly : Bool
  stdin : Bool
  stdout : Bool
  stderr : Bool
  /-- The listeners of the streams are attached. -/
  streaming : Bool
  closeExec : Bool
  closed : Bool
  onMessage : Bool
  /-- Writes to the exec whose callback is still to come. -/
  writes : ℕ
  /-- A cleanup that waits for the exec to close. -/
  cleaning : Option (String × CleanupOptions)
  effects : List Effect
  /-- Interactive execs opened, and calls of their close functions. -/
  opened : ℕ
  closeCalls : ℕ
  deriving DecidableEq

namespace Connection

def effect (e : Effect) (c : Connection) : Connection := { c with effects := c.effects ++ [e] }

def send (payload : Payload) (c : Connection) : Connection :=
  if c.socket = .open then c.effect (.send payload) else c

/-- `safeClose`; the `close` event comes later. -/
def close (code : ℕ) (reason : String) (c : Connection) : Connection :=
  let c := c.effect (.closeSocket code reason)
  if c.socket = .open then { c with socket := .closing } else c

def hasExecId (c : Connection) : Bool := (truthy c.execId).isSome

/-- The status with which the exec has closed, if there was one. -/
def sendExit (result : Option (Except String ℤ)) (c : Connection) : Connection :=
  match result with
  | some (.error exitError) => c.send (.statusError exitError)
  | some (.ok exitCode) => c.send (.exited exitCode)
  | none => c

/-- The end of a cleanup, once the exec has closed if there was one. -/
def endCleanup (reason : String) (options : CleanupOptions) (result : Option (Except String ℤ))
    (c : Connection) : Connection :=
  let c := if options.skipStatus then c else c.sendExit result
  let shouldPreserve :=
    options.preserveSession || (!c.sessionMarkedConnected && !c.hasExecId)
  let c := c.effect (if shouldPreserve then .touchSession else .closeSession)
  if options.skipCloseSocket then c
  else if c.socket = .open then c.close 1000 reason else c

def cleanup (reason : String) (options : CleanupOptions) (c : Connection) : Connection :=
  if c.closed then c
  else
    let early := !c.sessionMarkedConnected && !c.hasExecId &&
      (options.preserveSession || "socket_not_open_before_".toList.isPrefixOf reason.toList)
    let cleaned := { c with
      closed := true
      closedEarly := c.closedEarly || early
      idleTimer := false
      maxTimer := false
      stdin := false
      stdout := false
      stderr := false
      streaming := false
      listening := false
      onMessage := false }
    if c.closeExec then
      { cleaned with closeCalls := c.closeCalls + 1, cleaning := some (reason, options) }
    else cleaned.endCleanup reason options none

/-- `abortIfSocketClosed` once it aborts. -/
def abort (context : String) (c : Connection) : Connection :=
  let preserve := !c.sessionMarkedConnected && !c.hasExecId
  let c := if preserve then { c with closedEarly := true } else c
  c.cleanup ("socket_not_open_before_" ++ context)
    { preserveSession := preserve, skipStatus := true, skipCloseSocket := true }

/-- `abortIfSocketClosed` without a wait, and what the handler waits for then. -/
def abortOr (context : String) (next : Phase) (c : Connection) : Connection :=
  if c.closed || c.socket ≠ .open then { c.abort context with phase := .returning }
  else { c with phase := next }

def handleConnection (socket : Socket) (workspaceIdParam : Option String) (validQuery : Bool) :
    Connection :=
  let c : Connection := ⟨socket, false, .returned, "", none, false, false, none, false, false,
    false, false, false, false, false, false, false, false, 0, none, [], 0, 0⟩
  match truthy workspaceIdParam with
  | none =>
    (c.send (.error "workspace_id_required" "Workspace id missing in route")).close 1008
      "workspace_id_required"
  | some workspaceIdParam =>
    if validQuery then
      { c with workspaceIdParam, listening := true }.abortOr "pre_validation" .earlyClose
    else
      (c.send (.error "invalid_query" "Invalid session parameters")).close 1008 "invalid_query"

def resetIdleTimer (c : Connection) : Connection :=
  { c with idleTimer := c.session.any fun session => decide (0 < session.idleTimeoutMs) }

def refreshActivity (c : Connection) : Connection := (c.effect .touchSession).resetIdleTimer

/-- From the validation of the session to the check before the exec. -/
def validated (result : Except String TerminalSessionRecord) (c : Connection) : Connection :=
  let c := { c with started := true }
  match result with
  | .error code =>
    let c := (c.send (.error code "Terminal session validation failed")).close 1008 code
    { c.cleanup "session_validation_failed" {} with phase := .returning }
  | .ok session =>
    let c := { c with session := some session }
    if c.workspaceIdParam ≠ session.workspaceId then
      let c := (c.send (.error "workspace_mismatch"
        "Terminal session belongs to different workspace")).close 1008 "workspace_mismatch"
      { c.cleanup "workspace_mismatch" {} with phase := .returning }
    else (c.send .starting).abortOr "pre_exec" .preExec

def startTimers (now : ℤ) (c : Connection) : Connection :=
  { c.resetIdleTimer with
    maxTimer := c.session.any fun session =>
      decide (0 < session.maxDurationMs - (now - session.createdAt))
    phase := .opening }

structure InteractiveExec where
  execId : String
  stdin : Bool
  stdout : Bool
  stderr : Bool

/-- `openInteractiveExec` has opened an exec. -/
def execOpened (exec : InteractiveExec) (c : Connection) : Connection :=
  { c with
    execId := some exec.execId
    stdin := exec.stdin
    stdout := exec.stdout
    stderr := exec.stderr
    closeExec := true
    opened := c.opened + 1 }.abortOr "post_exec_start" .execStarted

/-- `openInteractiveExec` has failed, with the status of the runner if it says one. -/
def execFailed (statusCode : Option ℕ) (message : String) (c : Connection) : Connection :=
  if statusCode = some 404 ∨ statusCode = some 409 then
    let code := if statusCode = some 404 then "terminal_container_not_found"
      else "terminal_container_conflict"
    let c := c.send (.error code message)
    { c.cleanup code { skipStatus := true } with phase := .returning }
  else
    let c := c.send (.error "exec_start_failed" message)
    { c.cleanup "exec_start_failed" {} with phase := .returning }

/-- `markSessionConnected`, with the failure of the sessions service if it fails. -/
def markSessionConnected (failure : Option String) (c : Connection) : Connection :=
  if c.sessionMarkedConnected then { c with phase := .marked true }
  else if c.closedEarly then { c with phase := .marked false }
  else if c.socket ≠ .open then { c with phase := .marked false }
  else
    match failure with
    | none =>
      { c.effect .markConnected with sessionMarkedConnected := true, phase := .marked true }
    | some code =>
      let c := c.send (.error code "Terminal session already connected")
      { c.cleanup "session_already_connected" {} with phase := .marked false }

/-- The listeners of the streams and of the messages are attached, and the handler returns. -/
def attach (c : Connection) : Connection :=
  { c with streaming := c.stdout || c.stderr, onMessage := true, phase := .returned }

def running (c : Connection) : Connection :=
  let c := (c.send .running).refreshActivity
  match truthy c.execId with
  | some execId => { c.effect (.resizeExec execId) with phase := .resizing }
  | none => c.attach

def closeListener (c : Connection) : Connection :=
  if !c.started && !c.closedEarly then
    ({ c with closedEarly := true }.effect .touchSession).cleanup "socket_closed"
      { preserveSession := true, skipStatus := true, skipCloseSocket := true }
  else c.cleanup "socket_closed" {}

/-- The `close` event; the listener of `waitForEarlyClose` hears it too. -/
def socketClosed (c : Connection) : Connection :=
  let c := { c with socket := .closed }
  let c := if c.listening then c.closeListener else c
  if c.phase = .earlyClose then { c with phase := .earlyClosed true } else c

def socketError (c : Connection) : Connection :=
  if c.listening then c.cleanup "socket_error" {} else c

inductive ClientMessage where
  | invalidJson
  | invalidPayload
  | input (data : String)
  | resize (cols rows : ℕ)
  | ping (ts : ℤ)
  | close

def normalized (data : String) : String :=
  let rec go : List Char → List Char
    | '\r' :: '\n' :: rest => '\r' :: go rest
    | '\n' :: rest => '\r' :: go rest
    | char :: rest => char :: go rest
    | [] => []
  String.ofList (go data.toList)

def message (m : ClientMessage) (c : Connection) : Connection :=
  if !c.listening || !c.onMessage || c.closed then c
  else
    match m with
    | .invalidJson => c.send (.error "invalid_json" "Invalid JSON payload")
    | .invalidPayload => c.send (.error "invalid_payload" "Invalid terminal message payload")
    | .input data =>
      if c.stdin then { c.effect (.write (normalized data)) with writes := c.writes + 1 }
      else c.send (.error "stdin_closed" "Terminal stdin unavailable")
    | .resize _ _ =>
      match truthy c.execId with
      | none => c
      | some execId => (c.effect .touchSession).resetIdleTimer.effect (.resizeExec execId)
    | .ping ts => (c.send (.pong ts)).refreshActivity
    | .close => c.cleanup "client_closed" {}

def idleTimeout (c : Connection) : Connection :=
  ({ c with idleTimer := false }.send
    (.error "idle_timeout" "Terminal session idle timeout exceeded")).cleanup "idle_timeout" {}

def maxDuration (c : Connection) : Connection :=
  ({ c with maxTimer := false }.send
    (.error "max_duration" "Terminal session maximum duration exceeded")).cleanup
      "max_duration" {}

end Connection

inductive Action where
  | earlyTimeout
  | aborted
  | validated (result : Except String TerminalSessionRecord)
  | startTimers (now : ℤ)
  | opened (exec : Connection.InteractiveExec)
  | openFailed (statusCode : Option ℕ) (message : String)
  | markConnected (failure : Option String)
  | running
  /-- The first resize has succeeded or failed. -/
  | resized
  | returned
  /-- The close function of the exec has settled, for the cleanup that has called it. -/
  | execClosed (result : Except String ℤ)
  | socketClosing
  | socketClosed
  | socketError
  | message (m : Connection.ClientMessage)
  | resizeFailed
  | idleTimeout
  | maxDuration
  | streamEnd
  | output (data : String)
  /-- The callback of a write. -/
  | written

/-- One step of the handler, of a cleanup or of what is outside, where it can come. -/
def step (c : Connection) : Action → Option Connection
  | .earlyTimeout =>
    if c.phase = .earlyClose then
      some { c with phase := .earlyClosed (c.closed || c.socket ≠ .open) }
    else none
  | .aborted =>
    if c.phase = .earlyClosed true then
      some { c.abort "pre_validation" with phase := .returning }
    else none
  | .validated result =>
    if c.phase = .earlyClosed false then
      if c.started then some { c with phase := .returned } else some (c.validated result)
    else none
  | .startTimers now => if c.phase = .preExec then some (c.startTimers now) else none
  | .opened exec => if c.phase = .opening then some (c.execOpened exec) else none
  | .openFailed statusCode message =>
    if c.phase = .opening then some (c.execFailed statusCode message) else none
  | .markConnected failure =>
    if c.phase = .execStarted then some (c.markSessionConnected failure) else none
  | .running => if c.phase = .marked true then some c.running else none
  | .resized => if c.phase = .resizing then some c.attach else none
  | .returned =>
    if c.phase = .returning ∨ c.phase = .marked false then some { c with phase := .returned }
    else none
  | .execClosed result =>
    c.cleaning.map fun (reason, options) =>
      { c with cleaning := none }.endCleanup reason options (some result)
  | .socketClosing => if c.socket = .open then some { c with socket := .closing } else none
  | .socketClosed => if c.socket = .closed then none else some c.socketClosed
  | .socketError => some c.socketError
  | .message m => some (c.message m)
  | .resizeFailed => some (c.send (.error "resize_failed" "Terminal resize failed"))
  | .idleTimeout => if c.idleTimer then some c.idleTimeout else none
  | .maxDuration => if c.maxTimer then some c.maxDuration else none
  | .streamEnd => if c.streaming && c.stdout then some (c.cleanup "stream_end" {}) else none
  | .output data =>
    if c.streaming then
      some (if data = "" then c.refreshActivity else (c.send (.output data)).refreshActivity)
    else none
  | .written =>
    if c.writes = 0 then none else some { c with writes := c.writes - 1 }.refreshActivity

/-- An exec is opened before the connection has been cleaned up. -/
def OpensInTime (c : Connection) : Action → Prop
  | .opened _ => c.closed = false
  | _ => True

instance (c : Connection) (a : Action) : Decidable (OpensInTime c a) := by
  cases a <;> unfold OpensInTime <;> infer_instance

structure Core where
  socketClosed : Bool
  listening : Bool
  closed : Bool
  closeExec : Bool
  opened : ℕ
  closeCalls : ℕ

namespace Connection

def core (c : Connection) : Core :=
  ⟨c.socket = .closed, c.listening, c.closed, c.closeExec, c.opened, c.closeCalls⟩

end Connection

def Core.cleanup (k : Core) : Core :=
  if k.closed then k
  else
    { k with
      closed := true
      listening := false
      closeCalls := if k.closeExec then k.closeCalls + 1 else k.closeCalls }

namespace Connection

variable (c : Connection)

@[simp] theorem core_effect (e : Effect) : (c.effect e).core = c.core := rfl

@[simp] theorem core_send (payload : Payload) : (c.send payload).core = c.core := by
  unfold send
  split_ifs <;> rfl

@[simp] theorem core_close (code : ℕ) (reason : String) : (c.close code reason).core = c.core := by
  rw [close]
  split_ifs with hopen
  · have hsocket : c.socket = .open := hopen
    simp [core, effect, hsocket]
  · rfl

@[simp] theorem core_sendExit (result : Option (Except String ℤ)) :
    (c.sendExit result).core = c.core := by
  unfold sendExit
  split <;> simp

@[simp] theorem core_endCleanup (reason : String) (options : CleanupOptions)
    (result : Option (Except String ℤ)) :
    (c.endCleanup reason options result).core = c.core := by
  unfold endCleanup
  dsimp only
  split_ifs <;> simp

@[simp] theorem core_cleanup (reason : String) (options : CleanupOptions) :
    (c.cleanup reason options).core = c.core.cleanup := by
  rw [cleanup, Core.cleanup]
  by_cases hclosed : c.closed = true
  · rw [if_pos hclosed, if_pos (show c.core.closed = true from hclosed)]
  · rw [if_neg hclosed, if_neg (show ¬ c.core.closed = true from hclosed)]
    have hcore : c.core.closeExec = c.closeExec := rfl
    dsimp only
    rw [hcore]
    split_ifs
    · rfl
    · rw [core_endCleanup]
      rfl

@[simp] theorem core_abort (context : String) : (c.abort context).core = c.core.cleanup := by
  unfold abort
  dsimp only
  rw [core_cleanup]
  split_ifs <;> rfl

@[simp] theorem core_resetIdleTimer : c.resetIdleTimer.core = c.core := rfl

@[simp] theorem core_refreshActivity : c.refreshActivity.core = c.core := rfl

/-- A connection with another phase. -/
@[simp] theorem core_phase (phase : Phase) : { c with phase }.core = c.core := rfl

@[simp] theorem phase_effect (e : Effect) : (c.effect e).phase = c.phase := rfl

@[simp] theorem phase_send (payload : Payload) : (c.send payload).phase = c.phase := by
  unfold send
  split_ifs <;> rfl

@[simp] theorem phase_close (code : ℕ) (reason : String) :
    (c.close code reason).phase = c.phase := by
  rw [close]
  split_ifs <;> rfl

@[simp] theorem phase_sendExit (result : Option (Except String ℤ)) :
    (c.sendExit result).phase = c.phase := by
  unfold sendExit
  split <;> simp

@[simp] theorem phase_endCleanup (reason : String) (options : CleanupOptions)
    (result : Option (Except String ℤ)) :
    (c.endCleanup reason options result).phase = c.phase := by
  unfold endCleanup
  dsimp only
  split_ifs <;> simp

@[simp] theorem phase_cleanup (reason : String) (options : CleanupOptions) :
    (c.cleanup reason options).phase = c.phase := by
  rw [cleanup]
  split_ifs
  · rfl
  · rfl
  · exact phase_endCleanup _ reason options none

end Connection

/-- What is not closed is as it was, or the connection has been cleaned up. -/
def Core.Kept (k k' : Core) : Prop := k' = k ∨ k' = k.cleanup

def Phase.beforeExec : Phase → Bool
  | .earlyClose | .earlyClosed _ | .preExec | .opening => true
  | _ => false

/-- Each exec is opened in its phase and closed by the cleanup, which comes at the latest with the
end of the socket. -/
structure Accounted (k : Core) (phase : Phase) : Prop where
  opened : k.opened = if k.closeExec then 1 else 0
  calls : k.closeCalls = if k.closed && k.closeExec then 1 else 0
  unopened : phase.beforeExec = true → k.closeExec = false
  heard : k.closed = false → k.listening = true ∨ k.closeExec = false ∧ phase = .returned
  ended : k.socketClosed = true → k.closed = true ∨ k.closeExec = false ∧ phase = .returned

variable {k k' : Core} {phase next : Phase} {c c' : Connection}

theorem Accounted.cleanup (h : Accounted k phase) : Accounted k.cleanup phase := by
  rw [Core.cleanup]
  by_cases hclosed : k.closed = true
  · rw [if_pos hclosed]
    exact h
  · have hcalls := h.calls
    simp only [hclosed, Bool.false_and, Bool.false_eq_true, if_false] at hcalls
    rw [if_neg hclosed]
    refine ⟨h.opened, ?_, h.unopened, nofun, fun _ => .inl rfl⟩
    simp [hcalls]

theorem Accounted.kept (h : Accounted k phase) (hkept : k.Kept k') : Accounted k' phase := by
  obtain rfl | rfl := hkept
  · exact h
  · exact h.cleanup

/-- The socket ends, and with it the connection is cleaned up. -/
theorem Accounted.end_cleanup (h : Accounted k phase) :
    Accounted { k with socketClosed := true }.cleanup phase := by
  by_cases hclosed : k.closed = true
  · exact Accounted.cleanup ⟨h.opened, h.calls, h.unopened, h.heard, fun _ => .inl hclosed⟩
  · have hcalls := h.calls
    simp only [hclosed, Bool.false_and, Bool.false_eq_true, if_false] at hcalls
    rw [Core.cleanup, if_neg hclosed]
    refine ⟨h.opened, ?_, h.unopened, nofun, fun _ => .inl rfl⟩
    simp [hcalls]

/-- The handler goes on to another phase. -/
theorem Accounted.goOn (h : Accounted k phase) (hphase : phase ≠ .returned)
    (hnext : next.beforeExec = true → phase.beforeExec = true) : Accounted k next := by
  refine ⟨h.opened, h.calls, fun hbefore => h.unopened (hnext hbefore), fun hclosed => ?_,
    fun hsocket => ?_⟩
  · exact (h.heard hclosed).imp_right fun hreturned => absurd hreturned.2 hphase
  · exact (h.ended hsocket).imp_right fun hreturned => absurd hreturned.2 hphase

namespace Connection

variable (c : Connection)

theorem abortOr_spec (context : String) (next : Phase) :
    c.core.Kept (c.abortOr context next).core ∧
      ((c.abortOr context next).phase = .returning ∨ (c.abortOr context next).phase = next) := by
  rw [abortOr]
  split_ifs
  · exact ⟨.inr (c.core_abort context), .inl rfl⟩
  · exact ⟨.inl rfl, .inr rfl⟩

theorem validated_spec (result : Except String TerminalSessionRecord) :
    c.core.Kept (c.validated result).core ∧
      ((c.validated result).phase = .returning ∨ (c.validated result).phase = .preExec) := by
  unfold validated
  cases result with
  | error code =>
    refine ⟨.inr ?_, .inl rfl⟩
    simp only [core_phase, core_cleanup, core_close, core_send]
    rfl
  | ok session =>
    dsimp only
    split_ifs
    · refine ⟨.inr ?_, .inl rfl⟩
      simp only [core_phase, core_cleanup, core_close, core_send]
      rfl
    · have h := abortOr_spec
        (({ c with started := true, session := some session } : Connection).send .starting)
        "pre_exec" .preExec
      rw [core_send] at h
      exact h

theorem execFailed_spec (statusCode : Option ℕ) (message : String) :
    (c.execFailed statusCode message).core = c.core.cleanup ∧
      (c.execFailed statusCode message).phase = .returning := by
  unfold execFailed
  dsimp only
  split_ifs
  · exact ⟨by simp, rfl⟩
  · exact ⟨by simp, rfl⟩
  · exact ⟨by simp, rfl⟩

theorem markSessionConnected_spec (failure : Option String) :
    c.core.Kept (c.markSessionConnected failure).core ∧
      ∃ connected, (c.markSessionConnected failure).phase = .marked connected := by
  unfold markSessionConnected
  split_ifs
  · exact ⟨.inl rfl, _, rfl⟩
  · exact ⟨.inl rfl, _, rfl⟩
  · exact ⟨.inl rfl, _, rfl⟩
  · cases failure with
    | none => exact ⟨.inl rfl, _, rfl⟩
    | some code => exact ⟨.inr (by simp), _, rfl⟩

theorem running_spec :
    c.running.core = c.core ∧ (c.running.phase = .resizing ∨ c.running.phase = .returned) := by
  have hcore : (c.send .running).refreshActivity.core = c.core := by simp
  unfold running
  dsimp only
  cases truthy (c.send .running).refreshActivity.execId with
  | none => exact ⟨hcore, .inr rfl⟩
  | some execId => exact ⟨hcore, .inl rfl⟩

theorem message_spec (m : ClientMessage) :
    c.core.Kept (c.message m).core ∧ (c.message m).phase = c.phase := by
  unfold message
  by_cases hignored : (!c.listening || !c.onMessage || c.closed) = true
  · rw [if_pos hignored]
    exact ⟨.inl rfl, rfl⟩
  · rw [if_neg hignored]
    cases m with
    | invalidJson => exact ⟨.inl (by simp), by simp⟩
    | invalidPayload => exact ⟨.inl (by simp), by simp⟩
    | input data =>
      dsimp only
      split_ifs
      · exact ⟨.inl rfl, rfl⟩
      · exact ⟨.inl (by simp), by simp⟩
    | resize cols rows =>
      dsimp only
      cases truthy c.execId with
      | none => exact ⟨.inl rfl, rfl⟩
      | some execId => exact ⟨.inl rfl, rfl⟩
    | ping ts =>
      refine ⟨.inl (by simp), ?_⟩
      exact phase_send c (.pong ts)
    | close => exact ⟨.inr (by simp), by simp⟩

theorem idleTimeout_spec : c.idleTimeout.core = c.core.cleanup ∧ c.idleTimeout.phase = c.phase := by
  refine ⟨?_, ?_⟩
  · rw [idleTimeout, core_cleanup, core_send]
    rfl
  · rw [idleTimeout, phase_cleanup, phase_send]

theorem maxDuration_spec : c.maxDuration.core = c.core.cleanup ∧ c.maxDuration.phase = c.phase := by
  refine ⟨?_, ?_⟩
  · rw [maxDuration, core_cleanup, core_send]
    rfl
  · rw [maxDuration, phase_cleanup, phase_send]

theorem closeListener_spec :
    c.closeListener.core = c.core.cleanup ∧ c.closeListener.phase = c.phase := by
  rw [closeListener]
  split_ifs
  · rw [core_cleanup, phase_cleanup, core_effect, phase_effect]
    exact ⟨rfl, rfl⟩
  · exact ⟨core_cleanup _ _ _, phase_cleanup _ _ _⟩

end Connection

/-- A step of the handler that keeps what is not closed, or cleans up, on to a later phase. -/
theorem Accounted.handler (h : Accounted c.core c.phase) (hphase : c.phase ≠ .returned)
    (hkept : c.core.Kept c'.core)
    (hnext : c'.phase.beforeExec = true → c.phase.beforeExec = true) :
    Accounted c'.core c'.phase :=
  (h.kept hkept).goOn hphase hnext

/-- An event that keeps what is not closed, or cleans up. -/
theorem Accounted.event (h : Accounted c.core c.phase) (hkept : c.core.Kept c'.core)
    (hphase : c'.phase = c.phase) : Accounted c'.core c'.phase :=
  hphase ▸ h.kept hkept

theorem Accounted.execOpened (h : Accounted c.core c.phase) (hphase : c.phase = .opening)
    (hclosed : c.closed = false) (exec : Connection.InteractiveExec) :
    Accounted (c.execOpened exec).core (c.execOpened exec).phase := by
  have hnone : c.closeExec = false := h.unopened (by rw [hphase]; rfl)
  have hopened : c.opened = 0 := by
    have := h.opened
    rwa [show c.core.closeExec = false from hnone, if_neg Bool.false_ne_true] at this
  have hcalls : c.closeCalls = 0 := by
    have := h.calls
    rwa [show c.core.closed = false from hclosed, Bool.false_and,
      if_neg Bool.false_ne_true] at this
  have hheard : c.listening = true := by
    refine (h.heard hclosed).resolve_right fun hreturned => ?_
    rw [hphase] at hreturned
    cases hreturned.2
  have hsocket : ¬ c.core.socketClosed = true := by
    intro hsocket
    obtain hdone | hreturned := h.ended hsocket
    · exact absurd (hclosed.symm.trans hdone) Bool.false_ne_true
    · rw [hphase] at hreturned
      cases hreturned.2
  have hexec : Accounted { c.core with closeExec := true, opened := c.opened + 1 }
      .execStarted := by
    refine ⟨?_, ?_, nofun, fun _ => .inl hheard, fun h => absurd h hsocket⟩
    · simp [hopened]
    · show c.closeCalls = if c.closed && true then 1 else 0
      simp [hcalls, hclosed]
  obtain ⟨hkept, hnext⟩ := Connection.abortOr_spec
    { c with
      execId := some exec.execId, stdin := exec.stdin, stdout := exec.stdout,
      stderr := exec.stderr, closeExec := true, opened := c.opened + 1 }
    "post_exec_start" .execStarted
  have hafter := hexec.kept hkept
  obtain hnext | hnext := hnext
  · rw [Connection.execOpened, hnext]
    exact hafter.goOn nofun nofun
  · rw [Connection.execOpened, hnext]
    exact hafter

theorem Accounted.socketClosed (h : Accounted c.core c.phase) :
    Accounted c.socketClosed.core c.socketClosed.phase := by
  have hend : ∀ c' : Connection, c'.phase = c.phase → Accounted c'.core c'.phase →
      Accounted (if c'.phase = .earlyClose then
        { c' with phase := .earlyClosed true } else c').core
        (if c'.phase = .earlyClose then
          { c' with phase := .earlyClosed true } else c').phase := by
    intro c' _ hc'
    split_ifs with hearly
    · exact hc'.goOn (by rw [hearly]; nofun) fun _ => by rw [hearly]; rfl
    · exact hc'
  rw [Connection.socketClosed]
  by_cases hlistening : c.listening = true
  · have hspec := Connection.closeListener_spec { c with socket := .closed }
    rw [if_pos hlistening]
    refine hend _ hspec.2 ?_
    rw [hspec.1, hspec.2]
    exact h.end_cleanup
  · rw [if_neg hlistening]
    refine hend _ rfl ⟨h.opened, h.calls, h.unopened, h.heard, fun _ => ?_⟩
    by_cases hclosed : c.closed = true
    · exact .inl hclosed
    · have hup : c.closed = false := by simpa using hclosed
      exact .inr ((h.heard hup).resolve_left hlistening)

def Connection.Accounts (c : Connection) : Prop := Accounted c.core c.phase

theorem accounts_handleConnection (socket : Socket) (workspaceIdParam : Option String)
    (validQuery : Bool) :
    (Connection.handleConnection socket workspaceIdParam validQuery).Accounts := by
  rw [Connection.Accounts]
  have hnone : ∀ b, Accounted ⟨b, false, false, false, 0, 0⟩ .returned := fun b =>
    ⟨rfl, rfl, fun _ => rfl, fun _ => .inr ⟨rfl, rfl⟩, fun _ => .inr ⟨rfl, rfl⟩⟩
  unfold Connection.handleConnection
  cases truthy workspaceIdParam with
  | none =>
    dsimp only
    rw [Connection.core_close, Connection.core_send, Connection.phase_close,
      Connection.phase_send]
    exact hnone _
  | some workspaceId =>
    dsimp only
    split_ifs
    · rw [Connection.abortOr]
      split_ifs with habort
      · rw [Connection.core_phase, Connection.core_abort]
        exact ⟨rfl, rfl, nofun, nofun, fun _ => .inl rfl⟩
      · have hopen : socket = .open := by simpa using habort
        refine ⟨rfl, rfl, fun _ => rfl, fun _ => .inl rfl, fun hsocket => ?_⟩
        have hclosed : socket = .closed := of_decide_eq_true hsocket
        rw [hopen] at hclosed
        cases hclosed
    · rw [Connection.core_close, Connection.core_send, Connection.phase_close,
        Connection.phase_send]
      exact hnone _

theorem Accounted.step {a : Action} (h : Accounted c.core c.phase) (hintime : OpensInTime c a)
    (hstep : TerminalGateway.step c a = some c') : Accounted c'.core c'.phase := by
  cases a with
  | earlyTimeout =>
    rw [TerminalGateway.step] at hstep
    split_ifs at hstep with hphase
    obtain rfl := Option.some.inj hstep
    exact h.handler (by rw [hphase]; nofun) (.inl rfl) fun _ => by rw [hphase]; rfl
  | aborted =>
    rw [TerminalGateway.step] at hstep
    split_ifs at hstep with hphase
    obtain rfl := Option.some.inj hstep
    exact h.handler (by rw [hphase]; nofun) (.inr (by simp)) nofun
  | validated result =>
    rw [TerminalGateway.step] at hstep
    split_ifs at hstep with hphase hstarted
    · obtain rfl := Option.some.inj hstep
      exact h.handler (by rw [hphase]; nofun) (.inl rfl) nofun
    · obtain rfl := Option.some.inj hstep
      obtain ⟨hkept, -⟩ := c.validated_spec result
      exact h.handler (by rw [hphase]; nofun) hkept fun _ => by rw [hphase]; rfl
  | startTimers now =>
    rw [TerminalGateway.step] at hstep
    split_ifs at hstep with hphase
    obtain rfl := Option.some.inj hstep
    exact h.handler (by rw [hphase]; nofun) (.inl rfl) fun _ => by rw [hphase]; rfl
  | opened exec =>
    rw [TerminalGateway.step] at hstep
    split_ifs at hstep with hphase
    obtain rfl := Option.some.inj hstep
    exact h.execOpened hphase hintime exec
  | openFailed statusCode message =>
    rw [TerminalGateway.step] at hstep
    split_ifs at hstep with hphase
    obtain rfl := Option.some.inj hstep
    obtain ⟨hcore, hnext⟩ := c.execFailed_spec statusCode message
    exact h.handler (by rw [hphase]; nofun) (.inr hcore) fun _ => by rw [hphase]; rfl
  | markConnected failure =>
    rw [TerminalGateway.step] at hstep
    split_ifs at hstep with hphase
    obtain rfl := Option.some.inj hstep
    obtain ⟨hkept, connected, hnext⟩ := c.markSessionConnected_spec failure
    exact h.handler (by rw [hphase]; nofun) hkept (by rw [hnext]; nofun)
  | running =>
    rw [TerminalGateway.step] at hstep
    split_ifs at hstep with hphase
    obtain rfl := Option.some.inj hstep
    obtain ⟨hcore, hnext⟩ := c.running_spec
    refine h.handler (by rw [hphase]; nofun) (.inl hcore) fun hbefore => ?_
    obtain hnext | hnext := hnext
    · rw [hnext] at hbefore
      cases hbefore
    · rw [hnext] at hbefore
      cases hbefore
  | resized =>
    rw [TerminalGateway.step] at hstep
    split_ifs at hstep with hphase
    obtain rfl := Option.some.inj hstep
    exact h.handler (by rw [hphase]; nofun) (.inl rfl) nofun
  | returned =>
    rw [TerminalGateway.step] at hstep
    split_ifs at hstep with hphase
    obtain rfl := Option.some.inj hstep
    refine h.handler (fun hreturned => ?_) (.inl rfl) nofun
    obtain hphase | hphase := hphase
    · exact absurd (hphase.symm.trans hreturned) nofun
    · exact absurd (hphase.symm.trans hreturned) nofun
  | execClosed result =>
    obtain ⟨cleaning, -, rfl⟩ := Option.map_eq_some_iff.mp hstep
    exact h.event (.inl (by rw [Connection.core_endCleanup]; rfl))
      (by rw [Connection.phase_endCleanup])
  | socketClosing =>
    rw [TerminalGateway.step] at hstep
    split_ifs at hstep with hsocket
    obtain rfl := Option.some.inj hstep
    refine h.event (.inl ?_) rfl
    simp [Connection.core, hsocket]
  | socketClosed =>
    rw [TerminalGateway.step] at hstep
    split_ifs at hstep
    obtain rfl := Option.some.inj hstep
    exact h.socketClosed
  | socketError =>
    obtain rfl := Option.some.inj hstep
    rw [Connection.socketError]
    split_ifs
    · exact h.event (.inr (by simp)) (by simp)
    · exact h
  | message m =>
    obtain rfl := Option.some.inj hstep
    exact h.event (c.message_spec m).1 (c.message_spec m).2
  | resizeFailed =>
    obtain rfl := Option.some.inj hstep
    exact h.event (.inl (by simp)) (by simp)
  | idleTimeout =>
    rw [TerminalGateway.step] at hstep
    split_ifs at hstep
    obtain rfl := Option.some.inj hstep
    exact h.event (.inr c.idleTimeout_spec.1) c.idleTimeout_spec.2
  | maxDuration =>
    rw [TerminalGateway.step] at hstep
    split_ifs at hstep
    obtain rfl := Option.some.inj hstep
    exact h.event (.inr c.maxDuration_spec.1) c.maxDuration_spec.2
  | streamEnd =>
    rw [TerminalGateway.step] at hstep
    split_ifs at hstep
    obtain rfl := Option.some.inj hstep
    exact h.event (.inr (by simp)) (by simp)
  | output data =>
    rw [TerminalGateway.step] at hstep
    split_ifs at hstep
    · obtain rfl := Option.some.inj hstep
      exact h
    · obtain rfl := Option.some.inj hstep
      exact h.event (.inl (by simp)) (c.phase_send (.output data))
  | written =>
    rw [TerminalGateway.step] at hstep
    split_ifs at hstep
    obtain rfl := Option.some.inj hstep
    exact h

/-- As long as an exec is opened before its connection has been cleaned up, no exec is left: with
the socket closed and nothing pending, the close function of each has been called exactly once. -/
theorem no_exec_left {socket : Socket} {workspaceIdParam : Option String} {validQuery : Bool}
    (h : Reached step OpensInTime
      (Connection.handleConnection socket workspaceIdParam validQuery) c) :
    c.opened ≤ 1 ∧ c.closeCalls ≤ c.opened ∧
      (c.socket = .closed → c.phase = .returned → c.cleaning = none → c.closeCalls = c.opened) := by
  have haccounted : c.Accounts :=
    h.invariant (accounts_handleConnection socket workspaceIdParam validQuery)
      fun _ _ _ hinv hintime hstep => Accounted.step hinv hintime hstep
  have hopened : c.opened = if c.closeExec then 1 else 0 := haccounted.opened
  have hcalls : c.closeCalls = if c.closed && c.closeExec then 1 else 0 := haccounted.calls
  refine ⟨?_, ?_, fun hsocket _ _ => ?_⟩
  · rw [hopened]
    split_ifs <;> omega
  · rw [hopened, hcalls]
    cases c.closed <;> cases c.closeExec <;> decide
  · have hend := haccounted.ended (decide_eq_true hsocket)
    rw [hopened, hcalls]
    obtain hclosed | ⟨hnone, -⟩ := hend
    · rw [show c.closed = true from hclosed, Bool.true_and]
    · rw [show c.closeExec = false from hnone, Bool.and_false]

def plainSession : TerminalSessionRecord := ⟨"workspace", 0, 300000, 1800000⟩

def plainExec : Connection.InteractiveExec := ⟨"exec", true, true, false⟩

def typedAndLeft : List Action :=
  [.earlyTimeout, .validated (.ok plainSession), .startTimers 10, .opened plainExec,
    .markConnected none, .running, .resized, .message (.input "ls\n"), .written, .output "bin",
    .socketClosing, .socketClosed, .execClosed (.ok 0)]

theorem no_exec_left_typed_and_left :
    ∃ c, runFrom step (Connection.handleConnection .open (some "workspace") true) typedAndLeft =
      some c ∧ c.socket = .closed ∧ c.opened = 1 ∧ c.closeCalls = 1 := by
  have hmeet : StepsMeet step OpensInTime
      (Connection.handleConnection .open (some "workspace") true) typedAndLeft := by
    decide +kernel
  have hrun : (runFrom step (Connection.handleConnection .open (some "workspace") true)
      typedAndLeft).map (fun c => (c.socket, c.phase, c.cleaning, c.opened)) =
        some (.closed, .returned, none, 1) := by
    decide +kernel
  obtain ⟨c, hc, heq⟩ := Option.map_eq_some_iff.mp hrun
  simp only [Prod.mk.injEq] at heq
  obtain ⟨hsocket, hphase, hcleaning, hopened⟩ := heq
  have hcalls := (no_exec_left (Reached.init.run hmeet hc)).2.2 hsocket hphase hcleaning
  exact ⟨c, hc, hsocket, hopened, hcalls.trans hopened⟩

def leftWhileOpening : List Action :=
  [.earlyTimeout, .validated (.ok plainSession), .startTimers 10, .socketClosing, .socketClosed,
    .opened plainExec, .returned]

theorem exec_left :
    ∃ c, Reached step (fun _ _ => True)
        (Connection.handleConnection .open (some "workspace") true) c ∧
      c.socket = .closed ∧ c.phase = .returned ∧ c.cleaning = none ∧ c.opened = 1 ∧
        c.closeCalls = 0 := by
  have hrun : ((runFrom step (Connection.handleConnection .open (some "workspace") true)
      leftWhileOpening).any fun c => decide (c.socket = .closed ∧ c.phase = .returned ∧
        c.cleaning = none ∧ c.opened = 1 ∧ c.closeCalls = 0)) = true := by
    decide +kernel
  obtain ⟨c, hc, heq⟩ := (Option.any_eq_true _ _).mp hrun
  exact ⟨c, .of_run hc, of_decide_eq_true heq⟩

end Agyn.TerminalGateway
