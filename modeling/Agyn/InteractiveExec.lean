import Mathlib.Algebra.Order.Floor.Defs
import Mathlib.Algebra.Order.Ring.Unbundled.Rat
import Mathlib.Data.Rat.Floor
import Agyn.GuardedRuns
import Agyn.InsertionMap
import Agyn.Utf8Decoding

/-!
`openInteractiveExec` of the runner client: the handlers of the events of the stream, the code
after the wait for the start, and what the session that is returned can do. The sessions of one
client share the map of interactive streams. What is written to the stream and the empty chunks
that wake a reader are left out.
-/
namespace Agyn.InteractiveExec

abbrev Bytes := List UInt8
abbrev Text := List Char

/-- `DockerRunnerRequestError` and the two errors of a timeout. -/
inductive ExecFailure where
  | request (statusCode : ℕ) (errorCode : String) (retryable : Bool) (message : String)
  | timeout (timeoutMs : ℕ) (stdout stderr : Text)
  | idleTimeout (timeoutMs : ℕ) (stdout stderr : Text)
  deriving DecidableEq

structure ExecResult where
  exitCode : ℤ
  stdout : Text
  stderr : Text
  deriving DecidableEq

inductive ExecExitReason where
  | completed
  | cancelled
  | timeout
  | idleTimeout
  | other (value : ℕ)
  deriving DecidableEq

inductive ExecEvent where
  | started (executionId : String)
  | stdout (data : Bytes)
  | stderr (data : Bytes)
  | exit (exitCode : ℤ) (reason : ExecExitReason) (stdoutTail stderrTail : Bytes)
  | error (code message : String) (retryable : Bool)
  deriving DecidableEq

/-- An error of the call; a code that is not a number is `none`. -/
structure ServiceError where
  code : Option ℕ
  sanitizedMessage : String
  deriving DecidableEq

inductive TerminationReason where
  | timeout
  | idleTimeout
  deriving DecidableEq

structure ExecConfig where
  defaultDeadlineMs : Option ℕ
  requestedTimeoutMs : Option ℕ
  requestedIdleTimeoutMs : Option ℕ
  deriving DecidableEq

def resolveTimeoutValue (primary fallback : Option ℕ) : ℕ :=
  if primary.getD 0 > 0 then primary.getD 0
  else if fallback.getD 0 > 0 then fallback.getD 0 else 0

def translateExecError (code message : String) (retryable : Bool) : ExecFailure :=
  .request 500 (if code = "" then "runner_exec_error" else code) retryable
    (if message = "" then "runner exec error" else message)

def mapExitReasonToError (cfg : ExecConfig) (reason : ExecExitReason) (stdout stderr : Text) :
    Option ExecFailure :=
  match reason with
  | .timeout => some (.timeout
      (resolveTimeoutValue cfg.requestedTimeoutMs cfg.requestedIdleTimeoutMs) stdout stderr)
  | .idleTimeout => some (.idleTimeout
      (resolveTimeoutValue cfg.requestedIdleTimeoutMs cfg.requestedTimeoutMs) stdout stderr)
  | _ => none

/-- Status 4 is `DEADLINE_EXCEEDED`. -/
def mapGrpcDeadlineToTimeout (cfg : ExecConfig) (err : ServiceError) (stdout stderr : Text) :
    Option ExecFailure :=
  let resolved := resolveTimeoutValue cfg.requestedTimeoutMs cfg.requestedIdleTimeoutMs
  if err.code = some 4 then
    some (.timeout (if resolved > 0 then resolved else cfg.defaultDeadlineMs.getD 0) stdout stderr)
  else none

/-- Status 1 is `CANCELLED`, 2 is `UNKNOWN`; 14, 8 and 4 can be tried again. -/
def translateServiceError (err : ServiceError) : ExecFailure :=
  let grpcCode := err.code.getD 2
  if grpcCode = 1 then .request 499 "runner_exec_cancelled" false err.sanitizedMessage
  else .request 0 "runner_grpc_error" (grpcCode = 14 ∨ grpcCode = 8 ∨ grpcCode = 4)
    err.sanitizedMessage

def ExecFailure.isCancellation : ExecFailure → Bool
  | .request _ errorCode _ _ => errorCode = "runner_exec_cancelled"
  | _ => false

/-- A promise; what it is resolved or rejected with first stays. -/
inductive Settlement (α : Type) where
  | pending
  | resolved (value : α)
  | rejected (error : ExecFailure)
  deriving DecidableEq

namespace Settlement

variable {α : Type}

def resolve (p : Settlement α) (value : α) : Settlement α :=
  match p with
  | .pending => .resolved value
  | p => p

def reject (p : Settlement α) (error : ExecFailure) : Settlement α :=
  match p with
  | .pending => .rejected error
  | p => p

end Settlement

inductive Ending where
  | ended
  | destroyed (error : ExecFailure)
  deriving DecidableEq

structure PassThrough where
  chunks : List Bytes := []
  ending : Option Ending := none
  deriving DecidableEq

namespace PassThrough

/-- A chunk that comes after the end is dropped, with an error that is ignored. -/
def write (s : PassThrough) (chunk : Bytes) : PassThrough :=
  if s.ending = none then { s with chunks := s.chunks ++ [chunk] } else s

def close (s : PassThrough) (ending : Ending) : PassThrough :=
  { s with ending := some (s.ending.getD ending) }

end PassThrough

/-- The variables of one call of `openInteractiveExec`. -/
structure Session where
  stdout : PassThrough
  /-- `none` when the two outputs are not kept apart. -/
  stderr : Option PassThrough
  execId : Option String
  finished : Bool
  finalResult : Option ExecResult
  cancelledLocally : Bool
  forcedTerminationReason : Option TerminationReason
  readyPromise : Settlement Unit
  closePromise : Settlement ExecResult
  /-- The id in the session, once it is returned. -/
  resolvedExecId : Option String
  /-- The stream has ended. -/
  streamEnded : Bool
  /-- Calls of `close` that wait for `cancelExecution`. -/
  closing : ℕ
  /-- Calls of `terminateProcessGroup` that wait for `cancelExecution`. -/
  terminating : ℕ
  deriving DecidableEq

def Session.opened (demuxStderr : Bool) : Session where
  stdout := {}
  stderr := if demuxStderr then some {} else none
  execId := none
  finished := false
  finalResult := none
  cancelledLocally := false
  forcedTerminationReason := none
  readyPromise := .pending
  closePromise := .pending
  resolvedExecId := none
  streamEnded := false
  closing := 0
  terminating := 0

namespace Session

/-- `execId`, where it is truthy. -/
def activeId (s : Session) : Option String := s.execId.filter (· ≠ "")

/-- The promise that `openInteractiveExec` returns. -/
def promise (s : Session) : Settlement String :=
  match s.readyPromise, s.resolvedExecId with
  | .rejected error, _ => .rejected error
  | .resolved _, some id => .resolved id
  | _, _ => .pending

end Session

/-- A session and the map that it shares with the others. -/
structure Exec (κ : Type) where
  session : Session
  interactiveStreams : InsMap String κ

/-- What happens to a call. -/
inductive Action where
  | data (event : Option ExecEvent)
  | error (err : ServiceError)
  | streamEnd
  /-- The code after `await readyPromise`, with the id that it draws. -/
  | returns (uuid : String)
  | close
  /-- The wait of `close` for `cancelExecution` is over. -/
  | closeGoesOn
  | destroyStdin
  | terminate (reason : TerminationReason)
  /-- The answer of `cancelExecution` to a termination, or its failure. -/
  | terminateGoesOn (cancelled : Option Bool)
  deriving DecidableEq

namespace Exec

variable {κ : Type}

def cleanupStream (x : Exec κ) : Exec κ :=
  match x.session.activeId with
  | some id => { x with interactiveStreams := x.interactiveStreams.delete id }
  | none => x

def finalize (x : Exec κ) (result : ExecResult) : Exec κ :=
  if x.session.finished then x
  else
    { x.cleanupStream with
      session := { x.session with
        finished := true
        finalResult := some result
        stdout := x.session.stdout.close .ended
        stderr := x.session.stderr.map (·.close .ended)
        closePromise := x.session.closePromise.resolve result } }

def emptyResult : ExecResult := ⟨0, [], []⟩

def fail (x : Exec κ) (error : ExecFailure) : Exec κ :=
  if x.session.finished then x
  else if error.isCancellation then
    finalize { x with
      session := { x.session with readyPromise := x.session.readyPromise.resolve () } } emptyResult
  else
    { x.cleanupStream with
      session := { x.session with
        finished := true
        stdout := x.session.stdout.close (.destroyed error)
        stderr := x.session.stderr.map (·.close (.destroyed error))
        readyPromise := x.session.readyPromise.reject error
        closePromise := x.session.closePromise.reject error } }

def onStarted (call : κ) (x : Exec κ) (executionId : String) : Exec κ where
  session := { x.session with
    execId := some executionId
    readyPromise := x.session.readyPromise.resolve () }
  interactiveStreams :=
    if executionId ≠ "" then x.interactiveStreams.set executionId call else x.interactiveStreams

def onStdout (x : Exec κ) (data : Bytes) : Exec κ :=
  if data.length > 0 then
    { x with session := { x.session with stdout := x.session.stdout.write data } }
  else x

def onStderr (x : Exec κ) (data : Bytes) : Exec κ :=
  if data = [] then x
  else
    match x.session.stderr with
    | some stderr => { x with session := { x.session with stderr := some (stderr.write data) } }
    | none => { x with session := { x.session with stdout := x.session.stdout.write data } }

def forcedError (cfg : ExecConfig) (reason : TerminationReason) (stdout stderr : Text) :
    ExecFailure :=
  match reason with
  | .timeout => .timeout
      (resolveTimeoutValue cfg.requestedTimeoutMs cfg.requestedIdleTimeoutMs) stdout stderr
  | .idleTimeout => .idleTimeout
      (resolveTimeoutValue cfg.requestedIdleTimeoutMs cfg.requestedTimeoutMs) stdout stderr

def unforcedExit (cfg : ExecConfig) (x : Exec κ) (exitCode : ℤ) (reason : ExecExitReason)
    (stdout stderr : Text) : Exec κ :=
  match mapExitReasonToError cfg reason stdout stderr with
  | some timeoutError =>
    if x.session.cancelledLocally ∧ reason = .idleTimeout then x.finalize ⟨0, stdout, stderr⟩
    else x.fail timeoutError
  | none => x.finalize ⟨exitCode, stdout, stderr⟩

def onExit (cfg : ExecConfig) (x : Exec κ) (exitCode : ℤ) (reason : ExecExitReason)
    (stdoutTail stderrTail : Bytes) : Exec κ :=
  let stdout := Utf8.decode stdoutTail
  let stderr := Utf8.decode stderrTail
  let y := { x with session := { x.session with forcedTerminationReason := none } }
  match x.session.forcedTerminationReason with
  | some forced =>
    if reason = .cancelled ∨ reason = .completed then y.fail (forcedError cfg forced stdout stderr)
    else y.unforcedExit cfg exitCode reason stdout stderr
  | none => y.unforcedExit cfg exitCode reason stdout stderr

def onData (cfg : ExecConfig) (call : κ) (x : Exec κ) : Option ExecEvent → Exec κ
  | none => x
  | some (.started executionId) => x.onStarted call executionId
  | some (.stdout data) => x.onStdout data
  | some (.stderr data) => x.onStderr data
  | some (.exit exitCode reason stdoutTail stderrTail) =>
    x.onExit cfg exitCode reason stdoutTail stderrTail
  | some (.error code message retryable) => x.fail (translateExecError code message retryable)

def onError (cfg : ExecConfig) (x : Exec κ) (err : ServiceError) : Exec κ :=
  if x.session.finished then x
  else
    let stdout := (x.session.finalResult.map (·.stdout)).getD []
    let stderr := (x.session.finalResult.map (·.stderr)).getD []
    match mapGrpcDeadlineToTimeout cfg err stdout stderr with
    | some timeoutError => x.fail timeoutError
    | none => x.fail (translateServiceError err)

def onEnd (x : Exec κ) : Exec κ :=
  let x := { x with session := { x.session with streamEnded := true } }
  if x.session.finished then x
  else
    let x := x.cleanupStream
    if x.session.cancelledLocally then x.finalize emptyResult
    else x.fail (.request 0 "runner_stream_closed" true "Exec stream ended before exit event")

/-- The code after `await readyPromise`. -/
def afterReady (call : κ) (x : Exec κ) (uuid : String) : Exec κ where
  session := { x.session with resolvedExecId := some (x.session.execId.getD uuid) }
  interactiveStreams :=
    if x.session.activeId = none then
      x.interactiveStreams.set (x.session.execId.getD uuid) call
    else x.interactiveStreams

/-- The end of `close`, after what it writes to the stream. -/
def finishClose (x : Exec κ) : Exec κ :=
  if x.session.finished then x else x.finalize emptyResult

def close (x : Exec κ) : Exec κ :=
  if x.session.finalResult.isSome then x
  else
    let x := { x with session := { x.session with cancelledLocally := true } }
    if x.session.activeId.isSome then
      { x with session := { x.session with closing := x.session.closing + 1 } }
    else x.finishClose

def destroyStdin (x : Exec κ) : Exec κ :=
  cleanupStream { x with session := { x.session with cancelledLocally := true } }

def terminateProcessGroup (x : Exec κ) (resolvedExecId : String) (reason : TerminationReason) :
    Exec κ :=
  if x.session.execId.getD resolvedExecId = "" then x
  else
    { x with session := { x.session with
        forcedTerminationReason := some reason
        terminating := x.session.terminating + 1 } }

def terminationAnswered (x : Exec κ) (cancelled : Option Bool) : Exec κ :=
  let s := { x.session with terminating := x.session.terminating - 1 }
  if cancelled = some true then { x with session := { s with cancelledLocally := true } }
  else { x with session := { s with forcedTerminationReason := none } }

/-- What an action does; an action that cannot happen has no result. The session is there once it
is returned. -/
def step (cfg : ExecConfig) (call : κ) (x : Exec κ) (a : Action) : Option (Exec κ) :=
  match a, x.session.resolvedExecId with
  | .data event, _ => some (x.onData cfg call event)
  | .error err, _ => some (x.onError cfg err)
  | .streamEnd, _ => some x.onEnd
  | .returns uuid, none =>
    if x.session.readyPromise = .resolved () then some (x.afterReady call uuid) else none
  | .close, some _ => some x.close
  | .closeGoesOn, some _ =>
    if x.session.closing > 0 then
      some (finishClose { x with session := { x.session with closing := x.session.closing - 1 } })
    else none
  | .destroyStdin, some _ => some x.destroyStdin
  | .terminate reason, some id => some (x.terminateProcessGroup id reason)
  | .terminateGoesOn cancelled, some _ =>
    if x.session.terminating > 0 then some (x.terminationAnswered cancelled) else none
  | _, _ => none

end Exec

structure Client (κ : Type) where
  sessions : κ → Session
  interactiveStreams : InsMap String κ

namespace Client

variable {κ : Type} [DecidableEq κ]

/-- Calls that have been opened, with what they ask for, and have not heard of the runner. -/
def opened (demuxStderr : κ → Bool) : Client κ := ⟨fun call => .opened (demuxStderr call), .empty⟩

def exec (c : Client κ) (call : κ) : Exec κ := ⟨c.sessions call, c.interactiveStreams⟩

def put (c : Client κ) (call : κ) (x : Exec κ) : Client κ :=
  ⟨Function.update c.sessions call x.session, x.interactiveStreams⟩

def step (cfg : ExecConfig) (c : Client κ) (a : κ × Action) : Option (Client κ) :=
  ((c.exec a.1).step cfg a.1 a.2).map (c.put a.1)

/-- The request that `resizeExec` writes, to which call. -/
structure ExecResize (κ : Type) where
  call : κ
  cols : ℤ
  rows : ℤ
  deriving DecidableEq

/-- `write` is the call's: it may fail with a message. -/
def resizeExec (write : ExecResize κ → Option String) (c : Client κ) (execId : String)
    (cols rows : ℚ) : Except ExecFailure (ExecResize κ) :=
  match c.interactiveStreams.get execId with
  | none => .error (.request 404 "runner_exec_not_found" false
      s!"Execution {execId} not active")
  | some call =>
    let resize := ⟨call, max 0 ⌊cols⌋, max 0 ⌊rows⌋⟩
    match write resize with
    | none => .ok resize
    | some message => .error (.request 0 "runner_exec_resize_failed" true message)

end Client

end Agyn.InteractiveExec
