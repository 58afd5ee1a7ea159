import Agyn.ShellAgreement

/-!
The end of a streaming run, also when the execution fails: a timeout brings its own output and a
message. What is left is flushed, an output over a limit is saved in the container, and the
terminal record and the text that is returned are made.
-/
namespace Agyn.ShellCommand

open IngressText

variable {δ : Type} (iconv : Iconv δ)

structure StreamingConfig extends ResolvedShellCommandConfig where
  executionTimeoutMs : ℕ
  idleTimeoutMs : ℕ

/-- How the execution ends. The headline of a failure is its message, or what is known of the
interruption of the connection. -/
inductive ExecEnd where
  | completed (response : ExecResponse)
  | timedOut (timeoutMs : ℕ) (stdout stderr : Text)
  | idledOut (timeoutMs : ℕ) (stdout stderr : Text)
  | failed (headline : Text)

def ExecEnd.response : ExecEnd → ExecResponse
  | .completed response => response
  | .timedOut _ stdout stderr => ⟨stdout, stderr, 0⟩
  | .idledOut _ stdout stderr => ⟨stdout, stderr, 0⟩
  | .failed _ => ⟨[], [], 0⟩

inductive ToolOutputStatus where
  | success
  | error
  | timeout
  | idleTimeout
  | truncated
  deriving DecidableEq

structure ToolOutputTerminal where
  exitCode : Option ℤ
  status : ToolOutputStatus
  bytesStdout : ℕ
  bytesStderr : ℕ
  totalChunks : ℕ
  droppedChunks : ℕ
  savedPath : Option Text
  message : Option Text

abbrev Files := List (Text × Text)

/-- What a run leaves: the returned text, the terminal record and the saved files. -/
structure StreamingResult where
  text : Text
  terminal : ToolOutputTerminal
  files : Files

/-- `saveOversizedOutputInContainer`, which fails or writes a new file: its path, and the files
that are added. -/
def saveOversizedOutput (save : Option Text) (content : Text) : Option Text × Files :=
  (save, (save.map fun path => (path, content)).toList)

namespace StreamState

def replaceCleaned (s : StreamState δ) (response : ExecResponse) : StreamState δ :=
  { s with cleaned := fun
      | .stdout => stripAnsi (sanitizePlainText response.stdout)
      | .stderr => stripAnsi (sanitizePlainText response.stderr) }

def timeOut (s : StreamState δ) (response : ExecResponse) (message : String) : StreamState δ :=
  let s := s.replaceCleaned response
  { s with
    bytesBySource := fun source => byteLength (s.cleaned source)
    truncationMessage := some (units message) }

def catchError (s : StreamState δ) (cfg : StreamingConfig) (ending : ExecEnd) : StreamState δ :=
  match ending with
  | .completed _ => s
  | .failed _ => s
  | .timedOut .. => s.timeOut ending.response
      ("Command timed out after " ++ toString cfg.executionTimeoutMs ++ "ms.")
  | .idledOut .. => s.timeOut ending.response
      ("Command produced no output for " ++ toString cfg.idleTimeoutMs ++ "ms.")

/-- The segments that were sent out, in the order in which they came, or else the cleaned output. -/
def combinedOutput (s : StreamState δ) : Text :=
  sanitizePlainText (
    if s.orderedOutput ≠ [] then
      ((s.orderedOutput.mergeSort fun a b => a.order ≤ b.order).map Segment.text).flatten
    else s.cleaned .stdout ++ s.cleaned .stderr)

end StreamState

/-- The state when everything is flushed. -/
def ended (cfg : StreamingConfig) (persists : ℕ → Bool) (events : List StreamEvent)
    (ending : ExecEnd) : StreamState δ :=
  let s := events.foldl (StreamState.step iconv cfg.toResolvedShellCommandConfig persists)
    (.initial iconv)
  let s := (s.catchError cfg ending).settle iconv cfg.toResolvedShellCommandConfig persists
  match ending with
  | .completed response => s.replaceCleaned response
  | _ => s

/-- The status before the final output is checked. -/
def firstStatus (truncated : Bool) : ExecEnd → ToolOutputStatus
  | .completed response =>
    if response.exitCode ≠ 0 then .error else if truncated then .truncated else .success
  | .timedOut .. => .timeout
  | .idledOut .. => .idleTimeout
  | .failed _ => .error

/-- The check of the final output against the limit, and the saving of a truncated output. -/
def saveTruncated (cfg : ResolvedShellCommandConfig) (save : SaveOversizedOutput) (final : Text)
    (t : Truncation) : Truncation × Files :=
  let limit := cfg.outputLimitChars
  let (first, files) :=
    if !t.truncated ∧ 0 < limit ∧ limit < final.length then saveOversizedOutput (save 0) final
    else (none, [])
  let t := t.checkFinal cfg final first
  let (second, more) :=
    if t.truncated ∧ final ≠ [] ∧ t.savedPath = none then saveOversizedOutput (save 1) final
    else (none, [])
  (t.complete cfg final second, files ++ more)

def execErrorHeadline : ExecEnd → Option (ℤ × Text)
  | .completed _ => none
  | .timedOut timeoutMs .. =>
    some (408, units ("Exec timed out after " ++ toString timeoutMs ++ "ms"))
  | .idledOut timeoutMs .. =>
    some (408, units ("Exec idle timed out after " ++ toString timeoutMs ++ "ms"))
  | .failed headline => some (500, headline)

/-- `buildPlainTextErrorPayload` for an error of the execution: an output that is not saved is cut
at `OUTPUT_TAIL_LIMIT`. -/
def execErrorPayload (exitCode : ℤ) (headline combinedOutput : Text) (limit : ℕ)
    (savedPath truncationMessage save : Option Text) : Option ErrorPayload :=
  let shouldPersist := 0 < limit && limit < combinedOutput.length
  let truncationMessage :=
    if shouldPersist then
      truncationMessage.or
        (some (units ("Output exceeded " ++ toString limit ++ " characters.")))
    else truncationMessage
  let path := if shouldPersist then savedPath.or save else savedPath
  if shouldPersist && path.isNone then none
  else
    let tailLimit := min limit OUTPUT_TAIL_LIMIT
    let renderedOutput :=
      if shouldPersist then lastUnits (min tailLimit combinedOutput.length) combinedOutput
      else lastUnits OUTPUT_TAIL_LIMIT combinedOutput
    some ⟨units ("[exit code " ++ toString exitCode ++ "] ") ++ headline ++ units "\n---\n" ++
      renderedOutput, path, truncationMessage⟩

def payloadFiles (cfg : ResolvedShellCommandConfig) (final : Text) (savedPath save : Option Text) :
    Files :=
  if 0 < cfg.outputLimitChars ∧ cfg.outputLimitChars < final.length ∧ savedPath = none then
    (saveOversizedOutput save final).2
  else []

def execErrorResult (cfg : ResolvedShellCommandConfig) (s : StreamState δ) (final : Text)
    (t : Truncation) (files : Files) (status : ToolOutputStatus) (exitCode : ℤ) (headline : Text)
    (save : Option Text) : StreamingResult :=
  let payload := execErrorPayload exitCode headline final cfg.outputLimitChars t.savedPath
    t.message save
  { text := sanitizePlainText (match payload with
      | some payload => payload.message
      | none => units ("[exit code " ++ toString exitCode ++ "] ") ++ headline)
    terminal := {
      exitCode := none
      status := if status = .timeout ∨ status = .idleTimeout then status else .error
      bytesStdout := s.bytesBySource .stdout
      bytesStderr := s.bytesBySource .stderr
      totalChunks := s.totalChunks
      droppedChunks := s.droppedChunks
      savedPath := payload.elim t.savedPath ErrorPayload.savedPath
      message := t.message.or (payload.bind ErrorPayload.truncationMessage) }
    files := files ++ payloadFiles cfg final t.savedPath save }

def completedResult (cfg : ResolvedShellCommandConfig) (s : StreamState δ) (final : Text)
    (t : Truncation) (files : Files) (status : ToolOutputStatus) (response : ExecResponse)
    (save : Option Text) : StreamingResult :=
  let terminal : ToolOutputTerminal := {
    exitCode := some response.exitCode
    status
    bytesStdout := s.bytesBySource .stdout
    bytesStderr := s.bytesBySource .stderr
    totalChunks := s.totalChunks
    droppedChunks := s.droppedChunks
    savedPath := t.savedPath
    message := t.message }
  if response.exitCode ≠ 0 then
    let payload := formatExitCodeErrorMessage response.exitCode final cfg.outputLimitChars
      t.savedPath t.message save
    let files := files ++ payloadFiles cfg final t.savedPath save
    match payload with
    | some payload =>
      let message := match payload.savedPath with
        | some path => includingPath t.message path
        | none => t.message
      { text := sanitizePlainText payload.message
        terminal := { terminal with
          savedPath := t.savedPath.or payload.savedPath
          message := message.or payload.truncationMessage }
        files }
    | none =>
      { text := sanitizePlainText (units ("[exit code " ++ toString response.exitCode ++ "]"))
        terminal
        files }
  else
    { text :=
        if status = .truncated then
          t.message.getD (match t.savedPath with
            | some path => units "Output truncated. Full output saved to " ++ path ++ units "."
            | none => units "Output truncated.")
        else final
      terminal
      files }

def executeStreamingFully (cfg : StreamingConfig) (save : SaveOversizedOutput)
    (persists : ℕ → Bool) (events : List StreamEvent) (ending : ExecEnd) : StreamingResult :=
  let s := ended iconv cfg persists events ending
  let final := s.combinedOutput
  let saved := saveTruncated cfg.toResolvedShellCommandConfig save final
    ⟨s.truncated, s.truncatedReason, s.truncationMessage, none⟩
  let t := saved.1
  let status :=
    if t.truncated && !s.truncated then .truncated else firstStatus s.truncated ending
  match execErrorHeadline ending with
  | some (exitCode, headline) =>
    execErrorResult cfg.toResolvedShellCommandConfig s final t saved.2 status exitCode headline
      (save 2)
  | none =>
    completedResult cfg.toResolvedShellCommandConfig s final t saved.2 status ending.response
      (save 2)

variable {iconv} {cfg : StreamingConfig} {save : SaveOversizedOutput} {persists : ℕ → Bool}
  {events : List StreamEvent} {response : ExecResponse} {ending : ExecEnd}

theorem ended_completed :
    ended iconv cfg persists events (.completed response) =
      (streamed iconv cfg.toResolvedShellCommandConfig persists events).replaceCleaned response :=
  rfl

theorem combinedOutput_replaceCleaned (s : StreamState δ) (response : ExecResponse) :
    (s.replaceCleaned response).combinedOutput = s.getCombinedOutput response := rfl

theorem truncated_complete (t : Truncation) (cfg : ResolvedShellCommandConfig) (final : Text)
    (save : Option Text) : (t.complete cfg final save).truncated = t.truncated := by
  unfold Truncation.complete
  split_ifs <;> rfl

/-- A truncation is not taken back. -/
theorem truncated_checkFinal (t : Truncation) (cfg : ResolvedShellCommandConfig) (final : Text)
    (save : Option Text) (h : t.truncated = true) :
    (t.checkFinal cfg final save).truncated = true := by
  unfold Truncation.checkFinal
  simp [h]

/-- An attempt to save that is not made does not matter. -/
theorem saveTruncated_fst (cfg : ResolvedShellCommandConfig) (save : SaveOversizedOutput)
    (final : Text) (t : Truncation) :
    (saveTruncated cfg save final t).1 =
      (t.checkFinal cfg final (save 0)).complete cfg final (save 1) := by
  have hfirst : t.checkFinal cfg final
      (if !t.truncated ∧ 0 < cfg.outputLimitChars ∧ cfg.outputLimitChars < final.length then
        saveOversizedOutput (save 0) final else (none, [])).1 =
        t.checkFinal cfg final (save 0) := by
    unfold Truncation.checkFinal
    dsimp only
    split_ifs <;> rfl
  unfold saveTruncated
  dsimp only
  rw [hfirst]
  generalize t.checkFinal cfg final (save 0) = t
  unfold Truncation.complete
  by_cases htruncated : t.truncated = true
  · by_cases hfinal : final = []
    · simp [htruncated, hfinal]
    · cases hpath : t.savedPath <;> simp [htruncated, hfinal, saveOversizedOutput]
  · simp [htruncated]

/-- The text that a command leaves when it has completed. -/
theorem completedResult_text {s : StreamState δ} {cfg : ResolvedShellCommandConfig} {final : Text}
    {t : Truncation} {files : Files} {status : ToolOutputStatus} {save : Option Text}
    (hstatus : response.exitCode = 0 → (status = .truncated ↔ t.truncated = true)) :
    (completedResult cfg s final t files status response save).text =
      if response.exitCode ≠ 0 then
        match formatExitCodeErrorMessage response.exitCode final cfg.outputLimitChars t.savedPath
            t.message save with
        | some payload => sanitizePlainText payload.message
        | none => sanitizePlainText (units ("[exit code " ++ toString response.exitCode ++ "]"))
      else if t.truncated then
        t.message.getD (match t.savedPath with
          | some path => units "Output truncated. Full output saved to " ++ path ++ units "."
          | none => units "Output truncated.")
      else final := by
  unfold completedResult
  by_cases hexit : response.exitCode = 0
  · simp only [hexit, ne_eq, not_true_eq_false, if_false, hstatus hexit]
  · simp only [ne_eq, hexit, not_false_eq_true, if_true]
    cases formatExitCodeErrorMessage response.exitCode final cfg.outputLimitChars t.savedPath
      t.message save <;> rfl

/-- A command with exit code 0 has the status of a truncation when its output is truncated. -/
theorem status_eq_truncated (hexit : response.exitCode = 0) {before after : Bool}
    (hkept : before = true → after = true) :
    (if after && !before then .truncated else firstStatus before (.completed response)) =
      ToolOutputStatus.truncated ↔ after = true := by
  cases before with
  | true => simp [firstStatus, hexit, hkept]
  | false => cases after <;> simp [firstStatus, hexit]

/-- A completed run returns the text of `executeStreaming`. -/
theorem executeStreamingFully_text :
    (executeStreamingFully iconv cfg save persists events (.completed response)).text =
      executeStreaming iconv cfg.toResolvedShellCommandConfig save persists events response := by
  show (completedResult ..).text = _
  rw [completedResult_text, saveTruncated_fst]
  · rfl
  · intro hexit
    rw [saveTruncated_fst, truncated_complete]
    exact status_eq_truncated hexit fun h => truncated_checkFinal _ _ _ _ (by exact h)

end Agyn.ShellCommand
