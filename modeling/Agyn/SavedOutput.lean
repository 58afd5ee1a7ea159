import Agyn.ChunkAccounting
import Agyn.GuardedRuns

/-!
The file with the output of a truncated run. It has the segments that were sent out; so it is the
full output as long as no output is ignored after a truncation and no flush of the chain is
dropped. In other runs it may miss a part.
-/
namespace Agyn.ShellCommand

open IngressText

variable {δ : Type} {iconv : Iconv δ} {persists : ℕ → Bool} {s : StreamState δ}
  {e : ExecuteState δ} {base : OutputSource → Text}

/-- The cleaned output of both sources in the order in which it came, as the other run collects
it. -/
def fullOutput (iconv : Iconv δ) (output : List (OutputSource × Bytes)) (ending : ExecEnd) : Text :=
  (executed iconv output).getCombinedOutput ending.response

def SavedIsFull (result : StreamingResult) (full : Text) : Prop :=
  ∀ path, result.terminal.savedPath = some path → result.files = [(path, full)]

namespace StreamState

/-- The flush is not sent out when it runs. -/
def drops (cfg : ResolvedShellCommandConfig) (s : StreamState δ) (flush : Flush) : Bool :=
  (s.truncated && !(s.allowNextChunkAfterTruncate && s.truncatedSource = some flush.source)) ||
    (0 < cfg.clientBufferLimitBytes &&
      cfg.clientBufferLimitBytes < s.emittedBytes + flush.bytes)

/-- The step passes over output: a chunk comes in that is ignored, or a flush is dropped. -/
def passesOver (cfg : ResolvedShellCommandConfig) (s : StreamState δ) : StreamEvent → Bool
  | .output _ chunk => s.truncated && !s.allowNextChunkAfterTruncate && chunk ≠ []
  | .timer _ => false
  | .chain => s.flushChain.head?.any (s.drops cfg)

end StreamState

def KeepsAll (iconv : Iconv δ) (cfg : ResolvedShellCommandConfig) (persists : ℕ → Bool)
    (s : StreamState δ) (events : List StreamEvent) : Prop :=
  StepsMeet (fun s event => some (s.step iconv cfg persists event))
    (fun s event => s.passesOver cfg event = false) s events

/-- What is left when the execution ends, before the chain runs. -/
def StreamState.flushRest (iconv : Iconv δ) (cfg : ResolvedShellCommandConfig)
    (s : StreamState δ) : StreamState δ :=
  let s := (s.flushSource iconv cfg .stdout).flushSource iconv cfg .stderr
  (s.flushBuffer .stdout true).flushBuffer .stderr true

/-- No output is passed over while the command runs nor when the rest is flushed. -/
def NothingPassedOver (iconv : Iconv δ) (cfg : StreamingConfig) (persists : ℕ → Bool)
    (events : List StreamEvent) (ending : ExecEnd) : Prop :=
  let cfg' := cfg.toResolvedShellCommandConfig
  let s := events.foldl (StreamState.step iconv cfg' persists) (.initial iconv)
  let rest := (s.catchError cfg ending).flushRest iconv cfg'
  KeepsAll iconv cfg' persists (.initial iconv) events ∧
    KeepsAll iconv cfg' persists rest (rest.flushChain.map fun _ => .chain)

/-- Where no segment has come the cleaned output is a given one. -/
structure Keeps (base : OutputSource → Text) (e : ExecuteState δ) (s : StreamState δ) : Prop
    extends Carries e s where
  tallied : e.Tallied
  cleaned : e.texts = [] → s.cleaned = base

namespace StreamState

variable {cfg : ResolvedShellCommandConfig}

theorem cleaned_flushBuffer (s : StreamState δ) (source : OutputSource) (force : Bool) :
    (s.flushBuffer source force).cleaned = s.cleaned := by
  unfold flushBuffer
  dsimp only
  split_ifs <;> rfl

theorem cleaned_runChain (s : StreamState δ) : (s.runChain cfg persists).cleaned = s.cleaned := by
  unfold runChain
  cases s.flushChain with
  | nil => rfl
  | cons flush rest =>
    unfold runFlush emit
    dsimp only
    split_ifs <;> rfl

end StreamState

namespace Keeps

variable {cfg : ResolvedShellCommandConfig}

theorem flushBuffer (h : Keeps base e s) (source : OutputSource) (force : Bool) :
    Keeps base e (s.flushBuffer source force) where
  toCarries := h.toCarries.flushBuffer source force
  tallied := h.tallied
  cleaned hnone := (s.cleaned_flushBuffer source force).trans (h.cleaned hnone)

theorem take (h : Keeps base e s) (source : OutputSource) (clean : Pipe δ → Text × Pipe δ) :
    Keeps base (e.take source clean) (s.take cfg source clean) where
  toCarries := h.toCarries.take source clean
  tallied := by
    unfold ExecuteState.take
    dsimp only
    by_cases htext : (clean (e.pipes source)).1 = []
    · rw [ExecuteState.pushSegment, if_pos htext]
      exact h.tallied
    · exact ExecuteState.Tallied.pushSegment (by exact h.tallied) source htext
  cleaned hnone := by
    have hbefore : e.texts = [] := List.prefix_nil.mp (hnone ▸ e.texts_take source clean)
    have htext : (clean (s.pipes source)).1 = [] := by
      rw [h.pipes]
      by_contra htext
      simp [ExecuteState.take, ExecuteState.pushSegment, htext, ExecuteState.texts] at hnone
    simpa [StreamState.take, StreamState.handleDecoratedChunk, htext] using h.cleaned hbefore

theorem flushSource (h : Keeps base e s) (iconv : Iconv δ) (cfg : ResolvedShellCommandConfig)
    (source : OutputSource) :
    Keeps base (e.flushSource iconv source) (s.flushSource iconv cfg source) :=
  (h.take source _).take source _

theorem onOutput (h : Keeps base e s) (source : OutputSource) (chunk : Bytes)
    (hkept : s.passesOver cfg (.output source chunk) = false) :
    Keeps base (e.handleChunk iconv source chunk) (s.onOutput iconv cfg source chunk) := by
  unfold ExecuteState.handleChunk StreamState.onOutput StreamState.handleChunk
  by_cases hchunk : chunk = []
  · simpa [hchunk] using h
  · have hpassed : (s.truncated && !s.allowNextChunkAfterTruncate) = false := by
      simpa [StreamState.passesOver, hchunk] using hkept
    simp only [hchunk, hpassed, Bool.false_eq_true, if_false]
    exact h.take source _

theorem runChain (h : Keeps base e s) (hkept : s.passesOver cfg .chain = false) :
    Keeps base e (s.runChain cfg persists) where
  tallied := h.tallied
  cleaned hnone := s.cleaned_runChain.trans (h.cleaned hnone)
  toCarries := by
    unfold StreamState.runChain
    cases hchain : s.flushChain with
    | nil => exact h.toCarries
    | cons flush rest =>
      have hdrops : s.drops cfg flush = false := by
        simpa [StreamState.passesOver, hchain] using hkept
      obtain ⟨hallowed, hlimit⟩ := Bool.or_eq_false_iff.mp hdrops
      have hlimit : ¬(0 < cfg.clientBufferLimitBytes ∧
          cfg.clientBufferLimitBytes < s.emittedBytes + flush.bytes) := by
        simpa using hlimit
      unfold StreamState.runFlush
      dsimp only
      rw [hallowed]
      simp only [Bool.false_eq_true, if_false]
      split_ifs
      · exact h.toCarries.emit persists hchain (s.totalChunks + 1) false
      · exact h.toCarries.emit persists hchain (s.totalChunks + 1) s.allowNextChunkAfterTruncate

theorem run (h : Keeps base e s) (events : List StreamEvent)
    (hkept : KeepsAll iconv cfg persists s events) :
    Keeps base (e.handleChunks iconv (outputOf events))
      (events.foldl (StreamState.step iconv cfg persists) s) := by
  induction events generalizing e s with
  | nil => exact h
  | cons event events ih =>
    obtain ⟨hnow, hrest⟩ := hkept
    cases event with
    | output source chunk => exact ih (h.onOutput source chunk hnow) (hrest _ rfl)
    | timer source =>
      refine ih ?_ (hrest _ rfl)
      unfold StreamState.step
      dsimp only
      split_ifs
      · exact h.flushBuffer source false
      · exact h
    | chain => exact ih (h.runChain hnow) (hrest _ rfl)

theorem flushRest (h : Keeps base e s) (iconv : Iconv δ) (cfg : ResolvedShellCommandConfig) :
    Keeps base (e.flushDecoderRemainder iconv) (s.flushRest iconv cfg) := by
  rw [ExecuteState.flushDecoderRemainder_eq]
  have hflushed := (h.flushSource iconv cfg .stdout).flushSource iconv cfg .stderr
  exact (hflushed.flushBuffer .stdout true).flushBuffer .stderr true

theorem awaitFlushChain (h : Keeps base e s)
    (hkept : KeepsAll iconv cfg persists s (s.flushChain.map fun _ => .chain)) :
    Keeps base e (s.awaitFlushChain cfg persists) := by
  have hrun := h.run (s.flushChain.map fun _ => StreamEvent.chain) hkept
  have hnone : outputOf (s.flushChain.map fun _ => StreamEvent.chain) = [] := by
    simp [outputOf]
  rw [hnone, List.foldl_map] at hrun
  exact hrun

/-- When everything has been sent out the combined output is the full one. -/
theorem settle (h : Keeps base e s)
    (hkept : KeepsAll iconv cfg persists (s.flushRest iconv cfg)
      ((s.flushRest iconv cfg).flushChain.map fun _ => .chain)) :
    Keeps base (e.flushDecoderRemainder iconv) (s.settle iconv cfg persists) ∧
      (s.settle iconv cfg persists).orderedOutput.Perm
        (numbered 1 (e.flushDecoderRemainder iconv).texts) := by
  have hend := (h.flushRest iconv cfg).awaitFlushChain hkept
  have hflushed := (h.flushSource iconv cfg .stdout).flushSource iconv cfg .stderr
  exact ⟨hend, hflushed.toCarries.sent hend.toCarries⟩

theorem combinedOutput (h : Keeps base e s)
    (hsent : s.orderedOutput.Perm (numbered 1 e.texts)) {response : ExecResponse}
    (hbase : e.texts = [] → s.cleaned .stdout ++ s.cleaned .stderr = responseOutput response) :
    s.combinedOutput = e.getCombinedOutput response := by
  rw [ExecuteState.getCombinedOutput_eq h.tallied h.nonempty, StreamState.combinedOutput,
    mergeSort_of_perm_numbered hsent, map_text_numbered]
  have hnil : s.orderedOutput = [] ↔ e.texts = [] := by
    rw [← List.length_eq_zero_iff, hsent.length_eq, ← List.length_map Segment.text,
      map_text_numbered, List.length_eq_zero_iff]
  by_cases htexts : e.texts = []
  · simp [htexts, hnil.mpr htexts, hbase htexts]
  · simp [htexts, hnil]

end Keeps

def cleanedOf (response : ExecResponse) : OutputSource → Text
  | .stdout => stripAnsi (sanitizePlainText response.stdout)
  | .stderr => stripAnsi (sanitizePlainText response.stderr)

theorem Keeps.replaceCleaned (h : Keeps base e s) (response : ExecResponse) :
    Keeps (cleanedOf response) e (s.replaceCleaned response) where
  toCarries := ⟨h.pipes, h.nonempty, h.segmentOrder, h.carried, h.bufferText⟩
  tallied := h.tallied
  cleaned _ := by
    funext source
    cases source <;> rfl

theorem Keeps.timeOut (h : Keeps base e s) (response : ExecResponse) (message : String) :
    Keeps (cleanedOf response) e (s.timeOut response message) :=
  have hreplaced := h.replaceCleaned response
  ⟨⟨h.pipes, h.nonempty, h.segmentOrder, h.carried, h.bufferText⟩, h.tallied, hreplaced.cleaned⟩

/-- When nothing is passed over the combined output of the end is the full output. -/
theorem combinedOutput_ended {cfg : StreamingConfig} {events : List StreamEvent}
    {ending : ExecEnd} (hkept : NothingPassedOver iconv cfg persists events ending) :
    (ended iconv cfg persists events ending).combinedOutput =
      fullOutput iconv (outputOf events) ending := by
  have hinit : Keeps (fun _ => []) (ExecuteState.initial iconv) (StreamState.initial iconv) :=
    ⟨Carries.initial, rfl, fun _ => rfl⟩
  have hrun := hinit.run events hkept.1
  have hrest := hkept.2
  unfold ended fullOutput
  cases ending with
  | completed response =>
    obtain ⟨hend, hsent⟩ := hrun.settle hrest
    refine (hend.replaceCleaned response).combinedOutput hsent fun hnone => ?_
    rfl
  | failed headline =>
    obtain ⟨hend, hsent⟩ := hrun.settle hrest
    refine hend.combinedOutput hsent fun hnone => ?_
    rw [hend.cleaned hnone]
    rfl
  | timedOut timeoutMs stdout stderr =>
    obtain ⟨hend, hsent⟩ := (hrun.timeOut ⟨stdout, stderr, 0⟩ _).settle hrest
    refine hend.combinedOutput hsent fun hnone => ?_
    rw [hend.cleaned hnone]
    rfl
  | idledOut timeoutMs stdout stderr =>
    obtain ⟨hend, hsent⟩ := (hrun.timeOut ⟨stdout, stderr, 0⟩ _).settle hrest
    refine hend.combinedOutput hsent fun hnone => ?_
    rw [hend.cleaned hnone]
    rfl

def savedAs (path : Option Text) (content : Text) : Files :=
  (path.map fun path => (path, content)).toList

theorem saveTruncated_files (cfg : ResolvedShellCommandConfig) (save : SaveOversizedOutput)
    (final : Text) {t : Truncation} (hpath : t.savedPath = none) :
    (saveTruncated cfg save final t).2 =
      savedAs (saveTruncated cfg save final t).1.savedPath final := by
  by_cases hover : t.truncated = false ∧ 0 < cfg.outputLimitChars ∧
      cfg.outputLimitChars < final.length
  · -- An output over the limit has a text, and the second attempt is for a first one that fails.
    have hfinal : final ≠ [] := List.ne_nil_of_length_pos (by omega)
    cases hsave : save 0 <;>
      simp [saveTruncated, Truncation.checkFinal, Truncation.complete, saveOversizedOutput, savedAs,
        hover, hpath, hfinal, hsave]
  · by_cases htruncated : t.truncated = true ∧ final ≠ []
    · simp [saveTruncated, Truncation.checkFinal, Truncation.complete, saveOversizedOutput, savedAs,
        htruncated, hpath]
    · cases hbefore : t.truncated with
      | true =>
        have hfinal : final = [] := by
          by_contra hfinal
          exact htruncated ⟨hbefore, hfinal⟩
        simp [saveTruncated, Truncation.checkFinal, Truncation.complete, savedAs, hbefore, hfinal,
          hpath]
      | false =>
        have hshort : ¬(0 < cfg.outputLimitChars ∧ cfg.outputLimitChars < final.length) :=
          fun h => hover ⟨hbefore, h⟩
        simp [saveTruncated, Truncation.checkFinal, Truncation.complete, savedAs, hbefore, hshort,
          hpath]

theorem execErrorPayload_savedPath (exitCode : ℤ) (headline final : Text) (limit : ℕ)
    (savedPath truncationMessage save : Option Text) :
    (execErrorPayload exitCode headline final limit savedPath truncationMessage save).elim savedPath
        ErrorPayload.savedPath =
      if 0 < limit ∧ limit < final.length then savedPath.or save else savedPath := by
  unfold execErrorPayload
  by_cases hpersist : 0 < limit ∧ limit < final.length
  · cases savedPath <;> cases save <;> simp [hpersist]
  · have hpersist' : (0 < limit && limit < final.length) = false := by simpa using hpersist
    simp [hpersist, hpersist']

theorem formatExitCodeErrorMessage_savedPath (exitCode : ℤ) (final : Text) (limit : ℕ)
    (savedPath truncationMessage save : Option Text) :
    (formatExitCodeErrorMessage exitCode final limit savedPath truncationMessage save).elim
        savedPath ErrorPayload.savedPath =
      if 0 < limit ∧ limit < final.length then savedPath.or save else savedPath := by
  unfold formatExitCodeErrorMessage buildPlainTextErrorPayload
  by_cases hpersist : 0 < limit ∧ limit < final.length
  · cases savedPath <;> cases save <;> simp [hpersist]
  · have hpersist' : (0 < limit && limit < final.length) = false := by simpa using hpersist
    simp [hpersist, hpersist']

/-- A payload adds the file of its path. -/
theorem append_payloadFiles (cfg : ResolvedShellCommandConfig) (final : Text)
    (savedPath save : Option Text) :
    savedAs savedPath final ++ payloadFiles cfg final savedPath save =
      savedAs (if 0 < cfg.outputLimitChars ∧ cfg.outputLimitChars < final.length then
        savedPath.or save else savedPath) final := by
  unfold payloadFiles
  by_cases hpersist : 0 < cfg.outputLimitChars ∧ cfg.outputLimitChars < final.length
  · cases savedPath <;> simp [hpersist, savedAs, saveOversizedOutput]
  · have hno : ¬(0 < cfg.outputLimitChars ∧ cfg.outputLimitChars < final.length ∧
        savedPath = none) := fun h => hpersist ⟨h.1, h.2.1⟩
    rw [if_neg hpersist, if_neg hno, List.append_nil]

theorem execErrorResult_files (cfg : ResolvedShellCommandConfig) (s : StreamState δ)
    (final : Text) {t : Truncation} {files : Files} (hfiles : files = savedAs t.savedPath final)
    (status : ToolOutputStatus) (exitCode : ℤ) (headline : Text) (save : Option Text) :
    let result := execErrorResult cfg s final t files status exitCode headline save
    result.files = savedAs result.terminal.savedPath final := by
  unfold execErrorResult
  dsimp only
  rw [execErrorPayload_savedPath, hfiles, append_payloadFiles]

theorem completedResult_files (cfg : ResolvedShellCommandConfig) (s : StreamState δ)
    (final : Text) {t : Truncation} {files : Files} (hfiles : files = savedAs t.savedPath final)
    (status : ToolOutputStatus) (response : ExecResponse) (save : Option Text) :
    let result := completedResult cfg s final t files status response save
    result.files = savedAs result.terminal.savedPath final := by
  unfold completedResult
  by_cases hexit : response.exitCode = 0
  · simpa [hexit] using hfiles
  · have hpayload := formatExitCodeErrorMessage_savedPath response.exitCode final
      cfg.outputLimitChars t.savedPath t.message save
    simp only [ne_eq, hexit, not_false_eq_true, if_true, hfiles, append_payloadFiles]
    rw [← hpayload]
    cases hmade : formatExitCodeErrorMessage response.exitCode final cfg.outputLimitChars
      t.savedPath t.message save with
    | none => rfl
    | some payload =>
      -- A path that was there before is also the one of the payload.
      rw [hmade] at hpayload
      have hsame : t.savedPath.or payload.savedPath = payload.savedPath := by
        rw [show payload.savedPath = _ from hpayload]
        cases t.savedPath <;> simp
      rw [Option.elim_some]
      show _ = savedAs (t.savedPath.or payload.savedPath) final
      rw [hsame]

/-- The only file of a run has the combined output of its end. -/
theorem executeStreamingFully_files (iconv : Iconv δ) (cfg : StreamingConfig)
    (save : SaveOversizedOutput) (persists : ℕ → Bool) (events : List StreamEvent)
    (ending : ExecEnd) :
    let result := executeStreamingFully iconv cfg save persists events ending
    result.files = savedAs result.terminal.savedPath
      (ended iconv cfg persists events ending).combinedOutput := by
  have hfiles : ∀ t : Truncation, t.savedPath = none → _ := fun t hpath =>
    saveTruncated_files cfg.toResolvedShellCommandConfig save
      (ended iconv cfg persists events ending).combinedOutput (t := t) hpath
  cases ending with
  | completed response => exact completedResult_files _ _ _ (hfiles _ rfl) _ _ _
  | timedOut timeoutMs stdout stderr => exact execErrorResult_files _ _ _ (hfiles _ rfl) _ _ _ _
  | idledOut timeoutMs stdout stderr => exact execErrorResult_files _ _ _ (hfiles _ rfl) _ _ _ _
  | failed headline => exact execErrorResult_files _ _ _ (hfiles _ rfl) _ _ _ _

/-- A run that passes over nothing saves the full output. -/
theorem savedIsFull_of_nothingPassedOver (iconv : Iconv δ) (cfg : StreamingConfig)
    (save : SaveOversizedOutput) (persists : ℕ → Bool) (events : List StreamEvent)
    (ending : ExecEnd) (hkept : NothingPassedOver iconv cfg persists events ending) :
    SavedIsFull (executeStreamingFully iconv cfg save persists events ending)
      (fullOutput iconv (outputOf events) ending) := by
  intro path hpath
  have hfiles := executeStreamingFully_files iconv cfg save persists events ending
  dsimp only at hfiles
  rw [hfiles, hpath, combinedOutput_ended hkept]
  rfl

def threeChars : StreamingConfig := ⟨⟨3, 4096, 10485760⟩, 3600000, 60000⟩

/-- Output of the other source comes in after the first flush and goes over the limit. -/
def laterChunk : List StreamEvent :=
  [.output .stdout [0x61, 0x62], .timer .stdout, .chain, .output .stderr [0x63, 0x64]]

theorem savedIsFull_laterChunk :
    fullOutput asciiDecoders (outputOf laterChunk) (.completed ⟨[], [], 0⟩) = units "abcd" ∧
      SavedIsFull (executeStreamingFully asciiDecoders threeChars
          (fun _ => some (units "/tmp/1.txt")) (fun _ => true) laterChunk (.completed ⟨[], [], 0⟩))
        (fullOutput asciiDecoders (outputOf laterChunk) (.completed ⟨[], [], 0⟩)) := by
  refine ⟨by decide +kernel, savedIsFull_of_nothingPassedOver _ _ _ _ _ _ ?_⟩
  unfold NothingPassedOver KeepsAll
  decide +kernel

/-- The second chunk comes in after the flush of the first one. -/
def lateChunk : List StreamEvent :=
  [.output .stdout [0x61, 0x62, 0x63, 0x64], .timer .stdout, .chain, .output .stdout [0x65, 0x66]]

theorem late_chunk_lost :
    let result := executeStreamingFully asciiDecoders threeChars
      (fun _ => some (units "/tmp/1.txt")) (fun _ => true) lateChunk
      (.completed ⟨units "abcdef", [], 0⟩)
    result.text =
        units "Output truncated after 3 characters. Full output saved to /tmp/1.txt." ∧
      result.files = [(units "/tmp/1.txt", units "abcd")] ∧
      fullOutput asciiDecoders (outputOf lateChunk) (.completed ⟨units "abcdef", [], 0⟩) =
        units "abcdef" ∧
      ¬SavedIsFull result
        (fullOutput asciiDecoders (outputOf lateChunk) (.completed ⟨units "abcdef", [], 0⟩)) := by
  intro result
  have htext : result.text =
      units "Output truncated after 3 characters. Full output saved to /tmp/1.txt." := by
    decide +kernel
  have hfiles : result.files = [(units "/tmp/1.txt", units "abcd")] := by decide +kernel
  have hfull : fullOutput asciiDecoders (outputOf lateChunk) (.completed ⟨units "abcdef", [], 0⟩) =
      units "abcdef" := by decide +kernel
  refine ⟨htext, hfiles, hfull, fun hsaved => ?_⟩
  have hpath : result.terminal.savedPath = some (units "/tmp/1.txt") := by decide +kernel
  have hsame := hsaved _ hpath
  rw [hfiles, hfull] at hsame
  exact absurd hsame (by decide +kernel)

end Agyn.ShellCommand
