import Agyn.ShellEndings

/-!
The chunks that a streaming run records. Only a flush that runs in the chain adds one, or counts as
dropped; the texts of a source (in its chunks, in the chain and in its buffer) make up its cleaned
text as long as nothing is truncated.
-/
namespace Agyn.ShellCommand

open IngressText

variable {δ : Type} {iconv : Iconv δ} {cfg : ResolvedShellCommandConfig} {persists : ℕ → Bool}
  {s : StreamState δ} {e : ExecuteState δ}

def chunksOf (chunks : List ToolOutputChunk) (source : OutputSource) : List ToolOutputChunk :=
  chunks.filter fun chunk => chunk.source = source

/-- What the accounting of the chunks reads. -/
structure Ledger where
  stored : List ToolOutputChunk
  seqGlobal : ℕ
  seqPerSource : OutputSource → ℕ
  totalChunks : ℕ
  droppedChunks : ℕ

def StreamState.ledger (s : StreamState δ) : Ledger :=
  ⟨s.stored, s.seqGlobal, s.seqPerSource, s.totalChunks, s.droppedChunks⟩

/-- The chunks are numbered without gaps, in all and for each source, and every flush that has run
is recorded or dropped. -/
structure Accounted (l : Ledger) : Prop where
  global : l.stored.map ToolOutputChunk.seqGlobal = List.range' 1 l.stored.length
  stream : ∀ source, (chunksOf l.stored source).map ToolOutputChunk.seqStream =
    List.range' 1 (chunksOf l.stored source).length
  total : l.totalChunks = l.stored.length + l.droppedChunks
  seqGlobal : l.seqGlobal = l.stored.length
  seqPerSource : ∀ source, l.seqPerSource source = (chunksOf l.stored source).length

namespace StreamState

theorem ledger_flushBuffer (s : StreamState δ) (source : OutputSource) (force : Bool) :
    (s.flushBuffer source force).ledger = s.ledger := by
  unfold flushBuffer
  dsimp only
  split_ifs <;> rfl

theorem ledger_flushOrSchedule (s : StreamState δ) (source : OutputSource) :
    (s.flushOrSchedule cfg source).ledger = s.ledger := by
  unfold flushOrSchedule
  dsimp only
  split_ifs
  · exact s.ledger_flushBuffer source false
  · rfl

theorem ledger_checkOutputLimit (s : StreamState δ) (source : OutputSource) :
    (s.checkOutputLimit cfg source).ledger = s.ledger := by
  unfold checkOutputLimit
  split_ifs <;> rfl

/-- A piece of output goes into the buffer or the chain and is recorded later. -/
theorem ledger_take (s : StreamState δ) (source : OutputSource)
    (clean : Pipe δ → Text × Pipe δ) : (s.take cfg source clean).ledger = s.ledger := by
  unfold take handleDecoratedChunk
  dsimp only
  split_ifs
  · rfl
  · rw [ledger_checkOutputLimit, ledger_flushOrSchedule]
    rfl

theorem ledger_onOutput (s : StreamState δ) (source : OutputSource) (chunk : Bytes) :
    (s.onOutput iconv cfg source chunk).ledger = s.ledger := by
  unfold onOutput handleChunk
  split_ifs
  · rfl
  · rfl
  · exact s.ledger_take source _

theorem ledger_flushSource (s : StreamState δ) (source : OutputSource) :
    (s.flushSource iconv cfg source).ledger = s.ledger := by
  rw [flushSource, ledger_take, ledger_take]

theorem ledger_emit (s : StreamState δ) (flush : Flush) :
    (s.emit (fun _ => true) flush).ledger = {
      stored := s.stored ++ [⟨s.seqGlobal + 1, s.seqPerSource flush.source + 1, flush.source,
        flush.text, flush.bytes⟩]
      seqGlobal := s.seqGlobal + 1
      seqPerSource :=
        Function.update s.seqPerSource flush.source (s.seqPerSource flush.source + 1)
      totalChunks := s.totalChunks
      droppedChunks := s.droppedChunks } := rfl

theorem ledger_catchError (s : StreamState δ) (cfg : StreamingConfig) (ending : ExecEnd) :
    (s.catchError cfg ending).ledger = s.ledger := by
  cases ending <;> rfl

end StreamState

theorem range'_concat (n : ℕ) : List.range' 1 (n + 1) = List.range' 1 n ++ [n + 1] := by
  rw [List.range'_concat, Nat.one_mul, Nat.add_comm 1]

/-- A chunk with the next numbers. -/
theorem Accounted.record {l : Ledger} (h : Accounted l) (source : OutputSource) (data : Text)
    (bytes : ℕ) :
    Accounted {
      stored := l.stored ++
        [⟨l.seqGlobal + 1, l.seqPerSource source + 1, source, data, bytes⟩]
      seqGlobal := l.seqGlobal + 1
      seqPerSource := Function.update l.seqPerSource source (l.seqPerSource source + 1)
      totalChunks := l.totalChunks + 1
      droppedChunks := l.droppedChunks } := by
  have hsame : ∀ source', chunksOf (l.stored ++
      [⟨l.seqGlobal + 1, l.seqPerSource source + 1, source, data, bytes⟩]) source' =
      chunksOf l.stored source' ++ if source = source' then
        [⟨l.seqGlobal + 1, l.seqPerSource source + 1, source, data, bytes⟩] else [] := by
    intro source'
    by_cases heq : source = source' <;> simp [chunksOf, heq]
  refine ⟨?_, fun source' => ?_, ?_, ?_, fun source' => ?_⟩
  · rw [List.map_append, h.global, h.seqGlobal, List.length_append]
    exact (range'_concat _).symm
  · by_cases heq : source = source'
    · subst heq
      rw [hsame, if_pos rfl, List.map_append, h.stream, h.seqPerSource, List.length_append]
      exact (range'_concat _).symm
    · rw [hsame, if_neg heq, List.append_nil]
      exact h.stream source'
  · have htotal := h.total
    show l.totalChunks + 1 = (l.stored ++ [_]).length + l.droppedChunks
    rw [List.length_append, List.length_singleton]
    omega
  · show l.seqGlobal + 1 = (l.stored ++ [_]).length
    rw [List.length_append, List.length_singleton, h.seqGlobal]
  · show Function.update l.seqPerSource source _ source' = _
    by_cases heq : source = source'
    · subst heq
      rw [hsame, if_pos rfl, Function.update_self, List.length_append, h.seqPerSource,
        List.length_singleton]
    · rw [hsame, if_neg heq, List.append_nil, Function.update_of_ne (Ne.symm heq)]
      exact h.seqPerSource source'

theorem Accounted.drop {l : Ledger} (h : Accounted l) :
    Accounted { l with
      totalChunks := l.totalChunks + 1
      droppedChunks := l.droppedChunks + 1 } :=
  ⟨h.global, h.stream, by have htotal := h.total; dsimp only; omega, h.seqGlobal, h.seqPerSource⟩

/-- A flush of the chain is dropped or recorded. -/
theorem Accounted.runFlush (h : Accounted s.ledger) (flush : Flush) :
    Accounted (s.runFlush cfg (fun _ => true) flush).ledger := by
  have hrecord := h.record flush.source flush.text flush.bytes
  unfold StreamState.runFlush
  dsimp only
  split_ifs
  · exact h.drop
  · exact h.drop
  · rw [StreamState.ledger_emit]
    exact hrecord
  · exact h.drop
  · rw [StreamState.ledger_emit]
    exact hrecord

theorem Accounted.runChain (h : Accounted s.ledger) :
    Accounted (s.runChain cfg fun _ => true).ledger := by
  unfold StreamState.runChain
  split
  · exact h
  · exact Accounted.runFlush (by exact h) _

theorem Accounted.step (h : Accounted s.ledger) (event : StreamEvent) :
    Accounted (s.step iconv cfg (fun _ => true) event).ledger := by
  cases event with
  | output source chunk =>
    rw [StreamState.step, StreamState.ledger_onOutput]
    exact h
  | timer source =>
    rw [StreamState.step]
    split_ifs
    · rwa [StreamState.ledger_flushBuffer]
    · exact h
  | chain => exact h.runChain

theorem Accounted.run (h : Accounted s.ledger) (events : List StreamEvent) :
    Accounted (events.foldl (StreamState.step iconv cfg fun _ => true) s).ledger := by
  induction events generalizing s with
  | nil => exact h
  | cons event events ih => exact ih (h.step event)

theorem Accounted.awaitFlushChain (h : Accounted s.ledger) :
    Accounted (s.awaitFlushChain cfg fun _ => true).ledger := by
  unfold StreamState.awaitFlushChain
  generalize s.flushChain = chain
  induction chain generalizing s with
  | nil => exact h
  | cons flush chain ih => exact ih h.runChain

theorem Accounted.settle (h : Accounted s.ledger) (iconv : Iconv δ)
    (cfg : ResolvedShellCommandConfig) :
    Accounted (s.settle iconv cfg fun _ => true).ledger := by
  refine Accounted.awaitFlushChain ?_
  rwa [StreamState.ledger_flushBuffer, StreamState.ledger_flushBuffer,
    StreamState.ledger_flushSource, StreamState.ledger_flushSource]

theorem StreamState.ledger_replaceCleaned (s : StreamState δ) (response : ExecResponse) :
    (s.replaceCleaned response).ledger = s.ledger := rfl

theorem accounted_ended (iconv : Iconv δ) (cfg : StreamingConfig) (events : List StreamEvent)
    (ending : ExecEnd) :
    Accounted (ended iconv cfg (fun _ => true) events ending).ledger := by
  have hinit : Accounted (StreamState.initial iconv).ledger :=
    ⟨rfl, fun source => rfl, rfl, rfl, fun source => rfl⟩
  have hrun : Accounted (events.foldl
      (StreamState.step iconv cfg.toResolvedShellCommandConfig fun _ => true)
      (.initial iconv)).ledger := hinit.run events
  rw [← StreamState.ledger_catchError _ cfg ending] at hrun
  have hsettled := hrun.settle iconv cfg.toResolvedShellCommandConfig
  unfold ended
  cases ending with
  | completed response => rwa [StreamState.ledger_replaceCleaned]
  | timedOut timeoutMs stdout stderr => exact hsettled
  | idledOut timeoutMs stdout stderr => exact hsettled
  | failed headline => exact hsettled

def StreamState.gathered (s : StreamState δ) (source : OutputSource) : Text :=
  ((chunksOf s.stored source).map ToolOutputChunk.data).flatten ++
    ((s.flushChain.filter fun flush => flush.source = source).map Flush.text).flatten ++
    (s.buffers source).text

structure Gathers (e : ExecuteState δ) (s : StreamState δ) : Prop where
  pipes : s.pipes = e.pipes
  gathered : s.gathered = e.cleanBySource

namespace StreamState

theorem gathered_flushBuffer (s : StreamState δ) (source : OutputSource) (force : Bool) :
    (s.flushBuffer source force).gathered = s.gathered := by
  funext source'
  unfold flushBuffer
  dsimp only
  split_ifs with hskip htext
  · rfl
  · by_cases heq : source' = source
    · subst heq
      simp [gathered, htext]
    · simp [gathered, heq]
  · by_cases heq : source' = source
    · subst heq
      simp [gathered]
    · simp [gathered, heq, Ne.symm heq]

theorem gathered_flushOrSchedule (s : StreamState δ) (source : OutputSource) :
    (s.flushOrSchedule cfg source).gathered = s.gathered := by
  unfold flushOrSchedule
  dsimp only
  split_ifs
  · exact s.gathered_flushBuffer source false
  · funext source'
    by_cases heq : source' = source
    · subst heq
      simp [scheduleFlush, gathered]
    · simp [scheduleFlush, gathered, heq]

theorem gathered_checkOutputLimit (s : StreamState δ) (source : OutputSource) :
    (s.checkOutputLimit cfg source).gathered = s.gathered := by
  unfold checkOutputLimit
  split_ifs <;> rfl

theorem gathered_buffer (s : StreamState δ) (source : OutputSource) (text : Text) :
    (s.buffer source text).gathered =
      Function.update s.gathered source (s.gathered source ++ text) := by
  funext source'
  by_cases heq : source' = source
  · subst heq
    simp [buffer, gathered]
  · simp [buffer, gathered, heq]

theorem truncated_flushBuffer (s : StreamState δ) (source : OutputSource) (force : Bool) :
    (s.flushBuffer source force).truncated = s.truncated := by
  unfold flushBuffer
  dsimp only
  split_ifs <;> rfl

theorem pipes_flushBuffer (s : StreamState δ) (source : OutputSource) (force : Bool) :
    (s.flushBuffer source force).pipes = s.pipes := by
  unfold flushBuffer
  dsimp only
  split_ifs <;> rfl

/-- A full buffer or a timer changes neither the pipes nor the truncation. -/
theorem frame_flushOrSchedule (s : StreamState δ) (source : OutputSource) :
    (s.flushOrSchedule cfg source).pipes = s.pipes ∧
      (s.flushOrSchedule cfg source).truncated = s.truncated := by
  unfold flushOrSchedule
  dsimp only
  split_ifs
  · exact ⟨s.pipes_flushBuffer source false, s.truncated_flushBuffer source false⟩
  · exact ⟨rfl, rfl⟩

theorem pipes_checkOutputLimit (s : StreamState δ) (source : OutputSource) :
    (s.checkOutputLimit cfg source).pipes = s.pipes := by
  unfold checkOutputLimit
  split_ifs <;> rfl

theorem pipes_take (s : StreamState δ) (source : OutputSource)
    (clean : Pipe δ → Text × Pipe δ) :
    (s.take cfg source clean).pipes =
      Function.update s.pipes source (clean (s.pipes source)).2 := by
  unfold take handleDecoratedChunk
  dsimp only
  split_ifs
  · rfl
  · rw [pipes_checkOutputLimit, (frame_flushOrSchedule _ _).1]
    rfl

/-- A truncation is not taken back. -/
theorem truncated_take {source : OutputSource} {clean : Pipe δ → Text × Pipe δ}
    (h : (s.take cfg source clean).truncated = false) : s.truncated = false := by
  unfold take handleDecoratedChunk checkOutputLimit at h
  dsimp only at h
  split_ifs at h
  · exact h
  · rw [(frame_flushOrSchedule _ _).2] at h
    exact h

theorem truncated_emit (s : StreamState δ) (flush : Flush) :
    (s.emit persists flush).truncated = s.truncated := by
  unfold emit
  dsimp only
  split_ifs <;> rfl

theorem truncated_runFlush {flush : Flush} (h : s.truncated = true) :
    (s.runFlush cfg persists flush).truncated = true := by
  unfold runFlush
  dsimp only
  split_ifs
  · exact h
  · rfl
  · rw [truncated_emit]
    exact h

/-- Without a truncation the next flush becomes a chunk of its source. -/
theorem gathered_runChain (h : (s.runChain cfg fun _ => true).truncated = false) :
    s.truncated = false ∧ (s.runChain cfg fun _ => true).gathered = s.gathered := by
  unfold runChain at h ⊢
  cases hchain : s.flushChain with
  | nil =>
    rw [hchain] at h
    exact ⟨h, rfl⟩
  | cons flush chain =>
    rw [hchain] at h
    dsimp only at h ⊢
    cases htruncated : s.truncated with
    | true =>
      have hkept : (runFlush cfg (fun _ => true) { s with flushChain := chain } flush).truncated =
          true := truncated_runFlush htruncated
      rw [hkept] at h
      cases h
    | false =>
      refine ⟨rfl, ?_⟩
      unfold runFlush at h ⊢
      simp only [htruncated, Bool.false_and, Bool.false_eq_true, if_false] at h ⊢
      split_ifs at h ⊢
      funext source
      by_cases heq : flush.source = source
      · simp [emit, gathered, chunksOf, hchain, heq]
      · simp [emit, gathered, chunksOf, hchain, heq]

/-- A flush of the chain leaves the pipes and the buffers. -/
theorem frame_runChain (s : StreamState δ) :
    (s.runChain cfg persists).pipes = s.pipes ∧ (s.runChain cfg persists).buffers = s.buffers := by
  unfold runChain
  cases s.flushChain with
  | nil => exact ⟨rfl, rfl⟩
  | cons flush rest =>
    unfold runFlush emit
    dsimp only
    split_ifs <;> exact ⟨rfl, rfl⟩

theorem text_flushBuffer (s : StreamState δ) (source : OutputSource) :
    ((s.flushBuffer source true).buffers source).text = [] := by
  unfold flushBuffer
  by_cases h : (s.buffers source).text = [] <;> simp [h]

theorem text_flushBuffer_of_ne (s : StreamState δ) {source source' : OutputSource}
    (hne : source' ≠ source) (force : Bool) :
    ((s.flushBuffer source force).buffers source').text = (s.buffers source').text := by
  unfold flushBuffer
  dsimp only
  split_ifs <;> simp [hne]

end StreamState

namespace Gathers

theorem flushBuffer (h : Gathers e s) (source : OutputSource) (force : Bool) :
    Gathers e (s.flushBuffer source force) :=
  ⟨(s.pipes_flushBuffer source force).trans h.pipes,
    (s.gathered_flushBuffer source force).trans h.gathered⟩

/-- A piece of output. -/
theorem take (h : Gathers e s) (source : OutputSource) (clean : Pipe δ → Text × Pipe δ) :
    Gathers (e.take source clean) (s.take cfg source clean) := by
  refine ⟨?_, ?_⟩
  · rw [StreamState.pipes_take, h.pipes]
    unfold ExecuteState.take ExecuteState.pushSegment
    dsimp only
    split_ifs <;> rfl
  · unfold StreamState.take ExecuteState.take
    rw [h.pipes]
    generalize clean (e.pipes source) = cleaned
    obtain ⟨text, pipe⟩ := cleaned
    unfold StreamState.handleDecoratedChunk ExecuteState.pushSegment
    dsimp only
    split_ifs
    · exact h.gathered
    · rw [StreamState.gathered_checkOutputLimit, StreamState.gathered_flushOrSchedule,
        StreamState.gathered_buffer, ← h.gathered]
      rfl

theorem runChain (h : s.truncated = false → Gathers e s)
    (hafter : (s.runChain cfg fun _ => true).truncated = false) :
    Gathers e (s.runChain cfg fun _ => true) := by
  obtain ⟨hbefore, hgathered⟩ := StreamState.gathered_runChain hafter
  exact ⟨(StreamState.frame_runChain s).1.trans (h hbefore).pipes,
    hgathered.trans (h hbefore).gathered⟩

theorem onOutput (h : s.truncated = false → Gathers e s) (source : OutputSource) (chunk : Bytes)
    (hafter : (s.onOutput iconv cfg source chunk).truncated = false) :
    Gathers (e.handleChunk iconv source chunk) (s.onOutput iconv cfg source chunk) := by
  have hbefore : s.truncated = false := by
    unfold StreamState.onOutput StreamState.handleChunk at hafter
    split_ifs at hafter
    · exact hafter
    · exact hafter
    · exact StreamState.truncated_take hafter
  unfold StreamState.onOutput StreamState.handleChunk ExecuteState.handleChunk
  simp only [hbefore, Bool.false_and, Bool.false_eq_true, if_false]
  split_ifs
  · exact h hbefore
  · exact (h hbefore).take source _

theorem run (h : s.truncated = false → Gathers e s) (events : List StreamEvent)
    (hafter : (events.foldl (StreamState.step iconv cfg fun _ => true) s).truncated = false) :
    Gathers (e.handleChunks iconv (outputOf events))
      (events.foldl (StreamState.step iconv cfg fun _ => true) s) := by
  induction events generalizing e s with
  | nil => exact h hafter
  | cons event events ih =>
    cases event with
    | output source chunk => exact ih (onOutput h source chunk) hafter
    | timer source =>
      refine ih (fun hnow => ?_) hafter
      unfold StreamState.step at hnow ⊢
      dsimp only at hnow ⊢
      split_ifs at hnow ⊢
      · rw [StreamState.truncated_flushBuffer] at hnow
        exact (h hnow).flushBuffer source false
      · exact h hnow
    | chain => exact ih (runChain h) hafter

theorem awaitFlushChain (h : s.truncated = false → Gathers e s)
    (hafter : (s.awaitFlushChain cfg fun _ => true).truncated = false) :
    Gathers e (s.awaitFlushChain cfg fun _ => true) ∧
      (s.awaitFlushChain cfg fun _ => true).flushChain = [] ∧
      (s.awaitFlushChain cfg fun _ => true).buffers = s.buffers := by
  unfold StreamState.awaitFlushChain at hafter ⊢
  generalize hchain : s.flushChain = chain at hafter ⊢
  induction chain generalizing s with
  | nil => exact ⟨h hafter, hchain, rfl⟩
  | cons flush chain ih =>
    have hnext := ih (runChain h) (by rw [StreamState.flushChain_runChain, hchain, List.tail_cons])
      hafter
    rwa [(StreamState.frame_runChain _).2] at hnext

/-- When everything is flushed the chunks of a source have its whole text. -/
theorem settle (h : s.truncated = false → Gathers e s)
    (hafter : (s.settle iconv cfg fun _ => true).truncated = false) (source : OutputSource) :
    ((chunksOf (s.settle iconv cfg fun _ => true).stored source).map
      ToolOutputChunk.data).flatten = (e.flushDecoderRemainder iconv).cleanBySource source := by
  have htake : ∀ (s : StreamState δ) (e : ExecuteState δ) (source : OutputSource),
      (s.truncated = false → Gathers e s) →
      (s.flushSource iconv cfg source).truncated = false →
      Gathers (e.flushSource iconv source) (s.flushSource iconv cfg source) := by
    intro s e source h hafter
    have hnow := StreamState.truncated_take (StreamState.truncated_take hafter)
    exact ((h hnow).take source _).take source _
  obtain ⟨hend, hchain, hbuffers⟩ := awaitFlushChain (e := e.flushDecoderRemainder iconv)
    (by
      intro hnow
      rw [StreamState.truncated_flushBuffer, StreamState.truncated_flushBuffer] at hnow
      rw [ExecuteState.flushDecoderRemainder_eq]
      exact ((htake _ _ .stderr (htake _ _ .stdout h) hnow).flushBuffer _ _).flushBuffer _ _)
    hafter
  have hgathered := congrFun hend.gathered source
  have htext : ((s.settle iconv cfg fun _ => true).buffers source).text = [] := by
    unfold StreamState.settle
    rw [hbuffers]
    cases source with
    | stdout =>
      rw [StreamState.text_flushBuffer_of_ne _ (by decide), StreamState.text_flushBuffer]
    | stderr => exact StreamState.text_flushBuffer _ _
  rw [← hgathered]
  show _ = StreamState.gathered (s.settle iconv cfg fun _ => true) source
  have hnone : (s.settle iconv cfg fun _ => true).flushChain = [] := hchain
  rw [StreamState.gathered, hnone, htext]
  simp

end Gathers

theorem completedResult_counts (cfg : ResolvedShellCommandConfig) (s : StreamState δ)
    (final : Text) (t : Truncation) (files : Files) (status : ToolOutputStatus)
    (response : ExecResponse) (save : Option Text) :
    let terminal := (completedResult cfg s final t files status response save).terminal
    terminal.totalChunks = s.totalChunks ∧ terminal.droppedChunks = s.droppedChunks := by
  unfold completedResult
  by_cases hexit : response.exitCode = 0
  · simp [hexit]
  · simp only [ne_eq, hexit, not_false_eq_true, if_true]
    cases formatExitCodeErrorMessage response.exitCode final cfg.outputLimitChars t.savedPath
      t.message save <;> exact ⟨rfl, rfl⟩

/-- The terminal record has the counts of the state. -/
theorem terminal_counts (iconv : Iconv δ) (cfg : StreamingConfig) (save : SaveOversizedOutput)
    (persists : ℕ → Bool) (events : List StreamEvent) (ending : ExecEnd) :
    let s := ended iconv cfg persists events ending
    let terminal := (executeStreamingFully iconv cfg save persists events ending).terminal
    terminal.totalChunks = s.totalChunks ∧ terminal.droppedChunks = s.droppedChunks := by
  intro s terminal
  cases ending with
  | completed response => exact completedResult_counts _ _ _ _ _ _ _ _
  | timedOut timeoutMs stdout stderr => exact And.intro rfl rfl
  | idledOut timeoutMs stdout stderr => exact And.intro rfl rfl
  | failed headline => exact And.intro rfl rfl

/-- The output of the response does not matter for the chunks. -/
theorem ended_eq_settle (iconv : Iconv δ) (cfg : StreamingConfig) (persists : ℕ → Bool)
    (events : List StreamEvent) (ending : ExecEnd) :
    let s := events.foldl (StreamState.step iconv cfg.toResolvedShellCommandConfig persists)
      (.initial iconv)
    let s := (s.catchError cfg ending).settle iconv cfg.toResolvedShellCommandConfig persists
    (ended iconv cfg persists events ending).stored = s.stored ∧
      (ended iconv cfg persists events ending).truncated = s.truncated := by
  unfold ended
  cases ending <;> exact ⟨rfl, rfl⟩

theorem Gathers.catchError (h : Gathers e s) (cfg : StreamingConfig) (ending : ExecEnd) :
    Gathers e (s.catchError cfg ending) := by
  cases ending <;> exact ⟨h.pipes, h.gathered⟩

theorem StreamState.truncated_catchError (s : StreamState δ) (cfg : StreamingConfig)
    (ending : ExecEnd) : (s.catchError cfg ending).truncated = s.truncated := by
  cases ending <;> rfl

/-- The chunks of an untruncated run have the cleaned text of their source. -/
theorem gathered_ended (cfg : StreamingConfig) (events : List StreamEvent) (ending : ExecEnd)
    (huntruncated : (ended iconv cfg (fun _ => true) events ending).truncated = false)
    (source : OutputSource) :
    ((chunksOf (ended iconv cfg (fun _ => true) events ending).stored source).map
      ToolOutputChunk.data).flatten = (executed iconv (outputOf events)).cleanBySource source := by
  obtain ⟨hstored, htruncated⟩ :=
    ended_eq_settle iconv cfg (fun _ => true) events ending
  rw [htruncated] at huntruncated
  rw [hstored]
  refine Gathers.settle (fun hnow => ?_) huntruncated source
  rw [StreamState.truncated_catchError] at hnow
  exact (Gathers.run (fun _ => ⟨rfl, rfl⟩) events hnow).catchError cfg ending

/-- The chunks of a run are numbered without gaps, in all and for each source; the terminal record
counts the recorded and the dropped ones; and the chunks of a source make up its cleaned text
unless something is truncated. -/
theorem chunks_accounted (iconv : Iconv δ) (cfg : StreamingConfig) (save : SaveOversizedOutput)
    (events : List StreamEvent) (ending : ExecEnd) :
    let s := ended iconv cfg (fun _ => true) events ending
    let terminal := (executeStreamingFully iconv cfg save (fun _ => true) events ending).terminal
    s.stored.map ToolOutputChunk.seqGlobal = List.range' 1 s.stored.length ∧
      (∀ source, (chunksOf s.stored source).map ToolOutputChunk.seqStream =
        List.range' 1 (chunksOf s.stored source).length) ∧
      terminal.totalChunks = s.stored.length + terminal.droppedChunks ∧
      (s.truncated = false → ∀ source,
        ((chunksOf s.stored source).map ToolOutputChunk.data).flatten =
          (executed iconv (outputOf events)).cleanBySource source) := by
  intro s terminal
  have haccounted := accounted_ended iconv cfg events ending
  refine ⟨haccounted.global, haccounted.stream, ?_, fun huntruncated source => ?_⟩
  · obtain ⟨htotal, hdropped⟩ :=
      terminal_counts iconv cfg save (fun _ => true) events ending
    show terminal.totalChunks = _
    rw [htotal, hdropped]
    exact haccounted.total
  · exact gathered_ended cfg events ending huntruncated source

end Agyn.ShellCommand
