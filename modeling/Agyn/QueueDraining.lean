import Agyn.AgentThreads
import Mathlib.Data.List.Induction

/-!
When a queue is left behind. The only drain after a run is attempted once, when it settles
without an error, and the debounce window may refuse it. A thread without an active run has
an empty queue in every history in which no run ends over queued messages in another way.
-/
namespace Agyn

open Loops

def StartSucceeds (env : InvokeEnv) : Prop :=
  env.beginFault = none ∧ env.beginPublishFault = none ∧ env.assignFault = none ∧
    env.modelFault = none ∧ env.prepareFault = none

def RunSucceeds (env : InvokeEnv) (loop : Except String LLMState) : Prop :=
  CompletesInTry env loop ∧ env.complete.commitFault = none ∧ env.complete.publishFault = none

inductive EndsWithoutDrain (s : AgentThread) : ThreadEvent → Prop
  | start {messages env cfg mode debounceMs} (hactive : s.active = .starting messages)
      (hfails : ¬ StartSucceeds env) : EndsWithoutDrain s (.begin env cfg mode debounceMs)
  | failed {run loop now} (hactive : s.active = .looping run) (hresult : run.result = some loop)
      (hfails : ¬ RunSucceeds run.env loop) : EndsWithoutDrain s (.settle now)
  | debounced {run loop now} (hactive : s.active = .looping run)
      (hresult : run.result = some loop) (hsucceeds : RunSucceeds run.env loop)
      (hdebounced : MessagesBuffer.debounced s.debounceMs now s.buffer = true) :
      EndsWithoutDrain s (.settle now)

section Runs

variable {env : InvokeEnv} {loop : Except String LLMState} {row : RunRow}

theorem beginRunThread_ok_iff : (∃ u, (beginRunThread env).1 = .ok u) ↔
    env.beginFault = none ∧ env.beginPublishFault = none ∧ env.assignFault = none := by
  unfold beginRunThread
  cases env.beginFault with
  | some e => simp
  | none =>
    cases env.beginPublishFault with
    | some e => simp
    | none => cases env.assignFault <;> simp

theorem runAndComplete_ok_iff :
    (∃ message, (runAndComplete env loop row).1 = .ok message) ↔ RunSucceeds env loop := by
  unfold runAndComplete RunSucceeds
  cases hcompletion : completion env loop with
  | error e =>
    have hnot := completion_error hcompletion
    simp [hnot]
  | ok target =>
    obtain ⟨status, message⟩ := target
    have hcompletes := (completion_ok hcompletion).2
    simp only [hcompletes, true_and]
    unfold completeRun
    cases env.complete.commitFault with
    | some e => simp
    | none => cases env.complete.publishFault <;> simp

end Runs

section Steps

variable {yamlLength : LLMMessage → ℕ} {s : AgentThread} {e : ThreadEvent}

theorem begin_of_startSucceeds {env : InvokeEnv} (h : StartSucceeds env) (cfg : AgentLoopConfig)
    (mode : ProcessBuffer) (debounceMs : ℕ) (messages : List BufferMessage) :
    s.begin env cfg mode debounceMs messages = { s with
      debounceMs
      active := .looping ⟨cfg, mode, env, messages, s.store, startRun messages s.store⟩ } := by
  obtain ⟨hbegin, hpublish, hassign, hmodel, hprepare⟩ := h
  obtain ⟨u, hok⟩ := beginRunThread_ok_iff.mpr ⟨hbegin, hpublish, hassign⟩
  unfold AgentThread.begin
  rw [hok, hmodel, hprepare]

theorem begin_of_fails {env : InvokeEnv} (h : ¬ StartSucceeds env) (cfg : AgentLoopConfig)
    (mode : ProcessBuffer) (debounceMs : ℕ) (messages : List BufferMessage) :
    (s.begin env cfg mode debounceMs messages).active = .idle ∧
      (s.begin env cfg mode debounceMs messages).buffer = s.buffer ∧
        (s.begin env cfg mode debounceMs messages).received = s.received ∧
          (s.begin env cfg mode debounceMs messages).ended = s.ended := by
  unfold AgentThread.begin
  cases hbegin : (beginRunThread env).1 with
  | error e => exact ⟨rfl, rfl, rfl, rfl⟩
  | ok u =>
    cases hmodel : env.modelFault with
    | some e => exact ⟨rfl, rfl, rfl, rfl⟩
    | none =>
      cases hprepare : env.prepareFault with
      | some e => exact ⟨rfl, rfl, rfl, rfl⟩
      | none =>
        obtain ⟨h1, h2, h3⟩ := beginRunThread_ok_iff.mp ⟨u, hbegin⟩
        exact absurd ⟨h1, h2, h3, hmodel, hprepare⟩ h

theorem settle_of_fails {run : LoopingRun} {loop : Except String LLMState}
    (hresult : run.result = some loop) (h : ¬ RunSucceeds run.env loop) (now : ℤ) :
    s.settle now run =
      { s with active := .idle, store := run.machine.world, ended := s.ended ++ [run] } := by
  unfold AgentThread.settle
  rw [hresult]
  cases hcomplete : (runAndComplete run.env loop createdRow).1 with
  | error e => simp only [hcomplete]
  | ok message => exact absurd (runAndComplete_ok_iff.mp ⟨message, hcomplete⟩) h

/-- A run that settles without an error is followed by a drain, and by what it takes. -/
theorem settle_of_succeeds {run : LoopingRun} {loop : Except String LLMState}
    (hresult : run.result = some loop) (h : RunSucceeds run.env loop) (now : ℤ) :
    s.settle now run =
      let drained := MessagesBuffer.tryDrain s.debounceMs run.mode now s.buffer
      { s with
        buffer := drained.2
        active := if drained.1 = [] then .idle else .starting drained.1
        store := run.machine.world
        ended := s.ended ++ [run] } := by
  have hcompletes : ∃ message, (runAndComplete run.env loop createdRow).1 = .ok message :=
    runAndComplete_ok_iff.mpr h
  obtain ⟨message, hcomplete⟩ := hcompletes
  unfold AgentThread.settle
  rw [hresult]
  simp only [hcomplete]
  cases hdrained : MessagesBuffer.tryDrain s.debounceMs run.mode now s.buffer with
  | mk messages buffer => cases messages <;> simp

theorem settle_of_running {run : LoopingRun} (hresult : run.result = none) (now : ℤ) :
    s.settle now run = s := by
  unfold AgentThread.settle
  rw [hresult]

/-- What ends without a drain leaves the queue as it is. -/
theorem EndsWithoutDrain.step (h : EndsWithoutDrain s e) :
    (AgentThread.step yamlLength e s).active = .idle ∧
      (AgentThread.step yamlLength e s).buffer = s.buffer := by
  cases h with
  | start hactive hfails =>
    unfold AgentThread.step
    rw [hactive]
    obtain ⟨hidle, hbuffer, -⟩ := begin_of_fails hfails _ _ _ _
    exact ⟨hidle, hbuffer⟩
  | failed hactive hresult hfails =>
    unfold AgentThread.step
    rw [hactive]
    dsimp only
    rw [settle_of_fails hresult hfails]
    exact ⟨rfl, rfl⟩
  | @debounced run loop now hactive hresult hsucceeds hdebounced =>
    have hnone : (MessagesBuffer.tryDrain s.debounceMs run.mode now s.buffer).1 = [] :=
      tryDrain_eq_nil_iff.mpr (.inr hdebounced)
    unfold AgentThread.step
    rw [hactive]
    dsimp only
    rw [settle_of_succeeds hresult hsucceeds]
    exact ⟨if_pos hnone, tryDrain_of_eq_nil hnone⟩

/-- A thread that is idle after its run has settled was not drained, or had nothing to drain. -/
theorem settle_idle {run : LoopingRun} {now : ℤ} (hactive : s.active = .looping run)
    (h : (s.settle now run).active = .idle) :
    (s.settle now run).buffer = s.buffer ∧
      (EndsWithoutDrain s (.settle now) ∨ s.buffer.queue = []) := by
  cases hresult : run.result with
  | none =>
    rw [settle_of_running hresult, hactive] at h
    cases h
  | some loop =>
    by_cases hsucceeds : RunSucceeds run.env loop
    · rw [settle_of_succeeds hresult hsucceeds] at h ⊢
      by_cases hnone : (MessagesBuffer.tryDrain s.debounceMs run.mode now s.buffer).1 = []
      · refine ⟨tryDrain_of_eq_nil hnone, ?_⟩
        rcases tryDrain_eq_nil_iff.mp hnone with hqueue | hdebounced
        · exact .inr hqueue
        · exact .inl (.debounced hactive hresult hsucceeds hdebounced)
      · dsimp only at h
        rw [if_neg hnone] at h
        cases h
    · rw [settle_of_fails hresult hsucceeds]
      exact ⟨rfl, .inl (.failed hactive hresult hsucceeds)⟩

/-- A thread that is idle after a step has the queue that it had; it was idle, a run ended
without a drain, or there was nothing to drain. -/
theorem step_idle (h : (AgentThread.step yamlLength e s).active = .idle) :
    (AgentThread.step yamlLength e s).buffer = s.buffer ∧
      (s.active = .idle ∨ EndsWithoutDrain s e ∨ s.buffer.queue = []) := by
  cases hactive : s.active with
  | idle =>
    refine ⟨?_, .inl rfl⟩
    unfold AgentThread.step at h ⊢
    rw [hactive] at h ⊢
    cases e with
    | invoke messages now => simp [AgentThread.invoke, hactive] at h
    | begin env cfg mode debounceMs => rfl
    | turn env now => rfl
    | settle now => rfl
    | setDebounceMs ms => rfl
  | starting messages =>
    cases e with
    | begin env cfg mode debounceMs =>
      by_cases hstart : StartSucceeds env
      · unfold AgentThread.step at h
        rw [hactive] at h
        dsimp only at h
        rw [begin_of_startSucceeds hstart] at h
        cases h
      · have hends : EndsWithoutDrain s (.begin env cfg mode debounceMs) := .start hactive hstart
        exact ⟨hends.step.2, .inr (.inl hends)⟩
    | invoke messages' now => simp [AgentThread.step, AgentThread.invoke, hactive] at h
    | turn env now => simp [AgentThread.step, hactive] at h
    | settle now => simp [AgentThread.step, hactive] at h
    | setDebounceMs ms => simp [AgentThread.step, hactive] at h
  | looping run =>
    cases e with
    | invoke messages' now => simp [AgentThread.step, AgentThread.invoke, hactive] at h
    | begin env cfg mode debounceMs => simp [AgentThread.step, hactive] at h
    | turn env now => simp [AgentThread.step, AgentThread.turn, hactive] at h
    | setDebounceMs ms => simp [AgentThread.step, hactive] at h
    | settle now =>
      have hsettle : AgentThread.step yamlLength (.settle now) s = s.settle now run := by
        unfold AgentThread.step
        rw [hactive]
      rw [hsettle] at h ⊢
      obtain ⟨hbuffer, hends⟩ := settle_idle hactive h
      exact ⟨hbuffer, .inr hends⟩

end Steps

section Histories

variable {yamlLength : LLMMessage → ℕ} {w : LLMStore} {history : List ThreadEvent}

theorem after_concat (history : List ThreadEvent) (e : ThreadEvent) :
    AgentThread.after yamlLength w (history ++ [e]) =
      AgentThread.step yamlLength e (AgentThread.after yamlLength w history) := by
  simp [AgentThread.after]

/-- In a history, no run that has left messages in its queue ended without a drain. -/
def DrainsEveryQueue (yamlLength : LLMMessage → ℕ) (w : LLMStore) (history : List ThreadEvent) :
    Prop :=
  ∀ before e, before ++ [e] <+: history →
    (AgentThread.after yamlLength w before).buffer.queue ≠ [] →
      ¬ EndsWithoutDrain (AgentThread.after yamlLength w before) e

theorem DrainsEveryQueue.initial_part {front : List ThreadEvent}
    (h : DrainsEveryQueue yamlLength w history) (hfront : front <+: history) :
    DrainsEveryQueue yamlLength w front :=
  fun before e hbefore => h before e (hbefore.trans hfront)

/-- A thread that is idle after such a history has no messages left. -/
theorem queue_empty_of_idle (h : DrainsEveryQueue yamlLength w history)
    (hidle : (AgentThread.after yamlLength w history).active = .idle) :
    (AgentThread.after yamlLength w history).buffer.queue = [] := by
  induction history using List.reverseRecOn with
  | nil => rfl
  | append_singleton before e ih =>
    rw [after_concat] at hidle ⊢
    have hbefore : (AgentThread.after yamlLength w before).active = .idle →
        (AgentThread.after yamlLength w before).buffer.queue = [] :=
      ih (h.initial_part (List.prefix_append before [e]))
    obtain ⟨hbuffer, hidle⟩ := step_idle hidle
    rw [hbuffer]
    by_contra hqueue
    rcases hidle with hwas | hends | hempty
    · exact hqueue (hbefore hwas)
    · exact h before e List.prefix_rfl hqueue hends
    · exact hqueue hempty

end Histories

/-- In every history, the queue is empty whenever no run is active exactly when every run that
leaves messages in its queue succeeds and settles outside of the debounce window. -/
theorem idle_queue_empty_iff (yamlLength : LLMMessage → ℕ) (w : LLMStore)
    (history : List ThreadEvent) :
    (∀ before, before <+: history → (AgentThread.after yamlLength w before).active = .idle →
      (AgentThread.after yamlLength w before).buffer.queue = []) ↔
        DrainsEveryQueue yamlLength w history := by
  constructor
  · intro h before e hbefore hqueue hends
    have hidle : (AgentThread.after yamlLength w (before ++ [e])).active = .idle := by
      rw [after_concat]
      exact hends.step.1
    have hempty := h (before ++ [e]) hbefore hidle
    rw [after_concat, hends.step.2] at hempty
    exact hqueue hempty
  · intro h before hbefore hidle
    exact queue_empty_of_idle (h.initial_part hbefore) hidle

/-- A message arrives 20 ms before its run settles, and the debounce time is 50 ms. -/
def debouncedHistory : List ThreadEvent :=
  [.invoke [.human "Hello."] 0, .begin .calm .basic .allTogether 50,
    .turn (.calm []) 10, .turn (.calm []) 20, .turn (.calm [.message "Hi."]) 30,
    .turn (.calm []) 90, .invoke [.human "And again."] 100, .settle 120]

theorem debounced_message_stranded :
    (AgentThread.after (fun _ => 0) .empty debouncedHistory).active = .idle ∧
      (AgentThread.after (fun _ => 0) .empty debouncedHistory).buffer.queue =
        [⟨.human "And again.", 100⟩] :=
  ⟨rfl, rfl⟩

end Agyn
