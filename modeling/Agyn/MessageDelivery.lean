import Agyn.Injections
import Agyn.QueueDraining

/-!
The way of the messages that a thread receives. What it received is what entered its runs,
in order, then what waits for a run that is being started, then the queue. This holds as long
as no queue is left behind, no run fails to start with its messages, no injection fails and
no run is terminated over messages that it did not see; a run that settles without an error
has then shown every message that entered it to a model, or stored it.
-/
namespace Agyn

open Loops

def LoopingRun.events (run : LoopingRun) : List LoopEvent :=
  run.machine.world.journal.take
    (run.machine.world.journal.length - run.start.journal.length)

def LoopingRun.entered (run : LoopingRun) : List BufferMessage :=
  run.messages ++ injectedMessages run.events

def LoopingRun.Completed (run : LoopingRun) : Prop :=
  ∃ loop, run.result = some loop ∧ RunSucceeds run.env loop

def ActiveRun.entered : ActiveRun → List BufferMessage
  | .looping run => run.entered
  | _ => []

def ActiveRun.waiting : ActiveRun → List BufferMessage
  | .starting messages => messages
  | _ => []

def AgentThread.entered (s : AgentThread) : List BufferMessage :=
  s.ended.flatMap LoopingRun.entered ++ s.active.entered

def AgentThread.waiting (s : AgentThread) : List BufferMessage :=
  s.active.waiting ++ s.buffer.messages

/-- An event loses messages, leaves them behind, or ends a run that did not see them. -/
inductive Disrupts (s : AgentThread) : ThreadEvent → Prop
  | leaves {e} (hqueue : s.buffer.queue ≠ []) (hends : EndsWithoutDrain s e) : Disrupts s e
  | start {messages env cfg mode debounceMs} (hactive : s.active = .starting messages)
      (hmessages : messages ≠ []) (hfails : ¬ StartSucceeds env) :
      Disrupts s (.begin env cfg mode debounceMs)
  | injection {run env now} (hactive : s.active = .looping run)
      (hdrains : drainsIn run.cfg env run.machine = true)
      (hdrained : (MessagesBuffer.tryDrain s.debounceMs run.mode now s.buffer).1 ≠ [])
      (hfails : env.lateFault ≠ none) : Disrupts s (.turn env now)
  | interruption {run env now} (hactive : s.active = .looping run)
      (hinterrupts : InterruptsUnseen run.start env run.machine) : Disrupts s (.turn env now)

def Undisrupted (yamlLength : LLMMessage → ℕ) : AgentThread → List ThreadEvent → Prop
  | _, [] => True
  | s, e :: history =>
    ¬ Disrupts s e ∧ Undisrupted yamlLength (AgentThread.step yamlLength e s) history

section Runs

variable {yamlLength : LLMMessage → ℕ} {run : LoopingRun} {events : List LoopEvent}

theorem LoopingRun.events_eq
    (h : run.machine.world.journal = events ++ run.start.journal) : run.events = events := by
  unfold LoopingRun.events
  rw [h, List.length_append, Nat.add_sub_cancel, List.take_left]

/-- The new events of a machine are behind the events of its run. -/
theorem LoopingRun.events_step {machine : AgentMachine} {new : List LoopEvent}
    (h : run.machine.world.journal = events ++ run.start.journal)
    (hnew : machine.world.journal = new ++ run.machine.world.journal) :
    ({ run with machine } : LoopingRun).events = new ++ run.events := by
  rw [LoopingRun.events_eq h]
  refine LoopingRun.events_eq ?_
  rw [hnew, h, List.append_assoc]

/-- What a turn drains enters the run, when the turn drains nothing or injects it. -/
theorem LoopingRun.entered_turn {env : LoopEnv} {drained : List BufferMessage}
    {machine : AgentMachine} (h : run.machine.world.journal = events ++ run.start.journal)
    (hmachine : step (prepareLoop yamlLength run.cfg) { env with drained := drained }
      run.machine = machine)
    (hinjects : drained ≠ [] → drainsIn run.cfg env run.machine = true ∧ env.lateFault = none) :
    ({ run with machine } : LoopingRun).entered = run.entered ++ drained := by
  unfold LoopingRun.entered
  by_cases hnone : drained = []
  · have huninjected : Uninjected run.machine.world (step (prepareLoop yamlLength run.cfg)
        { env with drained := drained } run.machine).world := step_uninjected hnone run.machine
    obtain ⟨new, hnew, hinjected⟩ := huninjected
    rw [hmachine] at hnew
    rw [LoopingRun.events_step h hnew, injectedMessages_append, hinjected, hnone]
    simp
  · obtain ⟨hdrains, hlate⟩ := hinjects hnone
    have hinjected : ∃ plain, (step (prepareLoop yamlLength run.cfg)
        { env with drained := drained } run.machine).world.journal =
          [.injected drained, .saved plain] ++ run.machine.world.journal :=
      step_injected hdrains hnone hlate
    obtain ⟨plain, hnew⟩ := hinjected
    rw [hmachine] at hnew
    rw [LoopingRun.events_step h hnew, injectedMessages_append]
    simp [injectedMessages]

def LoopingRun.Carries (run : LoopingRun) : Prop :=
  (carrying run.messages run.start).Holds run.machine

theorem LoopingRun.Carries.journal (h : run.Carries) :
    ∃ events, run.machine.world.journal = events ++ run.start.journal := by
  refine Invariant.Holds.world h ?_ ?_ fun _ h => h
  · intro current state w hinside
    obtain ⟨events, hjournal, -⟩ := hinside
    exact ⟨events, hjournal⟩
  · intro state w hended
    obtain ⟨events, hjournal, -⟩ := hended
    exact ⟨events, hjournal⟩

/-- A run that settles without an error has shown every message that entered it. -/
theorem LoopingRun.Carries.allSeen (h : run.Carries) (hcompleted : run.Completed) :
    ∀ m ∈ run.entered, Seen run.events m.val := by
  obtain ⟨loop, hresult, ⟨-, -, state, hloop, -⟩, -⟩ := hcompleted
  have hdone : run.machine.status = .done state := by
    unfold LoopingRun.result at hresult
    cases hstatus : run.machine.status with
    | running current state' =>
      rw [hstatus] at hresult
      cases hresult
    | failed message =>
      rw [hstatus, hloop] at hresult
      cases hresult
    | done state' =>
      rw [hstatus, hloop] at hresult
      cases hresult
      rfl
  unfold LoopingRun.Carries Invariant.Holds at h
  rw [hdone] at h
  obtain ⟨events, hjournal, hall⟩ := h
  unfold LoopingRun.entered
  rw [LoopingRun.events_eq hjournal]
  exact hall

theorem LoopingRun.entered_start (cfg : AgentLoopConfig) (mode : ProcessBuffer)
    (env : InvokeEnv) (messages : List BufferMessage) (w : LLMStore) :
    LoopingRun.entered ⟨cfg, mode, env, messages, w, startRun messages w⟩ = messages ∧
      LoopingRun.Carries ⟨cfg, mode, env, messages, w, startRun messages w⟩ := by
  refine ⟨?_, [], rfl, ?_, fun h => absurd rfl h⟩
  · unfold LoopingRun.entered
    rw [LoopingRun.events_eq (by rfl : (startRun messages w).world.journal = [] ++ w.journal)]
    exact List.append_nil messages
  · intro m hm
    refine .inr ⟨rfl, ?_⟩
    rw [injectedMessages, List.append_nil] at hm
    exact List.mem_map_of_mem hm

end Runs

/-- Everything that a thread received has entered a run, in order, or waits for one. -/
structure Delivers (s : AgentThread) : Prop where
  accounted : s.received = s.entered ++ s.waiting
  idle : s.active = .idle → s.buffer.queue = []
  carries : ∀ run, s.active = .looping run → run.Carries
  seen : ∀ run ∈ s.ended, run.Completed → ∀ m ∈ run.entered, Seen run.events m.val

section Delivering

variable {yamlLength : LLMMessage → ℕ} {s : AgentThread} {e : ThreadEvent}

theorem Delivers.initial (w : LLMStore) : Delivers (.initial w) := by
  refine ⟨rfl, fun _ => rfl, ?_, ?_⟩
  · intro run hrun
    cases hrun
  · intro run hrun
    cases hrun

theorem invoke_of_idle (h : s.active = .idle) (messages : List BufferMessage) (now : ℤ) :
    s.invoke messages now =
      { s with active := .starting messages, received := s.received ++ messages } := by
  unfold AgentThread.invoke
  dsimp only
  rw [h]

theorem invoke_of_busy (h : s.active ≠ .idle) (messages : List BufferMessage) (now : ℤ) :
    s.invoke messages now =
      { s with
        buffer := MessagesBuffer.enqueue messages now s.buffer
        received := s.received ++ messages } := by
  unfold AgentThread.invoke
  dsimp only
  cases hactive : s.active with
  | idle => exact absurd hactive h
  | starting first => rfl
  | looping run => rfl

theorem Delivers.invoke (h : Delivers s) (messages : List BufferMessage) (now : ℤ) :
    Delivers (s.invoke messages now) := by
  have haccounted := h.accounted
  by_cases hidle : s.active = .idle
  · have hqueue : s.buffer.messages = [] := messages_eq_nil_iff.mpr (h.idle hidle)
    rw [invoke_of_idle hidle]
    simp only [AgentThread.entered, AgentThread.waiting, hidle, ActiveRun.entered,
      ActiveRun.waiting, hqueue, List.append_nil] at haccounted
    refine ⟨?_, ?_, ?_, h.seen⟩
    · simp [AgentThread.entered, AgentThread.waiting, ActiveRun.entered, ActiveRun.waiting, hqueue,
        haccounted]
    · intro hactive
      cases hactive
    · intro run hrun
      cases hrun
  · rw [invoke_of_busy hidle]
    refine ⟨?_, fun hactive => absurd hactive hidle, h.carries, h.seen⟩
    simp only [AgentThread.entered, AgentThread.waiting, enqueue_messages] at haccounted ⊢
    simp [haccounted]

/-- A run that is ready has its messages in the working state, and they wait no more. -/
theorem Delivers.begin (h : Delivers s) {messages : List BufferMessage}
    (hactive : s.active = .starting messages) {env : InvokeEnv} {cfg : AgentLoopConfig}
    {mode : ProcessBuffer} {debounceMs : ℕ}
    (hsmooth : ¬ Disrupts s (.begin env cfg mode debounceMs)) :
    Delivers (s.begin env cfg mode debounceMs messages) := by
  have haccounted := h.accounted
  simp only [AgentThread.entered, AgentThread.waiting, hactive, ActiveRun.entered,
    ActiveRun.waiting, List.append_nil] at haccounted
  by_cases hstart : StartSucceeds env
  · rw [begin_of_startSucceeds hstart]
    obtain ⟨hentered, hcarries⟩ := LoopingRun.entered_start cfg mode env messages s.store
    refine ⟨?_, ?_, ?_, h.seen⟩
    · simp only [AgentThread.entered, AgentThread.waiting, ActiveRun.entered, ActiveRun.waiting,
        hentered, List.nil_append]
      rw [haccounted, List.append_assoc]
    · intro hidle
      cases hidle
    · intro run hrun
      cases hrun
      exact hcarries
  · have hnone : messages = [] := by
      by_contra hmessages
      exact hsmooth (.start hactive hmessages hstart)
    have hqueue : s.buffer.queue = [] := by
      by_contra hqueue
      exact hsmooth (.leaves hqueue (.start hactive hstart))
    obtain ⟨hidle, hbuffer, hreceived, hended⟩ :=
      begin_of_fails (s := s) hstart cfg mode debounceMs messages
    refine ⟨?_, ?_, ?_, ?_⟩
    · unfold AgentThread.entered AgentThread.waiting
      rw [hreceived, haccounted, hidle, hbuffer, hended, hnone]
      simp [ActiveRun.entered, ActiveRun.waiting]
    · intro _
      rw [hbuffer]
      exact hqueue
    · intro run hrun
      rw [hidle] at hrun
      cases hrun
    · rw [hended]
      exact h.seen

/-- What a turn drains from the queue enters the run. -/
theorem Delivers.turn (h : Delivers s) {run : LoopingRun} (hactive : s.active = .looping run)
    {env : LoopEnv} {now : ℤ} (hsmooth : ¬ Disrupts s (.turn env now)) :
    Delivers (s.turn yamlLength env now run) := by
  have haccounted := h.accounted
  simp only [AgentThread.entered, AgentThread.waiting, hactive, ActiveRun.entered,
    ActiveRun.waiting, List.nil_append] at haccounted
  have hcarries : run.Carries := h.carries run hactive
  obtain ⟨events, hjournal⟩ := hcarries.journal
  obtain ⟨drained, buffer, hdrain⟩ : ∃ drained buffer,
      (if drainsIn run.cfg env run.machine then
        MessagesBuffer.tryDrain s.debounceMs run.mode now s.buffer
      else ([], s.buffer)) = (drained, buffer) := ⟨_, _, rfl⟩
  have hmessages : drained ++ buffer.messages = s.buffer.messages := by
    by_cases hdrains : drainsIn run.cfg env run.machine = true
    · rw [if_pos hdrains] at hdrain
      have htaken := @tryDrain_messages now s.buffer s.debounceMs run.mode
      rw [hdrain] at htaken
      exact htaken
    · rw [if_neg hdrains] at hdrain
      cases hdrain
      rfl
  have hinjects : drained ≠ [] →
      drainsIn run.cfg env run.machine = true ∧ env.lateFault = none := by
    intro hne
    by_cases hdrains : drainsIn run.cfg env run.machine = true
    · refine ⟨hdrains, ?_⟩
      by_contra hlate
      rw [if_pos hdrains] at hdrain
      refine hsmooth (.injection hactive hdrains ?_ hlate)
      rw [hdrain]
      exact hne
    · rw [if_neg hdrains] at hdrain
      cases hdrain
      exact absurd rfl hne
  have hentered := @LoopingRun.entered_turn yamlLength run events env drained _ hjournal rfl
    hinjects
  unfold AgentThread.turn
  rw [hdrain]
  refine ⟨?_, ?_, ?_, h.seen⟩
  · simp only [AgentThread.entered, AgentThread.waiting, ActiveRun.entered, ActiveRun.waiting,
      List.nil_append, hentered]
    rw [haccounted, ← hmessages]
    simp
  · intro hidle
    cases hidle
  · intro run' hrun
    cases hrun
    refine carrying_step ?_ hcarries
    intro hinterrupts
    exact hsmooth (.interruption hactive hinterrupts)

/-- A run that has ended keeps what entered it, and what is drained behind it waits. -/
theorem Delivers.settle (h : Delivers s) {run : LoopingRun} (hactive : s.active = .looping run)
    {now : ℤ} (hsmooth : ¬ Disrupts s (.settle now)) : Delivers (s.settle now run) := by
  have haccounted := h.accounted
  simp only [AgentThread.entered, AgentThread.waiting, hactive, ActiveRun.entered,
    ActiveRun.waiting, List.nil_append] at haccounted
  have hseen : ∀ run' ∈ s.ended ++ [run], run'.Completed →
      ∀ m ∈ run'.entered, Seen run'.events m.val := by
    intro run' hrun' hcompleted
    rcases List.mem_append.mp hrun' with hrun' | hrun'
    · exact h.seen run' hrun' hcompleted
    · rw [List.mem_singleton.mp hrun'] at hcompleted ⊢
      exact (h.carries run hactive).allSeen hcompleted
  cases hresult : run.result with
  | none =>
    rw [settle_of_running hresult]
    exact h
  | some loop =>
    by_cases hsucceeds : RunSucceeds run.env loop
    · rw [settle_of_succeeds hresult hsucceeds]
      have htaken := @tryDrain_messages now s.buffer s.debounceMs run.mode
      by_cases hnone : (MessagesBuffer.tryDrain s.debounceMs run.mode now s.buffer).1 = []
      · have hqueue : s.buffer.queue = [] := by
          by_contra hqueue
          rcases tryDrain_eq_nil_iff.mp hnone with hempty | hdebounced
          · exact hqueue hempty
          · exact hsmooth (.leaves hqueue (.debounced hactive hresult hsucceeds hdebounced))
        dsimp only
        rw [tryDrain_of_eq_nil hnone, if_pos hnone]
        refine ⟨?_, fun _ => hqueue, ?_, hseen⟩
        · simp [AgentThread.entered, AgentThread.waiting, ActiveRun.entered, ActiveRun.waiting,
            haccounted]
        · intro run' hrun'
          cases hrun'
      · dsimp only
        rw [if_neg hnone]
        refine ⟨?_, ?_, ?_, hseen⟩
        · simp [AgentThread.entered, AgentThread.waiting, ActiveRun.entered, ActiveRun.waiting,
            haccounted, ← htaken]
        · intro hidle
          cases hidle
        · intro run' hrun'
          cases hrun'
    · have hqueue : s.buffer.queue = [] := by
        by_contra hqueue
        exact hsmooth (.leaves hqueue (.failed hactive hresult hsucceeds))
      rw [settle_of_fails hresult hsucceeds]
      refine ⟨?_, fun _ => hqueue, ?_, hseen⟩
      · simp [AgentThread.entered, AgentThread.waiting, ActiveRun.entered, ActiveRun.waiting,
          haccounted]
      · intro run' hrun'
        cases hrun'

theorem Delivers.step (h : Delivers s) (hsmooth : ¬ Disrupts s e) :
    Delivers (AgentThread.step yamlLength e s) := by
  unfold AgentThread.step
  cases e with
  | invoke messages now => exact h.invoke messages now
  | setDebounceMs ms => exact ⟨h.accounted, h.idle, h.carries, h.seen⟩
  | begin env cfg mode debounceMs =>
    cases hactive : s.active with
    | idle => exact h
    | starting messages => exact h.begin hactive hsmooth
    | looping run => exact h
  | turn env now =>
    cases hactive : s.active with
    | idle => exact h
    | starting messages => exact h
    | looping run => exact h.turn hactive hsmooth
  | settle now =>
    cases hactive : s.active with
    | idle => exact h
    | starting messages => exact h
    | looping run => exact h.settle hactive hsmooth

theorem Delivers.run {history : List ThreadEvent} (h : Delivers s)
    (hsmooth : Undisrupted yamlLength s history) :
    Delivers (history.foldl (fun s e => AgentThread.step yamlLength e s) s) := by
  induction history generalizing s with
  | nil => exact h
  | cons e history ih => exact ih (h.step hsmooth.1) hsmooth.2

end Delivering

/-- In a history without disruptions, what a thread has received is what entered its runs, in
order, and then what waits; nothing waits when no run is active; and every message that
entered a run that settled without an error was stored or handed to a model by that run. -/
theorem messages_delivered (yamlLength : LLMMessage → ℕ) (w : LLMStore)
    (history : List ThreadEvent) (hsmooth : Undisrupted yamlLength (.initial w) history) :
    let s := AgentThread.after yamlLength w history
    s.received = s.entered ++ s.waiting ∧ (s.active = .idle → s.waiting = []) ∧
      ∀ run ∈ s.ended, run.Completed → ∀ m ∈ run.entered, Seen run.events m.val := by
  intro s
  have h : Delivers s := (Delivers.initial w).run hsmooth
  refine ⟨h.accounted, ?_, h.seen⟩
  intro hidle
  have hqueue : s.buffer.messages = [] := messages_eq_nil_iff.mpr (h.idle hidle)
  simp [AgentThread.waiting, hidle, hqueue, ActiveRun.waiting]

section Smoothness

variable {s : AgentThread}

theorem not_disrupts_invoke (messages : List BufferMessage) (now : ℤ) :
    ¬ Disrupts s (.invoke messages now) := by
  intro h
  cases h with
  | leaves hqueue hends => cases hends

theorem not_disrupts_begin {env : InvokeEnv} (h : StartSucceeds env) (cfg : AgentLoopConfig)
    (mode : ProcessBuffer) (debounceMs : ℕ) : ¬ Disrupts s (.begin env cfg mode debounceMs) := by
  intro hdisrupts
  cases hdisrupts with
  | leaves hqueue hends =>
    cases hends with
    | start hactive hfails => exact hfails h
  | start hactive hmessages hfails => exact hfails h

/-- A turn disrupts nothing without a late failure and a signal to terminate. -/
theorem not_disrupts_turn {env : LoopEnv} (hlate : env.lateFault = none)
    (hroute : env.terminateRoute = false) (now : ℤ) : ¬ Disrupts s (.turn env now) := by
  intro h
  cases h with
  | leaves hqueue hends => cases hends
  | injection hactive hdrains hdrained hfails => exact hfails hlate
  | interruption hactive hinterrupts =>
    obtain ⟨current, state, events, -, -, -, ⟨-, hterminated⟩ | ⟨-, hfirst⟩⟩ := hinterrupts
    · rw [hroute] at hterminated
      cases hterminated
    · have hterminated := env.stays_route (env.stays_second hfirst)
      rw [hroute] at hterminated
      cases hterminated

theorem not_disrupts_settle {run : LoopingRun} {loop : Except String LLMState} {now : ℤ}
    (hactive : s.active = .looping run) (hresult : run.result = some loop)
    (hsucceeds : RunSucceeds run.env loop)
    (hdebounced : MessagesBuffer.debounced s.debounceMs now s.buffer = false) :
    ¬ Disrupts s (.settle now) := by
  intro h
  cases h with
  | leaves hqueue hends =>
    cases hends with
    | failed hactive' hresult' hfails =>
      rw [hactive] at hactive'
      cases hactive'
      rw [hresult] at hresult'
      cases hresult'
      exact hfails hsucceeds
    | debounced hactive' hresult' hsucceeds' hdebounced' =>
      rw [hdebounced] at hdebounced'
      cases hdebounced'

end Smoothness

/-- A message arrives while a run is active, and is drained when the run settles. -/
def drainedHistory : List ThreadEvent :=
  [.invoke [.human "Hello."] 0, .begin .calm .basic .allTogether 0,
    .turn (.calm []) 10, .turn (.calm []) 20, .turn (.calm [.message "Hi."]) 30,
    .turn (.calm []) 90, .invoke [.human "And again."] 100, .settle 120,
    .begin .calm .basic .allTogether 0]

theorem drained_message_delivered :
    let s := AgentThread.after (fun _ => 0) .empty drainedHistory
    s.received = s.entered ++ s.waiting ∧ (s.active = .idle → s.waiting = []) ∧
      ∀ run ∈ s.ended, run.Completed → ∀ m ∈ run.entered, Seen run.events m.val := by
  have hcalm : StartSucceeds .calm := ⟨rfl, rfl, rfl, rfl, rfl⟩
  have hturn : ∀ {s reply now}, ¬ Disrupts s (.turn (.calm reply) now) :=
    fun {s reply now} => not_disrupts_turn rfl rfl now
  refine messages_delivered (fun _ => 0) .empty drainedHistory
    ⟨not_disrupts_invoke _ _, not_disrupts_begin hcalm _ _ _, hturn, hturn, hturn, hturn,
      not_disrupts_invoke _ _, ?_, not_disrupts_begin hcalm _ _ _, trivial⟩
  exact not_disrupts_settle rfl rfl ⟨⟨rfl, rfl, _, rfl, .inr rfl⟩, rfl, rfl⟩ rfl

/-- The message that was left in the queue enters a run after one that came later. -/
theorem stranded_message_overtaken :
    let s := AgentThread.after (fun _ => 0) .empty (debouncedHistory ++
      [.invoke [.human "New."] 500, .begin .calm .basic .allTogether 50,
        .turn (.calm []) 510, .turn (.calm []) 520, .turn (.calm [.message "Hi."]) 530,
        .turn (.calm []) 590, .settle 600, .begin .calm .basic .allTogether 50])
    s.received = [.human "Hello.", .human "And again.", .human "New."] ∧
      s.entered = [.human "Hello.", .human "New.", .human "And again."] :=
  ⟨rfl, rfl⟩

end Agyn
