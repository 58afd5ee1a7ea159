import Agyn.LoopRules

/-!
A request to terminate ends the loop of an agent. Every router but the one after the tools
looks at the signal, and that one leads to `summarize`, whose router does. So the loop has
ended after two turns, and neither of them calls a model or a tool.
-/
namespace Agyn

open Loops

/-- A signal that a turn has seen active is active in every later turn. -/
def SignalStays (envs : List LoopEnv) : Prop :=
  envs.Pairwise fun earlier later => earlier.terminateRoute = true → later.terminateFirst = true

def LoopEvent.callsOut : LoopEvent → Bool
  | .summaryCalled => true
  | .modelCalled _ => true
  | .toolsRun _ => true
  | _ => false

/-- Between the two stores neither a model nor a tool was called. -/
def NoCalls (w w' : LLMStore) : Prop :=
  ∃ events, w'.journal = events ++ w.journal ∧ ∀ e ∈ events, e.callsOut = false

theorem NoCalls.refl (w : LLMStore) : NoCalls w w := ⟨[], rfl, by simp⟩

theorem NoCalls.trans {w w' w'' : LLMStore} (h : NoCalls w w') (h' : NoCalls w' w'') :
    NoCalls w w'' := by
  obtain ⟨events, hjournal, hquiet⟩ := h
  obtain ⟨events', hjournal', hquiet'⟩ := h'
  refine ⟨events' ++ events, by rw [hjournal', hjournal, List.append_assoc], ?_⟩
  intro e he
  rcases List.mem_append.mp he with he | he
  · exact hquiet' e he
  · exact hquiet e he

theorem NoCalls.of_journal_eq {w w' : LLMStore} (h : w'.journal = w.journal) : NoCalls w w' :=
  ⟨[], by rw [h, List.nil_append], by simp⟩

theorem NoCalls.note {w w' : LLMStore} {e : LoopEvent} (h : NoCalls w w')
    (he : e.callsOut = false) : NoCalls w (w'.note e) :=
  h.trans ⟨[e], rfl, by simpa using he⟩

variable {yamlLength : LLMMessage → ℕ} {cfg : AgentLoopConfig} {env : LoopEnv}
  {current : ReducerId} {state : LLMState} {w : LLMStore}

/-- After a turn that saw the signal, the loop has ended or goes from `tools_save` to
`summarize`. -/
def stopping (current : ReducerId) (w : LLMStore) : Invariant ReducerId LLMState LLMStore where
  inside := fun next _ w' => current = .toolsSave ∧ next = .summarize ∧ NoCalls w w'
  ended := fun _ w' => NoCalls w w'
  broken := fun w' => NoCalls w w'

theorem stopping_keeps {reducer : Reducer ReducerId LLMState LLMStore LoopEnv}
    (hactive : env.terminateFirst = true)
    (hreducer : prepareLoop yamlLength cfg current = some reducer) :
    (stopping current w).Keeps reducer env state w := by
  have hroute : env.terminateRoute = true := env.stays_route (env.stays_second hactive)
  have hfirst : env.terminateFirst ≠ false := by simp [hactive]
  refine prepareLoop_keeps ?_ ?_ ?_ ?_ ?_ ?_ ?_ hreducer
  · intro _
    exact LoadLLMReducer.invoke_ensures (fun _ => StaticLLMRouter.routed_stopped hroute (.refl w))
      fun _ _ _ => StaticLLMRouter.routed_stopped hroute (.refl w)
  · intro _
    exact SummarizationLLMReducer.invoke_ensures
      (StaticLLMRouter.routed_stopped hroute (.refl w)) (fun h => absurd h hfirst)
      fun _ _ _ _ _ h => absurd h.first hfirst
  · intro _
    obtain ⟨prepared, hprepared⟩ : ∃ p, CallModelLLMReducer.prepare cfg env state w = p :=
      ⟨_, rfl⟩
    have hrecorded : NoCalls w (CallModelLLMReducer.recorded prepared w) := .of_journal_eq rfl
    exact CallModelLLMReducer.invoke_ensures hprepared (.refl w) hrecorded
      (fun _ _ => ConditionalLLMRouter.routed_stopped hroute hrecorded)
      (fun h => absurd h hfirst) (fun h => absurd h hfirst) fun _ _ h => absurd h hfirst
  · intro _
    exact CallToolsLLMReducer.invoke_ensures (.refl w)
      (fun _ => StaticLLMRouter.routed_stopped hroute (.refl w)) (fun h => absurd h hfirst)
      (fun h => absurd h hfirst) fun h => absurd h hfirst
  · intro hcurrent
    refine SaveLLMReducer.invoke_ensures (.refl w) ?_
    intro _ plain
    have hsaved : NoCalls w (w.save plain) := (NoCalls.of_journal_eq rfl).note rfl
    exact AfterToolsRouter.routed (fun _ => hsaved) hsaved ⟨hcurrent, rfl, hsaved⟩
      fun _ _ => ⟨hcurrent, rfl, hsaved.note rfl⟩
  · intro _
    refine SaveLLMReducer.invoke_ensures (.refl w) ?_
    intro _ plain
    exact ConditionalLLMRouter.routed_stopped hroute ((NoCalls.of_journal_eq rfl).note rfl)
  · intro _ _
    exact EnforceToolsLLMReducer.invoke_ensures
      (fun _ => ConditionalLLMRouter.routed_stopped hroute (.refl w))
      fun _ _ => ConditionalLLMRouter.routed_stopped hroute ((NoCalls.refl w).note rfl)

theorem step_stopping (hactive : env.terminateFirst = true) :
    (stopping current w).Holds
      (step (prepareLoop yamlLength cfg) env ⟨.running current state, w⟩) := by
  have hbroken : ∀ next state' w', (stopping current w).inside next state' w' →
      (stopping current w).broken w' := fun _ _ _ h => h.2.2
  cases hreducer : prepareLoop yamlLength cfg current with
  | none =>
    unfold step
    dsimp only
    rw [hreducer]
    exact NoCalls.refl w
  | some reducer =>
    rw [step_running hreducer]
    exact Invariant.holds_turn hbroken (stopping_keeps hactive hreducer)

theorem run_stopping (yamlLength : LLMMessage → ℕ) (cfg : AgentLoopConfig) (current : ReducerId)
    (state : LLMState) (w : LLMStore) {envs : List LoopEnv}
    (hactive : ∀ env ∈ envs, env.terminateFirst = true)
    (hcurrent : current ≠ .toolsSave) (hne : envs ≠ []) :
    let m := run (prepareLoop yamlLength cfg) envs ⟨.running current state, w⟩
    ¬ m.status.IsRunning ∧ NoCalls w m.world := by
  cases envs with
  | nil => exact absurd rfl hne
  | cons env envs =>
    have hholds : (stopping current w).Holds
        (step (prepareLoop yamlLength cfg) env ⟨.running current state, w⟩) :=
      step_stopping (hactive env List.mem_cons_self)
    intro m
    have hm : m = run (prepareLoop yamlLength cfg) envs
        (step (prepareLoop yamlLength cfg) env ⟨.running current state, w⟩) := rfl
    cases hnext : step (prepareLoop yamlLength cfg) env ⟨.running current state, w⟩ with
    | mk status w' =>
      rw [hnext] at hm hholds
      have hstopped : ¬ (⟨status, w'⟩ : AgentMachine).status.IsRunning := by
        intro hrunning
        obtain ⟨next, state', hstatus⟩ := hrunning
        dsimp only at hstatus
        subst hstatus
        exact hcurrent hholds.1
      rw [run_of_not_running hstopped] at hm
      rw [hm]
      refine ⟨hstopped, ?_⟩
      cases status with
      | running next state' => exact absurd ⟨next, state', rfl⟩ hstopped
      | done state' => exact hholds
      | failed message => exact hholds

/-- With the signal active before a reducer, the loop has ended after at most four more turns,
and none of them calls a model or executes a tool. -/
theorem terminated_loop_stops (yamlLength : LLMMessage → ℕ) (cfg : AgentLoopConfig)
    (current : ReducerId) (state : LLMState) (w : LLMStore) (env : LoopEnv)
    (envs : List LoopEnv) (hstays : SignalStays (env :: envs))
    (hactive : env.terminateFirst = true) :
    let m := run (prepareLoop yamlLength cfg) (env :: envs) ⟨.running current state, w⟩
    (4 ≤ (env :: envs).length → ¬ m.status.IsRunning) ∧ NoCalls w m.world := by
  have hroute : env.terminateRoute = true := env.stays_route (env.stays_second hactive)
  have hlater : ∀ later ∈ envs, later.terminateFirst = true :=
    fun later hmem => (List.pairwise_cons.mp hstays).1 later hmem hroute
  have hholds : (stopping current w).Holds
      (step (prepareLoop yamlLength cfg) env ⟨.running current state, w⟩) :=
    step_stopping hactive
  intro m
  have hm : m = run (prepareLoop yamlLength cfg) envs
      (step (prepareLoop yamlLength cfg) env ⟨.running current state, w⟩) := rfl
  cases hnext : step (prepareLoop yamlLength cfg) env ⟨.running current state, w⟩ with
  | mk status w' =>
    rw [hnext] at hm hholds
    cases status with
    | done state' =>
      rw [run_of_not_running (by simp [Status.IsRunning])] at hm
      rw [hm]
      exact ⟨fun _ => by simp [Status.IsRunning], hholds⟩
    | failed message =>
      rw [run_of_not_running (by simp [Status.IsRunning])] at hm
      rw [hm]
      exact ⟨fun _ => by simp [Status.IsRunning], hholds⟩
    | running next state' =>
      obtain ⟨-, hsummarize, hquiet⟩ := hholds
      subst hsummarize
      cases envs with
      | nil => exact ⟨fun h => by simp at h, by rw [hm]; exact hquiet⟩
      | cons later envs =>
        have hrest := run_stopping yamlLength cfg .summarize state' w' hlater (by simp) (by simp)
        rw [hm]
        exact ⟨fun _ => hrest.1, hquiet.trans hrest.2⟩

def LoopEnv.terminated : LoopEnv := { LoopEnv.calm [] with
  terminateFirst := true
  terminateSecond := true
  terminateRoute := true
  stays_second := by simp
  stays_route := by simp }

theorem terminated_call_stops :
    let envs : List LoopEnv := [.terminated, .terminated, .terminated, .terminated]
    let m := run (prepareLoop (fun _ => 0) .basic) envs
      ⟨.running .callModel (initialState []), .empty⟩
    (4 ≤ envs.length → ¬ m.status.IsRunning) ∧ NoCalls .empty m.world :=
  terminated_loop_stops (fun _ => 0) .basic .callModel (initialState []) .empty .terminated
    [.terminated, .terminated, .terminated] (by simp [SignalStays, LoopEnv.terminated]) rfl

end Agyn
