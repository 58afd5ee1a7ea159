import Agyn.LoopRules

/-!
The cap on restriction messages. The counter in the `meta` of the state counts the messages
that were injected since tools last ran, and every reducer keeps that so, except for a fold:
its state has no `meta`, and the counting starts again. In a run whose folds all happen
while nothing has been injected the cap holds, and a run ends without tools only at it.
-/
namespace Agyn

open Loops

/-- The restriction messages since tools last ran, from a journal with the newest event first. -/
def restrictedSince : List LoopEvent → ℕ
  | [] => 0
  | .restricted :: events => restrictedSince events + 1
  | .toolsRun calls :: events => if calls = [] then restrictedSince events else 0
  | .summaryCalled :: events => restrictedSince events
  | .folded _ _ :: events => restrictedSince events
  | .modelCalled _ :: events => restrictedSince events
  | .replied _ :: events => restrictedSince events
  | .injected _ :: events => restrictedSince events
  | .saved _ :: events => restrictedSince events

/-- At no time had there been more than `m` restriction messages since tools last ran. -/
def CappedBy (m : ℕ) (events : List LoopEvent) : Prop :=
  ∀ later earlier, events = later ++ earlier → restrictedSince earlier ≤ m

section Counting

variable {m : ℕ} {e : LoopEvent} {events : List LoopEvent}

theorem CappedBy.nil : CappedBy m [] := by
  intro later earlier h
  obtain ⟨-, rfl⟩ := List.append_eq_nil_iff.mp h.symm
  exact Nat.zero_le m

theorem CappedBy.last (h : CappedBy m events) : restrictedSince events ≤ m :=
  h [] events rfl

theorem CappedBy.cons (h : CappedBy m events) (he : restrictedSince (e :: events) ≤ m) :
    CappedBy m (e :: events) := by
  intro later earlier heq
  cases later with
  | nil =>
    rw [List.nil_append] at heq
    rw [← heq]
    exact he
  | cons _ later => exact h later earlier (List.cons.inj heq).2

theorem CappedBy.cons_of_eq (h : CappedBy m events)
    (he : restrictedSince (e :: events) = restrictedSince events) : CappedBy m (e :: events) :=
  h.cons (by rw [he]; exact h.last)

end Counting

/-- A fold in this turn would happen while no restriction message has been injected. -/
def FoldsUncounted (yamlLength : LLMMessage → ℕ) (cfg : AgentLoopConfig) (env : LoopEnv)
    (m : AgentMachine) : Prop :=
  ∀ state text, m.status = .running .summarize state →
    SummarizationLLMReducer.FoldsIn yamlLength cfg env state text →
      state.turnMeta.restrictionInjectionCount.getD 0 = 0

/-- The counter of a state is right, and the last message before a reducer is as its routers
have it. -/
structure Counted (current : ReducerId) (state : LLMState) (events : List LoopEvent) : Prop where
  counter : state.turnMeta.restrictionInjectionCount.getD 0 = restrictedSince events
  callTools : current = .callTools → CallToolsLLMReducer.filterToolCalls state.messages ≠ []
  save : current = .save ∨ current = .enforceTools →
    CallToolsLLMReducer.filterToolCalls state.messages = []

def capping (m : ℕ) (w₀ : LLMStore) : Invariant ReducerId LLMState LLMStore where
  inside := fun current state w =>
    ∃ events, Since (CappedBy m) w₀ w events ∧ Counted current state events
  ended := fun _ w => ∃ events, Since (CappedBy m) w₀ w events
  broken := fun w => ∃ events, Since (CappedBy m) w₀ w events

section Keeping

variable {yamlLength : LLMMessage → ℕ} {cfg : AgentLoopConfig} {env : LoopEnv} {m : ℕ}
  {state : LLMState} {w w₀ : LLMStore} {events : List LoopEvent}

theorem Since.capped {e : LoopEvent} (h : Since (CappedBy m) w₀ w events)
    (he : restrictedSince (e :: events) = restrictedSince events) :
    Since (CappedBy m) w₀ (w.note e) (e :: events) := h.note (h.holds.cons_of_eq he)

theorem capping_load (hsince : Since (CappedBy m) w₀ w events)
    (hcounted : Counted .load state events) :
    (capping m w₀).Keeps ⟨LoadLLMReducer.invoke, some (StaticLLMRouter.route .summarize)⟩ env
      state w := by
  refine LoadLLMReducer.invoke_ensures ?_ ?_
  · intro _
    exact StaticLLMRouter.routed (fun _ => ⟨events, hsince⟩)
      fun _ => ⟨events, hsince, hcounted.counter, by simp, by simp⟩
  · intro persisted _ _
    exact StaticLLMRouter.routed (fun _ => ⟨events, hsince⟩)
      fun _ => ⟨events, hsince, hcounted.counter, by simp, by simp⟩

theorem capping_summarize (hsince : Since (CappedBy m) w₀ w events)
    (hcounted : Counted .summarize state events)
    (hfolds : FoldsUncounted yamlLength cfg env ⟨.running .summarize state, w⟩) :
    (capping m w₀).Keeps ⟨SummarizationLLMReducer.invoke yamlLength cfg,
      some (StaticLLMRouter.route .callModel)⟩ env state w := by
  have hcalled : Since (CappedBy m) w₀ (w.note .summaryCalled) (.summaryCalled :: events) :=
    hsince.capped rfl
  refine SummarizationLLMReducer.invoke_ensures ?_ (fun _ _ => ⟨_, hcalled⟩) ?_
  · exact StaticLLMRouter.routed (fun _ => ⟨events, hsince⟩)
      fun _ => ⟨events, hsince, hcounted.counter, by simp, by simp⟩
  · intro text head tail context items hfold _ _
    have hfolded : Since (CappedBy m) w₀
        (({ w.note .summaryCalled with items := items } : LLMStore).note (.folded tail (trim text)))
        (.folded tail (trim text) :: .summaryCalled :: events) :=
      Since.capped (hcalled.of_eq rfl) rfl
    have hzero : restrictedSince events = 0 := by
      rw [← hcounted.counter]
      exact hfolds state text rfl hfold
    exact StaticLLMRouter.routed (fun _ => ⟨_, hfolded⟩)
      fun _ => ⟨_, hfolded, hzero.symm, by simp, by simp⟩

theorem capping_callModel (hsince : Since (CappedBy m) w₀ w events)
    (hcounted : Counted .callModel state events) :
    (capping m w₀).Keeps ⟨CallModelLLMReducer.invoke cfg,
      some (ConditionalLLMRouter.route afterCallModel)⟩ env state w := by
  obtain ⟨prepared, hprepared⟩ : ∃ p, CallModelLLMReducer.prepare cfg env state w = p := ⟨_, rfl⟩
  have hrecorded : Since (CappedBy m) w₀ (CallModelLLMReducer.recorded prepared w) events :=
    hsince.of_eq rfl
  have hcalled : Since (CappedBy m) w₀ ((CallModelLLMReducer.recorded prepared w).note
      (.modelCalled (CallModelLLMReducer.callRecord prepared).input)) (.modelCalled _ :: events) :=
    hrecorded.capped rfl
  refine CallModelLLMReducer.invoke_ensures hprepared ⟨_, hsince⟩ ⟨_, hrecorded⟩
    (fun _ hroute => ConditionalLLMRouter.routed_stopped hroute ⟨_, hrecorded⟩)
    (fun _ => ⟨_, hcalled⟩)
    (fun _ hroute => ConditionalLLMRouter.routed_stopped hroute ⟨_, hcalled⟩) ?_
  intro reply output _ _ _ w'
  have hreplied : Since (CappedBy m) w₀
      ((w'.createItems [.response output]).note (.replied output))
      (.replied output :: .modelCalled _ :: events) := Since.capped (hcalled.of_eq rfl) rfl
  refine afterCallModel_routed rfl (fun _ => ⟨_, hreplied⟩) ?_ ?_
  · intro hcalls
    refine ⟨_, hreplied, hcounted.counter, fun _ => ?_, by simp⟩
    exact (filterToolCalls_concat state.messages _).trans_ne hcalls
  · intro hcalls
    refine ⟨_, hreplied, hcounted.counter, by simp, fun _ => ?_⟩
    exact (filterToolCalls_concat state.messages _).trans hcalls

theorem capping_callTools (hsince : Since (CappedBy m) w₀ w events)
    (hcounted : Counted .callTools state events) :
    (capping m w₀).Keeps ⟨CallToolsLLMReducer.invoke, some (StaticLLMRouter.route .toolsSave)⟩ env
      state w := by
  have hzero : restrictedSince
      (.toolsRun (CallToolsLLMReducer.filterToolCalls state.messages) :: events) = 0 :=
    if_neg (hcounted.callTools rfl)
  have hran : Since (CappedBy m) w₀
      (w.note (.toolsRun (CallToolsLLMReducer.filterToolCalls state.messages)))
      (.toolsRun (CallToolsLLMReducer.filterToolCalls state.messages) :: events) :=
    hsince.note (hsince.holds.cons (by rw [hzero]; exact Nat.zero_le m))
  refine CallToolsLLMReducer.invoke_ensures ⟨_, hsince⟩
    (fun hroute => StaticLLMRouter.routed_stopped hroute ⟨_, hsince⟩) (fun _ => ⟨_, hran⟩)
    (fun _ hroute => StaticLLMRouter.routed_stopped hroute ⟨_, hran⟩) ?_
  intro _ results
  exact StaticLLMRouter.routed (fun _ => ⟨_, hran.of_eq rfl⟩)
    fun _ => ⟨_, hran.of_eq rfl, hzero.symm, by simp, by simp⟩

theorem capping_toolsSave (hsince : Since (CappedBy m) w₀ w events)
    (hcounted : Counted .toolsSave state events) :
    (capping m w₀).Keeps ⟨SaveLLMReducer.invoke, some (AfterToolsRouter.route cfg)⟩ env
      state w := by
  refine SaveLLMReducer.invoke_ensures ⟨_, hsince⟩ ?_
  intro _ plain
  have hsaved : Since (CappedBy m) w₀ (w.save plain) (.saved plain :: events) :=
    hsince.save (hsince.holds.cons_of_eq rfl)
  have hinjected : Since (CappedBy m) w₀ ((w.save plain).note (.injected env.drained))
      (.injected env.drained :: .saved plain :: events) := hsaved.capped rfl
  exact AfterToolsRouter.routed (fun _ => ⟨_, hsaved⟩) ⟨_, hsaved⟩
    ⟨_, hsaved, hcounted.counter, by simp, by simp⟩
    fun _ _ => ⟨_, hinjected, hcounted.counter, by simp, by simp⟩

theorem capping_save (hsince : Since (CappedBy m) w₀ w events)
    (hcounted : Counted .save state events) :
    (capping m w₀).Keeps ⟨SaveLLMReducer.invoke,
      some (ConditionalLLMRouter.route (afterSave cfg))⟩ env state w := by
  refine SaveLLMReducer.invoke_ensures ⟨_, hsince⟩ ?_
  intro _ plain
  have hsaved : Since (CappedBy m) w₀ (w.save plain) (.saved plain :: events) :=
    hsince.save (hsince.holds.cons_of_eq rfl)
  exact afterSave_routed (fun _ => ⟨_, hsaved⟩)
    fun _ => ⟨_, hsaved, hcounted.counter, by simp, fun _ => hcounted.save (.inl rfl)⟩

theorem capping_enforceTools (hsince : Since (CappedBy m) w₀ w events)
    (hcounted : Counted .enforceTools state events) (hm : cfg.restrictionMaxInjections = m)
    (hpos : 0 < m) :
    (capping m w₀).Keeps ⟨fun _ => EnforceToolsLLMReducer.invoke cfg,
      some (ConditionalLLMRouter.route afterEnforceTools)⟩ env state w := by
  refine EnforceToolsLLMReducer.invoke_ensures ?_ ?_
  · intro _
    exact afterEnforceTools_routed (fun _ => ⟨_, hsince⟩)
      fun _ => ⟨_, hsince, hcounted.counter, by simp, by simp⟩
  · intro _ hbelow
    have hlt : restrictedSince events < m := by
      rw [← hcounted.counter, ← hm]
      exact hbelow (by omega)
    have hcount : restrictedSince (.restricted :: events) ≤ m := hlt
    have hrestricted : Since (CappedBy m) w₀ (w.note .restricted) (.restricted :: events) :=
      hsince.note (hsince.holds.cons hcount)
    have hcounter : (EnforceToolsLLMReducer.restricted cfg
        state).turnMeta.restrictionInjectionCount.getD 0 =
          restrictedSince (.restricted :: events) := by
      simp [EnforceToolsLLMReducer.restricted, restrictedSince, hcounted.counter]
    exact afterEnforceTools_routed (fun _ => ⟨_, hrestricted⟩)
      fun _ => ⟨_, hrestricted, hcounter, by simp, by simp⟩

theorem capping_keeps {current : ReducerId}
    {reducer : Reducer ReducerId LLMState LLMStore LoopEnv}
    (hm : cfg.restrictionMaxInjections = m) (hpos : 0 < m)
    (hfolds : FoldsUncounted yamlLength cfg env ⟨.running current state, w⟩)
    (hreducer : prepareLoop yamlLength cfg current = some reducer)
    (h : (capping m w₀).inside current state w) : (capping m w₀).Keeps reducer env state w := by
  obtain ⟨events, hsince, hcounted⟩ := h
  refine prepareLoop_keeps ?_ ?_ ?_ ?_ ?_ ?_ ?_ hreducer
  · intro hcurrent
    subst hcurrent
    exact capping_load hsince hcounted
  · intro hcurrent
    subst hcurrent
    exact capping_summarize hsince hcounted hfolds
  · intro hcurrent
    subst hcurrent
    exact capping_callModel hsince hcounted
  · intro hcurrent
    subst hcurrent
    exact capping_callTools hsince hcounted
  · intro hcurrent
    subst hcurrent
    exact capping_toolsSave hsince hcounted
  · intro hcurrent
    subst hcurrent
    exact capping_save hsince hcounted
  · intro hcurrent _
    subst hcurrent
    exact capping_enforceTools hsince hcounted hm hpos

/-- A turn that ends the loop saw the terminate or the finish signal, or the cap is reached. -/
def endingAtCap (env : LoopEnv) (m : ℕ) (w₀ : LLMStore) :
    Invariant ReducerId LLMState LLMStore where
  inside := fun _ _ _ => True
  ended := fun _ w => env.terminateRoute = true ∨ env.finish = true ∨
    ∃ events, w.journal = events ++ w₀.journal ∧ restrictedSince events = m
  broken := fun _ => True

theorem endingAtCap_enforceTools (hsince : Since (CappedBy m) w₀ w events)
    (hcounted : Counted .enforceTools state events) (hm : cfg.restrictionMaxInjections = m)
    (hrestrict : cfg.restrictOutput = true) :
    (endingAtCap env m w₀).Keeps ⟨fun _ => EnforceToolsLLMReducer.invoke cfg,
      some (ConditionalLLMRouter.route afterEnforceTools)⟩ env state w := by
  have hnone : EnforceToolsLLMReducer.lastHasToolCall state.messages = false := by
    simp [EnforceToolsLLMReducer.lastHasToolCall, hcounted.save (.inr rfl)]
  refine EnforceToolsLLMReducer.invoke_ensures ?_ ?_
  · intro hcap
    refine afterEnforceTools_routed ?_ (fun _ => trivial)
    intro _
    refine .inr (.inr ⟨events, hsince.journal, ?_⟩)
    have hreached := (hcap hrestrict hnone).2
    have hlast := hsince.holds.last
    rw [hcounted.counter, hm] at hreached
    omega
  · intro _ _
    refine afterEnforceTools_routed ?_ (fun _ => trivial)
    intro hended
    rcases hended with hroute | hnone
    · exact .inl hroute
    · simp [afterEnforceTools, EnforceToolsLLMReducer.restricted] at hnone

theorem endingAtCap_keeps {current : ReducerId}
    {reducer : Reducer ReducerId LLMState LLMStore LoopEnv}
    (hm : cfg.restrictionMaxInjections = m) (hrestrict : cfg.restrictOutput = true)
    (hreducer : prepareLoop yamlLength cfg current = some reducer)
    (h : (capping m w₀).inside current state w) :
    (endingAtCap env m w₀).Keeps reducer env state w := by
  obtain ⟨events, hsince, hcounted⟩ := h
  have hstatic : ∀ {invoke next state' w'}, (endingAtCap env m w₀).Routed
      ⟨invoke, some (StaticLLMRouter.route next)⟩ env state' w' :=
    StaticLLMRouter.routed (fun hroute => .inl hroute) fun _ => trivial
  refine prepareLoop_keeps ?_ ?_ ?_ ?_ ?_ ?_ ?_ hreducer
  · intro _
    exact LoadLLMReducer.invoke_ensures (fun _ => hstatic) fun _ _ _ => hstatic
  · intro _
    exact SummarizationLLMReducer.invoke_ensures hstatic (fun _ _ => trivial)
      fun _ _ _ _ _ _ _ _ => hstatic
  · intro _
    exact CallModelLLMReducer.invoke_ensures rfl trivial trivial
      (fun _ hroute => ConditionalLLMRouter.routed_stopped hroute (.inl hroute)) (fun _ => trivial)
      (fun _ hroute => ConditionalLLMRouter.routed_stopped hroute (.inl hroute))
      fun _ _ _ _ _ => afterCallModel_routed rfl (fun hroute => .inl hroute) (fun _ => trivial)
        fun _ => trivial
  · intro _
    exact CallToolsLLMReducer.invoke_ensures trivial (fun _ => hstatic) (fun _ => trivial)
      (fun _ _ => hstatic) fun _ => hstatic
  · intro _
    refine SaveLLMReducer.invoke_ensures trivial ?_
    intro _
    exact AfterToolsRouter.routed (fun hfinish => .inr (.inl hfinish)) trivial trivial
      fun _ _ => trivial
  · intro _
    refine SaveLLMReducer.invoke_ensures trivial ?_
    intro _
    refine afterSave_routed ?_ fun _ => trivial
    intro hended
    rcases hended with hroute | hoff
    · exact .inl hroute
    · simp [hrestrict] at hoff
  · intro hcurrent _
    subst hcurrent
    exact endingAtCap_enforceTools hsince hcounted hm hrestrict

end Keeping

theorem capping_holds {yamlLength : LLMMessage → ℕ} {cfg : AgentLoopConfig} {m : ℕ}
    {messages : List BufferMessage} {envs : List LoopEnv} {w : LLMStore}
    (hm : cfg.restrictionMaxInjections = m) (hpos : 0 < m)
    (hfolds : Along (prepareLoop yamlLength cfg) (FoldsUncounted yamlLength cfg) envs
      (startRun messages w)) :
    (capping m w).Holds (run (prepareLoop yamlLength cfg) envs (startRun messages w)) := by
  refine Invariant.run ?_ hfolds ?_ ?_
  · intro current state w' h
    obtain ⟨events, hsince, -⟩ := h
    exact ⟨events, hsince⟩
  · intro env _ current state w' reducer hP hreducer h
    exact capping_keeps hm hpos hP hreducer h
  · exact ⟨[], Since.start w CappedBy.nil, rfl, by simp, by simp⟩

/-- In a run whose folds all happen while no restriction message has been injected, there are
never more than `m` such messages without a tool run between them. When the loop ends and
neither signal was active, there are exactly `m` since tools last ran. -/
theorem restriction_capped (yamlLength : LLMMessage → ℕ) (r : AgentRun) (w : LLMStore)
    (hrestrict : r.cfg.restrictOutput = true) (hpos : 0 < r.cfg.restrictionMaxInjections)
    (hfolds : Along (prepareLoop yamlLength r.cfg) (FoldsUncounted yamlLength r.cfg) r.envs
      (startRun r.messages w)) :
    ∃ events, (r.loop yamlLength w).world.journal = events ++ w.journal ∧
      CappedBy r.cfg.restrictionMaxInjections events ∧
      ∀ envs env state, r.envs = envs ++ [env] →
        (run (prepareLoop yamlLength r.cfg) envs (startRun r.messages w)).status.IsRunning →
          (r.loop yamlLength w).status = .done state → env.terminateRoute = false →
            env.finish = false → restrictedSince events = r.cfg.restrictionMaxInjections := by
  have hholds : (capping r.cfg.restrictionMaxInjections w).Holds (r.loop yamlLength w) :=
    capping_holds rfl hpos hfolds
  obtain ⟨events, hsince⟩ : ∃ events, Since (CappedBy r.cfg.restrictionMaxInjections) w
      (r.loop yamlLength w).world events := by
    refine hholds.world ?_ (fun _ _ h => h) fun _ h => h
    intro current state w' h
    obtain ⟨events, hsince, -⟩ := h
    exact ⟨events, hsince⟩
  refine ⟨events, hsince.journal, hsince.holds, ?_⟩
  intro envs env state henvs hrunning hdone hroute hfinish
  rw [henvs] at hfolds
  have hbefore := capping_holds rfl hpos hfolds.concat.1
  have hlast : r.loop yamlLength w = step (prepareLoop yamlLength r.cfg) env
      (run (prepareLoop yamlLength r.cfg) envs (startRun r.messages w)) := by
    unfold AgentRun.loop
    rw [henvs, run_concat]
  obtain ⟨current, state', hstatus⟩ := hrunning
  cases hmachine : run (prepareLoop yamlLength r.cfg) envs (startRun r.messages w) with
  | mk status w' =>
    rw [hmachine] at hstatus hbefore hlast
    subst hstatus
    have hend : (endingAtCap env r.cfg.restrictionMaxInjections w).Holds
        (r.loop yamlLength w) := by
      cases hreducer : prepareLoop yamlLength r.cfg current with
      | none =>
        rw [hlast]
        unfold step
        dsimp only
        rw [hreducer]
        trivial
      | some reducer =>
        rw [hlast, step_running hreducer]
        exact Invariant.holds_turn (fun _ _ _ _ => trivial)
          (endingAtCap_keeps rfl hrestrict hreducer hbefore)
    unfold Invariant.Holds at hend
    rw [hdone] at hend
    rcases hend with h | h | h
    · simp [hroute] at h
    · simp [hfinish] at h
    · obtain ⟨events', hjournal, hcount⟩ := h
      rw [hsince.journal] at hjournal
      rw [List.append_cancel_right hjournal]
      exact hcount

/-- A run whose model never calls a tool, with at most one restriction message. -/
def chattyRun (maxTokens : ℕ) : AgentRun where
  cfg := ⟨"You help.", 1, maxTokens, false, true, "", 1⟩
  messages := [.human "Hello."]
  envs := [.calm [], .calm [], .calm [.message "Hi."], .calm [], .calm [], .calm [],
    .calm [.message "Hi."], .calm [], .calm []]

theorem chattyRun_capped :
    let journal := ((chattyRun 0).loop (fun _ => 4) .empty).world.journal
    CappedBy 1 journal ∧ restrictedSince journal = 1 := by
  obtain ⟨events, hjournal, hcapped, hend⟩ :=
    restriction_capped (fun _ => 4) (chattyRun 0) .empty rfl (by decide)
      (Along.of_forall fun _ _ _ _ _ _ h => absurd rfl h.folds.1)
  have hevents : ((chattyRun 0).loop (fun _ => 4) .empty).world.journal = events := by
    rw [hjournal]
    exact List.append_nil events
  rw [hevents]
  exact ⟨hcapped, hend ((chattyRun 0).envs.dropLast) (.calm []) _ rfl ⟨_, _, rfl⟩ rfl rfl rfl⟩

/-- A fold after the first restriction message allows for a second one. -/
theorem fold_restarts_count :
    let journal := ((chattyRun 2).loop (fun _ => 4) .empty).world.journal
    restrictedSince journal = 2 ∧ ¬ CappedBy 1 journal := by
  have hcount : restrictedSince ((chattyRun 2).loop (fun _ => 4) .empty).world.journal = 2 := by
    decide
  refine ⟨hcount, ?_⟩
  intro h
  have hle := h.last
  rw [hcount] at hle
  omega

end Agyn
