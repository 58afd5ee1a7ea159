import Agyn.MessagesSeen

/-!
Which turns inject messages. A turn that was handed no drained messages injects none, and
one that drains the queue and does not fail injects what it drained behind its save.
-/
namespace Agyn

open Loops

section Injections

variable {yamlLength : LLMMessage → ℕ} {cfg : AgentLoopConfig} {env : LoopEnv}
  {state : LLMState} {w w' w'' : LLMStore} {e : LoopEvent}

theorem injectedMessages_append (events earlier : List LoopEvent) :
    injectedMessages (events ++ earlier) = injectedMessages earlier ++ injectedMessages events := by
  induction events with
  | nil => simp [injectedMessages]
  | cons e events ih => cases e <;> simp [injectedMessages, ih]

def Uninjected (w w' : LLMStore) : Prop :=
  ∃ events, w'.journal = events ++ w.journal ∧ injectedMessages events = []

theorem Uninjected.of_journal_eq (h : w'.journal = w.journal) : Uninjected w w' :=
  ⟨[], by rw [h, List.nil_append], rfl⟩

theorem Uninjected.note (h : Uninjected w w') (he : injectedMessages [e] = [])
    (hjournal : w''.journal = e :: w'.journal) : Uninjected w w'' := by
  obtain ⟨events, hevents, hnone⟩ := h
  refine ⟨[e] ++ events, by rw [hjournal, hevents]; rfl, ?_⟩
  rw [injectedMessages_append, hnone, he, List.nil_append]

def uninjected (w : LLMStore) : Invariant ReducerId LLMState LLMStore where
  inside := fun _ _ => Uninjected w
  ended := fun _ => Uninjected w
  broken := Uninjected w

/-- A turn that drains nothing injects nothing. -/
theorem uninjected_keeps {current : ReducerId}
    {reducer : Reducer ReducerId LLMState LLMStore LoopEnv} (hdrained : env.drained = [])
    (hreducer : prepareLoop yamlLength cfg current = some reducer) :
    (uninjected w).Keeps reducer env state w := by
  have hself : Uninjected w w := .of_journal_eq rfl
  refine prepareLoop_keeps ?_ ?_ ?_ ?_ ?_ ?_ ?_ hreducer
  · intro _
    exact LoadLLMReducer.invoke_ensures
      (fun _ => StaticLLMRouter.routed (fun _ => hself) fun _ => hself)
      fun _ _ _ => StaticLLMRouter.routed (fun _ => hself) fun _ => hself
  · intro _
    have hcalled : Uninjected w (w.note .summaryCalled) := hself.note rfl rfl
    refine SummarizationLLMReducer.invoke_ensures
      (StaticLLMRouter.routed (fun _ => hself) fun _ => hself) (fun _ _ => hcalled) ?_
    intro text head tail context items _ _ _
    have hfolded : Uninjected w (({ w.note .summaryCalled with items := items } : LLMStore).note
        (.folded tail (trim text))) := hcalled.note rfl rfl
    exact StaticLLMRouter.routed (fun _ => hfolded) fun _ => hfolded
  · intro _
    obtain ⟨prepared, hprepared⟩ : ∃ p, CallModelLLMReducer.prepare cfg env state w = p := ⟨_, rfl⟩
    have hrecorded : Uninjected w (CallModelLLMReducer.recorded prepared w) := .of_journal_eq rfl
    have hcalled : Uninjected w ((CallModelLLMReducer.recorded prepared w).note
        (.modelCalled (CallModelLLMReducer.callRecord prepared).input)) :=
      hrecorded.note rfl rfl
    refine CallModelLLMReducer.invoke_ensures hprepared hself hrecorded
      (fun _ hroute => ConditionalLLMRouter.routed_stopped hroute hrecorded) (fun _ => hcalled)
      (fun _ hroute => ConditionalLLMRouter.routed_stopped hroute hcalled) ?_
    intro reply output _ _ _ called
    have hreplied : Uninjected w ((called.createItems [.response output]).note
        (.replied output)) := hcalled.note rfl rfl
    exact afterCallModel_routed rfl (fun _ => hreplied) (fun _ => hreplied) fun _ => hreplied
  · intro _
    have hran : Uninjected w
        (w.note (.toolsRun (CallToolsLLMReducer.filterToolCalls state.messages))) :=
      hself.note rfl rfl
    refine CallToolsLLMReducer.invoke_ensures hself
      (fun hroute => StaticLLMRouter.routed_stopped hroute hself) (fun _ => hran)
      (fun _ hroute => StaticLLMRouter.routed_stopped hroute hran) ?_
    intro _ results
    exact StaticLLMRouter.routed (fun _ => hran) fun _ => hran
  · intro _
    refine SaveLLMReducer.invoke_ensures hself ?_
    intro _ plain
    have hsaved : Uninjected w (w.save plain) := hself.note rfl rfl
    exact AfterToolsRouter.routed (fun _ => hsaved) hsaved hsaved
      fun _ hne => absurd hdrained hne
  · intro _
    refine SaveLLMReducer.invoke_ensures hself ?_
    intro _ plain
    have hsaved : Uninjected w (w.save plain) := hself.note rfl rfl
    exact afterSave_routed (fun _ => hsaved) fun _ => hsaved
  · intro _ _
    have hrestricted : Uninjected w (w.note .restricted) := hself.note rfl rfl
    exact EnforceToolsLLMReducer.invoke_ensures
      (fun _ => afterEnforceTools_routed (fun _ => hself) fun _ => hself)
      fun _ _ => afterEnforceTools_routed (fun _ => hrestricted) fun _ => hrestricted

theorem step_uninjected (hdrained : env.drained = []) (m : AgentMachine) :
    Uninjected m.world (step (prepareLoop yamlLength cfg) env m).world := by
  have hholds : (uninjected m.world).Holds (step (prepareLoop yamlLength cfg) env m) := by
    obtain ⟨status, world⟩ := m
    cases status with
    | done state => exact Uninjected.of_journal_eq rfl
    | failed message => exact Uninjected.of_journal_eq rfl
    | running current state =>
      cases hreducer : prepareLoop yamlLength cfg current with
      | none =>
        unfold step
        dsimp only
        rw [hreducer]
        exact Uninjected.of_journal_eq rfl
      | some reducer =>
        rw [step_running hreducer]
        exact Invariant.holds_turn (fun _ _ _ h => h) (uninjected_keeps hdrained hreducer)
  exact hholds.world (fun _ _ _ h => h) (fun _ _ h => h) fun _ h => h

/-- A turn that drains messages and does not fail injects them behind its save. -/
theorem step_injected {m : AgentMachine} (hdrains : drainsIn cfg env m = true)
    (hdrained : env.drained ≠ []) (hlate : env.lateFault = none) :
    ∃ plain, (step (prepareLoop yamlLength cfg) env m).world.journal =
      .injected env.drained :: .saved plain :: m.world.journal := by
  obtain ⟨status, world⟩ := m
  cases status with
  | done state => cases hdrains
  | failed message => cases hdrains
  | running current state =>
    cases current with
    | toolsSave =>
      simp only [drainsIn, Bool.and_eq_true, Bool.not_eq_true', Option.isNone_iff_eq_none]
        at hdrains
      obtain ⟨⟨⟨hinject, hfinish⟩, hfault⟩, hai⟩ := hdrains
      refine ⟨⟨state.messages, state.summary, state.context⟩, ?_⟩
      have hsave : SaveLLMReducer.invoke env state world =
          (.ok state, world.save ⟨state.messages, state.summary, state.context⟩) := by
        simp [SaveLLMReducer.invoke, SaveLLMReducer.serializeState, hai, hfault]
      have hroute : AfterToolsRouter.route cfg env state
          (world.save ⟨state.messages, state.summary, state.context⟩) =
            (.ok ({ state with messages := state.messages ++ env.drained.map Subtype.val },
              some .summarize), (world.save ⟨state.messages, state.summary,
                state.context⟩).note (.injected env.drained)) := by
        simp [AfterToolsRouter.route, injectBufferedMessages, hfinish, hinject, hdrained, hlate]
      have hturn := @step_running _ _ _ _ (prepareLoop yamlLength cfg) env .toolsSave state world _
        rfl
      rw [hturn]
      unfold turn
      dsimp only
      rw [hsave]
      dsimp only
      rw [hroute]
      rfl
    | load => cases hdrains
    | summarize => cases hdrains
    | callModel => cases hdrains
    | callTools => cases hdrains
    | save => cases hdrains
    | enforceTools => cases hdrains

end Injections

end Agyn
