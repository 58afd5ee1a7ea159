import Agyn.AgentLoop

/-!
For each reducer of the loop one rule that lists what its turn can do, for each router one
that lists where it leads, and one for the loop that is made of them. Proofs about the loop
use these rules and never unfold a reducer.
-/
namespace Agyn

open Loops

/-- The journal since the store `w₀`, and what holds of it. -/
structure Since (Q : List LoopEvent → Prop) (w₀ w : LLMStore) (events : List LoopEvent) : Prop where
  journal : w.journal = events ++ w₀.journal
  holds : Q events

section Since

variable {Q : List LoopEvent → Prop} {w₀ w w' : LLMStore} {events : List LoopEvent}

theorem Since.start (w : LLMStore) (h : Q []) : Since Q w w [] := ⟨rfl, h⟩

theorem Since.of_eq (h : Since Q w₀ w events) (hjournal : w'.journal = w.journal) :
    Since Q w₀ w' events := ⟨by rw [hjournal, h.journal], h.holds⟩

theorem Since.note {e : LoopEvent} (h : Since Q w₀ w events) (he : Q (e :: events)) :
    Since Q w₀ (w.note e) (e :: events) := ⟨by simp [LLMStore.note, h.journal], he⟩

theorem Since.save {plain : PlainLLMState} (h : Since Q w₀ w events)
    (he : Q (.saved plain :: events)) : Since Q w₀ (w.save plain) (.saved plain :: events) :=
  ⟨by simp [LLMStore.save, LLMStore.note, h.journal], he⟩

end Since

section ReducerRules

variable {yamlLength : LLMMessage → ℕ} {cfg : AgentLoopConfig} {env : LoopEnv}
  {state : LLMState} {w : LLMStore} {good : LLMState → LLMStore → Prop} {bad : LLMStore → Prop}

theorem LoadLLMReducer.invoke_ensures
    (hown : env.fault ≠ none ∨ w.stored = none → good state w)
    (hmerged : ∀ persisted, env.fault = none → w.stored = some persisted →
      good (merged persisted state) w) :
    Ensures good bad (LoadLLMReducer.invoke env state w) := by
  unfold LoadLLMReducer.invoke
  cases hfault : env.fault with
  | some e => exact hown (.inl (by simp [hfault]))
  | none =>
    cases hstored : w.stored with
    | none => exact hown (.inr hstored)
    | some persisted => exact hmerged persisted hfault hstored

namespace SummarizationLLMReducer

def Folds (yamlLength : LLMMessage → ℕ) (cfg : AgentLoopConfig) (state : LLMState) : Prop :=
  cfg.maxTokens ≠ 0 ∧ shouldSummarize yamlLength cfg state = true ∧
    (split yamlLength cfg.keepTokens state.messages).2 ≠ []

/-- In this turn the tail is taken into the summary. -/
structure FoldsIn (yamlLength : LLMMessage → ℕ) (cfg : AgentLoopConfig) (env : LoopEnv)
    (state : LLMState) (text : String) : Prop where
  folds : Folds yamlLength cfg state
  first : env.terminateFirst = false
  second : env.terminateSecond = false
  reply : env.summaryReply = .ok text
  recorded : env.lateFault = none

theorem split_of_tail_nil {keepTokens : ℕ} {messages : List LLMMessage}
    (h : (split yamlLength keepTokens messages).2 = []) :
    (split yamlLength keepTokens messages).1 = messages := by
  unfold split moveOrphanToolOutputsToTail at h ⊢
  dsimp only at h ⊢
  obtain ⟨htake, horphans⟩ := List.append_eq_nil_iff.mp h
  have hdrop : messages.drop (splitIdx yamlLength keepTokens messages) = messages := by
    conv_rhs => rw [← List.take_append_drop (splitIdx yamlLength keepTokens messages) messages]
    rw [htake, List.nil_append]
  rw [hdrop] at horphans ⊢
  rw [List.filter_eq_nil_iff] at horphans
  refine List.filter_eq_self.mpr ?_
  intro m hm
  simpa using horphans m hm

theorem invoke_ensures (hsame : good state w)
    (hfail : env.terminateFirst = false → Folds yamlLength cfg state →
      bad (w.note .summaryCalled))
    (hfold : ∀ text head tail context items, FoldsIn yamlLength cfg env state text →
      split yamlLength cfg.keepTokens state.messages = (head, tail) →
      foldContext state.context tail.length (trim text) w.items = (context, items) →
      good (foldedState head (trim text) context)
        (({ w.note .summaryCalled with items := items } : LLMStore).note
          (.folded tail (trim text)))) :
    Ensures good bad (SummarizationLLMReducer.invoke yamlLength cfg env state w) := by
  unfold SummarizationLLMReducer.invoke
  by_cases hmax : cfg.maxTokens = 0
  · simpa [hmax] using hsame
  cases hfirst : env.terminateFirst with
  | true => simpa [hmax] using hsame
  | false =>
    cases hshould : shouldSummarize yamlLength cfg state with
    | false => simpa [hmax] using hsame
    | true =>
      simp only [hmax, ↓reduceIte, Bool.false_eq_true, Bool.not_true]
      unfold summarize
      cases hsecond : env.terminateSecond with
      | true => simpa using hsame
      | false =>
        by_cases hnil : state.messages = []
        · simpa [hnil] using hsame
        simp only [hnil, Bool.false_eq_true, ↓reduceIte]
        by_cases htail : (split yamlLength cfg.keepTokens state.messages).2 = []
        · rw [if_pos htail, split_of_tail_nil htail]
          exact hsame
        · rw [if_neg htail]
          have hfolds : Folds yamlLength cfg state := ⟨hmax, hshould, htail⟩
          cases hparts : split yamlLength cfg.keepTokens state.messages with
          | mk head tail =>
            cases hreply : env.summaryReply with
            | error e => exact hfail hfirst hfolds
            | ok text =>
              cases hlate : env.lateFault with
              | some e => exact hfail hfirst hfolds
              | none =>
                have hitems : (w.note .summaryCalled).items = w.items := rfl
                dsimp only
                rw [hitems]
                cases hcontext : foldContext state.context tail.length (trim text) w.items with
                | mk context items =>
                  exact hfold text head tail context items
                    ⟨hfolds, hfirst, hsecond, hreply, hlate⟩ hparts hcontext

end SummarizationLLMReducer

namespace CallModelLLMReducer

theorem invoke_ensures {prepared : List SequenceEntry × ResolvedContext}
    (hprepared : prepare cfg env state w = prepared) (hbad : bad w)
    (hrecorded : bad (recorded prepared w))
    (hstop : env.terminateFirst = true → env.terminateRoute = true →
      good state (recorded prepared w))
    (hfail : env.terminateFirst = false →
      bad ((recorded prepared w).note (.modelCalled (callRecord prepared).input)))
    (hcancel : env.terminateFirst = false → env.terminateRoute = true →
      good state ((recorded prepared w).note (.modelCalled (callRecord prepared).input)))
    (hreply : ∀ reply output, env.terminateFirst = false → env.reply = .ok reply →
      output = reply.map ResponseItem.sanitize →
      let w' := (recorded prepared w).note (.modelCalled (callRecord prepared).input)
      good (responded state prepared.2 output w.calls.length)
        ((w'.createItems [.response output]).note (.replied output))) :
    Ensures good bad (CallModelLLMReducer.invoke cfg env state w) := by
  subst hprepared
  have hcancelled : env.terminateFirst = false → env.terminateSecond = true →
      Ensures good bad (cancelAndReturn env state
        ((recorded (prepare cfg env state w) w).note
          (.modelCalled (callRecord (prepare cfg env state w)).input))) := by
    intro hfirst hsecond
    unfold cancelAndReturn
    cases env.lateFault with
    | some e => exact hfail hfirst
    | none => exact hcancel hfirst (env.stays_route hsecond)
  unfold CallModelLLMReducer.invoke
  by_cases hprompt : cfg.systemPrompt = ""
  · simpa [hprompt] using hbad
  rw [if_neg hprompt]
  cases hfault : env.fault with
  | some e => exact hbad
  | none =>
    dsimp only
    cases hfirst : env.terminateFirst with
    | true =>
      rw [if_pos rfl]
      unfold cancelAndReturn
      cases env.lateFault with
      | some e => exact hrecorded
      | none => exact hstop hfirst (env.stays_route (env.stays_second hfirst))
    | false =>
      rw [if_neg Bool.false_ne_true]
      cases hrep : env.reply with
      | error e =>
        dsimp only
        by_cases hsecond : env.terminateSecond = true
        · rw [if_pos hsecond]
          exact hcancelled hfirst hsecond
        · rw [if_neg hsecond]
          exact hfail hfirst
      | ok reply =>
        dsimp only
        by_cases hsecond : env.terminateSecond = true
        · rw [if_pos hsecond]
          exact hcancelled hfirst hsecond
        · rw [if_neg hsecond]
          cases hlate : env.lateFault with
          | some e =>
            dsimp only
            by_cases hroute : env.terminateRoute = true
            · rw [if_pos hroute]
              exact hcancel hfirst hroute
            · rw [if_neg hroute]
              exact hfail hfirst
          | none => exact hreply reply _ hfirst hrep rfl

end CallModelLLMReducer

namespace CallToolsLLMReducer

theorem invoke_ensures (hbad : bad w)
    (hstop : env.terminateRoute = true → good state w)
    (hran : env.terminateFirst = false → bad (w.note (.toolsRun (filterToolCalls state.messages))))
    (hcancel : env.terminateFirst = false → env.terminateRoute = true →
      good state (w.note (.toolsRun (filterToolCalls state.messages))))
    (hdone : env.terminateFirst = false →
      let results := outputs env (filterToolCalls state.messages)
      good (answered state results (List.range' w.items.length results.length))
        ((w.note (.toolsRun (filterToolCalls state.messages))).createItems results)) :
    Ensures good bad (CallToolsLLMReducer.invoke env state w) := by
  unfold CallToolsLLMReducer.invoke
  cases hfirst : env.terminateFirst with
  | true => exact hstop (env.stays_route (env.stays_second hfirst))
  | false =>
    rw [if_neg Bool.false_ne_true]
    dsimp only
    by_cases hevent : filterToolCalls state.messages ≠ [] ∧ state.turnMeta.lastLLMEventId = none
    · rw [if_pos hevent]
      exact hbad
    · rw [if_neg hevent]
      cases hsecond : env.terminateSecond with
      | true => exact hcancel hfirst (env.stays_route hsecond)
      | false =>
        rw [if_neg Bool.false_ne_true]
        cases hlate : env.lateFault with
        | some e => exact hran hfirst
        | none => exact hdone hfirst

end CallToolsLLMReducer

namespace SaveLLMReducer

theorem invoke_ensures (hbad : bad w)
    (hsaved : state.messages.any LLMMessage.isAI = false →
      let plain : PlainLLMState := ⟨state.messages, state.summary, state.context⟩
      good state (w.save plain)) :
    Ensures good bad (SaveLLMReducer.invoke env state w) := by
  unfold SaveLLMReducer.invoke serializeState
  cases hai : state.messages.any LLMMessage.isAI with
  | true => exact hbad
  | false =>
    cases hfault : env.fault with
    | some e => exact hbad
    | none => exact hsaved hai

end SaveLLMReducer

namespace EnforceToolsLLMReducer

theorem invoke_ensures
    (hquiet : (cfg.restrictOutput = true → lastHasToolCall state.messages = false →
      cfg.restrictionMaxInjections > 0 ∧
        state.turnMeta.restrictionInjectionCount.getD 0 ≥ cfg.restrictionMaxInjections) →
      good (quiet state) w)
    (hrestricted : lastHasToolCall state.messages = false →
      (cfg.restrictionMaxInjections > 0 →
        state.turnMeta.restrictionInjectionCount.getD 0 < cfg.restrictionMaxInjections) →
      good (restricted cfg state) (w.note .restricted)) :
    Ensures good bad (EnforceToolsLLMReducer.invoke cfg state w) := by
  unfold EnforceToolsLLMReducer.invoke
  cases hcall : lastHasToolCall state.messages with
  | true =>
    rw [Bool.or_true, if_pos rfl]
    exact hquiet fun _ h => by simp [hcall] at h
  | false =>
    cases hrestrict : cfg.restrictOutput with
    | false => exact hquiet fun h => by simp [hrestrict] at h
    | true =>
      rw [if_neg (by simp)]
      dsimp only
      by_cases hcap : cfg.restrictionMaxInjections > 0 ∧
          state.turnMeta.restrictionInjectionCount.getD 0 ≥ cfg.restrictionMaxInjections
      · rw [if_pos hcap]
        exact hquiet fun _ _ => hcap
      · rw [if_neg hcap]
        refine hrestricted hcall ?_
        intro hmax
        by_contra hlt
        exact hcap ⟨hmax, by omega⟩

end EnforceToolsLLMReducer

end ReducerRules

section RouterRules

variable {I : Invariant ReducerId LLMState LLMStore} {cfg : AgentLoopConfig} {env : LoopEnv}
  {state : LLMState} {w : LLMStore}
  {invoke : LoopEnv → LLMState → LLMStore → Result LLMStore LLMState}

theorem StaticLLMRouter.routed {next : ReducerId}
    (hstop : env.terminateRoute = true → I.ended state w)
    (hgo : env.terminateRoute = false → I.inside next state w) :
    I.Routed ⟨invoke, some (StaticLLMRouter.route next)⟩ env state w := by
  change I.Next (state, if env.terminateRoute then none else some next) w
  cases hroute : env.terminateRoute with
  | true => exact hstop hroute
  | false => exact hgo hroute

theorem ConditionalLLMRouter.routed {next : LLMState → Option ReducerId}
    (hstop : env.terminateRoute = true → I.ended state w)
    (hnone : env.terminateRoute = false → next state = none → I.ended state w)
    (hgo : ∀ id, env.terminateRoute = false → next state = some id → I.inside id state w) :
    I.Routed ⟨invoke, some (ConditionalLLMRouter.route next)⟩ env state w := by
  change I.Next (state, if env.terminateRoute then none else next state) w
  cases hroute : env.terminateRoute with
  | true => exact hstop hroute
  | false =>
    rw [if_neg Bool.false_ne_true]
    unfold Invariant.Next
    cases hnext : next state with
    | none => exact hnone hroute hnext
    | some id => exact hgo id hroute hnext

theorem ConditionalLLMRouter.routed_stopped {next : LLMState → Option ReducerId}
    (hroute : env.terminateRoute = true) (hstop : I.ended state w) :
    I.Routed ⟨invoke, some (ConditionalLLMRouter.route next)⟩ env state w :=
  ConditionalLLMRouter.routed (fun _ => hstop) (fun h => by simp [hroute] at h)
    fun _ h => by simp [hroute] at h

theorem StaticLLMRouter.routed_stopped {next : ReducerId} (hroute : env.terminateRoute = true)
    (hstop : I.ended state w) :
    I.Routed ⟨invoke, some (StaticLLMRouter.route next)⟩ env state w :=
  StaticLLMRouter.routed (fun _ => hstop) fun h => by simp [hroute] at h

theorem filterToolCalls_concat (messages : List LLMMessage) (m : LLMMessage) :
    CallToolsLLMReducer.filterToolCalls (messages ++ [m]) = m.toolCalls := by
  simp [CallToolsLLMReducer.filterToolCalls]

/-- After a response the loop goes on with its calls, or to `save` when it has none. -/
theorem afterCallModel_routed {front : List LLMMessage} {m : LLMMessage}
    (hmessages : state.messages = front ++ [m])
    (hstop : env.terminateRoute = true → I.ended state w)
    (hcalls : m.toolCalls ≠ [] → I.inside .callTools state w)
    (hnone : m.toolCalls = [] → I.inside .save state w) :
    I.Routed ⟨invoke, some (ConditionalLLMRouter.route afterCallModel)⟩ env state w := by
  have hnext : afterCallModel state =
      if m.toolCalls ≠ [] then some .callTools else some .save := by
    unfold afterCallModel
    rw [hmessages, filterToolCalls_concat]
  by_cases hne : m.toolCalls = []
  · rw [if_neg (by simpa using hne)] at hnext
    refine ConditionalLLMRouter.routed hstop (fun _ h => by simp [hnext] at h) ?_
    intro id _ hid
    rw [hnext] at hid
    cases hid
    exact hnone hne
  · rw [if_pos hne] at hnext
    refine ConditionalLLMRouter.routed hstop (fun _ h => by simp [hnext] at h) ?_
    intro id _ hid
    rw [hnext] at hid
    cases hid
    exact hcalls hne

theorem afterSave_routed
    (hended : env.terminateRoute = true ∨ cfg.restrictOutput = false → I.ended state w)
    (hgo : cfg.restrictOutput = true → I.inside .enforceTools state w) :
    I.Routed ⟨invoke, some (ConditionalLLMRouter.route (afterSave cfg))⟩ env state w := by
  refine ConditionalLLMRouter.routed (fun h => hended (.inl h)) ?_ ?_
  · intro _ hnone
    refine hended (.inr ?_)
    by_contra hrestrict
    simp [afterSave, hrestrict] at hnone
  · intro id _ hid
    cases hrestrict : cfg.restrictOutput with
    | false => simp [afterSave, hrestrict] at hid
    | true =>
      rw [afterSave, hrestrict, if_pos rfl] at hid
      cases hid
      exact hgo hrestrict

theorem afterEnforceTools_routed
    (hended : env.terminateRoute = true ∨ afterEnforceTools state = none → I.ended state w)
    (hagain : state.turnMeta.restrictionInjected = some true → I.inside .summarize state w) :
    I.Routed ⟨invoke, some (ConditionalLLMRouter.route afterEnforceTools)⟩ env state w := by
  refine ConditionalLLMRouter.routed (fun h => hended (.inl h)) (fun _ h => hended (.inr h)) ?_
  intro id _ hid
  unfold afterEnforceTools at hid
  by_cases hinjected : state.turnMeta.restrictionInjected = some true ∧
      state.turnMeta.restrictionInjectionCount.getD 0 ≥ 1
  · rw [if_pos hinjected] at hid
    cases hid
    exact hagain hinjected.1
  · rw [if_neg hinjected] at hid
    cases hid

theorem AfterToolsRouter.routed (hfinish : env.finish = true → I.ended state w)
    (hbad : I.broken w) (hgo : I.inside .summarize state w)
    (hinjected : cfg.injectAfterTools = true → env.drained ≠ [] →
      I.inside .summarize
        { state with messages := state.messages ++ env.drained.map Subtype.val }
        (w.note (.injected env.drained))) :
    I.Routed ⟨invoke, some (AfterToolsRouter.route cfg)⟩ env state w := by
  change Ensures I.Next I.broken (AfterToolsRouter.route cfg env state w)
  unfold AfterToolsRouter.route
  cases hfin : env.finish with
  | true => exact hfinish hfin
  | false =>
    rw [if_neg Bool.false_ne_true]
    cases hinject : cfg.injectAfterTools with
    | false => exact hgo
    | true =>
      rw [if_pos rfl]
      unfold injectBufferedMessages
      by_cases hdrained : env.drained = []
      · rw [if_pos hdrained]
        exact hgo
      · rw [if_neg hdrained]
        cases env.lateFault with
        | some e => exact hbad
        | none => exact hinjected hinject hdrained

/-- The reducers of the loop, one by one. -/
theorem prepareLoop_keeps {yamlLength : LLMMessage → ℕ} {current : ReducerId}
    {reducer : Reducer ReducerId LLMState LLMStore LoopEnv}
    (hload : current = .load →
      I.Keeps ⟨LoadLLMReducer.invoke, some (StaticLLMRouter.route .summarize)⟩ env state w)
    (hsummarize : current = .summarize →
      I.Keeps ⟨SummarizationLLMReducer.invoke yamlLength cfg,
        some (StaticLLMRouter.route .callModel)⟩ env state w)
    (hcallModel : current = .callModel →
      I.Keeps ⟨CallModelLLMReducer.invoke cfg,
        some (ConditionalLLMRouter.route afterCallModel)⟩ env state w)
    (hcallTools : current = .callTools →
      I.Keeps ⟨CallToolsLLMReducer.invoke, some (StaticLLMRouter.route .toolsSave)⟩ env state w)
    (htoolsSave : current = .toolsSave →
      I.Keeps ⟨SaveLLMReducer.invoke, some (AfterToolsRouter.route cfg)⟩ env state w)
    (hsave : current = .save →
      I.Keeps ⟨SaveLLMReducer.invoke, some (ConditionalLLMRouter.route (afterSave cfg))⟩ env
        state w)
    (henforceTools : current = .enforceTools → cfg.restrictOutput = true →
      I.Keeps ⟨fun _ => EnforceToolsLLMReducer.invoke cfg,
        some (ConditionalLLMRouter.route afterEnforceTools)⟩ env state w)
    (hreducer : prepareLoop yamlLength cfg current = some reducer) :
    I.Keeps reducer env state w := by
  cases current with
  | load => cases hreducer; exact hload rfl
  | summarize => cases hreducer; exact hsummarize rfl
  | callModel => cases hreducer; exact hcallModel rfl
  | callTools => cases hreducer; exact hcallTools rfl
  | toolsSave => cases hreducer; exact htoolsSave rfl
  | save => cases hreducer; exact hsave rfl
  | enforceTools =>
    unfold prepareLoop at hreducer
    cases hrestrict : cfg.restrictOutput with
    | false =>
      rw [hrestrict] at hreducer
      cases hreducer
    | true =>
      rw [hrestrict] at hreducer
      cases hreducer
      exact henforceTools rfl hrestrict

end RouterRules

end Agyn
