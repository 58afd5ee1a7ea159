import Agyn.AgentThreads
import Agyn.InputSequences
import Agyn.LoopRules

/-!
What becomes of the messages that enter a loop. Each of them is in the working state until
the input of a model call has it, or a save, or the tail that is given to the summarizer.
When the loop ends all of them were seen so, unless it is terminated at its load, at
`summarize` or before its call while there are messages that came after the last call.
-/
namespace Agyn

open Loops

/-- The messages that were injected, the first one first, in a journal with its newest event
first. -/
def injectedMessages : List LoopEvent → List BufferMessage
  | [] => []
  | .injected messages :: earlier => injectedMessages earlier ++ messages
  | _ :: earlier => injectedMessages earlier

def LoopEvent.Shows (m : LLMMessage) : LoopEvent → Prop
  | .modelCalled input => m ∈ input
  | .saved plain => m ∈ plain.messages
  | .folded tail _ => m ∈ tail
  | _ => False

def Seen (events : List LoopEvent) (m : LLMMessage) : Prop := ∃ e ∈ events, e.Shows m

/-- Since messages entered last, nothing was sent to the agent's model or stored. -/
def hasUnseen : List LoopEvent → Bool
  | [] => true
  | .injected _ :: _ => true
  | .modelCalled _ :: _ => false
  | .saved _ :: _ => false
  | _ :: earlier => hasUnseen earlier

def Carried (messages : List BufferMessage) (events : List LoopEvent) (state : LLMState) : Prop :=
  ∀ m ∈ messages ++ injectedMessages events, Seen events m.val ∨
    hasUnseen events = true ∧ m.val ∈ state.messages

def AllSeen (messages : List BufferMessage) (events : List LoopEvent) : Prop :=
  ∀ m ∈ messages ++ injectedMessages events, Seen events m.val

def carrying (messages : List BufferMessage) (w₀ : LLMStore) :
    Invariant ReducerId LLMState LLMStore where
  inside := fun current state w => ∃ events, w.journal = events ++ w₀.journal ∧
    Carried messages events state ∧ (current ≠ .load → current ≠ .summarize →
      current ≠ .callModel → hasUnseen events = false)
  ended := fun _ w => ∃ events, w.journal = events ++ w₀.journal ∧ AllSeen messages events
  broken := fun w => ∃ events, w.journal = events ++ w₀.journal

/-- In this turn a signal to terminate ends the loop over messages that were not seen. -/
def InterruptsUnseen (w₀ : LLMStore) (env : LoopEnv) (m : AgentMachine) : Prop :=
  ∃ current state events, m.status = .running current state ∧
    m.world.journal = events ++ w₀.journal ∧ hasUnseen events = true ∧
      ((current = .load ∨ current = .summarize) ∧ env.terminateRoute = true ∨
        current = .callModel ∧ env.terminateFirst = true)

section Seeing

variable {messages : List BufferMessage} {events : List LoopEvent} {state state' : LLMState}
  {m : LLMMessage} {e : LoopEvent}

theorem Seen.cons (h : Seen events m) (e : LoopEvent) : Seen (e :: events) m := by
  obtain ⟨e', he', hshows⟩ := h
  exact ⟨e', List.mem_cons_of_mem e he', hshows⟩

theorem Seen.head (h : e.Shows m) : Seen (e :: events) m := ⟨e, List.mem_cons_self, h⟩

theorem Carried.allSeen (h : Carried messages events state) (hunseen : hasUnseen events = false) :
    AllSeen messages events := by
  intro m hm
  rcases h m hm with hseen | ⟨hcarried, -⟩
  · exact hseen
  · rw [hunseen] at hcarried
    cases hcarried

theorem AllSeen.carried (h : AllSeen messages events) : Carried messages events state :=
  fun m hm => .inl (h m hm)

theorem Carried.mono (h : Carried messages events state)
    (hmessages : ∀ m ∈ state.messages, m ∈ state'.messages) : Carried messages events state' :=
  fun m hm => (h m hm).imp id fun hcarried => ⟨hcarried.1, hmessages _ hcarried.2⟩

theorem AllSeen.cons (h : AllSeen messages events)
    (hinjected : injectedMessages (e :: events) = injectedMessages events) :
    AllSeen messages (e :: events) := by
  intro m hm
  rw [hinjected] at hm
  exact (h m hm).cons e

/-- An event that shows all messages of the state leaves nothing unseen. -/
theorem Carried.shown (h : Carried messages events state)
    (hinjected : injectedMessages (e :: events) = injectedMessages events)
    (hshows : ∀ m ∈ state.messages, e.Shows m) : AllSeen messages (e :: events) := by
  intro m hm
  rw [hinjected] at hm
  rcases h m hm with hseen | ⟨-, hcarried⟩
  · exact hseen.cons e
  · exact .head (hshows m.val hcarried)

theorem Carried.injected (h : AllSeen messages events) (drained : List BufferMessage)
    (hstate : ∀ m ∈ drained, m.val ∈ state.messages) :
    Carried messages (.injected drained :: events) state := by
  intro m hm
  rcases List.mem_append.mp hm with hm | hm
  · exact .inl ((h m (List.mem_append_left _ hm)).cons _)
  · rcases List.mem_append.mp hm with hm | hm
    · exact .inl ((h m (List.mem_append_right _ hm)).cons _)
    · exact .inr ⟨rfl, hstate m hm⟩

/-- A fold shows what it takes from the state. -/
theorem Carried.fold {yamlLength : LLMMessage → ℕ} {keepTokens : ℕ} {head tail : List LLMMessage}
    {text : String} (h : Carried messages events state)
    (hsplit : SummarizationLLMReducer.split yamlLength keepTokens state.messages = (head, tail))
    (hhead : state'.messages = head) :
    Carried messages (.folded tail text :: .summaryCalled :: events) state' := by
  have hparts : ∀ m ∈ state.messages, m ∈ head ∨ m ∈ tail := by
    intro m hm
    unfold SummarizationLLMReducer.split at hsplit
    dsimp only at hsplit
    rw [← List.take_append_drop (SummarizationLLMReducer.splitIdx yamlLength keepTokens
      state.messages) state.messages] at hm
    unfold SummarizationLLMReducer.moveOrphanToolOutputsToTail at hsplit
    cases hsplit
    rcases List.mem_append.mp hm with htake | hdrop
    · exact .inr (List.mem_append_left _ htake)
    · cases horphan : SummarizationLLMReducer.isOrphan (state.messages.drop
          (SummarizationLLMReducer.splitIdx yamlLength keepTokens state.messages)) m with
      | true => exact .inr (List.mem_append_right _ (List.mem_filter.mpr ⟨hdrop, horphan⟩))
      | false => exact .inl (List.mem_filter.mpr ⟨hdrop, by simp [horphan]⟩)
  intro m hm
  rcases h m hm with hseen | ⟨hunseen, hcarried⟩
  · exact .inl ((hseen.cons _).cons _)
  · rcases hparts m.val hcarried with hhead' | htail
    · exact .inr ⟨hunseen, by rw [hhead]; exact hhead'⟩
    · exact .inl (.head htail)

end Seeing

/-- The input of a call has the messages of its state. -/
theorem mem_callRecord_input {cfg : AgentLoopConfig} {env : LoopEnv} {state : LLMState}
    {w : LLMStore} {m : LLMMessage} (hm : m ∈ state.messages) :
    m ∈ (CallModelLLMReducer.callRecord (CallModelLLMReducer.prepare cfg env state w)).input := by
  obtain ⟨i, hi⟩ := List.getElem?_of_mem hm
  exact List.mem_map.mpr ⟨_, CallModelLLMReducer.conversation_mem_buildSequence hi, rfl⟩

section Keeping

variable {yamlLength : LLMMessage → ℕ} {cfg : AgentLoopConfig} {env : LoopEnv}
  {state : LLMState} {w w₀ : LLMStore} {messages : List BufferMessage} {events : List LoopEvent}
  {invoke : LoopEnv → LLMState → LLMStore → Result LLMStore LLMState}

/-- A turn that is not interrupted goes on, or ends the loop when all was seen. -/
theorem carrying_static {next : ReducerId} (hnext : next = .summarize ∨ next = .callModel)
    (hjournal : w.journal = events ++ w₀.journal) (hcarried : Carried messages events state)
    (hseen : env.terminateRoute = true → hasUnseen events = false) :
    (carrying messages w₀).Routed ⟨invoke, some (StaticLLMRouter.route next)⟩ env state w := by
  refine StaticLLMRouter.routed (fun hroute => ⟨events, hjournal, hcarried.allSeen (hseen hroute)⟩)
    fun _ => ⟨events, hjournal, hcarried, ?_⟩
  intro _ hsummarize hcallModel
  rcases hnext with h | h
  · exact absurd h hsummarize
  · exact absurd h hcallModel

theorem carrying_load (hjournal : w.journal = events ++ w₀.journal)
    (hcarried : Carried messages events state)
    (hseen : env.terminateRoute = true → hasUnseen events = false) :
    (carrying messages w₀).Keeps ⟨LoadLLMReducer.invoke, some (StaticLLMRouter.route .summarize)⟩
      env state w := by
  refine LoadLLMReducer.invoke_ensures (fun _ => carrying_static (.inl rfl) hjournal hcarried hseen)
    ?_
  intro persisted _ _
  refine carrying_static (.inl rfl) hjournal (hcarried.mono ?_) hseen
  exact fun m hm => List.mem_append_right _ hm

theorem carrying_summarize (hjournal : w.journal = events ++ w₀.journal)
    (hcarried : Carried messages events state)
    (hseen : env.terminateRoute = true → hasUnseen events = false) :
    (carrying messages w₀).Keeps ⟨SummarizationLLMReducer.invoke yamlLength cfg,
      some (StaticLLMRouter.route .callModel)⟩ env state w := by
  refine SummarizationLLMReducer.invoke_ensures
    (carrying_static (.inr rfl) hjournal hcarried hseen)
    (fun _ _ => ⟨.summaryCalled :: events, congrArg _ hjournal⟩) ?_
  intro text head tail context items _ hsplit _
  exact carrying_static (.inr rfl) (congrArg _ (congrArg _ hjournal)) (hcarried.fold hsplit rfl)
    hseen

theorem carrying_callModel (hjournal : w.journal = events ++ w₀.journal)
    (hcarried : Carried messages events state)
    (hseen : env.terminateFirst = true → hasUnseen events = false) :
    (carrying messages w₀).Keeps ⟨CallModelLLMReducer.invoke cfg,
      some (ConditionalLLMRouter.route afterCallModel)⟩ env state w := by
  have hinput : ∀ m ∈ state.messages, m ∈ (CallModelLLMReducer.callRecord
      (CallModelLLMReducer.prepare cfg env state w)).input := fun m hm => mem_callRecord_input hm
  obtain ⟨prepared, hprepared⟩ : ∃ p, CallModelLLMReducer.prepare cfg env state w = p := ⟨_, rfl⟩
  rw [hprepared] at hinput
  have hcalled : ((CallModelLLMReducer.recorded prepared w).note
      (.modelCalled (CallModelLLMReducer.callRecord prepared).input)).journal =
        (.modelCalled (CallModelLLMReducer.callRecord prepared).input :: events) ++ w₀.journal :=
    congrArg _ hjournal
  have hshown : AllSeen messages
      (.modelCalled (CallModelLLMReducer.callRecord prepared).input :: events) :=
    hcarried.shown rfl hinput
  refine CallModelLLMReducer.invoke_ensures hprepared ⟨events, hjournal⟩ ⟨events, hjournal⟩ ?_
    (fun _ => ⟨_, hcalled⟩)
    (fun _ hroute => ConditionalLLMRouter.routed_stopped hroute ⟨_, hcalled, hshown⟩) ?_
  · intro hfirst hroute
    exact ConditionalLLMRouter.routed_stopped hroute
      ⟨events, hjournal, hcarried.allSeen (hseen hfirst)⟩
  · intro reply output _ _ _ called
    have hreplied : ((called.createItems [.response output]).note (.replied output)).journal =
        (.replied output :: .modelCalled (CallModelLLMReducer.callRecord prepared).input ::
          events) ++ w₀.journal := congrArg _ hcalled
    have hall : AllSeen messages (.replied output ::
        .modelCalled (CallModelLLMReducer.callRecord prepared).input :: events) := hshown.cons rfl
    exact afterCallModel_routed rfl (fun _ => ⟨_, hreplied, hall⟩)
      (fun _ => ⟨_, hreplied, hall.carried, fun _ _ _ => rfl⟩)
      fun _ => ⟨_, hreplied, hall.carried, fun _ _ _ => rfl⟩

theorem carrying_callTools (hjournal : w.journal = events ++ w₀.journal)
    (hcarried : Carried messages events state) (hunseen : hasUnseen events = false) :
    (carrying messages w₀).Keeps
      ⟨CallToolsLLMReducer.invoke, some (StaticLLMRouter.route .toolsSave)⟩ env state w := by
  have hran : (w.note (.toolsRun (CallToolsLLMReducer.filterToolCalls state.messages))).journal =
      (.toolsRun (CallToolsLLMReducer.filterToolCalls state.messages) :: events) ++ w₀.journal :=
    congrArg _ hjournal
  have hall : AllSeen messages
      (.toolsRun (CallToolsLLMReducer.filterToolCalls state.messages) :: events) :=
    (hcarried.allSeen hunseen).cons rfl
  refine CallToolsLLMReducer.invoke_ensures ⟨events, hjournal⟩
    (fun hroute => StaticLLMRouter.routed_stopped hroute
      ⟨events, hjournal, hcarried.allSeen hunseen⟩)
    (fun _ => ⟨_, hran⟩)
    (fun _ hroute => StaticLLMRouter.routed_stopped hroute ⟨_, hran, hall⟩) ?_
  intro _ results
  exact StaticLLMRouter.routed (fun _ => ⟨_, hran, hall⟩)
    fun _ => ⟨_, hran, hall.carried, fun _ _ _ => hunseen⟩

/-- A save shows all messages of the state. -/
theorem Carried.save (hcarried : Carried messages events state) (plain : PlainLLMState)
    (hplain : plain.messages = state.messages) : AllSeen messages (.saved plain :: events) := by
  refine hcarried.shown rfl ?_
  intro m hm
  change m ∈ plain.messages
  rw [hplain]
  exact hm

theorem carrying_toolsSave (hjournal : w.journal = events ++ w₀.journal)
    (hcarried : Carried messages events state) :
    (carrying messages w₀).Keeps ⟨SaveLLMReducer.invoke, some (AfterToolsRouter.route cfg)⟩ env
      state w := by
  refine SaveLLMReducer.invoke_ensures ⟨events, hjournal⟩ ?_
  intro _ plain
  have hsaved : (w.save plain).journal = (.saved plain :: events) ++ w₀.journal :=
    congrArg _ hjournal
  have hall : AllSeen messages (.saved plain :: events) := hcarried.save plain rfl
  have hinjected : ((w.save plain).note (.injected env.drained)).journal =
      (.injected env.drained :: .saved plain :: events) ++ w₀.journal := congrArg _ hsaved
  refine AfterToolsRouter.routed (fun _ => ⟨_, hsaved, hall⟩) ⟨_, hsaved⟩
    ⟨_, hsaved, hall.carried, fun _ h => absurd rfl h⟩ ?_
  intro _ _
  refine ⟨_, hinjected, Carried.injected hall env.drained ?_, fun _ h => absurd rfl h⟩
  exact fun m hm => List.mem_append_right _ (List.mem_map_of_mem hm)

theorem carrying_save (hjournal : w.journal = events ++ w₀.journal)
    (hcarried : Carried messages events state) :
    (carrying messages w₀).Keeps ⟨SaveLLMReducer.invoke,
      some (ConditionalLLMRouter.route (afterSave cfg))⟩ env state w := by
  refine SaveLLMReducer.invoke_ensures ⟨events, hjournal⟩ ?_
  intro _ plain
  have hsaved : (w.save plain).journal = (.saved plain :: events) ++ w₀.journal :=
    congrArg _ hjournal
  have hall : AllSeen messages (.saved plain :: events) := hcarried.save plain rfl
  exact afterSave_routed (fun _ => ⟨_, hsaved, hall⟩)
    fun _ => ⟨_, hsaved, hall.carried, fun _ _ _ => rfl⟩

theorem carrying_enforceTools (hjournal : w.journal = events ++ w₀.journal)
    (hcarried : Carried messages events state) (hunseen : hasUnseen events = false) :
    (carrying messages w₀).Keeps ⟨fun _ => EnforceToolsLLMReducer.invoke cfg,
      some (ConditionalLLMRouter.route afterEnforceTools)⟩ env state w := by
  have hall := hcarried.allSeen hunseen
  refine EnforceToolsLLMReducer.invoke_ensures ?_ ?_
  · intro _
    exact afterEnforceTools_routed (fun _ => ⟨events, hjournal, hall⟩)
      fun _ => ⟨events, hjournal, hall.carried, fun _ _ _ => hunseen⟩
  · intro _ _
    have hrestricted : (w.note .restricted).journal = (.restricted :: events) ++ w₀.journal :=
      congrArg _ hjournal
    have hall' : AllSeen messages (.restricted :: events) := hall.cons rfl
    exact afterEnforceTools_routed (fun _ => ⟨_, hrestricted, hall'⟩)
      fun _ => ⟨_, hrestricted, hall'.carried, fun _ _ _ => hunseen⟩

theorem carrying_keeps {current : ReducerId}
    {reducer : Reducer ReducerId LLMState LLMStore LoopEnv}
    (hinterrupts : ¬ InterruptsUnseen w₀ env ⟨.running current state, w⟩)
    (hreducer : prepareLoop yamlLength cfg current = some reducer)
    (h : (carrying messages w₀).inside current state w) :
    (carrying messages w₀).Keeps reducer env state w := by
  obtain ⟨events, hjournal, hcarried, hunseen⟩ := h
  have hstatic : current = .load ∨ current = .summarize → env.terminateRoute = true →
      hasUnseen events = false := by
    intro hcurrent hroute
    by_contra hne
    exact hinterrupts ⟨current, state, events, rfl, hjournal, by simpa using hne,
      .inl ⟨hcurrent, hroute⟩⟩
  have hcall : current = .callModel → env.terminateFirst = true → hasUnseen events = false := by
    intro hcurrent hfirst
    by_contra hne
    exact hinterrupts ⟨current, state, events, rfl, hjournal, by simpa using hne,
      .inr ⟨hcurrent, hfirst⟩⟩
  refine prepareLoop_keeps (fun h => carrying_load hjournal hcarried (hstatic (.inl h)))
    (fun h => carrying_summarize hjournal hcarried (hstatic (.inr h)))
    (fun h => carrying_callModel hjournal hcarried (hcall h)) ?_
    (fun _ => carrying_toolsSave hjournal hcarried) (fun _ => carrying_save hjournal hcarried)
    ?_ hreducer
  · intro hcurrent
    subst hcurrent
    exact carrying_callTools hjournal hcarried (hunseen (by decide) (by decide) (by decide))
  · intro hcurrent _
    subst hcurrent
    exact carrying_enforceTools hjournal hcarried (hunseen (by decide) (by decide) (by decide))

/-- A turn keeps track of the messages that entered. -/
theorem carrying_step {m : AgentMachine} (hinterrupts : ¬ InterruptsUnseen w₀ env m)
    (h : (carrying messages w₀).Holds m) :
    (carrying messages w₀).Holds (step (prepareLoop yamlLength cfg) env m) := by
  refine Invariant.step ?_ ?_ h
  · intro current state' w' hinside
    obtain ⟨events, hjournal, -⟩ := hinside
    exact ⟨events, hjournal⟩
  · intro current state' reducer hstatus hreducer hinside
    obtain ⟨status, w'⟩ := m
    subst hstatus
    exact carrying_keeps hinterrupts hreducer hinside

end Keeping

end Agyn
