import Agyn.AlignedRuns

/-!
What the items of a recorded call hold. An item of the conversation is found through ids that are in
step with the messages, and the item of a summary through its text. The items of the system prompt
and of the memory are found without a look at the text, so their calls are recorded faithfully as
long as the text is still the one that was stored. The calls of a thread are recorded faithfully
over all of its runs, as long as no call sends another system prompt or memory than the one that its
ids were created for.
-/
namespace Agyn

section Recorded

open Loops CallModelLLMReducer

def RecordedFaithfully (items : List ContextItem) (r : LLMCallRecord) : Prop :=
  List.Forall₂ (fun id e => items[id]? = some e.item) r.contextItemIds r.sequence

def SummaryKept (items : List ContextItem) (context : LLMContextState) : Prop :=
  ∀ id text, context.summary = some ⟨some id, some text⟩ →
    items[id]? = some (normalizeContextItem (contextItemInputFromSummary text))

/-- A call from this state sends what the items of its system prompt and of its memory hold,
and no null characters. -/
structure SendsStored (cfg : AgentLoopConfig) (env : LoopEnv) (state : LLMState)
    (items : List ContextItem) : Prop where
  system : ∀ id, state.context.system = some ⟨some id⟩ →
    items[id]? = some (contextItemInputFromSystem cfg.systemPrompt)
  memory : ∀ text place id, env.memory = some ⟨some text, place⟩ →
    memoryId state.context place = some id →
      items[id]? = some (contextItemInputFromMemory text place)
  clean : ∀ e ∈ buildSequence cfg.systemPrompt (summaryTextOf state) env.memory state.messages,
    e.message.sanitize = e.message

section Clean

theorem responseText_sanitize (output : List ResponseItem) :
    responseText (output.map ResponseItem.sanitize) = sanitizeString (responseText output) := by
  have htexts : (output.map ResponseItem.sanitize).filterMap ResponseItem.text? =
      (output.filterMap ResponseItem.text?).map sanitizeString := by
    induction output with
    | nil => rfl
    | cons item output ih =>
      cases item <;> simp [List.filterMap_cons, ResponseItem.sanitize, ResponseItem.text?, ih]
  unfold responseText
  rw [htexts, List.head?_map]
  cases (output.filterMap ResponseItem.text?).head? <;> rfl

/-- An item of a message without null characters is stored as it is. -/
theorem itemOf_of_clean {m : LLMMessage} (h : m.sanitize = m) :
    LLMStore.itemOf m = contextItemInputFromMessage m := by
  unfold LLMStore.itemOf normalizeContextItem
  cases m with
  | human text =>
    have htext : sanitizeString text = text := LLMMessage.human.inj h
    simp [contextItemInputFromMessage, htext]
  | system text =>
    have htext : sanitizeString text = text := LLMMessage.system.inj h
    simp [contextItemInputFromMessage, contextItemInputFromSystem, htext]
  | ai text =>
    have htext : sanitizeString text = text := LLMMessage.ai.inj h
    simp [contextItemInputFromMessage, htext]
  | response output =>
    have houtput : output.map ResponseItem.sanitize = output := LLMMessage.response.inj h
    have htext : sanitizeString (responseText output) = responseText output := by
      rw [← responseText_sanitize, houtput]
    by_cases hblank : trim (responseText output) = ""
    · simp [contextItemInputFromMessage, hblank, ContextItemJson.sanitize, LLMMessage.sanitize,
        houtput]
    · simp [contextItemInputFromMessage, hblank, ContextItemJson.sanitize, LLMMessage.sanitize,
        houtput, htext]
  | toolOutput callId output =>
    obtain ⟨hcallId, houtput⟩ := LLMMessage.toolOutput.inj h
    have hnul : hasNul output = false := by
      rw [← houtput]
      exact hasNul_sanitizeString output
    simp [contextItemInputFromMessage, hnul, ContextItemJson.sanitize, LLMMessage.sanitize,
      hcallId, houtput]

theorem normalize_item_of_clean {e : SequenceEntry} (h : e.message.sanitize = e.message) :
    normalizeContextItem e.item = e.item := by
  cases e with
  | conversation message index => exact itemOf_of_clean h
  | system text =>
    have htext : sanitizeString text = text := LLMMessage.system.inj h
    simp [normalizeContextItem, SequenceEntry.item, contextItemInputFromSystem, htext]
  | summary text =>
    have htext : sanitizeString text = text := LLMMessage.human.inj h
    simp [normalizeContextItem, SequenceEntry.item, contextItemInputFromSummary, htext]
  | memory text place =>
    have htext : sanitizeString text = text := LLMMessage.system.inj h
    simp [normalizeContextItem, SequenceEntry.item, contextItemInputFromMemory, htext]

end Clean

section Prefixes

variable {items more : List ContextItem}

theorem SummaryKept.mono {context : LLMContextState} (h : SummaryKept items context)
    (hitems : items <+: more) : SummaryKept more context :=
  fun id text hsummary => getElem?_of_initial hitems (h id text hsummary)

theorem RecordedFaithfully.mono {r : LLMCallRecord} (h : RecordedFaithfully items r)
    (hitems : items <+: more) : RecordedFaithfully more r :=
  List.Forall₂.imp (fun _ _ hitem => getElem?_of_initial hitems hitem) h

/-- A list is related to one from which it is computed, when each of its elements is. -/
theorem forall₂_of_map_some {α β : Type} {R : α → β → Prop} {f : β → Option α} {l : List α}
    {l' : List β} (h : l.map some = l'.map f) (hR : ∀ b ∈ l', ∀ a, f b = some a → R a b) :
    List.Forall₂ R l l' := by
  induction l' generalizing l with
  | nil =>
    cases l with
    | nil => exact List.Forall₂.nil
    | cons a l => cases h
  | cons b l' ih =>
    cases l with
    | nil => cases h
    | cons a l =>
      obtain ⟨hhead, htail⟩ := List.cons.inj h
      refine List.Forall₂.cons (hR b List.mem_cons_self a hhead.symm) (ih htail ?_)
      exact fun b' hb' => hR b' (List.mem_cons_of_mem b hb')

end Prefixes

section Calls

variable {unique : Prop} {cfg : AgentLoopConfig} {env : LoopEnv} {state : LLMState} {w : LLMStore}

theorem startContext_system (env : LoopEnv) (state : LLMState) :
    (startContext env state).system = state.context.system := by
  unfold startContext withSummary memoryCleared
  split <;> rfl

theorem startContext_summary {id : ℕ} {text : String}
    (h : (startContext env state).summary = some ⟨some id, some text⟩) :
    state.context.summary = some ⟨some id, some text⟩ := by
  have hcleared : (memoryCleared env.memory state.context).summary = state.context.summary := by
    unfold memoryCleared
    split <;> rfl
  unfold startContext withSummary at h
  dsimp only at h
  rw [hcleared] at h
  cases hsome : (summaryTextOf state).isSome with
  | true =>
    rw [hsome] at h
    exact h
  | false =>
    rw [hsome] at h
    cases h

theorem startContext_memory {text : String} {place : MemoryPlacement}
    (h : env.memory = some ⟨some text, place⟩) :
    (startContext env state).memory = state.context.memory := by
  unfold startContext withSummary memoryCleared
  rw [h]

/-- An item whose id is reused holds what is sent. -/
theorem SendsStored.reused (h : SendsStored cfg env state w.items)
    (haligned : Aligned unique w.items state.messages state.context.messageIds)
    (hsummary : SummaryKept w.items state.context) {e : SequenceEntry} {id : ℕ}
    (he : e ∈ (prepare cfg env state w).1)
    (hreused : reusedId (startContext env state) e = some id) :
    w.items[id]? = some e.item := by
  have hclean : normalizeContextItem e.item = e.item := normalize_item_of_clean (h.clean e he)
  rcases mem_buildSequence he with rfl | ⟨text, -, rfl⟩ | ⟨text, place, hmemory, rfl⟩ |
    ⟨message, index, hmessage, rfl⟩
  · change (startContext env state).system.bind LLMContextSystemState.id = some id at hreused
    rw [startContext_system, Option.bind_eq_some_iff] at hreused
    obtain ⟨⟨id'⟩, hsystem, hid⟩ := hreused
    cases hid
    exact h.system id hsystem
  · change ((startContext env state).summary.bind fun s =>
      if s.text = some text then s.id else none) = some id at hreused
    rw [Option.bind_eq_some_iff] at hreused
    obtain ⟨⟨id', text'⟩, hstart, hid⟩ := hreused
    by_cases htext : text' = some text
    · rw [if_pos htext] at hid
      change id' = some id at hid
      rw [htext, hid] at hstart
      rw [← hclean]
      exact hsummary id text (startContext_summary hstart)
    · rw [if_neg htext] at hid
      cases hid
  · change ((startContext env state).memory.find? fun m => m.place = place).bind
      LLMContextMemoryEntry.id = some id at hreused
    rw [startContext_memory hmemory] at hreused
    exact h.memory text place id hmemory hreused
  · rw [(entryId_conversation rfl _).2, startContext_messageIds] at hreused
    rw [← hclean]
    exact haligned.item index id message hreused hmessage

theorem SendsStored.recorded (h : SendsStored cfg env state w.items)
    (haligned : Aligned unique w.items state.messages state.context.messageIds)
    (hsummary : SummaryKept w.items state.context) :
    RecordedFaithfully (prepare cfg env state w).2.items
      (callRecord (prepare cfg env state w)) := by
  obtain ⟨newIds, hresolves⟩ := prepare_resolves cfg env state w
  refine forall₂_of_map_some hresolves.ids ?_
  intro e he id hid
  obtain ⟨id', hentry, hitem⟩ := hresolves.entry e he
  rw [hid] at hentry
  cases hentry
  rcases hitem with hreused | ⟨-, -, hitem⟩
  · exact getElem?_of_initial hresolves.items_kept (h.reused haligned hsummary he hreused)
  · rwa [normalize_item_of_clean (h.clean e he)] at hitem

/-- After a call the summary has an item with its text. -/
theorem SummaryKept.prepare (hsummary : SummaryKept w.items state.context)
    (cfg : AgentLoopConfig) (env : LoopEnv) :
    SummaryKept (prepare cfg env state w).2.items (prepare cfg env state w).2.context := by
  obtain ⟨newIds, hresolves⟩ := prepare_resolves cfg env state w
  intro id text htext
  rcases hresolves.summary id text htext with hstart | hitem
  · exact getElem?_of_initial hresolves.items_kept
      (hsummary id text (startContext_summary hstart))
  · exact hitem

end Calls

theorem SummaryKept.fold {context context' : LLMContextState} {tailLength : ℕ}
    {newSummary : String} {items items' : List ContextItem} (h : SummaryKept items context)
    (hfold : SummarizationLLMReducer.foldContext context tailLength newSummary items =
      (context', items')) : SummaryKept items' context' := by
  have hfolded := foldContext_folded hfold
  intro id text hsummary
  rcases hfolded.summary with hnone | ⟨id', hnew, hitem⟩
  · rw [hnone] at hsummary
    cases hsummary
  · rw [hnew] at hsummary
    cases hsummary
    rcases hitem with hkept | hitem
    · exact getElem?_of_initial hfolded.items_kept (h _ newSummary hkept)
    · exact hitem

end Recorded

section Runs

open Loops

def CallsSendStored (cfg : AgentLoopConfig) (env : LoopEnv) (m : AgentMachine) : Prop :=
  ∀ state, m.status = .running .callModel state → SendsStored cfg env state m.world.items

/-- The recorded calls are faithful, and the stored summary can be trusted. -/
structure Recorded (w : LLMStore) : Prop where
  stored : ∀ plain, w.stored = some plain → SummaryKept w.items plain.context
  calls : ∀ r ∈ w.calls, RecordedFaithfully w.items r

def recording : Invariant ReducerId LLMState LLMStore where
  inside := fun _ state w => Recorded w ∧ SummaryKept w.items state.context
  ended := fun _ w => Recorded w
  broken := Recorded

section Keeping

variable {unique : Prop} {yamlLength : LLMMessage → ℕ} {cfg : AgentLoopConfig} {env : LoopEnv}
  {state : LLMState} {w w' : LLMStore}
  {invoke : LoopEnv → LLMState → LLMStore → Result LLMStore LLMState}

theorem Recorded.mono (h : Recorded w) (hstored : w'.stored = w.stored)
    (hcalls : w'.calls = w.calls) (hitems : w.items <+: w'.items) : Recorded w' := by
  refine ⟨?_, ?_⟩
  · intro plain hplain
    rw [hstored] at hplain
    exact (h.stored plain hplain).mono hitems
  · intro r hr
    rw [hcalls] at hr
    exact (h.calls r hr).mono hitems

theorem Recorded.save (h : Recorded w) (hsummary : SummaryKept w.items state.context) :
    Recorded (w.save ⟨state.messages, state.summary, state.context⟩) := by
  refine ⟨?_, h.calls⟩
  intro plain hplain
  cases hplain
  exact hsummary

theorem recording_static {next : ReducerId} (h : Recorded w)
    (hsummary : SummaryKept w.items state.context) :
    recording.Routed ⟨invoke, some (StaticLLMRouter.route next)⟩ env state w :=
  StaticLLMRouter.routed (fun _ => h) fun _ => ⟨h, hsummary⟩

theorem recording_load (h : Recorded w) (hsummary : SummaryKept w.items state.context) :
    recording.Keeps ⟨LoadLLMReducer.invoke, some (StaticLLMRouter.route .summarize)⟩ env
      state w := by
  refine LoadLLMReducer.invoke_ensures (fun _ => recording_static h hsummary) ?_
  intro persisted _ hpersisted
  refine recording_static h ?_
  intro id text hmerged
  rcases Option.or_eq_some_iff.mp hmerged with hown | ⟨-, hstored⟩
  · exact hsummary id text hown
  · exact h.stored persisted hpersisted id text hstored

theorem recording_summarize (h : Recorded w) (hsummary : SummaryKept w.items state.context) :
    recording.Keeps ⟨SummarizationLLMReducer.invoke yamlLength cfg,
      some (StaticLLMRouter.route .callModel)⟩ env state w := by
  refine SummarizationLLMReducer.invoke_ensures (recording_static h hsummary)
    (fun _ _ => h.mono rfl rfl List.prefix_rfl) ?_
  intro text head tail context items _ _ hcontext
  exact recording_static (h.mono rfl rfl (foldContext_folded hcontext).items_kept)
    (hsummary.fold hcontext)

theorem recording_callModel (h : Recorded w) (hsummary : SummaryKept w.items state.context)
    (hin : InStep unique state w) (hsends : SendsStored cfg env state w.items) :
    recording.Keeps ⟨CallModelLLMReducer.invoke cfg,
      some (ConditionalLLMRouter.route afterCallModel)⟩ env state w := by
  have hcall := hsends.recorded hin.state hsummary
  have hkept := hsummary.prepare (w := w) cfg env
  obtain ⟨hitems, -⟩ := hin.state.prepare cfg env
  obtain ⟨prepared, hprepared⟩ : ∃ p, CallModelLLMReducer.prepare cfg env state w = p := ⟨_, rfl⟩
  rw [hprepared] at hcall hkept hitems
  have hrecorded : Recorded (CallModelLLMReducer.recorded prepared w) := by
    refine ⟨fun plain hplain => (h.stored plain hplain).mono hitems, ?_⟩
    intro r hr
    rcases List.mem_append.mp hr with hr | hr
    · exact (h.calls r hr).mono hitems
    · rw [List.mem_singleton.mp hr]
      exact hcall
  have hcalled : Recorded ((CallModelLLMReducer.recorded prepared w).note
      (.modelCalled (CallModelLLMReducer.callRecord prepared).input)) :=
    hrecorded.mono rfl rfl List.prefix_rfl
  refine CallModelLLMReducer.invoke_ensures hprepared h hrecorded
    (fun _ hroute => ConditionalLLMRouter.routed_stopped hroute hrecorded) (fun _ => hcalled)
    (fun _ hroute => ConditionalLLMRouter.routed_stopped hroute hcalled) ?_
  intro reply output _ _ _ called
  have hreplied : Recorded ((called.createItems [.response output]).note (.replied output)) :=
    hcalled.mono rfl rfl (List.prefix_append _ _)
  have hresponded : SummaryKept ((called.createItems [.response output]).note
      (.replied output)).items
      (CallModelLLMReducer.responded state prepared.2 output w.calls.length).context :=
    hkept.mono (List.prefix_append _ _)
  exact afterCallModel_routed rfl (fun _ => hreplied) (fun _ => ⟨hreplied, hresponded⟩)
    fun _ => ⟨hreplied, hresponded⟩

theorem recording_callTools (h : Recorded w) (hsummary : SummaryKept w.items state.context) :
    recording.Keeps
      ⟨CallToolsLLMReducer.invoke, some (StaticLLMRouter.route .toolsSave)⟩ env state w := by
  have hran : Recorded (w.note (.toolsRun (CallToolsLLMReducer.filterToolCalls
      state.messages))) := h.mono rfl rfl List.prefix_rfl
  refine CallToolsLLMReducer.invoke_ensures h
    (fun hroute => StaticLLMRouter.routed_stopped hroute h) (fun _ => hran)
    (fun _ hroute => StaticLLMRouter.routed_stopped hroute hran) ?_
  intro _ results
  exact recording_static (hran.mono rfl rfl (List.prefix_append _ _))
    (hsummary.mono (List.prefix_append _ _))

theorem recording_toolsSave (h : Recorded w) (hsummary : SummaryKept w.items state.context) :
    recording.Keeps ⟨SaveLLMReducer.invoke, some (AfterToolsRouter.route cfg)⟩ env state w := by
  refine SaveLLMReducer.invoke_ensures h ?_
  intro _ plain
  have hsaved : Recorded (w.save plain) := h.save hsummary
  exact AfterToolsRouter.routed (fun _ => hsaved) hsaved ⟨hsaved, hsummary⟩
    fun _ _ => ⟨hsaved.mono rfl rfl List.prefix_rfl, hsummary⟩

theorem recording_save (h : Recorded w) (hsummary : SummaryKept w.items state.context) :
    recording.Keeps ⟨SaveLLMReducer.invoke,
      some (ConditionalLLMRouter.route (afterSave cfg))⟩ env state w := by
  refine SaveLLMReducer.invoke_ensures h ?_
  intro _ plain
  have hsaved : Recorded (w.save plain) := h.save hsummary
  exact afterSave_routed (fun _ => hsaved) fun _ => ⟨hsaved, hsummary⟩

theorem recording_enforceTools (h : Recorded w) (hsummary : SummaryKept w.items state.context) :
    recording.Keeps ⟨fun _ => EnforceToolsLLMReducer.invoke cfg,
      some (ConditionalLLMRouter.route afterEnforceTools)⟩ env state w := by
  refine EnforceToolsLLMReducer.invoke_ensures ?_ ?_
  · intro _
    exact afterEnforceTools_routed (fun _ => h) fun _ => ⟨h, hsummary⟩
  · intro _ _
    have hrestricted : Recorded (w.note .restricted) := h.mono rfl rfl List.prefix_rfl
    exact afterEnforceTools_routed (fun _ => hrestricted) fun _ => ⟨hrestricted, hsummary⟩

theorem recording_keeps {current : ReducerId}
    {reducer : Reducer ReducerId LLMState LLMStore LoopEnv}
    (hsends : CallsSendStored cfg env ⟨.running current state, w⟩)
    (hreducer : prepareLoop yamlLength cfg current = some reducer)
    (hin : (inStep unique).inside current state w) (h : recording.inside current state w) :
    recording.Keeps reducer env state w := by
  obtain ⟨hrecorded, hsummary⟩ := h
  refine prepareLoop_keeps (fun _ => recording_load hrecorded hsummary)
    (fun _ => recording_summarize hrecorded hsummary) ?_
    (fun _ => recording_callTools hrecorded hsummary)
    (fun _ => recording_toolsSave hrecorded hsummary)
    (fun _ => recording_save hrecorded hsummary)
    (fun _ _ => recording_enforceTools hrecorded hsummary) hreducer
  intro hcurrent
  subst hcurrent
  exact recording_callModel hrecorded hsummary hin.1 (hsends state rfl)

end Keeping

theorem AgentRun.loop_recorded {yamlLength : LLMMessage → ℕ} {r : AgentRun} {w : LLMStore}
    (hstored : StoredAligned True w) (h : Recorded w)
    (halong : Along (prepareLoop yamlLength r.cfg)
      (fun env m => FoldsInStep yamlLength r.cfg env m ∧ CallsSendStored r.cfg env m) r.envs
      (startRun r.messages w)) :
    StoredAligned True (r.loop yamlLength w).world ∧ Recorded (r.loop yamlLength w).world := by
  have hholds : ((inStep True).inter recording).Holds (r.loop yamlLength w) := by
    refine Invariant.run (fun _ _ _ h => ⟨h.1.1.stored, h.2.1⟩) halong ?_ ?_
    · intro env _ current state w' reducer hP hreducer h
      exact (inStep_keeps hP.1 hreducer h.1).inter (recording_keeps hP.2 hreducer h.1 h.2)
    · refine ⟨⟨⟨hstored, Aligned.nil w.items _⟩, fun _ => rfl, by simp⟩, h, ?_⟩
      intro id text hsummary
      cases hsummary
  exact hholds.world (fun _ _ _ h => ⟨h.1.1.stored, h.2.1⟩) (fun _ _ h => ⟨h.1.stored, h.2⟩)
    fun _ h => h

/-- In a thread whose folds are in step and whose calls send what their reused items hold,
every call is recorded with one item for each message, in order, that holds what was sent. -/
theorem calls_recorded_faithfully (yamlLength : LLMMessage → ℕ) (rs : List AgentRun)
    (halong : ThreadAlong yamlLength
      (fun cfg env m => FoldsInStep yamlLength cfg env m ∧ CallsSendStored cfg env m) rs .empty) :
    ∀ r ∈ (runThread yamlLength rs .empty).calls,
      RecordedFaithfully (runThread yamlLength rs .empty).items r := by
  have hthread : StoredAligned True (runThread yamlLength rs .empty) ∧
      Recorded (runThread yamlLength rs .empty) := by
    refine halong.preserves (J := fun w => StoredAligned True w ∧ Recorded w) ?_ ?_
    · refine ⟨?_, ?_, ?_⟩
      · intro plain hplain
        cases hplain
      · intro plain hplain
        cases hplain
      · intro r hr
        cases hr
    · intro r w hrun h
      exact AgentRun.loop_recorded h.1 h.2 hrun
  exact hthread.2.calls

def promptedRuns (prompts : List String) : List AgentRun :=
  prompts.map fun prompt => ⟨{ AgentLoopConfig.basic with systemPrompt := prompt },
    [.human "Hello."], [.calm [], .calm [], .calm [.message "Hi."], .calm []]⟩

theorem same_prompt_recorded :
    (runThread (fun _ => 4) (promptedRuns ["You help.", "You help."]) .empty).calls.length = 2 ∧
    ∀ r ∈ (runThread (fun _ => 4) (promptedRuns ["You help.", "You help."]) .empty).calls,
      RecordedFaithfully
        (runThread (fun _ => 4) (promptedRuns ["You help.", "You help."]) .empty).items r := by
  have hfolds : ∀ env m, FoldsInStep (fun _ => 4) .basic env m :=
    fun _ _ _ _ _ h => absurd rfl h.folds.1
  refine ⟨by decide, calls_recorded_faithfully (fun _ => 4)
    (promptedRuns ["You help.", "You help."])
    ⟨⟨⟨hfolds _ _, ?_⟩, ⟨hfolds _ _, ?_⟩, ⟨hfolds _ _, ?firstCall⟩, ⟨hfolds _ _, ?_⟩, trivial⟩,
      ⟨⟨hfolds _ _, ?_⟩, ⟨hfolds _ _, ?_⟩, ⟨hfolds _ _, ?secondCall⟩, ⟨hfolds _ _, ?_⟩, trivial⟩,
      trivial⟩⟩
  case firstCall =>
    intro state h
    cases h
    refine ⟨fun id hid => ?_, fun _ _ _ hmemory => ?_, by decide⟩
    · cases hid
    · cases hmemory
  case secondCall =>
    intro state h
    cases h
    refine ⟨fun id hid => ?_, fun _ _ _ hmemory => ?_, by decide⟩
    · cases hid
      decide
    · cases hmemory
  all_goals
    intro state h
    cases h

/-- A second run with another system prompt records the item of the first one. -/
theorem changed_prompt_misrecorded :
    ∃ r ∈ (runThread (fun _ => 4) (promptedRuns ["You help.", "You code."]) .empty).calls,
      ¬ RecordedFaithfully
        (runThread (fun _ => 4) (promptedRuns ["You help.", "You code."]) .empty).items r := by
  refine ⟨_, List.mem_cons_of_mem _ List.mem_cons_self, ?_⟩
  intro h
  rcases h with _ | ⟨hsystem, _⟩
  revert hsystem
  decide

end Runs

end Agyn
