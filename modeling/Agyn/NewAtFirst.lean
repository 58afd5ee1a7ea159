import Agyn.ContextFolds
import Agyn.NewItems

/-!
The items that are not sent yet are pending in the state of a loop, so each call lists them
once. A load forgets what was pending: the listing is right over the runs of a thread as
long as every load finds only items that some call has had.
-/
namespace Agyn

open Loops CallModelLLMReducer

/-- A load in this turn finds only messages that were in the input of a call. -/
def LoadsSent (env : LoopEnv) (m : AgentMachine) : Prop :=
  ∀ state plain, m.status = .running .load state → env.fault = none →
    m.world.stored = some plain → ∀ id ∈ plain.context.messageIds,
      ∃ r ∈ m.world.calls, id ∈ r.conversationIds

/-- The ids in a store name items, and each call lists what the earlier ones do not have. -/
structure Books (w : LLMStore) : Prop where
  stored : ∀ plain, w.stored = some plain → ∀ id ∈ contextIds plain.context, id < w.items.length
  sent : ∀ r ∈ w.calls, ∀ id ∈ r.contextItemIds, id < w.items.length
  calls : EachListsUnseen w.calls

/-- What is pending was not sent, and what was not sent is pending. -/
structure Accounts (context : LLMContextState) (w : LLMStore) : Prop where
  known : ∀ id ∈ contextIds context, id < w.items.length
  covered : ∀ id ∈ context.messageIds,
    id ∈ context.pendingNewContextItemIds.getD [] ∨ ∃ r ∈ w.calls, id ∈ r.conversationIds
  unsent : ∀ id ∈ context.pendingNewContextItemIds.getD [], ∀ r ∈ w.calls, id ∉ r.contextItemIds

def accounting : Invariant ReducerId LLMState LLMStore where
  inside := fun current state w =>
    Books w ∧ Accounts state.context w ∧ (current = .load → state.context = .empty)
  ended := fun _ w => Books w
  broken := Books

section Keeping

variable {yamlLength : LLMMessage → ℕ} {cfg : AgentLoopConfig} {env : LoopEnv}
  {state : LLMState} {w w' : LLMStore}
  {invoke : LoopEnv → LLMState → LLMStore → Result LLMStore LLMState}

theorem Books.mono (h : Books w) (hstored : w'.stored = w.stored) (hcalls : w'.calls = w.calls)
    (hitems : w.items <+: w'.items) : Books w' := by
  have hle := hitems.length_le
  refine ⟨?_, ?_, by rw [hcalls]; exact h.calls⟩
  · intro plain hplain id hid
    rw [hstored] at hplain
    have hlt := h.stored plain hplain id hid
    omega
  · intro r hr id hid
    rw [hcalls] at hr
    have hlt := h.sent r hr id hid
    omega

theorem Books.save (h : Books w) (haccounts : Accounts state.context w) :
    Books (w.save ⟨state.messages, state.summary, state.context⟩) := by
  refine ⟨?_, h.sent, h.calls⟩
  intro plain hplain
  cases hplain
  exact haccounts.known

theorem Accounts.mono {context : LLMContextState} (h : Accounts context w)
    (hcalls : w'.calls = w.calls) (hitems : w.items <+: w'.items) : Accounts context w' := by
  have hle := hitems.length_le
  refine ⟨?_, by rw [hcalls]; exact h.covered, by rw [hcalls]; exact h.unsent⟩
  intro id hid
  have hlt := h.known id hid
  omega

theorem accounting_static {next : ReducerId} (hnext : next ≠ .load) (h : Books w)
    (haccounts : Accounts state.context w) :
    accounting.Routed ⟨invoke, some (StaticLLMRouter.route next)⟩ env state w :=
  StaticLLMRouter.routed (fun _ => h) fun _ => ⟨h, haccounts, fun heq => absurd heq hnext⟩

theorem Accounts.load {persisted : PlainLLMState} (h : Books w)
    (hpersisted : w.stored = some persisted) (hempty : state.context = .empty)
    (hsent : ∀ id ∈ persisted.context.messageIds, ∃ r ∈ w.calls, id ∈ r.conversationIds) :
    Accounts (LoadLLMReducer.merged persisted state).context w := by
  have hmerged : (LoadLLMReducer.merged persisted state).context =
      { persisted.context with pendingNewContextItemIds := none } := by
    simp [LoadLLMReducer.merged, hempty, LLMContextState.empty]
  rw [hmerged]
  refine ⟨?_, fun id hid => .inr (hsent id hid), fun id hid => by simp at hid⟩
  intro id hid
  refine h.stored persisted hpersisted id ?_
  unfold contextIds at hid ⊢
  simp only [Option.getD_none, List.append_nil] at hid
  exact List.mem_append_left _ hid

theorem accounting_load (h : Books w) (haccounts : Accounts state.context w)
    (hempty : state.context = .empty) (hloads : LoadsSent env ⟨.running .load state, w⟩) :
    accounting.Keeps ⟨LoadLLMReducer.invoke, some (StaticLLMRouter.route .summarize)⟩ env
      state w := by
  refine LoadLLMReducer.invoke_ensures (fun _ => accounting_static (by decide) h haccounts) ?_
  intro persisted hfault hpersisted
  exact accounting_static (by decide) h
    (Accounts.load h hpersisted hempty (hloads state persisted rfl hfault hpersisted))

theorem contextIds_fold {context context' : LLMContextState} {tailLength id : ℕ}
    {newSummary : String} {items items' : List ContextItem}
    (h : FoldedContext context tailLength newSummary items context' items')
    (hid : id ∈ contextIds context') : id ∈ contextIds context ∨ id < items'.length := by
  unfold contextIds auxIds at hid ⊢
  rw [h.messageIds, h.system, h.memory, h.pending] at hid
  simp only [List.mem_append] at hid ⊢
  rcases hid with (hid | (hid | hid) | hid) | hid
  · exact .inl (.inl (.inl (List.mem_of_mem_drop hid)))
  · exact .inl (.inl (.inr (.inl (.inl hid))))
  · rcases h.summary with hnone | ⟨id', hnew, hkept | hitem⟩
    · simp [hnone] at hid
    · rw [hkept]
      rw [hnew] at hid
      exact .inl (.inl (.inr (.inl (.inr hid))))
    · have heq : id = id' := by simpa [hnew] using hid
      rw [heq]
      exact .inr (List.getElem?_eq_some_iff.mp hitem).1
  · exact .inl (.inl (.inr (.inr hid)))
  · exact .inl (.inr hid)

theorem Accounts.fold {context context' : LLMContextState} {tailLength : ℕ} {newSummary : String}
    (h : Accounts context w)
    (hfold : FoldedContext context tailLength newSummary w.items context' w'.items)
    (hcalls : w'.calls = w.calls) : Accounts context' w' := by
  refine ⟨?_, ?_, ?_⟩
  · intro id hid
    rcases contextIds_fold hfold hid with hid | hlt
    · have hlt := h.known id hid
      have hle := hfold.items_kept.length_le
      omega
    · exact hlt
  · intro id hid
    rw [hfold.messageIds] at hid
    rw [hfold.pending, hcalls]
    exact h.covered id (List.mem_of_mem_drop hid)
  · intro id hid
    rw [hfold.pending] at hid
    rw [hcalls]
    exact h.unsent id hid

theorem accounting_summarize (h : Books w) (haccounts : Accounts state.context w) :
    accounting.Keeps ⟨SummarizationLLMReducer.invoke yamlLength cfg,
      some (StaticLLMRouter.route .callModel)⟩ env state w := by
  refine SummarizationLLMReducer.invoke_ensures (accounting_static (by decide) h haccounts)
    (fun _ _ => h.mono rfl rfl List.prefix_rfl) ?_
  intro text head tail context items _ _ hcontext
  have hfolded := foldContext_folded hcontext
  exact accounting_static (by decide) (h.mono rfl rfl hfolded.items_kept)
    (haccounts.fold hfolded rfl)

/-- A call lists what was not sent before, and all that it sends of the conversation. -/
theorem Accounts.listsUnseen (h : Books w) (haccounts : Accounts state.context w)
    (cfg : AgentLoopConfig) (env : LoopEnv) :
    ListsUnseen w.calls (callRecord (prepare cfg env state w)) := by
  obtain ⟨newIds, hresolves⟩ := prepare_resolves cfg env state w
  have hnew : ∀ id, id ∈ (callRecord (prepare cfg env state w)).newContextItemIds ↔
      id ∈ (callRecord (prepare cfg env state w)).contextItemIds ∧
        (id ∈ state.context.pendingNewContextItemIds.getD [] ∨ id ∈ newIds) := by
    intro id
    change id ∈ (prepare cfg env state w).2.newContextItemIds ↔
      id ∈ (prepare cfg env state w).2.contextItemIds ∧ _
    rw [hresolves.new, startContext_pending, List.mem_filter, decide_eq_true_iff,
      List.mem_append]
  refine ⟨?_, ?_⟩
  · intro id hid
    obtain ⟨hmem, hunsent⟩ := (hnew id).mp hid
    refine ⟨hmem, ?_⟩
    intro r hr hsent
    rcases hunsent with hpending | hfresh
    · exact haccounts.unsent id hpending r hr hsent
    · have hlt := h.sent r hr id hsent
      have hge := (hresolves.fresh id hfresh).1
      omega
  · intro id hid
    have hmem := conversationIds_sub hid
    rw [mem_conversationIds, hresolves.messageIds, startContext_messageIds] at hid
    rcases List.mem_append.mp hid with hold | hfresh
    · rcases haccounts.covered id (List.mem_of_mem_take hold) with hpending | hsent
      · exact .inl ((hnew id).mpr ⟨hmem, .inl hpending⟩)
      · exact .inr hsent
    · exact .inl ((hnew id).mpr ⟨hmem, .inr hfresh⟩)

/-- The ids of a call and of the context after it name items. -/
theorem Accounts.prepare_known (haccounts : Accounts state.context w) (cfg : AgentLoopConfig)
    (env : LoopEnv) :
    w.items <+: (prepare cfg env state w).2.items ∧
      (∀ id ∈ (callRecord (prepare cfg env state w)).contextItemIds,
        id < (prepare cfg env state w).2.items.length) ∧
      (∀ id ∈ (prepare cfg env state w).2.context.messageIds ++
          auxIds (prepare cfg env state w).2.context,
        id < (prepare cfg env state w).2.items.length) := by
  obtain ⟨newIds, hresolves⟩ := prepare_resolves cfg env state w
  have hle := hresolves.items_kept.length_le
  have hstart : ∀ id ∈ state.context.messageIds ++ auxIds state.context,
      id < (prepare cfg env state w).2.items.length := by
    intro id hid
    have hlt := haccounts.known id (List.mem_append_left _ hid)
    omega
  refine ⟨hresolves.items_kept, ?_, ?_⟩
  · intro id hid
    have hsome : some id ∈ (prepare cfg env state w).1.map
        (entryId (prepare cfg env state w).2.context) := by
      rw [← hresolves.ids]
      exact List.mem_map_of_mem hid
    obtain ⟨e, he, hentry⟩ := List.mem_map.mp hsome
    obtain ⟨id', hid', hitem⟩ := hresolves.entry e he
    rw [hentry] at hid'
    cases hid'
    rcases hitem with hreused | ⟨-, -, hitem⟩
    · refine hstart id ?_
      rcases List.mem_append.mp (reusedId_mem hreused) with hmem | hmem
      · rw [startContext_messageIds] at hmem
        exact List.mem_append_left _ hmem
      · exact List.mem_append_right _ (auxIds_startContext hmem)
    · exact (List.getElem?_eq_some_iff.mp hitem).1
  · intro id hid
    rcases List.mem_append.mp hid with hid | hid
    · rw [hresolves.messageIds, startContext_messageIds] at hid
      rcases List.mem_append.mp hid with hold | hfresh
      · exact hstart id (List.mem_append_left _ (List.mem_of_mem_take hold))
      · exact (hresolves.fresh id hfresh).2
    · rcases hresolves.aux id hid with hold | hlt
      · exact hstart id (List.mem_append_right _ (auxIds_startContext hold))
      · exact hlt

theorem Books.recorded (h : Books w) (haccounts : Accounts state.context w)
    (cfg : AgentLoopConfig) (env : LoopEnv) :
    Books (recorded (prepare cfg env state w) w) := by
  obtain ⟨hitems, hsent, -⟩ := haccounts.prepare_known cfg env
  have hle := hitems.length_le
  refine ⟨?_, ?_, h.calls.concat (haccounts.listsUnseen h cfg env)⟩
  · intro plain hplain id hid
    have hlt := h.stored plain hplain id hid
    change id < (prepare cfg env state w).2.items.length
    omega
  · intro r hr id hid
    change id < (prepare cfg env state w).2.items.length
    rcases List.mem_append.mp hr with hr | hr
    · have hlt := h.sent r hr id hid
      omega
    · rw [List.mem_singleton.mp hr] at hid
      exact hsent id hid

/-- After a response all messages but the response itself are in the recorded call. -/
theorem Accounts.responded (h : Books w) (haccounts : Accounts state.context w)
    (cfg : AgentLoopConfig) (env : LoopEnv) (output : List ResponseItem) (eventId : ℕ)
    (hcalls : w'.calls = w.calls ++ [callRecord (prepare cfg env state w)])
    (hitems : w'.items =
      (prepare cfg env state w).2.items ++ [LLMStore.itemOf (.response output)]) :
    Accounts (responded state (prepare cfg env state w).2 output eventId).context w' := by
  obtain ⟨newIds, hresolves⟩ := prepare_resolves cfg env state w
  obtain ⟨-, hsent, hknown⟩ := haccounts.prepare_known cfg env
  have hbooks := h.recorded haccounts cfg env
  have hlength : w'.items.length = (prepare cfg env state w).2.items.length + 1 := by
    rw [hitems, List.length_append, List.length_singleton]
  have hpending : ∀ id, id ∈ (CallModelLLMReducer.responded state (prepare cfg env state w).2
      output eventId).context.pendingNewContextItemIds.getD [] ↔
        id = (prepare cfg env state w).2.items.length := by
    intro id
    unfold CallModelLLMReducer.responded
    dsimp only
    rw [mem_appendPendingContextItems, hresolves.pending]
    simp
  refine ⟨?_, ?_, ?_⟩
  · intro id hid
    rcases List.mem_append.mp hid with hid | hid
    · rcases List.mem_append.mp hid with hid | hid
      · rcases List.mem_append.mp hid with hid | hid
        · have hlt := hknown id (List.mem_append_left _ hid)
          omega
        · rw [List.mem_singleton.mp hid]
          omega
      · have hlt := hknown id (List.mem_append_right _ hid)
        omega
    · rw [(hpending id).mp hid]
      omega
  · intro id hid
    rcases List.mem_append.mp hid with hid | hid
    · refine .inr ⟨callRecord (prepare cfg env state w), ?_, mem_conversationIds.mpr hid⟩
      rw [hcalls]
      simp
    · exact .inl ((hpending id).mpr (List.mem_singleton.mp hid))
  · intro id hid r hr hmem
    rw [(hpending id).mp hid] at hmem
    rw [hcalls] at hr
    have hlt := hbooks.sent r hr _ hmem
    exact absurd hlt (Nat.lt_irrefl _)

theorem accounting_callModel (h : Books w) (haccounts : Accounts state.context w) :
    accounting.Keeps ⟨CallModelLLMReducer.invoke cfg,
      some (ConditionalLLMRouter.route afterCallModel)⟩ env state w := by
  have hrecorded := h.recorded haccounts cfg env
  have hcalled : Books ((recorded (prepare cfg env state w) w).note
      (.modelCalled (callRecord (prepare cfg env state w)).input)) :=
    hrecorded.mono rfl rfl List.prefix_rfl
  refine CallModelLLMReducer.invoke_ensures rfl h hrecorded
    (fun _ hroute => ConditionalLLMRouter.routed_stopped hroute hrecorded) (fun _ => hcalled)
    (fun _ hroute => ConditionalLLMRouter.routed_stopped hroute hcalled) ?_
  intro reply output _ _ _ called
  have hreplied : Books ((called.createItems [.response output]).note (.replied output)) :=
    hcalled.mono rfl rfl (List.prefix_append _ _)
  have hresponded : Accounts (responded state (prepare cfg env state w).2 output
      w.calls.length).context ((called.createItems [.response output]).note (.replied output)) :=
    haccounts.responded h cfg env output w.calls.length rfl rfl
  exact afterCallModel_routed rfl (fun _ => hreplied) (fun _ => ⟨hreplied, hresponded, by simp⟩)
    fun _ => ⟨hreplied, hresponded, by simp⟩

theorem Accounts.answered (h : Books w) (haccounts : Accounts state.context w)
    (results : List LLMMessage) (hcalls : w'.calls = w.calls)
    (hitems : w'.items.length = w.items.length + results.length) :
    Accounts (CallToolsLLMReducer.answered state results
      (List.range' w.items.length results.length)).context w' := by
  have hpending : ∀ id, id ∈ (CallToolsLLMReducer.answered state results
      (List.range' w.items.length results.length)).context.pendingNewContextItemIds.getD [] ↔
        id ∈ state.context.pendingNewContextItemIds.getD [] ∨
          id ∈ List.range' w.items.length results.length :=
    fun id => mem_appendPendingContextItems
  have hfresh : ∀ id ∈ List.range' w.items.length results.length,
      w.items.length ≤ id ∧ id < w'.items.length := by
    intro id hid
    obtain ⟨hge, hlt⟩ := List.mem_range'_1.mp hid
    omega
  have hold : ∀ id ∈ contextIds state.context, id < w'.items.length := by
    intro id hid
    have hlt := haccounts.known id hid
    omega
  refine ⟨?_, ?_, ?_⟩
  · intro id hid
    rcases List.mem_append.mp hid with hid | hid
    · rcases List.mem_append.mp hid with hid | hid
      · rcases List.mem_append.mp hid with hid | hid
        · exact hold id (List.mem_append_left _ (List.mem_append_left _ hid))
        · exact (hfresh id hid).2
      · exact hold id (List.mem_append_left _ (List.mem_append_right _ hid))
    · rcases (hpending id).mp hid with hid | hid
      · exact hold id (List.mem_append_right _ hid)
      · exact (hfresh id hid).2
  · intro id hid
    rw [hcalls]
    rcases List.mem_append.mp hid with hid | hid
    · rcases haccounts.covered id hid with hid | hsent
      · exact .inl ((hpending id).mpr (.inl hid))
      · exact .inr hsent
    · exact .inl ((hpending id).mpr (.inr hid))
  · intro id hid r hr hmem
    rw [hcalls] at hr
    rcases (hpending id).mp hid with hid | hid
    · exact haccounts.unsent id hid r hr hmem
    · have hlt := h.sent r hr id hmem
      have hge := (hfresh id hid).1
      omega

theorem accounting_callTools (h : Books w) (haccounts : Accounts state.context w) :
    accounting.Keeps
      ⟨CallToolsLLMReducer.invoke, some (StaticLLMRouter.route .toolsSave)⟩ env state w := by
  have hran : Books (w.note (.toolsRun (CallToolsLLMReducer.filterToolCalls state.messages))) :=
    h.mono rfl rfl List.prefix_rfl
  refine CallToolsLLMReducer.invoke_ensures h
    (fun hroute => StaticLLMRouter.routed_stopped hroute h) (fun _ => hran)
    (fun _ hroute => StaticLLMRouter.routed_stopped hroute hran) ?_
  intro _ results
  refine accounting_static (by decide) (hran.mono rfl rfl (List.prefix_append _ _))
    (haccounts.answered h results rfl ?_)
  simp [LLMStore.createItems, LLMStore.note]

theorem accounting_toolsSave (h : Books w) (haccounts : Accounts state.context w) :
    accounting.Keeps ⟨SaveLLMReducer.invoke, some (AfterToolsRouter.route cfg)⟩ env state w := by
  refine SaveLLMReducer.invoke_ensures h ?_
  intro _ plain
  have hsaved : Books (w.save plain) := h.save haccounts
  have hkept : Accounts state.context (w.save plain) := haccounts.mono rfl List.prefix_rfl
  refine AfterToolsRouter.routed (fun _ => hsaved) hsaved ⟨hsaved, hkept, by simp⟩ ?_
  intro _ _
  exact ⟨hsaved.mono rfl rfl List.prefix_rfl, hkept.mono rfl List.prefix_rfl, by simp⟩

theorem accounting_save (h : Books w) (haccounts : Accounts state.context w) :
    accounting.Keeps ⟨SaveLLMReducer.invoke,
      some (ConditionalLLMRouter.route (afterSave cfg))⟩ env state w := by
  refine SaveLLMReducer.invoke_ensures h ?_
  intro _ plain
  have hsaved : Books (w.save plain) := h.save haccounts
  exact afterSave_routed (fun _ => hsaved)
    fun _ => ⟨hsaved, haccounts.mono rfl List.prefix_rfl, by simp⟩

theorem accounting_enforceTools (h : Books w) (haccounts : Accounts state.context w) :
    accounting.Keeps ⟨fun _ => EnforceToolsLLMReducer.invoke cfg,
      some (ConditionalLLMRouter.route afterEnforceTools)⟩ env state w := by
  refine EnforceToolsLLMReducer.invoke_ensures ?_ ?_
  · intro _
    exact afterEnforceTools_routed (fun _ => h) fun _ => ⟨h, haccounts, by simp⟩
  · intro _ _
    have hrestricted : Books (w.note .restricted) := h.mono rfl rfl List.prefix_rfl
    exact afterEnforceTools_routed (fun _ => hrestricted)
      fun _ => ⟨hrestricted, haccounts.mono rfl List.prefix_rfl, by simp⟩

theorem accounting_keeps {current : ReducerId}
    {reducer : Reducer ReducerId LLMState LLMStore LoopEnv}
    (hloads : LoadsSent env ⟨.running current state, w⟩)
    (hreducer : prepareLoop yamlLength cfg current = some reducer)
    (h : accounting.inside current state w) : accounting.Keeps reducer env state w := by
  obtain ⟨hbooks, haccounts, hempty⟩ := h
  refine prepareLoop_keeps ?_ (fun _ => accounting_summarize hbooks haccounts)
    (fun _ => accounting_callModel hbooks haccounts)
    (fun _ => accounting_callTools hbooks haccounts)
    (fun _ => accounting_toolsSave hbooks haccounts)
    (fun _ => accounting_save hbooks haccounts)
    (fun _ _ => accounting_enforceTools hbooks haccounts) hreducer
  intro hcurrent
  subst hcurrent
  exact accounting_load hbooks haccounts (hempty rfl) hloads

end Keeping

theorem AgentRun.loop_books {yamlLength : LLMMessage → ℕ} {r : AgentRun} {w : LLMStore}
    (h : Books w) (halong : Along (prepareLoop yamlLength r.cfg) LoadsSent r.envs
      (startRun r.messages w)) : Books (r.loop yamlLength w).world := by
  have hholds : accounting.Holds (r.loop yamlLength w) := by
    refine Invariant.run (fun _ _ _ h => h.1) halong ?_ ?_
    · intro env _ current state w' reducer hP hreducer h
      exact accounting_keeps hP hreducer h
    · exact ⟨h, ⟨by simp [contextIds, auxIds, initialState, LLMContextState.empty],
        by simp [initialState, LLMContextState.empty],
        by simp [initialState, LLMContextState.empty]⟩, fun _ => rfl⟩
  exact hholds.world (fun _ _ _ h => h.1) (fun _ _ h => h) fun _ h => h

/-- In a thread whose loads find only items that were sent, every item of the conversation that
is in the input of a call is listed as new in one call, the first one that has it. -/
theorem items_new_at_first (yamlLength : LLMMessage → ℕ) (rs : List AgentRun)
    (halong : ThreadAlong yamlLength (fun _ => LoadsSent) rs .empty) (id : ℕ)
    (hid : ∃ r ∈ (runThread yamlLength rs .empty).calls, id ∈ r.conversationIds) :
    NewAtFirst (runThread yamlLength rs .empty).calls id := by
  have hbooks : Books (runThread yamlLength rs .empty) := by
    refine halong.preserves (J := Books) ?_ fun r w hrun h => AgentRun.loop_books h hrun
    refine ⟨?_, ?_, ?_⟩
    · intro plain hplain
      cases hplain
    · intro r hr
      cases hr
    · intro i r hr
      cases hr
  exact hbooks.calls.newAtFirst hid

def helloRun : AgentRun :=
  ⟨.basic, [.human "Hello."], [.calm [], .calm [], .calm [.message "Hi."], .calm []]⟩

/-- A run whose second call fails, after the outputs of its tools were saved and sent. -/
def failingRun : AgentRun :=
  ⟨.basic, [.human "Hello."],
    [.calm [], .calm [], .calm [.toolCall ⟨"a", "shell", "ls"⟩], .calm [], .calm [], .calm [],
      { LoopEnv.calm [] with reply := .error "unavailable" }]⟩

theorem failed_call_lists_first :
    NewAtFirst (runThread (fun _ => 4) [failingRun, helloRun] .empty).calls 2 := by
  refine items_new_at_first (fun _ => 4) [failingRun, helloRun]
    ⟨⟨?firstLoad, ?_, ?_, ?_, ?_, ?_, ?_, trivial⟩, ⟨?secondLoad, ?_, ?_, ?_, trivial⟩, trivial⟩ 2
    ⟨_, List.mem_cons_of_mem _ List.mem_cons_self, by decide⟩
  case firstLoad =>
    intro state plain _ _ hstored
    cases hstored
  case secondLoad =>
    intro state plain _ _ hstored
    cases hstored
    decide
  all_goals
    intro state plain hload
    cases hload

/-- The response that a run saves is not listed by the call of the next run that has it first. -/
theorem saved_response_never_new :
    ∃ id, (∃ r ∈ (runThread (fun _ => 4) [helloRun, helloRun] .empty).calls,
        id ∈ r.conversationIds) ∧
      ¬ NewAtFirst (runThread (fun _ => 4) [helloRun, helloRun] .empty).calls id := by
  refine ⟨2, ⟨_, List.mem_cons_of_mem _ List.mem_cons_self, by decide⟩, ?_⟩
  intro h
  obtain ⟨i, r, hr, -, hfirst⟩ := h
  have hlisted : 2 ∈ r.newContextItemIds := (hfirst i r hr).2.mpr rfl
  have hnever : ∀ r ∈ (runThread (fun _ => 4) [helloRun, helloRun] .empty).calls,
      2 ∉ r.newContextItemIds := by decide
  exact hnever r (List.mem_of_getElem? hr) hlisted

end Agyn
