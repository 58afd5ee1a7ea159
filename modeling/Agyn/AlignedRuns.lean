import Agyn.ContextFolds
import Agyn.ContextResolution

/-!
The ids of the conversation and the messages they were created for. A model call and the tools
append at the end, and a load appends messages without ids; only a fold cuts both lists, the ids by
the length of the whole tail. When the outputs that are moved to the tail stand in front of the
head, that cuts what belongs together. Runs keep the ids of the conversation and its messages in
step, in the loop and in what is stored, as long as their folds do. Between a response and the tools
that it calls every message has its id; otherwise the last messages may still be without one.
-/
namespace Agyn

open Loops

section Ids

/-- The ids name the items that were created for the first messages, one by one. Where it is
asked for, no id occurs twice. -/
structure Aligned (unique : Prop) (items : List ContextItem) (messages : List LLMMessage)
    (ids : List ℕ) : Prop where
  length_le : ids.length ≤ messages.length
  item : ∀ (i id : ℕ) (m : LLMMessage), ids[i]? = some id → messages[i]? = some m →
    items[id]? = some (LLMStore.itemOf m)
  nodup : unique → ids.Nodup

section Lists

variable {unique : Prop} {items more : List ContextItem} {messages results : List LLMMessage}
  {ids : List ℕ}

theorem Aligned.nil (items : List ContextItem) (messages : List LLMMessage) :
    Aligned unique items messages [] := ⟨Nat.zero_le _, by simp, fun _ => List.nodup_nil⟩

theorem Aligned.message (h : Aligned unique items messages ids) {i id : ℕ}
    (hid : ids[i]? = some id) : ∃ m, messages[i]? = some m := by
  have hlt : i < ids.length := (List.getElem?_eq_some_iff.mp hid).1
  have hle := h.length_le
  exact ⟨messages[i], List.getElem?_eq_getElem (by omega)⟩

theorem Aligned.lt (h : Aligned unique items messages ids) {id : ℕ} (hid : id ∈ ids) :
    id < items.length := by
  obtain ⟨i, hi⟩ := List.getElem?_of_mem hid
  obtain ⟨m, hm⟩ := h.message hi
  exact (List.getElem?_eq_some_iff.mp (h.item i id m hi hm)).1

theorem Aligned.mono (h : Aligned unique items messages ids) (hitems : items <+: more) :
    Aligned unique more messages ids :=
  ⟨h.length_le, fun i id m hid hm => getElem?_of_initial hitems (h.item i id m hid hm), h.nodup⟩

theorem Aligned.append_messages (h : Aligned unique items messages ids)
    (results : List LLMMessage) : Aligned unique items (messages ++ results) ids := by
  refine ⟨?_, ?_, h.nodup⟩
  · have hle := h.length_le
    rw [List.length_append]
    omega
  · intro i id m hid hm
    obtain ⟨m', hm'⟩ := h.message hid
    have hsame := getElem?_of_initial (List.prefix_append messages results) hm'
    rw [hm] at hsame
    cases hsame
    exact h.item i id m hid hm'

/-- New messages get new items, when every message before them has one. -/
theorem Aligned.append_items (h : Aligned unique items messages ids)
    (hall : ids.length = messages.length) (results : List LLMMessage) :
    Aligned unique (items ++ results.map LLMStore.itemOf) (messages ++ results)
      (ids ++ List.range' items.length results.length) := by
  refine ⟨by simp [hall], ?_, ?_⟩
  · intro i id m hid hm
    by_cases hi : i < ids.length
    · rw [List.getElem?_append_left hi] at hid
      rw [List.getElem?_append_left (by omega)] at hm
      exact getElem?_of_initial (List.prefix_append items _) (h.item i id m hid hm)
    · rw [List.getElem?_append_right (by omega)] at hid hm
      rw [← hall] at hm
      have hlt : i - ids.length < results.length := (List.getElem?_eq_some_iff.mp hm).1
      rw [List.getElem?_range' hlt] at hid
      cases hid
      rw [List.getElem?_append_right (by omega), List.getElem?_map,
        show items.length + 1 * (i - ids.length) - items.length = i - ids.length by omega, hm]
      rfl
  · intro hunique
    refine List.Nodup.append (h.nodup hunique) List.nodup_range' ?_
    intro id hid hnew
    have hlt := h.lt hid
    have hge := (List.mem_range'_1.mp hnew).1
    omega

theorem Aligned.drop (h : Aligned unique items messages ids) (k : ℕ) :
    Aligned unique items (messages.drop k) (ids.drop k) := by
  refine ⟨?_, ?_, fun hunique => (h.nodup hunique).sublist (List.drop_sublist k ids)⟩
  · have hle := h.length_le
    rw [List.length_drop, List.length_drop]
    omega
  · intro i id m hid hm
    rw [List.getElem?_drop] at hid hm
    exact h.item (k + i) id m hid hm

end Lists

section Folding

variable {yamlLength : LLMMessage → ℕ} {cfg : AgentLoopConfig} {state : LLMState}

open SummarizationLLMReducer

/-- A fold keeps the alignment when the moved outputs stand first, or no id is left. -/
theorem Aligned.fold {unique : Prop} {items items' : List ContextItem} {head tail : List LLMMessage}
    {newSummary : String} {context : LLMContextState}
    (h : Aligned unique items state.messages state.context.messageIds)
    (hfold : OrphansFirst yamlLength cfg state ∨ state.context.messageIds.length ≤ tail.length)
    (hsplit : split yamlLength cfg.keepTokens state.messages = (head, tail))
    (hcontext : foldContext state.context tail.length newSummary items = (context, items')) :
    items <+: items' ∧ Aligned unique items' head context.messageIds := by
  have hfolded := foldContext_folded hcontext
  refine ⟨hfolded.items_kept, ?_⟩
  rw [hfolded.messageIds]
  rcases hfold with hfirst | hle
  · rw [split_of_orphansFirst hfirst hsplit]
    exact (h.drop tail.length).mono hfolded.items_kept
  · rw [List.drop_eq_nil_of_le hle]
    exact Aligned.nil items' head

end Folding

section Calls

variable {unique : Prop} {state : LLMState} {w : LLMStore}

open CallModelLLMReducer

/-- After the resolution of a call every message has the id of its item. -/
theorem Aligned.prepare
    (h : Aligned unique w.items state.messages state.context.messageIds) (cfg : AgentLoopConfig)
    (env : LoopEnv) :
    w.items <+: (prepare cfg env state w).2.items ∧
      (prepare cfg env state w).2.context.messageIds.length = state.messages.length ∧
      Aligned unique (prepare cfg env state w).2.items state.messages
        (prepare cfg env state w).2.context.messageIds := by
  obtain ⟨newIds, hresolves⟩ := prepare_resolves cfg env state w
  refine ⟨hresolves.items_kept, hresolves.messageIds_length, ?_, ?_, ?_⟩
  · rw [hresolves.messageIds_length]
  · intro i id m hid hm
    obtain ⟨id', hentry, hreused | ⟨-, -, hitem⟩⟩ :=
      hresolves.entry _ (conversation_mem_buildSequence hm)
    · rw [(entryId_conversation rfl _).1, hid] at hentry
      cases hentry
      rw [(entryId_conversation rfl _).2, startContext_messageIds] at hreused
      exact getElem?_of_initial hresolves.items_kept (h.item i id m hreused hm)
    · rw [(entryId_conversation rfl _).1, hid] at hentry
      cases hentry
      exact hitem
  · intro hunique
    rw [hresolves.messageIds, startContext_messageIds]
    have hold : (state.context.messageIds.take state.messages.length).Nodup :=
      (h.nodup hunique).sublist (List.take_sublist _ _)
    have hnew : newIds.Nodup := hresolves.sorted.imp fun hlt => Nat.ne_of_lt hlt
    refine List.Nodup.append hold hnew ?_
    intro id hid hfresh
    have hlt := h.lt (List.mem_of_mem_take hid)
    have hge := (hresolves.fresh id hfresh).1
    omega

end Calls

end Ids

section Runs

def StoredAligned (unique : Prop) (w : LLMStore) : Prop :=
  ∀ plain, w.stored = some plain →
    Aligned unique w.items plain.messages plain.context.messageIds

/-- A fold in this turn moves outputs that stand first, or cuts off all ids. -/
def FoldsInStep (yamlLength : LLMMessage → ℕ) (cfg : AgentLoopConfig) (env : LoopEnv)
    (m : AgentMachine) : Prop :=
  ∀ state text, m.status = .running .summarize state →
    SummarizationLLMReducer.FoldsIn yamlLength cfg env state text →
      OrphansFirst yamlLength cfg state ∨ state.context.messageIds.length ≤
        (SummarizationLLMReducer.split yamlLength cfg.keepTokens state.messages).2.length

structure InStep (unique : Prop) (state : LLMState) (w : LLMStore) : Prop where
  stored : StoredAligned unique w
  state : Aligned unique w.items state.messages state.context.messageIds

def inStep (unique : Prop) : Invariant ReducerId LLMState LLMStore where
  inside := fun current state w => InStep unique state w ∧
    (current = .load → state.context.messageIds = []) ∧
    (current = .callTools → state.context.messageIds.length = state.messages.length)
  ended := InStep unique
  broken := StoredAligned unique

section Keeping

variable {unique : Prop} {yamlLength : LLMMessage → ℕ} {cfg : AgentLoopConfig} {env : LoopEnv}
  {state state' : LLMState} {w w' : LLMStore}
  {invoke : LoopEnv → LLMState → LLMStore → Result LLMStore LLMState}

theorem StoredAligned.mono (h : StoredAligned unique w) (hstored : w'.stored = w.stored)
    (hitems : w.items <+: w'.items) : StoredAligned unique w' := by
  intro plain hplain
  rw [hstored] at hplain
  exact (h plain hplain).mono hitems

theorem InStep.append_messages {e : LoopEvent} (h : InStep unique state w)
    (results : List LLMMessage) (hmessages : state'.messages = state.messages ++ results)
    (hids : state'.context.messageIds = state.context.messageIds) :
    InStep unique state' (w.note e) := by
  refine ⟨h.stored, ?_⟩
  rw [hmessages, hids]
  exact h.state.append_messages results

/-- New items leave a state in step. -/
theorem InStep.mono (h : InStep unique state w) (hstored : w'.stored = w.stored)
    (hitems : w.items <+: w'.items) : InStep unique state w' :=
  ⟨h.stored.mono hstored hitems, h.state.mono hitems⟩

theorem InStep.save (h : InStep unique state w) :
    InStep unique state (w.save ⟨state.messages, state.summary, state.context⟩) := by
  refine ⟨?_, h.state⟩
  intro plain hplain
  cases hplain
  exact h.state

theorem inStep_static {next : ReducerId} (hload : next ≠ .load) (hcallTools : next ≠ .callTools)
    (h : InStep unique state w) :
    (inStep unique).Routed ⟨invoke, some (StaticLLMRouter.route next)⟩ env state w :=
  StaticLLMRouter.routed (fun _ => h) fun _ =>
    ⟨h, fun heq => absurd heq hload, fun heq => absurd heq hcallTools⟩

theorem inStep_load (h : InStep unique state w) (hids : state.context.messageIds = []) :
    (inStep unique).Keeps ⟨LoadLLMReducer.invoke, some (StaticLLMRouter.route .summarize)⟩ env
      state w := by
  refine LoadLLMReducer.invoke_ensures ?_ ?_
  · intro _
    exact inStep_static (by decide) (by decide) h
  · intro persisted _ hpersisted
    refine inStep_static (by decide) (by decide) ⟨h.stored, ?_⟩
    have hmerged : (LoadLLMReducer.merged persisted state).context.messageIds =
        persisted.context.messageIds := by
      simp [LoadLLMReducer.merged, hids]
    rw [hmerged]
    exact (h.stored persisted hpersisted).append_messages state.messages

theorem inStep_summarize (h : InStep unique state w)
    (hfolds : FoldsInStep yamlLength cfg env ⟨.running .summarize state, w⟩) :
    (inStep unique).Keeps ⟨SummarizationLLMReducer.invoke yamlLength cfg,
      some (StaticLLMRouter.route .callModel)⟩ env state w := by
  refine SummarizationLLMReducer.invoke_ensures (inStep_static (by decide) (by decide) h)
    (fun _ _ => h.stored) ?_
  intro text head tail context items hfold hsplit hcontext
  have hcondition := hfolds state text rfl hfold
  rw [hsplit] at hcondition
  obtain ⟨hitems, haligned⟩ := h.state.fold hcondition hsplit hcontext
  exact inStep_static (by decide) (by decide) ⟨h.stored.mono rfl hitems, haligned⟩

theorem inStep_callModel (h : InStep unique state w) :
    (inStep unique).Keeps ⟨CallModelLLMReducer.invoke cfg,
      some (ConditionalLLMRouter.route afterCallModel)⟩ env state w := by
  obtain ⟨hitems, hlength, haligned⟩ := h.state.prepare cfg env
  obtain ⟨prepared, hprepared⟩ : ∃ p, CallModelLLMReducer.prepare cfg env state w = p := ⟨_, rfl⟩
  rw [hprepared] at hitems hlength haligned
  have hrecorded : InStep unique state (CallModelLLMReducer.recorded prepared w) :=
    h.mono rfl hitems
  refine CallModelLLMReducer.invoke_ensures hprepared h.stored hrecorded.stored
    (fun _ hroute => ConditionalLLMRouter.routed_stopped hroute hrecorded)
    (fun _ => hrecorded.stored)
    (fun _ hroute => ConditionalLLMRouter.routed_stopped hroute
      (hrecorded.mono rfl List.prefix_rfl))
    ?_
  intro reply output _ _ _ called
  have hstored : StoredAligned unique
      ((called.createItems [.response output]).note (.replied output)) :=
    hrecorded.stored.mono rfl (List.prefix_append _ _)
  have hresponded : InStep unique
      (CallModelLLMReducer.responded state prepared.2 output w.calls.length)
      ((called.createItems [.response output]).note (.replied output)) :=
    ⟨hstored, haligned.append_items hlength [.response output]⟩
  have hall : (CallModelLLMReducer.responded state prepared.2 output
      w.calls.length).context.messageIds.length = (CallModelLLMReducer.responded state prepared.2
        output w.calls.length).messages.length := by
    simp [CallModelLLMReducer.responded, hlength]
  exact afterCallModel_routed rfl (fun _ => hresponded)
    (fun _ => ⟨hresponded, by simp, fun _ => hall⟩) fun _ => ⟨hresponded, by simp, by simp⟩

theorem inStep_callTools (h : InStep unique state w)
    (hall : state.context.messageIds.length = state.messages.length) :
    (inStep unique).Keeps
      ⟨CallToolsLLMReducer.invoke, some (StaticLLMRouter.route .toolsSave)⟩ env state w := by
  refine CallToolsLLMReducer.invoke_ensures h.stored
    (fun hroute => StaticLLMRouter.routed_stopped hroute h) (fun _ => h.stored)
    (fun _ hroute => StaticLLMRouter.routed_stopped hroute (h.mono rfl List.prefix_rfl)) ?_
  intro _ results
  exact inStep_static (by decide) (by decide)
    ⟨h.stored.mono rfl (List.prefix_append _ _), h.state.append_items hall results⟩

theorem inStep_toolsSave (h : InStep unique state w) :
    (inStep unique).Keeps ⟨SaveLLMReducer.invoke, some (AfterToolsRouter.route cfg)⟩ env
      state w := by
  refine SaveLLMReducer.invoke_ensures h.stored ?_
  intro _ plain
  refine AfterToolsRouter.routed (fun _ => h.save) h.save.stored ⟨h.save, by simp, by simp⟩ ?_
  intro _ _
  exact ⟨h.save.append_messages (env.drained.map Subtype.val) rfl rfl, by simp, by simp⟩

theorem inStep_save (h : InStep unique state w) :
    (inStep unique).Keeps ⟨SaveLLMReducer.invoke,
      some (ConditionalLLMRouter.route (afterSave cfg))⟩ env state w := by
  refine SaveLLMReducer.invoke_ensures h.stored ?_
  intro _ plain
  exact afterSave_routed (fun _ => h.save) fun _ => ⟨h.save, by simp, by simp⟩

theorem inStep_enforceTools (h : InStep unique state w) :
    (inStep unique).Keeps ⟨fun _ => EnforceToolsLLMReducer.invoke cfg,
      some (ConditionalLLMRouter.route afterEnforceTools)⟩ env state w := by
  refine EnforceToolsLLMReducer.invoke_ensures ?_ ?_
  · intro _
    have hquiet : InStep unique (EnforceToolsLLMReducer.quiet state) w := ⟨h.stored, h.state⟩
    exact afterEnforceTools_routed (fun _ => hquiet) fun _ => ⟨hquiet, by simp, by simp⟩
  · intro _ _
    have hrestricted : InStep unique (EnforceToolsLLMReducer.restricted cfg state)
        (w.note .restricted) := by
      refine h.append_messages [_] rfl ?_
      rfl
    exact afterEnforceTools_routed (fun _ => hrestricted) fun _ => ⟨hrestricted, by simp, by simp⟩

theorem inStep_keeps {current : ReducerId}
    {reducer : Reducer ReducerId LLMState LLMStore LoopEnv}
    (hfolds : FoldsInStep yamlLength cfg env ⟨.running current state, w⟩)
    (hreducer : prepareLoop yamlLength cfg current = some reducer)
    (h : (inStep unique).inside current state w) : (inStep unique).Keeps reducer env state w := by
  obtain ⟨hin, hload, hcallTools⟩ := h
  refine prepareLoop_keeps (fun hcurrent => inStep_load hin (hload hcurrent)) ?_
    (fun _ => inStep_callModel hin) (fun hcurrent => inStep_callTools hin (hcallTools hcurrent))
    (fun _ => inStep_toolsSave hin) (fun _ => inStep_save hin)
    (fun _ _ => inStep_enforceTools hin) hreducer
  intro hcurrent
  subst hcurrent
  exact inStep_summarize hin hfolds

end Keeping

theorem AgentRun.loop_inStep {unique : Prop} {yamlLength : LLMMessage → ℕ} {r : AgentRun}
    {w : LLMStore} (hstored : StoredAligned unique w)
    (hfolds : Along (prepareLoop yamlLength r.cfg) (FoldsInStep yamlLength r.cfg) r.envs
      (startRun r.messages w)) :
    (inStep unique).Holds (r.loop yamlLength w) := by
  refine Invariant.run (fun _ _ _ h => h.1.stored) hfolds ?_ ?_
  · intro env _ current state w' reducer hP hreducer h
    exact inStep_keeps hP hreducer h
  · exact ⟨⟨hstored, Aligned.nil w.items _⟩, fun _ => rfl, by simp⟩

/-- In a run whose folds are in step, the ids of the conversation are those of the items that
were created for its first messages, before every reducer, at the end, and in what is stored. -/
theorem loop_aligned (yamlLength : LLMMessage → ℕ) (r : AgentRun) (w : LLMStore) (unique : Prop)
    (hstored : StoredAligned unique w)
    (hfolds : Along (prepareLoop yamlLength r.cfg) (FoldsInStep yamlLength r.cfg) r.envs
      (startRun r.messages w)) :
    StoredAligned unique (r.loop yamlLength w).world ∧
      ∀ state, ((∃ current, (r.loop yamlLength w).status = .running current state) ∨
        (r.loop yamlLength w).status = .done state) →
          Aligned unique (r.loop yamlLength w).world.items state.messages
            state.context.messageIds := by
  have hholds : (inStep unique).Holds (r.loop yamlLength w) := AgentRun.loop_inStep hstored hfolds
  refine ⟨hholds.world (fun _ _ _ h => h.1.stored) (fun _ _ h => h.stored) fun _ h => h, ?_⟩
  intro state hstate
  unfold Invariant.Holds at hholds
  rcases hstate with ⟨current, hrunning⟩ | hdone
  · rw [hrunning] at hholds
    exact hholds.1.state
  · rw [hdone] at hholds
    exact hholds.state

def toolMessages (secondCall : String) : List LLMMessage :=
  [.human "Hello.", .response [.toolCall ⟨"a", "shell", "ls"⟩, .toolCall ⟨"b", "shell", "pwd"⟩],
    .toolOutput "a" "src", .toolOutput "b" "/work",
    .response [.toolCall ⟨secondCall, "shell", "cat"⟩], .toolOutput secondCall "text"]

def toolThread (secondCall : String) : LLMStore :=
  { LLMStore.empty with
    stored := some ⟨toolMessages secondCall, none, ⟨List.range' 0 6, [], none, none, none⟩⟩
    items := (toolMessages secondCall).map LLMStore.itemOf }

/-- A run that keeps some messages and folds the others before its first call. -/
def foldingRun (keep : ℕ) : AgentRun :=
  ⟨⟨"You help.", keep, 1, false, false, "", 0⟩, [.human "Go on."], [.calm [], .calm []]⟩

theorem toolThread_aligned (unique : Prop) (secondCall : String) :
    StoredAligned unique (toolThread secondCall) := by
  intro plain hplain
  cases hplain
  exact (Aligned.nil [] []).append_items rfl (toolMessages secondCall)

theorem foldingRun_aligned :
    Aligned True ((foldingRun 4).loop (fun _ => 4) (toolThread "c")).world.items
      [.response [.toolCall ⟨"c", "shell", "cat"⟩], .toolOutput "c" "text", .human "Go on."]
      [4, 5] := by
  have hfolds : Along (prepareLoop (fun _ => 4) (foldingRun 4).cfg)
      (FoldsInStep (fun _ => 4) (foldingRun 4).cfg) (foldingRun 4).envs
      (startRun (foldingRun 4).messages (toolThread "c")) := by
    refine ⟨fun state text h => ?_, fun state text h _ => ?_, trivial⟩
    · cases h
    · cases h
      left
      unfold OrphansFirst
      decide
  exact (loop_aligned (fun _ => 4) (foldingRun 4) (toolThread "c") True
    (toolThread_aligned True "c") hfolds).2 _ (.inl ⟨.callModel, rfl⟩)

/-- When a later response uses a call id again, an output of the first response stays in the
head, in front of one that is moved, and the ids behind it shift. -/
theorem reused_call_shifts_ids :
    StoredAligned True (toolThread "a") ∧
      ∃ state, ((foldingRun 5).loop (fun _ => 4) (toolThread "a")).status =
          .running .callModel state ∧
        ¬ Aligned True ((foldingRun 5).loop (fun _ => 4) (toolThread "a")).world.items
          state.messages state.context.messageIds := by
  refine ⟨toolThread_aligned True "a", _, rfl, ?_⟩
  intro h
  have hitem := h.item 0 3 (.toolOutput "a" "src") (by decide) (by decide)
  revert hitem
  decide

end Runs

end Agyn
