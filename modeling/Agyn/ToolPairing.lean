import Agyn.LoopRules
import Agyn.CallPairing

/-!
Tool calls and their outputs in an agent's conversation. Only between a response with calls
and the turn of the tools is a call without its output, and nothing is saved there. A fold
keeps the pairs, because the outputs of folded calls are moved to the tail.
-/
namespace Agyn

open Loops

abbrev Paired (messages : List LLMMessage) : Prop :=
  CallPairing.Paired LLMMessage.callIds LLMMessage.outputId messages

/-- Each call has exactly one output, which stands later, and each output has its call
earlier. -/
def CallsPaired (messages : List LLMMessage) : Prop :=
  (∀ before r after, messages = before ++ r :: after →
    ∀ id ∈ r.callIds, (after.filterMap LLMMessage.outputId).count id = 1) ∧
  ∀ before m after id, messages = before ++ m :: after → m.outputId = some id →
    id ∈ before.flatMap LLMMessage.callIds

theorem LLMMessage.callIds_of_outputId {m : LLMMessage} (h : m.outputId ≠ none) :
    m.callIds = [] := by
  cases m with
  | toolOutput callId output => rfl
  | human text => rfl
  | system text => rfl
  | ai text => rfl
  | response output => exact absurd rfl h

theorem LLMMessage.outputId_of_mem_callIds {m : LLMMessage} {id : String}
    (h : id ∈ m.callIds) : m.outputId = none := by
  by_contra hne
  rw [callIds_of_outputId hne] at h
  cases h

theorem Paired.callsPaired {messages : List LLMMessage} (h : Paired messages) :
    CallsPaired messages := by
  constructor
  · intro before r after heq id hid
    subst heq
    exact h.count_answers (LLMMessage.outputId_of_mem_callIds hid) hid
  · intro before m after id heq hm
    subst heq
    exact h.asked_before hm (LLMMessage.callIds_of_outputId (by simp [hm]))

def IsPlain (m : LLMMessage) : Prop := m.callIds = [] ∧ m.outputId = none

theorem BufferMessage.isPlain (m : BufferMessage) : IsPlain m.val := by
  obtain ⟨m, hm⟩ := m
  cases m with
  | human text => exact ⟨rfl, rfl⟩
  | system text => exact ⟨rfl, rfl⟩
  | ai text => exact ⟨rfl, rfl⟩
  | response output => cases hm
  | toolOutput callId output => cases hm

theorem Paired.append_messages {messages results : List LLMMessage} (h : Paired messages)
    (hplain : ∀ m ∈ results, IsPlain m) : Paired (messages ++ results) :=
  h.append_plain (fun m hm => (hplain m hm).1) fun m hm => (hplain m hm).2

theorem isPlain_of_mem_buffer {messages : List BufferMessage} {m : LLMMessage}
    (h : m ∈ messages.map Subtype.val) : IsPlain m := by
  obtain ⟨b, -, rfl⟩ := List.mem_map.mp h
  exact BufferMessage.isPlain b

section Folding

variable {yamlLength : LLMMessage → ℕ} {keepTokens : ℕ} {messages : List LLMMessage}

open SummarizationLLMReducer

theorem split_fst_eq :
    (split yamlLength keepTokens messages).1 =
      (messages.drop (splitIdx yamlLength keepTokens messages)).filter fun m =>
        !isOrphan (messages.drop (splitIdx yamlLength keepTokens messages)) m := rfl

theorem split_fst_sublist : (split yamlLength keepTokens messages).1.Sublist messages :=
  List.filter_sublist.trans (List.drop_sublist _ _)

theorem isOrphan_eq_false_iff {head : List LLMMessage} {m : LLMMessage} :
    isOrphan head m = false ↔
      ∀ id, m.outputId = some id → id ∈ head.flatMap LLMMessage.callIds := by
  unfold isOrphan
  cases h : m.outputId with
  | none => simp
  | some id => simp

theorem Paired.split_fst (h : Paired messages) :
    Paired (split yamlLength keepTokens messages).1 := by
  rw [split_fst_eq]
  rw [← List.take_append_drop (splitIdx yamlLength keepTokens messages) messages] at h
  refine h.cut ?_ fun m _ => LLMMessage.callIds_of_outputId
  intro m _
  rw [Bool.not_eq_true', isOrphan_eq_false_iff]

end Folding

def LoopEvent.issued : LoopEvent → List String
  | .replied output => (LLMMessage.response output).callIds
  | _ => []

def LLMStore.issued (w : LLMStore) : List String := w.journal.flatMap LoopEvent.issued

/-- A reply of the model brings calls with ids of their own. -/
def UniqueReply (env : LoopEnv) (m : AgentMachine) : Prop :=
  ∀ state reply, m.status = .running .callModel state → env.reply = .ok reply →
    let ids := (LLMMessage.response (reply.map ResponseItem.sanitize)).callIds
    ids.Nodup ∧ ∀ id ∈ ids, id ∉ m.world.issued

def Known (messages : List LLMMessage) (w : LLMStore) : Prop :=
  ∀ id ∈ messages.flatMap LLMMessage.callIds, id ∈ w.issued

structure PairedStore (w : LLMStore) : Prop where
  stored : ∀ plain, w.stored = some plain → Paired plain.messages ∧ Known plain.messages w
  saved : ∀ plain, .saved plain ∈ w.journal → Paired plain.messages

/-- What holds of the messages before a reducer. -/
def PairedAt : ReducerId → List LLMMessage → Prop
  | .load, messages => ∀ m ∈ messages, IsPlain m
  | .callTools, messages => ∃ front r, messages = front ++ [r] ∧ r.outputId = none ∧ Paired front ∧
      r.callIds.Nodup ∧ ∀ id ∈ r.callIds, id ∉ front.flatMap LLMMessage.callIds
  | _, messages => Paired messages

def pairing : Invariant ReducerId LLMState LLMStore where
  inside := fun current state w =>
    PairedStore w ∧ PairedAt current state.messages ∧ Known state.messages w
  ended := fun _ w => PairedStore w
  broken := fun w => PairedStore w

section Stores

variable {messages results : List LLMMessage} {w w' : LLMStore}

theorem Known.mono (h : Known messages w) (hissued : ∀ id ∈ w.issued, id ∈ w'.issued) :
    Known messages w' := fun id hid => hissued id (h id hid)

theorem Known.note (h : Known messages w) (e : LoopEvent) : Known messages (w.note e) :=
  h.mono fun id hid => by simp [LLMStore.issued, LLMStore.note] at hid ⊢; exact .inr hid

theorem Known.append_messages (h : Known messages w) (hplain : ∀ m ∈ results, IsPlain m) :
    Known (messages ++ results) w := by
  intro id hid
  rw [List.flatMap_append, CallPairing.flatMap_asks_eq_nil fun m hm => (hplain m hm).1,
    List.append_nil] at hid
  exact h id hid

theorem Known.sublist {part : List LLMMessage} (h : Known messages w)
    (hsub : part.Sublist messages) : Known part w := by
  intro id hid
  obtain ⟨m, hm, hid⟩ := List.mem_flatMap.mp hid
  exact h id (List.mem_flatMap.mpr ⟨m, hsub.subset hm, hid⟩)

theorem Known.save (h : Known messages w) (plain : PlainLLMState) :
    Known messages (w.save plain) :=
  h.mono fun id hid => by simpa [LLMStore.issued, LLMStore.save, LLMStore.note,
    LoopEvent.issued] using hid

theorem PairedStore.of_eq (h : PairedStore w) (hstored : w'.stored = w.stored)
    (hjournal : w'.journal = w.journal) : PairedStore w' := by
  have hissued : w'.issued = w.issued := by unfold LLMStore.issued; rw [hjournal]
  constructor
  · intro plain hplain
    rw [hstored] at hplain
    refine ⟨(h.stored plain hplain).1, (h.stored plain hplain).2.mono ?_⟩
    intro id hid
    rw [hissued]
    exact hid
  · intro plain hplain
    rw [hjournal] at hplain
    exact h.saved plain hplain

theorem PairedStore.note {e : LoopEvent} (h : PairedStore w) (he : ∀ plain, e ≠ .saved plain) :
    PairedStore (w.note e) := by
  constructor
  · intro plain hplain
    exact ⟨(h.stored plain hplain).1, (h.stored plain hplain).2.note e⟩
  · intro plain hplain
    rcases List.mem_cons.mp hplain with heq | hplain
    · exact absurd heq.symm (he plain)
    · exact h.saved plain hplain

theorem PairedStore.save {plain : PlainLLMState} (h : PairedStore w)
    (hpaired : Paired plain.messages) (hknown : Known plain.messages w) :
    PairedStore (w.save plain) := by
  constructor
  · intro plain' hplain
    cases hplain
    exact ⟨hpaired, hknown.save plain⟩
  · intro plain' hplain
    rcases List.mem_cons.mp hplain with heq | hplain
    · cases heq
      exact hpaired
    · exact h.saved plain' hplain

end Stores

section Keeping

variable {yamlLength : LLMMessage → ℕ} {cfg : AgentLoopConfig} {env : LoopEnv}
  {state : LLMState} {w : LLMStore}

theorem outputs_answer (env : LoopEnv) (calls : List ToolCallMessage) :
    (CallToolsLLMReducer.outputs env calls).filterMap LLMMessage.outputId =
      calls.map ToolCallMessage.callId := by
  simp [CallToolsLLMReducer.outputs, List.filterMap_map, LLMMessage.outputId, Function.comp_def]

theorem outputs_callIds {env : LoopEnv} {calls : List ToolCallMessage} {m : LLMMessage}
    (h : m ∈ CallToolsLLMReducer.outputs env calls) : m.callIds = [] := by
  obtain ⟨call, -, rfl⟩ := List.mem_map.mp h
  rfl

theorem pairing_static {invoke : LoopEnv → LLMState → LLMStore → Result LLMStore LLMState}
    {next : ReducerId} (hw : PairedStore w) (hat : PairedAt next state.messages)
    (hknown : Known state.messages w) :
    pairing.Routed ⟨invoke, some (StaticLLMRouter.route next)⟩ env state w :=
  StaticLLMRouter.routed (fun _ => hw) fun _ => ⟨hw, hat, hknown⟩

theorem pairing_load (h : pairing.inside .load state w) :
    pairing.Keeps ⟨LoadLLMReducer.invoke, some (StaticLLMRouter.route .summarize)⟩ env state w := by
  obtain ⟨hw, hplain, hknown⟩ := h
  refine LoadLLMReducer.invoke_ensures ?_ ?_
  · intro _
    refine pairing_static hw ?_ hknown
    exact Paired.append_messages .nil hplain
  · intro persisted _ hstored
    obtain ⟨hpaired, hstoredKnown⟩ := hw.stored persisted hstored
    exact pairing_static hw (hpaired.append_messages hplain)
      (hstoredKnown.append_messages hplain)

theorem pairing_summarize (h : pairing.inside .summarize state w) :
    pairing.Keeps ⟨SummarizationLLMReducer.invoke yamlLength cfg,
      some (StaticLLMRouter.route .callModel)⟩ env state w := by
  obtain ⟨hw, hpaired, hknown⟩ := h
  refine SummarizationLLMReducer.invoke_ensures (pairing_static hw hpaired hknown) ?_ ?_
  · intro _ _
    exact hw.note fun plain heq => by cases heq
  · intro text head tail context items _ hsplit _
    have hhead : head = (SummarizationLLMReducer.split yamlLength cfg.keepTokens
        state.messages).1 := by rw [hsplit]
    subst hhead
    refine pairing_static ?_ (Paired.split_fst hpaired) ?_
    · have hcalled : PairedStore (w.note .summaryCalled) := hw.note fun plain heq => by cases heq
      exact PairedStore.note (hcalled.of_eq rfl rfl) fun plain heq => by cases heq
    · refine Known.note (Known.mono (hknown.sublist split_fst_sublist) ?_) _
      intro id hid
      simpa [LLMStore.issued, LLMStore.note, LoopEvent.issued] using hid

theorem pairing_callModel (h : pairing.inside .callModel state w)
    (hunique : UniqueReply env ⟨.running .callModel state, w⟩) :
    pairing.Keeps ⟨CallModelLLMReducer.invoke cfg,
      some (ConditionalLLMRouter.route afterCallModel)⟩ env state w := by
  obtain ⟨hw, hpaired, hknown⟩ := h
  obtain ⟨prepared, hprepared⟩ : ∃ p, CallModelLLMReducer.prepare cfg env state w = p := ⟨_, rfl⟩
  have hrecorded : PairedStore (CallModelLLMReducer.recorded prepared w) := hw.of_eq rfl rfl
  have hcalled : PairedStore ((CallModelLLMReducer.recorded prepared w).note
      (.modelCalled (CallModelLLMReducer.callRecord prepared).input)) :=
    hrecorded.note fun plain heq => by cases heq
  refine CallModelLLMReducer.invoke_ensures hprepared hw hrecorded
    (fun _ hroute => ConditionalLLMRouter.routed_stopped hroute hrecorded) (fun _ => hcalled)
    (fun _ hroute => ConditionalLLMRouter.routed_stopped hroute hcalled) ?_
  · intro reply output _ hreply houtput w'
    obtain ⟨hnodup, hfresh⟩ := hunique state reply rfl hreply
    rw [← houtput] at hnodup hfresh
    have hw'' : PairedStore ((w'.createItems [.response output]).note (.replied output)) :=
      PairedStore.note (hcalled.of_eq rfl rfl) fun plain heq => by cases heq
    have hknown' : Known (state.messages ++ [.response output])
        ((w'.createItems [.response output]).note (.replied output)) := by
      intro id hid
      rw [List.flatMap_append, List.mem_append] at hid
      have hissued : id ∈ (LLMMessage.response output).callIds ++ w.issued := by
        rcases hid with hid | hid
        · exact List.mem_append_right _ (hknown id hid)
        · exact List.mem_append_left _ (by simpa using hid)
      simpa [LLMStore.issued, LLMStore.note, LoopEvent.issued, LLMStore.createItems, w',
        CallModelLLMReducer.recorded] using hissued
    refine afterCallModel_routed rfl (fun _ => hw'') ?_ ?_
    · intro _
      refine ⟨hw'', ⟨state.messages, .response output, rfl, rfl, hpaired, hnodup, ?_⟩, hknown'⟩
      intro id hid hmem
      exact hfresh id hid (hknown id hmem)
    · intro hcalls
      refine ⟨hw'', Paired.append_messages hpaired ?_, hknown'⟩
      intro m hm
      rw [List.mem_singleton.mp hm]
      exact ⟨by simp [LLMMessage.callIds, hcalls], rfl⟩

theorem pairing_callTools (h : pairing.inside .callTools state w) :
    pairing.Keeps ⟨CallToolsLLMReducer.invoke, some (StaticLLMRouter.route .toolsSave)⟩ env
      state w := by
  obtain ⟨hw, ⟨front, r, hmessages, hr, hpaired, hnodup, hfresh⟩, hknown⟩ := h
  have hran : PairedStore
      (w.note (.toolsRun (CallToolsLLMReducer.filterToolCalls state.messages))) :=
    hw.note fun plain heq => by cases heq
  have hcalls : CallToolsLLMReducer.filterToolCalls state.messages = r.toolCalls := by
    rw [hmessages, filterToolCalls_concat]
  refine CallToolsLLMReducer.invoke_ensures hw
    (fun hroute => StaticLLMRouter.routed_stopped hroute hw) (fun _ => hran)
    (fun _ hroute => StaticLLMRouter.routed_stopped hroute hran) ?_
  intro _ results
  have hresults : ∀ m ∈ results, m.callIds = [] := fun m hm => outputs_callIds hm
  have hmessages' : state.messages ++ results = front ++ r :: results := by simp [hmessages]
  refine pairing_static (hran.of_eq rfl rfl) ?_ ?_
  · change Paired (state.messages ++ results)
    rw [hmessages']
    refine hpaired.append_exchange hr hnodup hfresh hresults ?_
    rw [outputs_answer, hcalls]
    rfl
  · intro id hid
    change id ∈ (state.messages ++ results).flatMap LLMMessage.callIds at hid
    rw [List.flatMap_append, CallPairing.flatMap_asks_eq_nil hresults, List.append_nil] at hid
    exact Known.note hknown _ id hid

theorem pairing_toolsSave (h : pairing.inside .toolsSave state w) :
    pairing.Keeps ⟨SaveLLMReducer.invoke, some (AfterToolsRouter.route cfg)⟩ env state w := by
  obtain ⟨hw, hpaired, hknown⟩ := h
  refine SaveLLMReducer.invoke_ensures hw ?_
  intro _ plain
  have hsaved : PairedStore (w.save plain) := hw.save hpaired hknown
  have hknown' : Known state.messages (w.save plain) := hknown.save plain
  refine AfterToolsRouter.routed (fun _ => hsaved) hsaved ⟨hsaved, hpaired, hknown'⟩ ?_
  intro _ _
  have hinjected : PairedStore ((w.save plain).note (.injected env.drained)) :=
    hsaved.note fun plain heq => by cases heq
  refine ⟨hinjected, ?_, ?_⟩
  · exact Paired.append_messages hpaired fun m => isPlain_of_mem_buffer
  · exact (hknown'.append_messages fun m => isPlain_of_mem_buffer).note _

theorem pairing_save (h : pairing.inside .save state w) :
    pairing.Keeps ⟨SaveLLMReducer.invoke,
      some (ConditionalLLMRouter.route (afterSave cfg))⟩ env state w := by
  obtain ⟨hw, hpaired, hknown⟩ := h
  refine SaveLLMReducer.invoke_ensures hw ?_
  intro _ plain
  have hsaved : PairedStore (w.save plain) := hw.save hpaired hknown
  exact afterSave_routed (fun _ => hsaved) fun _ => ⟨hsaved, hpaired, hknown.save plain⟩

theorem pairing_enforceTools (h : pairing.inside .enforceTools state w) :
    pairing.Keeps ⟨fun _ => EnforceToolsLLMReducer.invoke cfg,
      some (ConditionalLLMRouter.route afterEnforceTools)⟩ env state w := by
  obtain ⟨hw, hpaired, hknown⟩ := h
  refine EnforceToolsLLMReducer.invoke_ensures ?_ ?_
  · intro _
    exact afterEnforceTools_routed (fun _ => hw) fun _ => ⟨hw, hpaired, hknown⟩
  · intro _ _
    have hw' : PairedStore (w.note .restricted) := hw.note fun plain heq => by cases heq
    refine afterEnforceTools_routed (fun _ => hw') fun _ => ⟨hw', ?_, ?_⟩
    · refine Paired.append_messages hpaired ?_
      intro m hm
      rw [List.mem_singleton.mp hm]
      exact ⟨rfl, rfl⟩
    · refine (Known.append_messages hknown ?_).note _
      intro m hm
      rw [List.mem_singleton.mp hm]
      exact ⟨rfl, rfl⟩

/-- Every reducer of the loop keeps the pairs. -/
theorem pairing_keeps {current : ReducerId} {reducer : Reducer ReducerId LLMState LLMStore LoopEnv}
    (hunique : UniqueReply env ⟨.running current state, w⟩)
    (hreducer : prepareLoop yamlLength cfg current = some reducer)
    (h : pairing.inside current state w) : pairing.Keeps reducer env state w := by
  refine prepareLoop_keeps ?_ ?_ ?_ ?_ ?_ ?_ ?_ hreducer
  · intro hcurrent
    subst hcurrent
    exact pairing_load h
  · intro hcurrent
    subst hcurrent
    exact pairing_summarize h
  · intro hcurrent
    subst hcurrent
    exact pairing_callModel h hunique
  · intro hcurrent
    subst hcurrent
    exact pairing_callTools h
  · intro hcurrent
    subst hcurrent
    exact pairing_toolsSave h
  · intro hcurrent
    subst hcurrent
    exact pairing_save h
  · intro hcurrent _
    subst hcurrent
    exact pairing_enforceTools h

end Keeping

theorem PairedStore.loop {yamlLength : LLMMessage → ℕ} {w : LLMStore} (h : PairedStore w)
    (r : AgentRun)
    (hunique : Along (prepareLoop yamlLength r.cfg) UniqueReply r.envs (startRun r.messages w)) :
    PairedStore (r.loop yamlLength w).world := by
  have hstart : pairing.Holds (startRun r.messages w) := by
    refine ⟨h, fun m => isPlain_of_mem_buffer, ?_⟩
    intro id hid
    change id ∈ (r.messages.map Subtype.val).flatMap LLMMessage.callIds at hid
    rw [CallPairing.flatMap_asks_eq_nil fun m hm => (isPlain_of_mem_buffer hm).1] at hid
    cases hid
  have hend : pairing.Holds (r.loop yamlLength w) :=
    Invariant.run (fun _ _ _ h => h.1) hunique
      (fun env _ current state w reducer hP hreducer hinside =>
        pairing_keeps hP hreducer hinside) hstart
  exact hend.world (fun _ _ _ h => h.1) (fun _ _ h => h) fun _ h => h

theorem PairedStore.empty : PairedStore .empty :=
  ⟨fun plain h => (by cases h), fun plain h => (by cases h)⟩

theorem UniqueReply.of_reply {env : LoopEnv} {m : AgentMachine} {reply : List ResponseItem}
    (hreply : env.reply = .ok reply)
    (hnodup : (LLMMessage.response (reply.map ResponseItem.sanitize)).callIds.Nodup)
    (hfresh : ∀ id ∈ (LLMMessage.response (reply.map ResponseItem.sanitize)).callIds,
      id ∉ m.world.issued) : UniqueReply env m := by
  intro state reply' _ hreply'
  rw [hreply] at hreply'
  cases hreply'
  exact ⟨hnodup, hfresh⟩

/-- Over any runs of a thread, every conversation that is saved has its tool calls and its
outputs in pairs. -/
theorem saved_calls_paired (yamlLength : LLMMessage → ℕ) (rs : List AgentRun)
    (hunique : ThreadAlong yamlLength (fun _ => UniqueReply) rs .empty) (plain : PlainLLMState)
    (hsaved : .saved plain ∈ (runThread yamlLength rs .empty).journal) :
    CallsPaired plain.messages := by
  have hstore : PairedStore (runThread yamlLength rs .empty) :=
    hunique.preserves PairedStore.empty fun r w halong hw => hw.loop r halong
  exact (hstore.saved plain hsaved).callsPaired

theorem saved_call_paired :
    let call : ToolCallMessage := ⟨"c1", "search", "{}"⟩
    CallsPaired [.human "Find it.", .response [.toolCall call], .toolOutput "c1" "ok"] :=
  saved_calls_paired (fun _ => 0)
    [⟨.basic, [.human "Find it."],
      [.calm [], .calm [], .calm [.toolCall ⟨"c1", "search", "{}"⟩], .calm [], .calm []]⟩]
    ⟨⟨.of_reply rfl (by decide) (by decide), .of_reply rfl (by decide) (by decide),
      .of_reply rfl (by decide) (by decide), .of_reply rfl (by decide) (by decide),
      .of_reply rfl (by decide) (by decide), trivial⟩, trivial⟩
    ⟨_, none, ⟨[1, 2, 3], [], none, some ⟨some 0⟩, some [2, 3]⟩⟩ (by decide)

end Agyn
