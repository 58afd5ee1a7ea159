import Agyn.LoopRules
import Mathlib.Data.List.Perm.Subperm

/-!
What a run does to the history of its thread. After a load that succeeds, each stored
message stands in front of the run's own messages until a fold takes it into the summary,
and so it is with every conversation that is saved. A load that fails is not an error for
the loop: the run begins with an empty history, and its first save replaces the stored one.
-/
namespace Agyn

open Loops

/-- The messages represent the stored ones: some are kept, in order and in front, and the
others are among the folded ones. -/
def Represents (stored messages folded : List LLMMessage) : Prop :=
  ∃ kept gone new, messages = kept ++ new ∧ kept.Sublist stored ∧ (kept ++ gone).Perm stored ∧
    gone.Subperm folded

def LoopEvent.foldedTail : LoopEvent → List LLMMessage
  | .folded tail _ => tail
  | _ => []

def foldedTails (events : List LoopEvent) : List LLMMessage := events.flatMap LoopEvent.foldedTail

section Representing

variable {stored messages folded : List LLMMessage}

theorem Represents.loaded (stored new folded : List LLMMessage) :
    Represents stored (stored ++ new) folded :=
  ⟨stored, [], new, rfl, List.Sublist.refl stored, by simp, by simp⟩

theorem Represents.append (h : Represents stored messages folded) (more : List LLMMessage) :
    Represents stored (messages ++ more) folded := by
  obtain ⟨kept, gone, new, hmessages, hkept, hperm, hgone⟩ := h
  refine ⟨kept, gone, new ++ more, ?_, hkept, hperm, hgone⟩
  rw [hmessages, List.append_assoc]

/-- Without a fold the stored messages stand in front. -/
theorem Represents.isPrefix (h : Represents stored messages []) : stored <+: messages := by
  obtain ⟨kept, gone, new, hmessages, hkept, hperm, hgone⟩ := h
  have hnil : gone = [] := List.eq_nil_of_length_eq_zero (by simpa using hgone.length_le)
  rw [hnil, List.append_nil] at hperm
  have heq : kept = stored := hkept.eq_of_length hperm.length_eq
  exact ⟨new, by rw [hmessages, heq]⟩

/-- A fold of some beginning and of some messages behind it. -/
theorem Represents.fold (h : Represents stored messages folded) (idx : ℕ)
    (orphan : LLMMessage → Bool) :
    Represents stored ((messages.drop idx).filter fun m => !orphan m)
      ((messages.take idx ++ (messages.drop idx).filter orphan) ++ folded) := by
  obtain ⟨kept, gone, new, hmessages, hkept, hperm, hgone⟩ := h
  refine ⟨(kept.drop idx).filter fun m => !orphan m,
    gone ++ (kept.take idx ++ (kept.drop idx).filter orphan),
    (new.drop (idx - kept.length)).filter fun m => !orphan m, ?_, ?_, ?_, ?_⟩
  · rw [hmessages, List.drop_append, List.filter_append]
  · exact (List.filter_sublist.trans (List.drop_sublist idx kept)).trans hkept
  · rw [List.perm_iff_count] at hperm ⊢
    intro m
    have hcount := hperm m
    have hsplit := congrArg (List.count m) (List.take_append_drop idx kept)
    have hfilter := List.perm_iff_count.mp (List.filter_append_perm orphan (kept.drop idx)) m
    simp only [List.count_append] at hcount hsplit hfilter ⊢
    omega
  · rw [hmessages, List.drop_append, List.take_append, List.filter_append]
    rw [List.subperm_ext_iff] at hgone ⊢
    intro m _
    have hcount : List.count m gone ≤ List.count m folded := by
      by_cases hm : m ∈ gone
      · exact hgone m hm
      · simp [List.count_eq_zero_of_not_mem hm]
    simp only [List.count_append]
    omega

theorem Represents.split {yamlLength : LLMMessage → ℕ} {keepTokens : ℕ}
    {head tail : List LLMMessage} (h : Represents stored messages folded)
    (hsplit : SummarizationLLMReducer.split yamlLength keepTokens messages = (head, tail)) :
    Represents stored head (tail ++ folded) := by
  unfold SummarizationLLMReducer.split at hsplit
  cases hsplit
  exact h.fold (SummarizationLLMReducer.splitIdx yamlLength keepTokens messages)
    (SummarizationLLMReducer.isOrphan
      (messages.drop (SummarizationLLMReducer.splitIdx yamlLength keepTokens messages)))

end Representing

def SavesRepresent (stored : List LLMMessage) (events : List LoopEvent) : Prop :=
  ∀ later plain earlier, events = later ++ .saved plain :: earlier →
    Represents stored plain.messages (foldedTails earlier)

section Saves

variable {stored : List LLMMessage} {events : List LoopEvent}

theorem SavesRepresent.cons {e : LoopEvent} (h : SavesRepresent stored events)
    (he : ∀ plain, e ≠ .saved plain) : SavesRepresent stored (e :: events) := by
  intro later plain earlier heq
  cases later with
  | nil => exact absurd (List.cons.inj heq).1 (he plain)
  | cons _ later => exact h later plain earlier (List.cons.inj heq).2

theorem SavesRepresent.save {plain : PlainLLMState} (h : SavesRepresent stored events)
    (hplain : Represents stored plain.messages (foldedTails events)) :
    SavesRepresent stored (.saved plain :: events) := by
  intro later plain' earlier heq
  cases later with
  | nil =>
    obtain ⟨hplain', hearlier⟩ := List.cons.inj heq
    cases hplain'
    rw [← hearlier]
    exact hplain
  | cons _ later => exact h later plain' earlier (List.cons.inj heq).2

end Saves

/-- Behind the load, the messages of the loop and of every save represent the stored ones. -/
def historyKept (stored : List LLMMessage) (w₀ : LLMStore) :
    Invariant ReducerId LLMState LLMStore where
  inside := fun current state w => current ≠ .load ∧
    ∃ events, Since (SavesRepresent stored) w₀ w events ∧
      Represents stored state.messages (foldedTails events)
  ended := fun _ w => ∃ events, Since (SavesRepresent stored) w₀ w events
  broken := fun w => ∃ events, Since (SavesRepresent stored) w₀ w events

section Keeping

variable {yamlLength : LLMMessage → ℕ} {cfg : AgentLoopConfig} {env : LoopEnv}
  {state : LLMState} {w w₀ : LLMStore} {stored : List LLMMessage} {events : List LoopEvent}

theorem foldedTails_cons {e : LoopEvent} (he : e.foldedTail = []) :
    foldedTails (e :: events) = foldedTails events := by
  simp [foldedTails, he]

theorem historyKept_static {invoke : LoopEnv → LLMState → LLMStore → Result LLMStore LLMState}
    {next : ReducerId} (hnext : next ≠ .load) (hsince : Since (SavesRepresent stored) w₀ w events)
    (hmessages : Represents stored state.messages (foldedTails events)) :
    (historyKept stored w₀).Routed ⟨invoke, some (StaticLLMRouter.route next)⟩ env state w :=
  StaticLLMRouter.routed (fun _ => ⟨events, hsince⟩)
    fun _ => ⟨hnext, events, hsince, hmessages⟩

theorem historyKept_summarize (hsince : Since (SavesRepresent stored) w₀ w events)
    (hmessages : Represents stored state.messages (foldedTails events)) :
    (historyKept stored w₀).Keeps ⟨SummarizationLLMReducer.invoke yamlLength cfg,
      some (StaticLLMRouter.route .callModel)⟩ env state w := by
  have hcalled : Since (SavesRepresent stored) w₀ (w.note .summaryCalled)
      (.summaryCalled :: events) :=
    hsince.note (hsince.holds.cons fun plain heq => by cases heq)
  refine SummarizationLLMReducer.invoke_ensures
    (historyKept_static (by decide) hsince hmessages) (fun _ _ => ⟨_, hcalled⟩) ?_
  intro text head tail context items _ hsplit _
  refine historyKept_static (by decide)
    (Since.note (hcalled.of_eq rfl) (hcalled.holds.cons fun plain heq => by cases heq)) ?_
  exact hmessages.split hsplit

theorem historyKept_callModel (hsince : Since (SavesRepresent stored) w₀ w events)
    (hmessages : Represents stored state.messages (foldedTails events)) :
    (historyKept stored w₀).Keeps ⟨CallModelLLMReducer.invoke cfg,
      some (ConditionalLLMRouter.route afterCallModel)⟩ env state w := by
  obtain ⟨prepared, hprepared⟩ : ∃ p, CallModelLLMReducer.prepare cfg env state w = p := ⟨_, rfl⟩
  have hrecorded :
      Since (SavesRepresent stored) w₀ (CallModelLLMReducer.recorded prepared w) events :=
    hsince.of_eq rfl
  have hcalled : Since (SavesRepresent stored) w₀ ((CallModelLLMReducer.recorded prepared w).note
      (.modelCalled (CallModelLLMReducer.callRecord prepared).input)) (.modelCalled _ :: events) :=
    hrecorded.note (hrecorded.holds.cons fun plain heq => by cases heq)
  refine CallModelLLMReducer.invoke_ensures hprepared ⟨_, hsince⟩ ⟨_, hrecorded⟩
    (fun _ hroute => ConditionalLLMRouter.routed_stopped hroute ⟨_, hrecorded⟩)
    (fun _ => ⟨_, hcalled⟩)
    (fun _ hroute => ConditionalLLMRouter.routed_stopped hroute ⟨_, hcalled⟩) ?_
  intro reply output _ _ _ w'
  have hreplied : Since (SavesRepresent stored) w₀
      ((w'.createItems [.response output]).note (.replied output))
      (.replied output :: .modelCalled _ :: events) :=
    Since.note (hcalled.of_eq rfl) (hcalled.holds.cons fun plain heq => by cases heq)
  have hmessages' : Represents stored (state.messages ++ [.response output])
      (foldedTails (.replied output ::
        .modelCalled (CallModelLLMReducer.callRecord prepared).input :: events)) := by
    rw [foldedTails_cons rfl, foldedTails_cons rfl]
    exact hmessages.append _
  exact afterCallModel_routed rfl (fun _ => ⟨_, hreplied⟩)
    (fun _ => ⟨by decide, _, hreplied, hmessages'⟩) fun _ => ⟨by decide, _, hreplied, hmessages'⟩

theorem historyKept_callTools (hsince : Since (SavesRepresent stored) w₀ w events)
    (hmessages : Represents stored state.messages (foldedTails events)) :
    (historyKept stored w₀).Keeps
      ⟨CallToolsLLMReducer.invoke, some (StaticLLMRouter.route .toolsSave)⟩ env state w := by
  have hran : Since (SavesRepresent stored) w₀
      (w.note (.toolsRun (CallToolsLLMReducer.filterToolCalls state.messages)))
      (.toolsRun _ :: events) := hsince.note (hsince.holds.cons fun plain heq => by cases heq)
  refine CallToolsLLMReducer.invoke_ensures ⟨_, hsince⟩
    (fun hroute => StaticLLMRouter.routed_stopped hroute ⟨_, hsince⟩) (fun _ => ⟨_, hran⟩)
    (fun _ hroute => StaticLLMRouter.routed_stopped hroute ⟨_, hran⟩) ?_
  intro _ results
  refine historyKept_static (by decide) (hran.of_eq rfl) ?_
  rw [foldedTails_cons rfl]
  exact hmessages.append results

theorem historyKept_toolsSave (hsince : Since (SavesRepresent stored) w₀ w events)
    (hmessages : Represents stored state.messages (foldedTails events)) :
    (historyKept stored w₀).Keeps
      ⟨SaveLLMReducer.invoke, some (AfterToolsRouter.route cfg)⟩ env state w := by
  refine SaveLLMReducer.invoke_ensures ⟨_, hsince⟩ ?_
  intro _ plain
  have hsaved : Since (SavesRepresent stored) w₀ (w.save plain) (.saved plain :: events) :=
    hsince.save (hsince.holds.save hmessages)
  have hmessages' : Represents stored state.messages (foldedTails (.saved plain :: events)) := by
    rw [foldedTails_cons rfl]
    exact hmessages
  have hinjected : Since (SavesRepresent stored) w₀ ((w.save plain).note (.injected env.drained))
      (.injected env.drained :: .saved plain :: events) :=
    hsaved.note (hsaved.holds.cons fun plain heq => by cases heq)
  refine AfterToolsRouter.routed (fun _ => ⟨_, hsaved⟩) ⟨_, hsaved⟩
    ⟨by decide, _, hsaved, hmessages'⟩ fun _ _ => ⟨by decide, _, hinjected, ?_⟩
  rw [foldedTails_cons rfl]
  exact hmessages'.append _

theorem historyKept_save (hsince : Since (SavesRepresent stored) w₀ w events)
    (hmessages : Represents stored state.messages (foldedTails events)) :
    (historyKept stored w₀).Keeps
      ⟨SaveLLMReducer.invoke, some (ConditionalLLMRouter.route (afterSave cfg))⟩ env state w := by
  refine SaveLLMReducer.invoke_ensures ⟨_, hsince⟩ ?_
  intro _ plain
  have hsaved : Since (SavesRepresent stored) w₀ (w.save plain) (.saved plain :: events) :=
    hsince.save (hsince.holds.save hmessages)
  refine afterSave_routed (fun _ => ⟨_, hsaved⟩) fun _ => ⟨by decide, _, hsaved, ?_⟩
  rw [foldedTails_cons rfl]
  exact hmessages

theorem historyKept_enforceTools (hsince : Since (SavesRepresent stored) w₀ w events)
    (hmessages : Represents stored state.messages (foldedTails events)) :
    (historyKept stored w₀).Keeps ⟨fun _ => EnforceToolsLLMReducer.invoke cfg,
      some (ConditionalLLMRouter.route afterEnforceTools)⟩ env state w := by
  refine EnforceToolsLLMReducer.invoke_ensures ?_ ?_
  · intro _
    exact afterEnforceTools_routed (fun _ => ⟨_, hsince⟩)
      fun _ => ⟨by decide, _, hsince, hmessages⟩
  · intro _ _
    have hrestricted :
        Since (SavesRepresent stored) w₀ (w.note .restricted) (.restricted :: events) :=
      hsince.note (hsince.holds.cons fun plain heq => by cases heq)
    refine afterEnforceTools_routed (fun _ => ⟨_, hrestricted⟩)
      fun _ => ⟨by decide, _, hrestricted, ?_⟩
    rw [foldedTails_cons rfl]
    exact hmessages.append _

theorem historyKept_keeps {current : ReducerId}
    {reducer : Reducer ReducerId LLMState LLMStore LoopEnv}
    (hreducer : prepareLoop yamlLength cfg current = some reducer)
    (h : (historyKept stored w₀).inside current state w) :
    (historyKept stored w₀).Keeps reducer env state w := by
  obtain ⟨hcurrent, events, hsince, hmessages⟩ := h
  exact prepareLoop_keeps (fun h => absurd h hcurrent)
    (fun _ => historyKept_summarize hsince hmessages)
    (fun _ => historyKept_callModel hsince hmessages)
    (fun _ => historyKept_callTools hsince hmessages)
    (fun _ => historyKept_toolsSave hsince hmessages)
    (fun _ => historyKept_save hsince hmessages)
    (fun _ _ => historyKept_enforceTools hsince hmessages) hreducer

/-- A load that reads the stored state puts it in front. -/
theorem historyKept_load {plain : PlainLLMState} (hfault : env.fault = none)
    (hstored : w.stored = some plain) :
    (historyKept plain.messages w).Keeps
      ⟨LoadLLMReducer.invoke, some (StaticLLMRouter.route .summarize)⟩ env state w := by
  have hsince : Since (SavesRepresent plain.messages) w w [] :=
    Since.start w fun later plain' earlier heq => by simp at heq
  refine LoadLLMReducer.invoke_ensures ?_ ?_
  · intro hown
    rcases hown with hown | hown
    · exact absurd hfault hown
    · rw [hstored] at hown
      cases hown
  · intro persisted _ hpersisted
    rw [hstored] at hpersisted
    cases hpersisted
    exact historyKept_static (by decide) hsince (Represents.loaded _ _ _)

end Keeping

theorem AgentRun.loop_historyKept {yamlLength : LLMMessage → ℕ} {r : AgentRun} {w : LLMStore}
    {stored : PlainLLMState} (hstored : w.stored = some stored)
    (hload : ∀ env ∈ r.envs.head?, env.fault = none) (hne : r.envs ≠ []) :
    (historyKept stored.messages w).Holds (r.loop yamlLength w) := by
  have hbroken : ∀ current state w', (historyKept stored.messages w).inside current state w' →
      (historyKept stored.messages w).broken w' := by
    intro current state w' h
    obtain ⟨-, events, hsince, -⟩ := h
    exact ⟨events, hsince⟩
  unfold AgentRun.loop
  cases henvs : r.envs with
  | nil => exact absurd henvs hne
  | cons env envs =>
    have hfault : env.fault = none := hload env (by rw [henvs]; rfl)
    have hturn : (historyKept stored.messages w).Holds
        (step (prepareLoop yamlLength r.cfg) env (startRun r.messages w)) :=
      Invariant.holds_turn hbroken (historyKept_load hfault hstored)
    change (historyKept stored.messages w).Holds
      (run (prepareLoop yamlLength r.cfg) envs
        (step (prepareLoop yamlLength r.cfg) env (startRun r.messages w)))
    exact Invariant.run (P := fun _ _ => True) hbroken (Along.of_forall fun _ _ _ => trivial)
      (fun _ _ _ _ _ _ _ hreducer h => historyKept_keeps hreducer h) hturn

/-- When the load of a run reads the stored conversation, every conversation that the run saves
represents it. -/
theorem saved_represents_stored (yamlLength : LLMMessage → ℕ) (r : AgentRun) (w : LLMStore)
    (stored : PlainLLMState) (hstored : w.stored = some stored)
    (hload : ∀ env ∈ r.envs.head?, env.fault = none)
    (later earlier : List LoopEvent) (plain : PlainLLMState)
    (hsaved : (r.loop yamlLength w).world.journal =
      later ++ .saved plain :: earlier ++ w.journal) :
    Represents stored.messages plain.messages (foldedTails earlier) := by
  have hne : r.envs ≠ [] := by
    intro hnil
    have hlength := congrArg List.length hsaved
    unfold AgentRun.loop at hlength
    rw [hnil] at hlength
    simp only [List.length_append, List.length_cons] at hlength
    change w.journal.length = _ at hlength
    omega
  have hholds : (historyKept stored.messages w).Holds (r.loop yamlLength w) :=
    AgentRun.loop_historyKept hstored hload hne
  obtain ⟨events, hsince⟩ : ∃ events,
      Since (SavesRepresent stored.messages) w (r.loop yamlLength w).world events := by
    refine hholds.world ?_ (fun _ _ h => h) fun _ h => h
    intro current state w' h
    obtain ⟨-, events, hsince, -⟩ := h
    exact ⟨events, hsince⟩
  refine hsince.holds later plain earlier ?_
  exact List.append_cancel_right (hsince.journal.symm.trans hsaved)

def storedThread : LLMStore :=
  { LLMStore.empty with stored := some ⟨[.human "Remember me."], none, .empty⟩ }

theorem loaded_thread_represented :
    Represents [.human "Remember me."]
      [.human "Remember me.", .human "Hello.", .response [.message "Hi."]] [] :=
  saved_represents_stored (fun _ => 0)
    ⟨.basic, [.human "Hello."],
      [.calm [], .calm [], .calm [.message "Hi."], .calm []]⟩
    storedThread _ rfl (by simp [LoopEnv.calm]) []
    [.replied [.message "Hi."], .modelCalled
      [.system "You help.", .human "Remember me.", .human "Hello."]]
    ⟨_, none, ⟨[1, 2, 3], [], none, some ⟨some 0⟩, some [3]⟩⟩ (by decide)

/-- A run whose load fails saves a conversation without the stored message. -/
theorem failed_load_erases_history :
    let failing : LoopEnv := { LoopEnv.calm [] with fault := some "connection lost" }
    let r : AgentRun := ⟨.basic, [.human "Hello."],
      [failing, .calm [], .calm [.message "Hi."], .calm []]⟩
    let plain : PlainLLMState := ⟨[.human "Hello.", .response [.message "Hi."]], none,
      ⟨[1, 2], [], none, some ⟨some 0⟩, some [2]⟩⟩
    let earlier : List LoopEvent :=
      [.replied [.message "Hi."], .modelCalled [.system "You help.", .human "Hello."]]
    (r.loop (fun _ => 0) storedThread).world.journal =
        [] ++ .saved plain :: earlier ++ storedThread.journal ∧
      ¬ Represents [.human "Remember me."] plain.messages (foldedTails earlier) := by
  refine ⟨by decide, ?_⟩
  intro h
  have hprefix : [LLMMessage.human "Remember me."] <+:
      [.human "Hello.", .response [.message "Hi."]] := h.isPrefix
  revert hprefix
  decide

end Agyn
