import Agyn.LoopRules

/-!
What a fold does to the messages and to the context. The head loses the outputs whose calls
went to the tail, and the ids lose as many of their first ones as the tail has messages.
-/
namespace Agyn

section Folding

variable {yamlLength : LLMMessage → ℕ} {cfg : AgentLoopConfig} {state : LLMState}

open SummarizationLLMReducer

/-- The messages behind the split, before the orphans are moved. -/
def headOf (yamlLength : LLMMessage → ℕ) (cfg : AgentLoopConfig) (state : LLMState) :
    List LLMMessage :=
  state.messages.drop (splitIdx yamlLength cfg.keepTokens state.messages)

/-- The outputs that a fold moves to the tail stand in front of the head. -/
def OrphansFirst (yamlLength : LLMMessage → ℕ) (cfg : AgentLoopConfig) (state : LLMState) : Prop :=
  (headOf yamlLength cfg state).filter (isOrphan (headOf yamlLength cfg state)) <+:
    headOf yamlLength cfg state

theorem filter_not_of_kept {α : Type} {p : α → Bool} {l : List α} (h : l.filter p <+: l) :
    (l.filter fun a => !p a) = l.drop (l.filter p).length := by
  obtain ⟨rest, hrest⟩ := h
  have hnone : rest.filter p = [] := by
    have hfilter := congrArg (List.filter p) hrest
    rw [List.filter_append, List.filter_filter] at hfilter
    simp only [Bool.and_self] at hfilter
    exact List.append_cancel_left (hfilter.trans (List.append_nil _).symm)
  have hself : (rest.filter fun a => !p a) = rest := by
    refine List.filter_eq_self.mpr ?_
    intro a ha
    simpa using List.filter_eq_nil_iff.mp hnone a ha
  have hdrop : (l.filter fun a => !p a) = rest := by
    conv_lhs => rw [← hrest]
    rw [List.filter_append, hself, List.filter_filter]
    simp
  calc (l.filter fun a => !p a) = rest := hdrop
    _ = (l.filter p ++ rest).drop (l.filter p).length := by simp
    _ = l.drop (l.filter p).length := by rw [hrest]

/-- With the orphans in front, the new head is what is left without the tail's length. -/
theorem split_of_orphansFirst {head tail : List LLMMessage} (h : OrphansFirst yamlLength cfg state)
    (hsplit : split yamlLength cfg.keepTokens state.messages = (head, tail)) :
    head = state.messages.drop tail.length := by
  unfold split moveOrphanToolOutputsToTail at hsplit
  obtain ⟨hhead, htail⟩ := Prod.mk.inj hsplit
  change ((headOf yamlLength cfg state).filter fun m =>
    !isOrphan (headOf yamlLength cfg state) m) = head at hhead
  rw [filter_not_of_kept h] at hhead
  have hidx : splitIdx yamlLength cfg.keepTokens state.messages ≤ state.messages.length := by
    unfold splitIdx
    omega
  rw [← hhead, ← htail, List.length_append, List.length_take, Nat.min_eq_left hidx]
  unfold headOf
  rw [List.drop_drop]

structure FoldedContext (context : LLMContextState) (tailLength : ℕ) (newSummary : String)
    (items : List ContextItem) (context' : LLMContextState) (items' : List ContextItem) :
    Prop where
  items_kept : items <+: items'
  messageIds : context'.messageIds = context.messageIds.drop tailLength
  system : context'.system = context.system
  memory : context'.memory = context.memory
  pending : context'.pendingNewContextItemIds = context.pendingNewContextItemIds
  summary : context'.summary = none ∨ ∃ id, context'.summary = some ⟨some id, some newSummary⟩ ∧
    (context.summary = some ⟨some id, some newSummary⟩ ∨
      items'[id]? = some (normalizeContextItem (contextItemInputFromSummary newSummary)))

theorem foldContext_folded {context context' : LLMContextState} {tailLength : ℕ}
    {newSummary : String} {items items' : List ContextItem}
    (h : foldContext context tailLength newSummary items = (context', items')) :
    FoldedContext context tailLength newSummary items context' items' := by
  have hids : (if tailLength ≥ context.messageIds.length then []
      else context.messageIds.drop tailLength) = context.messageIds.drop tailLength := by
    by_cases hle : tailLength ≥ context.messageIds.length
    · rw [if_pos hle, List.drop_eq_nil_of_le hle]
    · rw [if_neg hle]
  unfold foldContext at h
  dsimp only at h
  rw [hids] at h
  by_cases hempty : newSummary = ""
  · rw [if_pos hempty] at h
    cases h
    exact ⟨List.prefix_rfl, rfl, rfl, rfl, rfl, .inl rfl⟩
  · rw [if_neg hempty] at h
    cases hreused : context.summary.bind fun s =>
        if s.text = some newSummary then s.id else none with
    | some id =>
      rw [hreused] at h
      cases h
      obtain ⟨⟨id', text⟩, hsummary, hid⟩ := Option.bind_eq_some_iff.mp hreused
      refine ⟨List.prefix_rfl, rfl, rfl, rfl, rfl, .inr ⟨id, rfl, .inl ?_⟩⟩
      by_cases htext : text = some newSummary
      · rw [if_pos htext] at hid
        change id' = some id at hid
        rw [hsummary, htext, hid]
      · rw [if_neg htext] at hid
        cases hid
    | none =>
      rw [hreused] at h
      cases h
      exact ⟨List.prefix_append items _, rfl, rfl, rfl, rfl,
        .inr ⟨items.length, rfl, .inr (by simp)⟩⟩

end Folding

end Agyn
