import Agyn.ContextSlots

/-!
The sequence of messages that a model call is sent. It has the conversation at consecutive
indices, and no two of its messages keep their ids in one slot.
-/
namespace Agyn

namespace CallModelLLMReducer

section Sequences

variable {systemPrompt : String} {summaryText : Option String} {memory : Option MemoryResult}
  {conversation : List LLMMessage} {e : SequenceEntry} {place : MemoryPlacement}

theorem mem_memoryAt (h : e ∈ memoryAt memory place) :
    ∃ text, memory = some ⟨some text, place⟩ ∧ e = .memory text place := by
  unfold memoryAt at h
  cases memory with
  | none => simp at h
  | some result =>
    obtain ⟨message, place'⟩ := result
    cases message with
    | none => simp at h
    | some text =>
      by_cases hplace : place' = place
      · subst hplace
        exact ⟨text, by simpa using h⟩
      · simp [hplace] at h

theorem memoryAt_length : (memoryAt memory place).length ≤ 1 := by
  unfold memoryAt
  cases memory with
  | none => simp
  | some result =>
    obtain ⟨message, place'⟩ := result
    cases message with
    | none => simp
    | some text => by_cases hplace : place' = place <;> simp [hplace]

theorem memoryAt_index : (memoryAt memory place).filterMap SequenceEntry.index? = [] := by
  rw [List.filterMap_eq_nil_iff]
  intro e he
  obtain ⟨text, -, rfl⟩ := mem_memoryAt he
  rfl

theorem buildSequence_index :
    (buildSequence systemPrompt summaryText memory conversation).filterMap SequenceEntry.index? =
      List.range conversation.length := by
  have hsummary : (summaryText.map SequenceEntry.summary).toList.filterMap
      SequenceEntry.index? = [] := by
    cases summaryText <;> rfl
  have hconversation : (conversation.zipIdx.map fun m => SequenceEntry.conversation m.1 m.2
      ).filterMap SequenceEntry.index? = List.range conversation.length := by
    rw [List.filterMap_map]
    change conversation.zipIdx.filterMap (fun m => some m.2) = _
    rw [List.filterMap_eq_map', List.zipIdx_map_snd, List.range_eq_range']
  unfold buildSequence
  simp only [List.filterMap_append, hsummary, hconversation, memoryAt_index]
  simp [SequenceEntry.index?]

theorem isConversation_eq (e : SequenceEntry) : e.isConversation = e.index?.isSome := by
  cases e <;> rfl

theorem countP_isConversation (sequence : List SequenceEntry) :
    sequence.countP SequenceEntry.isConversation =
      (sequence.filterMap SequenceEntry.index?).length := by
  induction sequence with
  | nil => rfl
  | cons e sequence ih =>
    rw [List.countP_cons, ih, isConversation_eq]
    cases hindex : e.index? <;> simp [hindex]

/-- What a sequence consists of. -/
theorem mem_buildSequence (h : e ∈ buildSequence systemPrompt summaryText memory conversation) :
    e = .system systemPrompt ∨ (∃ text, summaryText = some text ∧ e = .summary text) ∨
      (∃ text place, memory = some ⟨some text, place⟩ ∧ e = .memory text place) ∨
        ∃ message index, conversation[index]? = some message ∧ e = .conversation message index := by
  unfold buildSequence at h
  simp only [List.mem_append, List.mem_singleton] at h
  rcases h with (((h | h) | h) | h) | h
  · exact .inl h
  · right
    left
    cases summaryText with
    | none => simp at h
    | some text => exact ⟨text, rfl, by simpa using h⟩
  · obtain ⟨text, hmemory, heq⟩ := mem_memoryAt h
    exact .inr (.inr (.inl ⟨text, _, hmemory, heq⟩))
  · obtain ⟨m, hm, heq⟩ := List.mem_map.mp h
    exact .inr (.inr (.inr ⟨m.1, m.2, List.mem_zipIdx_iff_getElem?.mp hm, heq.symm⟩))
  · obtain ⟨text, hmemory, heq⟩ := mem_memoryAt h
    exact .inr (.inr (.inl ⟨text, _, hmemory, heq⟩))

theorem conversation_mem_buildSequence {message : LLMMessage} {index : ℕ}
    (h : conversation[index]? = some message) :
    .conversation message index ∈
      buildSequence systemPrompt summaryText memory conversation := by
  have hmem : .conversation message index ∈
      conversation.zipIdx.map fun m => SequenceEntry.conversation m.1 m.2 :=
    List.mem_map.mpr ⟨(message, index), List.mem_zipIdx_iff_getElem?.mpr h, rfl⟩
  unfold buildSequence
  simp only [List.mem_append]
  exact .inl (.inr hmem)

/-- No two messages of a sequence keep their ids at one place. -/
theorem buildSequence_distinct :
    (buildSequence systemPrompt summaryText memory conversation).Pairwise
      fun a b => a.slot ≠ b.slot := by
  have hshort : ∀ l : List SequenceEntry, l.length ≤ 1 → l.Pairwise fun a b => a.slot ≠ b.slot := by
    intro l hl
    match l, hl with
    | [], _ => exact List.Pairwise.nil
    | [e], _ => exact List.pairwise_singleton _ e
  have hsummary : ∀ a ∈ (summaryText.map SequenceEntry.summary).toList, a.slot = .summary := by
    intro a ha
    cases summaryText with
    | none => simp at ha
    | some text =>
      have ha : a = .summary text := by simpa using ha
      rw [ha]
      rfl
  have hmemory : ∀ place, ∀ a ∈ memoryAt memory place, a.slot = .memory place := by
    intro place a ha
    obtain ⟨text, -, rfl⟩ := mem_memoryAt ha
    rfl
  have hconversation : ∀ a ∈ conversation.zipIdx.map (fun m =>
      SequenceEntry.conversation m.1 m.2), ∃ index, a.slot = .conversation index := by
    intro a ha
    obtain ⟨m, -, rfl⟩ := List.mem_map.mp ha
    exact ⟨m.2, rfl⟩
  have hindices : (conversation.zipIdx.map fun m =>
      SequenceEntry.conversation m.1 m.2).Pairwise fun a b => a.slot ≠ b.slot := by
    rw [List.pairwise_iff_getElem]
    intro i j hi hj hij
    simp only [List.getElem_map, List.getElem_zipIdx, SequenceEntry.slot_conversation, ne_eq,
      SequenceEntry.Slot.conversation.injEq]
    omega
  unfold buildSequence
  simp only [List.pairwise_append, List.mem_append, List.mem_singleton]
  refine ⟨⟨⟨⟨hshort _ (by simp), hshort _ (by cases summaryText <;> simp), ?_⟩,
    hshort _ memoryAt_length, ?_⟩, hindices, ?_⟩, hshort _ memoryAt_length, ?_⟩
  · intro a ha b hb
    simp [ha, hsummary b hb]
  · intro a ha b hb
    rcases ha with ha | ha
    · simp [ha, hmemory _ b hb]
    · simp [hsummary a ha, hmemory _ b hb]
  · intro a ha b hb
    obtain ⟨index, hb⟩ := hconversation b hb
    rcases ha with (ha | ha) | ha
    · simp [ha, hb]
    · simp [hsummary a ha, hb]
    · simp [hmemory _ a ha, hb]
  · intro a ha b hb
    rcases ha with ((ha | ha) | ha) | ha
    · simp [ha, hmemory _ b hb]
    · simp [hsummary a ha, hmemory _ b hb]
    · simp [hmemory _ a ha, hmemory _ b hb]
    · obtain ⟨index, ha⟩ := hconversation a ha
      simp [ha, hmemory _ b hb]

end Sequences

end CallModelLLMReducer

end Agyn
