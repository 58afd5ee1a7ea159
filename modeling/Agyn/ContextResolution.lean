import Agyn.InputSequences

/-!
What a model call records. As no two messages share a slot, each one is recorded with the
id that was in its slot, or else with a new item of its own.
-/
namespace Agyn

namespace CallModelLLMReducer

section Resolving

variable {context : LLMContextState} {sequence front back : List SequenceEntry}
  {items : List ContextItem} {e : SequenceEntry} {count id : ℕ}

theorem filter_range (k n : ℕ) :
    ((List.range n).filter fun i => k ≤ i) = List.range' k (n - k) := by
  induction n with
  | zero => simp
  | succ n ih =>
    rw [List.range_succ, List.filter_append, ih]
    by_cases hk : k ≤ n
    · have hlength : n + 1 - k = n - k + 1 := by omega
      have hlast : k + (n - k) = n := by omega
      simp [hk, hlength, List.range'_concat, hlast]
    · have hnone : n + 1 - k = 0 := by omega
      simp [hk, hnone, show n - k = 0 by omega]

theorem missing_index_entry (e : SequenceEntry) :
    (missing context e).filterMap PendingItem.index? =
      e.index?.toList.filter fun i => context.messageIds.length ≤ i := by
  unfold missing
  cases e with
  | conversation message index =>
    by_cases hindex : context.messageIds.length ≤ index
    · simp [reusedId, SequenceEntry.index?, hindex, PendingItem.index?, Target.ofEntry,
        Target.index?]
    · simp [reusedId, SequenceEntry.index?, hindex]
  | system text => cases reusedId context (.system text) <;> rfl
  | summary text => cases reusedId context (.summary text) <;> rfl
  | memory text place => cases reusedId context (.memory text place) <;> rfl

theorem missing_index (sequence : List SequenceEntry) :
    (sequence.flatMap (missing context)).filterMap PendingItem.index? =
      (sequence.filterMap SequenceEntry.index?).filter fun i => context.messageIds.length ≤ i := by
  induction sequence with
  | nil => rfl
  | cons e sequence ih =>
    rw [List.flatMap_cons, List.filterMap_append, ih, missing_index_entry, ← List.filter_append]
    cases hindex : e.index? <;> simp [hindex]

theorem missing_of_none (h : reusedId context e = none) :
    missing context e = [⟨e.item, .ofEntry e⟩] := if_pos h

theorem mem_missing {p : PendingItem} (h : p ∈ sequence.flatMap (missing context)) :
    ∃ e ∈ sequence, reusedId context e = none ∧ p = ⟨e.item, .ofEntry e⟩ := by
  obtain ⟨e, he, hp⟩ := List.mem_flatMap.mp h
  unfold missing at hp
  by_cases hid : reusedId context e = none
  · rw [if_pos hid] at hp
    exact ⟨e, he, hid, List.mem_singleton.mp hp⟩
  · rw [if_neg hid] at hp
    cases hp

def collected (context : LLMContextState) (sequence : List SequenceEntry) (count : ℕ) :
    LLMContextState :=
  { sequence.foldl noted context with messageIds := context.messageIds.take count }

/-- The context after the second pass. -/
def persisted (context : LLMContextState) (sequence : List SequenceEntry) (count : ℕ)
    (items : List ContextItem) : LLMContextState :=
  (persistContextItems (sequence.flatMap (missing context)) (collected context sequence count)
    items).1

theorem entryId_collected (h : reusedId context e = some id) (hindex : e.index? = none) :
    entryId (collected context sequence count) e = some id := by
  have hfold : reusedId (sequence.foldl noted context) e = some id := by
    rw [foldl_noted_frame (fun c => reusedId c e) fun c e' => reusedId_noted]
    exact h
  have hid := entryId_of_reusedId hfold
  cases e with
  | conversation message index => simp [SequenceEntry.index?] at hindex
  | system text => exact hid
  | summary text => exact hid
  | memory text place => exact hid

theorem eq_of_slot (hdistinct : sequence.Pairwise fun a b => a.slot ≠ b.slot)
    {a b : SequenceEntry} (ha : a ∈ sequence) (hb : b ∈ sequence) (hslot : a.slot = b.slot) :
    a = b :=
  List.inj_on_of_nodup_map (List.pairwise_map.mpr hdistinct) ha hb hslot

/-- An id that can be reused stays in its slot. -/
theorem entryId_persisted_of_reused
    (hdistinct : sequence.Pairwise fun a b => a.slot ≠ b.slot) (he : e ∈ sequence)
    (hindex : e.index? = none) (h : reusedId context e = some id) :
    entryId (persisted context sequence count items) e = some id := by
  unfold persisted
  rw [persistContextItems_frame fun c => entryId c e]
  · exact entryId_collected h hindex
  · intro p hp c id'
    obtain ⟨e', he', hnone, rfl⟩ := mem_missing hp
    refine entryId_assign_of_ne ?_ hindex
    intro hslot
    have heq : e' = e := eq_of_slot hdistinct he' he hslot
    rw [heq, h] at hnone
    cases hnone

/-- A slot without an id gets that of the new item. -/
theorem entryId_persisted_of_missing
    (hdistinct : (front ++ e :: back).Pairwise fun a b => a.slot ≠ b.slot)
    (hindex : e.index? = none) (h : reusedId context e = none) :
    entryId (persisted context (front ++ e :: back) count items) e =
      some (items.length + (front.flatMap (missing context)).length) := by
  unfold persisted
  rw [List.flatMap_append, List.flatMap_cons, missing_of_none h, List.singleton_append]
  rw [persistContextItems_hit fun c => entryId c e]
  · refine entryId_assign_self hindex ?_
    intro text place heq
    have hplaced : ((collected context (front ++ e :: back) count).memory.any
        fun m => m.place = place) = true := by
      refine any_place_foldl_noted (.inr ⟨text, ?_⟩)
      rw [← heq]
      simp
    rw [persistContextItems_frame fun c => c.memory.any fun m => m.place = place]
    · exact hplaced
    · intro p _ c id
      exact any_place_assign
  · intro p hp c id
    obtain ⟨e', he', -, rfl⟩ := mem_missing hp
    refine entryId_assign_of_ne ?_ hindex
    have hlater := (List.pairwise_cons.mp (List.pairwise_append.mp hdistinct).2.1).1 e' he'
    exact Ne.symm hlater

theorem persisted_item (h : reusedId context e = none) :
    (persistContextItems ((front ++ e :: back).flatMap (missing context))
        (collected context (front ++ e :: back) count) items).2[items.length +
          (front.flatMap (missing context)).length]? = some (normalizeContextItem e.item) := by
  rw [persistContextItems_items, List.flatMap_append, List.flatMap_cons, missing_of_none h]
  simp

theorem persisted_messageIds
    (hindices : sequence.filterMap SequenceEntry.index? = List.range count) :
    (persisted context sequence count items).messageIds = context.messageIds.take count ++
      newConversationIds (sequence.flatMap (missing context)) items.length := by
  refine persistContextItems_messageIds (k := count - context.messageIds.length) ?_
  rw [missing_index, hindices, filter_range]
  change _ = List.range' (context.messageIds.take count).length _
  by_cases hle : context.messageIds.length ≤ count
  · rw [List.take_of_length_le hle]
  · simp [show count - context.messageIds.length = 0 by omega]

theorem newConversationIds_missing_length
    (hindices : sequence.filterMap SequenceEntry.index? = List.range count) (first : ℕ) :
    (newConversationIds (sequence.flatMap (missing context)) first).length =
      count - context.messageIds.length := by
  rw [newConversationIds_length, missing_index, hindices, filter_range, List.length_range']

theorem filterMap_index_front {index : ℕ}
    (hindices : (front ++ e :: back).filterMap SequenceEntry.index? = List.range count)
    (hindex : e.index? = some index) :
    front.filterMap SequenceEntry.index? = List.range index ∧ index < count := by
  rw [List.filterMap_append, List.filterMap_cons_some hindex] at hindices
  have hat := congrArg (fun l => l[(front.filterMap SequenceEntry.index?).length]?) hindices
  have hlength : (front.filterMap SequenceEntry.index?).length < count := by
    have := congrArg List.length hindices
    simp only [List.length_append, List.length_cons, List.length_range] at this
    omega
  simp only [List.getElem?_append_right (Nat.le_refl _), Nat.sub_self, List.getElem?_cons_zero,
    List.getElem?_range hlength, Option.some.injEq] at hat
  refine ⟨?_, by omega⟩
  have htake := congrArg (List.take (front.filterMap SequenceEntry.index?).length) hindices
  rw [List.take_left, List.take_range] at htake
  rw [htake]
  congr 1
  omega

end Resolving

def auxIds (context : LLMContextState) : List ℕ :=
  (context.system.bind LLMContextSystemState.id).toList ++
    (context.summary.bind LLMContextSummaryState.id).toList ++
    context.memory.filterMap LLMContextMemoryEntry.id

section AuxIds

variable {context : LLMContextState} {sequence : List SequenceEntry} {pending : List PendingItem}
  {items : List ContextItem} {id : ℕ}

theorem mem_of_mem_modify {α : Type} {l : List α} {i : ℕ} {f : α → α} {a : α}
    (h : a ∈ l.modify i f) : a ∈ l ∨ ∃ b ∈ l, a = f b := by
  induction l generalizing i with
  | nil => simp at h
  | cons b l ih =>
    cases i with
    | zero =>
      rcases List.mem_cons.mp h with rfl | h
      · exact .inr ⟨b, List.mem_cons_self, rfl⟩
      · exact .inl (List.mem_cons_of_mem b h)
    | succ i =>
      rcases List.mem_cons.mp h with rfl | h
      · exact .inl List.mem_cons_self
      · rcases ih h with h | ⟨c, hc, heq⟩
        · exact .inl (List.mem_cons_of_mem b h)
        · exact .inr ⟨c, List.mem_cons_of_mem b hc, heq⟩

theorem auxIds_assign {target : Target} {new : ℕ} (h : id ∈ auxIds (assign context target new)) :
    id ∈ auxIds context ∨ id = new := by
  unfold auxIds at h ⊢
  cases target with
  | system =>
    simp only [assign, List.mem_append] at h ⊢
    rcases h with (h | h) | h
    · exact .inr (by simpa using h)
    · exact .inl (.inl (.inr h))
    · exact .inl (.inr h)
  | summary text =>
    simp only [assign, List.mem_append] at h ⊢
    rcases h with (h | h) | h
    · exact .inl (.inl (.inl h))
    · exact .inr (by simpa using h)
    · exact .inl (.inr h)
  | conversation index => exact .inl h
  | memory place =>
    simp only [assign, List.mem_append] at h ⊢
    rcases h with h | h
    · exact .inl (.inl h)
    · obtain ⟨m, hm, hid⟩ := List.mem_filterMap.mp h
      rcases mem_of_mem_modify hm with hm | ⟨m', hm', rfl⟩
      · exact .inl (.inr (List.mem_filterMap.mpr ⟨m, hm, hid⟩))
      · exact .inr (by simpa using hid.symm)

theorem auxIds_persistContextItems
    (h : id ∈ auxIds (persistContextItems pending context items).1) :
    id ∈ auxIds context ∨ id < (persistContextItems pending context items).2.length := by
  induction pending generalizing context items with
  | nil => exact .inl h
  | cons p pending ih =>
    change id ∈ auxIds (persistContextItems pending (assign context p.target items.length)
      (items ++ [normalizeContextItem p.input])).1 at h
    change _ ∨ id < (persistContextItems pending (assign context p.target items.length)
      (items ++ [normalizeContextItem p.input])).2.length
    rcases ih h with h | h
    · rcases auxIds_assign h with h | heq
      · exact .inl h
      · right
        rw [heq, persistContextItems_items]
        simp only [List.length_append, List.length_singleton]
        omega
    · exact .inr h

theorem auxIds_noted {e : SequenceEntry} (h : id ∈ auxIds (noted context e)) :
    id ∈ auxIds context := by
  cases e with
  | system text =>
    rw [noted_system] at h
    cases hsystem : context.system <;> simpa [auxIds, hsystem] using h
  | summary text => simpa using h
  | conversation message index => simpa using h
  | memory text place =>
    rw [noted_memory] at h
    unfold placed at h
    cases hany : context.memory.any fun m => m.place = place <;> simpa [auxIds, hany] using h

theorem auxIds_foldl_noted (h : id ∈ auxIds (sequence.foldl noted context)) :
    id ∈ auxIds context := by
  induction sequence generalizing context with
  | nil => exact h
  | cons e sequence ih =>
    change id ∈ auxIds (sequence.foldl noted (noted context e)) at h
    exact auxIds_noted (ih h)

end AuxIds

/-- What a call makes of a context: each message has an id that was there, or a new item. -/
structure Resolves (context : LLMContextState) (sequence : List SequenceEntry) (count : ℕ)
    (items : List ContextItem) (r : ResolvedContext) (newIds : List ℕ) : Prop where
  items_kept : items <+: r.items
  messageIds : r.context.messageIds = context.messageIds.take count ++ newIds
  messageIds_length : r.context.messageIds.length = count
  fresh : ∀ id ∈ newIds, items.length ≤ id ∧ id < r.items.length
  sorted : newIds.Pairwise (· < ·)
  ids : r.contextItemIds.map some = sequence.map (entryId r.context)
  entry : ∀ e ∈ sequence, ∃ id, entryId r.context e = some id ∧
    (reusedId context e = some id ∨ reusedId context e = none ∧ items.length ≤ id ∧
      r.items[id]? = some (normalizeContextItem e.item))
  new : r.newContextItemIds = r.contextItemIds.filter fun id =>
    id ∈ context.pendingNewContextItemIds.getD [] ++ newIds
  pending : r.context.pendingNewContextItemIds = some []
  aux : ∀ id ∈ auxIds r.context, id ∈ auxIds context ∨ id < r.items.length
  summary : ∀ id text, r.context.summary = some ⟨some id, some text⟩ →
    context.summary = some ⟨some id, some text⟩ ∨
      r.items[id]? = some (normalizeContextItem (contextItemInputFromSummary text))

section Spec

variable {context : LLMContextState} {sequence : List SequenceEntry} {items : List ContextItem}
  {count : ℕ}

theorem filterMap_map_some {α β : Type} {f : α → Option β} {l : List α}
    (h : ∀ a ∈ l, ∃ b, f a = some b) : (l.filterMap f).map some = l.map f := by
  induction l with
  | nil => rfl
  | cons a l ih =>
    obtain ⟨b, hb⟩ := h a List.mem_cons_self
    rw [List.filterMap_cons_some hb, List.map_cons, List.map_cons, hb,
      ih fun a ha => h a (List.mem_cons_of_mem _ ha)]

theorem entryId_conversation {e : SequenceEntry} {index : ℕ} (hindex : e.index? = some index)
    (context : LLMContextState) : entryId context e = context.messageIds[index]? ∧
      reusedId context e = context.messageIds[index]? := by
  cases e with
  | conversation message index' =>
    cases hindex
    exact ⟨rfl, rfl⟩
  | system text => cases hindex
  | summary text => cases hindex
  | memory text place => cases hindex

theorem persisted_conversation_of_reused {front back : List SequenceEntry} {e : SequenceEntry}
    {index id : ℕ}
    (hindices : (front ++ e :: back).filterMap SequenceEntry.index? = List.range count)
    (hindex : e.index? = some index) (h : reusedId context e = some id) :
    entryId (persisted context (front ++ e :: back) count items) e = some id := by
  obtain ⟨-, hlt⟩ := filterMap_index_front hindices hindex
  rw [(entryId_conversation hindex _).1, persisted_messageIds hindices]
  rw [(entryId_conversation hindex _).2] at h
  have hlength : index < context.messageIds.length := (List.getElem?_eq_some_iff.mp h).1
  rw [List.getElem?_append_left (by rw [List.length_take]; omega), List.getElem?_take_of_lt hlt]
  exact h

theorem persisted_conversation_of_missing {front back : List SequenceEntry} {e : SequenceEntry}
    {index : ℕ} (hindices : (front ++ e :: back).filterMap SequenceEntry.index? = List.range count)
    (hindex : e.index? = some index) (h : reusedId context e = none) :
    entryId (persisted context (front ++ e :: back) count items) e =
      some (items.length + (front.flatMap (missing context)).length) := by
  obtain ⟨hfront, hlt⟩ := filterMap_index_front hindices hindex
  rw [(entryId_conversation hindex _).1, persisted_messageIds hindices]
  rw [(entryId_conversation hindex _).2] at h
  have hle : context.messageIds.length ≤ index := List.getElem?_eq_none_iff.mp h
  have htake : (context.messageIds.take count).length = context.messageIds.length := by
    rw [List.length_take]
    omega
  have hlength : (newConversationIds (front.flatMap (missing context)) items.length).length =
      index - context.messageIds.length := by
    rw [newConversationIds_length, missing_index, hfront, filter_range, List.length_range']
  have hconv : (⟨e.item, .ofEntry e⟩ : PendingItem).target.isConversation = true := by
    cases e <;> first | rfl | cases hindex
  rw [List.flatMap_append, List.flatMap_cons, missing_of_none (by
      rw [(entryId_conversation hindex _).2]; exact h), List.singleton_append,
    newConversationIds_append, newConversationIds_cons, if_pos hconv,
    List.getElem?_append_right (by rw [htake]; exact hle), htake,
    List.getElem?_append_right (by rw [hlength]), hlength, Nat.sub_self]
  rfl

theorem persisted_entry (hdistinct : sequence.Pairwise fun a b => a.slot ≠ b.slot)
    (hindices : sequence.filterMap SequenceEntry.index? = List.range count)
    {e : SequenceEntry} (he : e ∈ sequence) :
    ∃ id, entryId (persisted context sequence count items) e = some id ∧
      (reusedId context e = some id ∨ reusedId context e = none ∧ items.length ≤ id ∧
        (persistContextItems (sequence.flatMap (missing context))
          (collected context sequence count) items).2[id]? =
            some (normalizeContextItem e.item)) := by
  obtain ⟨front, back, hsequence⟩ := List.append_of_mem he
  cases hreused : reusedId context e with
  | some id =>
    refine ⟨id, ?_, .inl rfl⟩
    cases hindex : e.index? with
    | none => exact entryId_persisted_of_reused hdistinct he hindex hreused
    | some index =>
      subst hsequence
      exact persisted_conversation_of_reused hindices hindex hreused
  | none =>
    subst hsequence
    refine ⟨items.length + (front.flatMap (missing context)).length, ?_,
      .inr ⟨rfl, by omega, persisted_item hreused⟩⟩
    cases hindex : e.index? with
    | none => exact entryId_persisted_of_missing hdistinct hindex hreused
    | some index => exact persisted_conversation_of_missing hindices hindex hreused

end Spec

theorem noted_summary_kept (context : LLMContextState) (e : SequenceEntry) :
    (noted context e).summary = context.summary := by
  cases e <;> simp

theorem missing_summary {context : LLMContextState} {sequence : List SequenceEntry}
    {p : PendingItem} (hp : p ∈ sequence.flatMap (missing context)) {text : String}
    (htarget : p.target = .summary text) : p.input = contextItemInputFromSummary text := by
  obtain ⟨e, -, -, rfl⟩ := mem_missing hp
  cases e with
  | summary text' =>
    cases htarget
    rfl
  | system text' => cases htarget
  | memory text' place => cases htarget
  | conversation message index => cases htarget

theorem noted_messageIds (context : LLMContextState) (e : SequenceEntry) :
    (noted context e).messageIds = context.messageIds := by
  cases e <;> simp

theorem noted_pending (context : LLMContextState) (e : SequenceEntry) :
    (noted context e).pendingNewContextItemIds = context.pendingNewContextItemIds := by
  cases e <;> simp

theorem resolveContextIds_eq (context : LLMContextState) (sequence : List SequenceEntry)
    (summaryText : Option String) (items : List ContextItem) :
    let c := withSummary context summaryText
    let count := sequence.countP SequenceEntry.isConversation
    let pending := sequence.flatMap (missing c)
    let final := persisted c sequence count items
    resolveContextIds context sequence summaryText items =
      { contextItemIds := sequence.filterMap (entryId final)
        newContextItemIds := (sequence.filterMap (entryId final)).filter fun id =>
          id ∈ c.pendingNewContextItemIds.getD [] ++ newConversationIds pending items.length
        context := { final with pendingNewContextItemIds := some [] }
        items := (persistContextItems pending (collected c sequence count) items).2 } := by
  intro c count pending final
  have hids : (sequence.foldl noted c).messageIds = c.messageIds :=
    foldl_noted_frame LLMContextState.messageIds noted_messageIds
  have hpending : (sequence.foldl noted c).pendingNewContextItemIds =
      c.pendingNewContextItemIds :=
    foldl_noted_frame LLMContextState.pendingNewContextItemIds noted_pending
  have hcollect : sequence.foldl collectEntry (c, []) = (sequence.foldl noted c, pending) := by
    rw [foldl_collectEntry, List.nil_append]
  have hcut : cutMessageIds count (sequence.foldl noted c) = collected c sequence count := by
    unfold cutMessageIds collected
    rw [hids]
    by_cases hlt : c.messageIds.length > count
    · rw [if_pos hlt]
    · rw [if_neg hlt, List.take_of_length_le (by omega)]
  unfold resolveContextIds
  rw [hcollect]
  dsimp only
  rw [hcut, show (collected c sequence count).pendingNewContextItemIds =
    c.pendingNewContextItemIds from hpending]
  rfl

/-- What a call records for its sequence. -/
theorem resolveContextIds_resolves (context : LLMContextState) (systemPrompt : String)
    (summaryText : Option String) (memory : Option MemoryResult) (conversation : List LLMMessage)
    (items : List ContextItem) :
    let sequence := buildSequence systemPrompt summaryText memory conversation
    ∃ newIds, Resolves (withSummary context summaryText) sequence conversation.length items
      (resolveContextIds context sequence summaryText items) newIds := by
  intro sequence
  have hindices : sequence.filterMap SequenceEntry.index? = List.range conversation.length :=
    buildSequence_index
  have hcount : sequence.countP SequenceEntry.isConversation = conversation.length := by
    rw [countP_isConversation, hindices, List.length_range]
  have hentry : ∀ e ∈ sequence, _ := fun e he =>
    @persisted_entry (withSummary context summaryText) sequence items _ buildSequence_distinct
      hindices e he
  have hitems := @persistContextItems_items
    (sequence.flatMap (missing (withSummary context summaryText)))
    (collected (withSummary context summaryText) sequence conversation.length) items
  refine ⟨newConversationIds (sequence.flatMap (missing (withSummary context summaryText)))
    items.length, ?_⟩
  rw [resolveContextIds_eq, hcount]
  constructor
  · rw [hitems]
    exact List.prefix_append items _
  · exact persisted_messageIds hindices
  · change (persisted _ sequence conversation.length items).messageIds.length = _
    rw [persisted_messageIds hindices, List.length_append,
      newConversationIds_missing_length hindices, List.length_take]
    omega
  · intro id hid
    obtain ⟨i, p, hp, -, rfl⟩ := mem_newConversationIds.mp hid
    have hlt := (List.getElem?_eq_some_iff.mp hp).1
    refine ⟨by omega, ?_⟩
    rw [hitems, List.length_append, List.length_map]
    omega
  · exact newConversationIds_sorted items.length
  · refine filterMap_map_some ?_
    intro e he
    obtain ⟨id, hid, -⟩ := hentry e he
    exact ⟨id, hid⟩
  · exact hentry
  · rfl
  · rfl
  · intro id hid
    rcases auxIds_persistContextItems hid with hid | hlt
    · exact .inl (auxIds_foldl_noted hid)
    · exact .inr hlt
  · intro id text hsummary
    rcases persistContextItems_summary (fun p hp _ => missing_summary hp) hsummary with h | h
    · left
      change (sequence.foldl noted (withSummary context summaryText)).summary = _ at h
      rwa [foldl_noted_frame LLMContextState.summary noted_summary_kept] at h
    · exact .inr h

/-- The ids that a call starts from: the memory entry may go, and the summary. -/
def startContext (env : LoopEnv) (state : LLMState) : LLMContextState :=
  withSummary (memoryCleared env.memory state.context) (summaryTextOf state)

theorem startContext_messageIds (env : LoopEnv) (state : LLMState) :
    (startContext env state).messageIds = state.context.messageIds := by
  unfold startContext withSummary memoryCleared
  split <;> rfl

theorem startContext_pending (env : LoopEnv) (state : LLMState) :
    (startContext env state).pendingNewContextItemIds =
      state.context.pendingNewContextItemIds := by
  unfold startContext withSummary memoryCleared
  split <;> rfl

theorem prepare_resolves (cfg : AgentLoopConfig) (env : LoopEnv) (state : LLMState)
    (w : LLMStore) :
    ∃ newIds, Resolves (startContext env state) (prepare cfg env state w).1
      state.messages.length w.items (prepare cfg env state w).2 newIds :=
  resolveContextIds_resolves (memoryCleared env.memory state.context) cfg.systemPrompt
    (summaryTextOf state) env.memory state.messages w.items

end CallModelLLMReducer

end Agyn
