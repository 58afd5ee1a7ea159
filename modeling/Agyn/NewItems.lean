import Agyn.ContextResolution
import Mathlib.Data.Nat.Find

/-!
Which items a call lists as new. When each call lists exactly the items of its messages that
no call had before, every item of the conversation is listed once, by the first call whose
input has it. A call does so as long as the items that were not sent yet are pending.
-/
namespace Agyn

open Loops CallModelLLMReducer

def LLMCallRecord.conversationIds (r : LLMCallRecord) : List ℕ :=
  ((r.contextItemIds.zip r.sequence).filter fun p => p.2.isConversation).map Prod.fst

/-- An item of the conversation is listed as new in one call, the first one that has it. -/
def NewAtFirst (calls : List LLMCallRecord) (id : ℕ) : Prop :=
  ∃ (i : ℕ) (r : LLMCallRecord), calls[i]? = some r ∧ id ∈ r.conversationIds ∧
    ∀ (j : ℕ) (r' : LLMCallRecord), calls[j]? = some r' →
      (id ∈ r'.contextItemIds → i ≤ j) ∧ (id ∈ r'.newContextItemIds ↔ j = i)

/-- A call after some others lists what they do not have. -/
structure ListsUnseen (before : List LLMCallRecord) (r : LLMCallRecord) : Prop where
  unseen : ∀ id ∈ r.newContextItemIds, id ∈ r.contextItemIds ∧
    ∀ r' ∈ before, id ∉ r'.contextItemIds
  listed : ∀ id ∈ r.conversationIds, id ∈ r.newContextItemIds ∨
    ∃ r' ∈ before, id ∈ r'.conversationIds

def EachListsUnseen (calls : List LLMCallRecord) : Prop :=
  ∀ (i : ℕ) r, calls[i]? = some r → ListsUnseen (calls.take i) r

section Calls

variable {calls : List LLMCallRecord} {r : LLMCallRecord} {id : ℕ}

theorem conversationIds_sub (h : id ∈ r.conversationIds) : id ∈ r.contextItemIds := by
  obtain ⟨p, hp, rfl⟩ := List.mem_map.mp h
  exact (List.of_mem_zip (List.mem_filter.mp hp).1).1

theorem EachListsUnseen.concat (h : EachListsUnseen calls) (hr : ListsUnseen calls r) :
    EachListsUnseen (calls ++ [r]) := by
  intro i r' hr'
  by_cases hi : i < calls.length
  · rw [List.getElem?_append_left hi] at hr'
    rw [List.take_append_of_le_length (by omega)]
    exact h i r' hr'
  · have hlt := (List.getElem?_eq_some_iff.mp hr').1
    rw [List.length_append, List.length_singleton] at hlt
    have heq : i = calls.length := by omega
    subst heq
    rw [List.getElem?_concat_length] at hr'
    cases hr'
    rw [List.take_left]
    exact hr

theorem mem_take {j i : ℕ} (hj : calls[j]? = some r) (hlt : j < i) : r ∈ calls.take i := by
  have hj' : (calls.take i)[j]? = some r := by
    rw [List.getElem?_take_of_lt hlt]
    exact hj
  exact List.mem_of_getElem? hj'

/-- Where each call lists what is unseen, every item is listed at its first call. -/
theorem EachListsUnseen.newAtFirst (h : EachListsUnseen calls)
    (hid : ∃ r ∈ calls, id ∈ r.conversationIds) : NewAtFirst calls id := by
  have hsome : ∃ (i : ℕ) (r : LLMCallRecord), calls[i]? = some r ∧ id ∈ r.conversationIds := by
    obtain ⟨r, hr, hconv⟩ := hid
    obtain ⟨i, hi⟩ := List.getElem?_of_mem hr
    exact ⟨i, r, hi, hconv⟩
  classical
  obtain ⟨r, hr, hconv⟩ := Nat.find_spec hsome
  have hfirst : ∀ r' ∈ calls.take (Nat.find hsome), id ∉ r'.conversationIds := by
    intro r' hr' hconv'
    obtain ⟨j, hj⟩ := List.getElem?_of_mem hr'
    have hlt : j < Nat.find hsome := by
      have hbound := (List.getElem?_eq_some_iff.mp hj).1
      rw [List.length_take] at hbound
      omega
    rw [List.getElem?_take_of_lt hlt] at hj
    exact Nat.find_min hsome hlt ⟨r', hj, hconv'⟩
  have hnew : id ∈ r.newContextItemIds := by
    rcases (h _ r hr).listed id hconv with hnew | ⟨r', hr', hconv'⟩
    · exact hnew
    · exact absurd hconv' (hfirst r' hr')
  have hunseen := ((h _ r hr).unseen id hnew).2
  refine ⟨Nat.find hsome, r, hr, hconv, ?_⟩
  intro j r' hj
  have hle : id ∈ r'.contextItemIds → Nat.find hsome ≤ j := by
    intro hid'
    by_contra hlt
    exact hunseen r' (mem_take hj (by omega)) hid'
  refine ⟨hle, ?_, ?_⟩
  · intro hnew'
    obtain ⟨hmem, hbefore⟩ := (h j r' hj).unseen id hnew'
    have hge := hle hmem
    by_contra hne
    exact hbefore r (mem_take hr (by omega)) (conversationIds_sub hconv)
  · intro heq
    subst heq
    rw [hr] at hj
    cases hj
    exact hnew

end Calls

section Records

variable {cfg : AgentLoopConfig} {env : LoopEnv} {state : LLMState} {w : LLMStore} {id : ℕ}

theorem mem_zip_of_map_some {α β : Type} {f : β → Option α} {l : List α} {l' : List β}
    (h : l.map some = l'.map f) {a : α} {b : β} : (a, b) ∈ l.zip l' ↔ b ∈ l' ∧ f b = some a := by
  induction l' generalizing l with
  | nil => simp
  | cons b' l' ih =>
    cases l with
    | nil => cases h
    | cons a' l =>
      obtain ⟨hhead, htail⟩ := List.cons.inj h
      rw [List.zip_cons_cons, List.mem_cons, List.mem_cons, ih htail, Prod.mk.injEq]
      constructor
      · intro hmem
        rcases hmem with ⟨rfl, rfl⟩ | ⟨hb, ha⟩
        · exact ⟨.inl rfl, hhead.symm⟩
        · exact ⟨.inr hb, ha⟩
      · intro hmem
        obtain ⟨rfl | hb, ha⟩ := hmem
        · rw [ha] at hhead
          cases hhead
          exact .inl ⟨rfl, rfl⟩
        · exact .inr ⟨hb, ha⟩

/-- The messages of a call have the ids of its context. -/
theorem mem_conversationIds :
    id ∈ (callRecord (prepare cfg env state w)).conversationIds ↔
      id ∈ (prepare cfg env state w).2.context.messageIds := by
  obtain ⟨newIds, hresolves⟩ := prepare_resolves cfg env state w
  have hzip : ∀ e, (id, e) ∈ (callRecord (prepare cfg env state w)).contextItemIds.zip
      (callRecord (prepare cfg env state w)).sequence ↔ e ∈ (prepare cfg env state w).1 ∧
        entryId (prepare cfg env state w).2.context e = some id :=
    fun e => mem_zip_of_map_some hresolves.ids
  unfold LLMCallRecord.conversationIds
  constructor
  · intro h
    obtain ⟨⟨id', e⟩, hp, rfl⟩ := List.mem_map.mp h
    obtain ⟨hmem, hconv⟩ := List.mem_filter.mp hp
    obtain ⟨-, hid⟩ := (hzip e).mp hmem
    cases e with
    | conversation message index =>
      rw [(entryId_conversation rfl _).1] at hid
      exact List.mem_of_getElem? hid
    | system text => cases hconv
    | summary text => cases hconv
    | memory text place => cases hconv
  · intro h
    obtain ⟨i, hi⟩ := List.getElem?_of_mem h
    have hlt := (List.getElem?_eq_some_iff.mp hi).1
    rw [hresolves.messageIds_length] at hlt
    have hmem : (id, SequenceEntry.conversation state.messages[i] i) ∈
        (callRecord (prepare cfg env state w)).contextItemIds.zip
          (callRecord (prepare cfg env state w)).sequence := by
      refine (hzip _).mpr ⟨?_, ?_⟩
      · exact conversation_mem_buildSequence (List.getElem?_eq_getElem hlt)
      · rw [(entryId_conversation rfl _).1]
        exact hi
    exact List.mem_map.mpr ⟨_, List.mem_filter.mpr ⟨hmem, rfl⟩, rfl⟩

def contextIds (context : LLMContextState) : List ℕ :=
  context.messageIds ++ auxIds context ++ context.pendingNewContextItemIds.getD []

theorem reusedId_mem {context : LLMContextState} {e : SequenceEntry}
    (h : reusedId context e = some id) : id ∈ context.messageIds ++ auxIds context := by
  unfold auxIds
  cases e with
  | conversation message index =>
    exact List.mem_append_left _ (List.mem_of_getElem? h)
  | system text =>
    have hsystem : context.system.bind LLMContextSystemState.id = some id := h
    simp [hsystem]
  | summary text =>
    change (context.summary.bind fun s => if s.text = some text then s.id else none) = _ at h
    have hsummary : context.summary.bind LLMContextSummaryState.id = some id := by
      rw [Option.bind_eq_some_iff] at h ⊢
      obtain ⟨s, hs, hid⟩ := h
      by_cases htext : s.text = some text
      · rw [if_pos htext] at hid
        exact ⟨s, hs, hid⟩
      · rw [if_neg htext] at hid
        cases hid
    simp [hsummary]
  | memory text place =>
    change (context.memory.find? fun m => m.place = place).bind LLMContextMemoryEntry.id = _ at h
    obtain ⟨m, hm, hid⟩ := Option.bind_eq_some_iff.mp h
    have hmemory : id ∈ context.memory.filterMap LLMContextMemoryEntry.id :=
      List.mem_filterMap.mpr ⟨m, List.mem_of_find?_eq_some hm, hid⟩
    simp [hmemory]

theorem auxIds_startContext (h : id ∈ auxIds (startContext env state)) :
    id ∈ auxIds state.context := by
  have hcleared : ∀ id ∈ auxIds (memoryCleared env.memory state.context),
      id ∈ auxIds state.context := by
    intro id hid
    unfold memoryCleared at hid
    split at hid
    · unfold auxIds at hid ⊢
      simp only [List.mem_append] at hid ⊢
      rcases hid with hid | hid
      · exact .inl hid
      · obtain ⟨m, hm, hid⟩ := List.mem_filterMap.mp hid
        exact .inr (List.mem_filterMap.mpr ⟨m, (List.mem_filter.mp hm).1, hid⟩)
    · exact hid
  refine hcleared id ?_
  unfold startContext withSummary auxIds at h
  unfold auxIds
  simp only [List.mem_append] at h ⊢
  rcases h with (h | h) | h
  · exact .inl (.inl h)
  · cases hsome : (summaryTextOf state).isSome with
    | true =>
      rw [hsome] at h
      exact .inl (.inr h)
    | false =>
      rw [hsome] at h
      cases h
  · exact .inr h

theorem mem_appendPendingContextItems {pending : Option (List ℕ)} {ids : List ℕ} :
    id ∈ (appendPendingContextItems pending ids).getD [] ↔ id ∈ pending.getD [] ∨ id ∈ ids := by
  unfold appendPendingContextItems
  dsimp only
  by_cases hall : (ids.all fun id => id ∈ pending.getD []) = true
  · rw [if_pos hall]
    rw [List.all_eq_true] at hall
    constructor
    · exact fun h => .inl h
    · intro h
      rcases h with h | h
      · exact h
      · simpa using hall id h
  · rw [if_neg hall]
    change id ∈ (InsSet.ofList (pending.getD [] ++ ids)).keys ↔ _
    rw [InsSet.mem_keys_ofList, List.mem_append]

end Records

end Agyn
