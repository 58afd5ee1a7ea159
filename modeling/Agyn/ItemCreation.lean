import Agyn.AgentLoop
import Mathlib.Data.List.Range

/-!
The new items of a model call. They are created one after the other, each with the next
free id, and every id goes to the target of its item; the ids of new conversation items
come behind those that the context had.
-/
namespace Agyn

theorem getElem?_of_initial {α : Type} {l l' : List α} (h : l <+: l') {i : ℕ} {a : α}
    (ha : l[i]? = some a) : l'[i]? = some a := by
  obtain ⟨more, rfl⟩ := h
  have hlt : i < l.length := (List.getElem?_eq_some_iff.mp ha).1
  rw [List.getElem?_append_left hlt]
  exact ha

namespace CallModelLLMReducer

def Target.index? : Target → Option ℕ
  | .conversation index => some index
  | _ => none

def PendingItem.index? (p : PendingItem) : Option ℕ := p.target.index?

section Persisting

variable {pending front back : List PendingItem} {context : LLMContextState}
  {items : List ContextItem} {p : PendingItem}

theorem persistContextItems_append :
    persistContextItems (front ++ back) context items =
      persistContextItems back (persistContextItems front context items).1
        (persistContextItems front context items).2 := by
  simp [persistContextItems, List.foldl_append]

theorem persistContextItems_items :
    (persistContextItems pending context items).2 =
      items ++ pending.map fun p => normalizeContextItem p.input := by
  induction pending generalizing context items with
  | nil => simp [persistContextItems]
  | cons p pending ih =>
    change (persistContextItems pending _ _).2 = _
    rw [ih]
    simp

/-- What no assignment changes stays as it is. -/
theorem persistContextItems_frame {β : Type} (f : LLMContextState → β)
    (h : ∀ p ∈ pending, ∀ c id, f (assign c p.target id) = f c) :
    f (persistContextItems pending context items).1 = f context := by
  induction pending generalizing context items with
  | nil => rfl
  | cons p pending ih =>
    change f (persistContextItems pending _ _).1 = f context
    rw [ih fun q hq => h q (List.mem_cons_of_mem _ hq)]
    exact h p List.mem_cons_self context _

/-- What only one assignment changes is as that one leaves it. -/
theorem persistContextItems_hit {β : Type} (f : LLMContextState → β)
    (hback : ∀ q ∈ back, ∀ c id, f (assign c q.target id) = f c) :
    f (persistContextItems (front ++ p :: back) context items).1 =
      f (assign (persistContextItems front context items).1 p.target
        (items.length + front.length)) := by
  rw [persistContextItems_append]
  change f (persistContextItems back _ _).1 = _
  rw [persistContextItems_frame f hback, persistContextItems_items]
  simp

/-- The summary is the one there was, or has the item that was created for its text. -/
theorem persistContextItems_summary {id : ℕ} {text : String}
    (hpending : ∀ p ∈ pending, ∀ text, p.target = .summary text →
      p.input = contextItemInputFromSummary text)
    (h : (persistContextItems pending context items).1.summary = some ⟨some id, some text⟩) :
    context.summary = some ⟨some id, some text⟩ ∨
      (persistContextItems pending context items).2[id]? =
        some (normalizeContextItem (contextItemInputFromSummary text)) := by
  induction pending generalizing context items with
  | nil => exact .inl h
  | cons p pending ih =>
    change (persistContextItems pending (assign context p.target items.length)
      (items ++ [normalizeContextItem p.input])).1.summary = _ at h
    change _ ∨ (persistContextItems pending (assign context p.target items.length)
      (items ++ [normalizeContextItem p.input])).2[id]? = _
    rcases ih (fun q hq => hpending q (List.mem_cons_of_mem p hq)) h with h | h
    · cases htarget : p.target with
      | summary text' =>
        rw [htarget] at h
        cases h
        right
        rw [persistContextItems_items, hpending p List.mem_cons_self _ htarget]
        refine getElem?_of_initial (List.prefix_append _ _) ?_
        simp
      | system =>
        rw [htarget] at h
        exact .inl h
      | memory place =>
        rw [htarget] at h
        exact .inl h
      | conversation index =>
        rw [htarget] at h
        exact .inl h
    · exact .inr h

theorem newConversationIds_append (first : ℕ) :
    newConversationIds (front ++ back) first =
      newConversationIds front first ++ newConversationIds back (first + front.length) := by
  simp [newConversationIds, List.zipIdx_append]

theorem newConversationIds_cons (first : ℕ) :
    newConversationIds (p :: back) first =
      (if p.target.isConversation then [first] else []) ++ newConversationIds back (first + 1) := by
  unfold newConversationIds
  cases h : p.target.isConversation <;> simp [List.zipIdx_cons, h]

theorem mem_newConversationIds {first id : ℕ} :
    id ∈ newConversationIds pending first ↔
      ∃ i p, pending[i]? = some p ∧ p.target.isConversation = true ∧ id = first + i := by
  unfold newConversationIds
  simp only [List.mem_map, List.mem_filter, Prod.exists]
  constructor
  · intro h
    obtain ⟨p, id', ⟨hmem, hp⟩, rfl⟩ := h
    obtain ⟨hle, hget⟩ := List.mem_zipIdx_iff_le_and_getElem?_sub.mp hmem
    exact ⟨id' - first, p, hget, hp, by omega⟩
  · intro h
    obtain ⟨i, p, hget, hp, rfl⟩ := h
    refine ⟨p, first + i, ⟨List.mem_zipIdx_iff_le_and_getElem?_sub.mpr ⟨by omega, ?_⟩, hp⟩, rfl⟩
    simpa using hget

theorem newConversationIds_length (first : ℕ) :
    (newConversationIds pending first).length =
      (pending.filterMap PendingItem.index?).length := by
  induction pending generalizing first with
  | nil => rfl
  | cons p pending ih =>
    rw [newConversationIds_cons, List.length_append, ih (first + 1)]
    cases htarget : p.target <;>
      simp [Target.isConversation, PendingItem.index?, Target.index?, htarget]
    omega

theorem newConversationIds_sorted (first : ℕ) :
    (newConversationIds pending first).Pairwise (· < ·) := by
  induction pending generalizing first with
  | nil => exact List.Pairwise.nil
  | cons p pending ih =>
    rw [newConversationIds_cons]
    refine List.pairwise_append.mpr ⟨?_, ih (first + 1), ?_⟩
    · cases p.target.isConversation <;> simp
    · intro a ha b hb
      obtain ⟨i, _, _, _, rfl⟩ := mem_newConversationIds.mp hb
      have hfirst : a = first := by
        cases hconv : p.target.isConversation <;> simp [hconv] at ha
        exact ha
      omega

/-- New conversation items are appended when their places follow the ids that exist. -/
theorem persistContextItems_messageIds {k : ℕ}
    (h : (pending.filterMap PendingItem.index?) = List.range' context.messageIds.length k) :
    (persistContextItems pending context items).1.messageIds =
      context.messageIds ++ newConversationIds pending items.length := by
  induction pending generalizing context items k with
  | nil => simp [persistContextItems, newConversationIds]
  | cons p pending ih =>
    change (persistContextItems pending (assign context p.target items.length)
      (items ++ [normalizeContextItem p.input])).1.messageIds = _
    rw [newConversationIds_cons]
    cases hindex : p.index? with
    | none =>
      have hids : (assign context p.target items.length).messageIds = context.messageIds := by
        cases htarget : p.target <;>
          simp [PendingItem.index?, Target.index?, htarget, assign] at hindex ⊢
      have hconv : p.target.isConversation = false := by
        cases htarget : p.target <;>
          simp [PendingItem.index?, Target.index?, htarget, Target.isConversation] at hindex ⊢
      rw [List.filterMap_cons_none hindex, ← hids] at h
      rw [ih h, hids, hconv]
      simp
    | some index =>
      have htarget : p.target = .conversation index := by
        cases htarget : p.target <;> simp [PendingItem.index?, Target.index?, htarget] at hindex ⊢
        exact hindex
      rw [List.filterMap_cons_some hindex] at h
      cases k with
      | zero => simp at h
      | succ k =>
        rw [List.range'_succ] at h
        obtain ⟨hfirst, hrest⟩ := List.cons.inj h
        have hids : (assign context p.target items.length).messageIds =
            context.messageIds ++ [items.length] := by
          rw [htarget, hfirst]
          simp [assign]
        have hlength : (assign context p.target items.length).messageIds.length =
            context.messageIds.length + 1 := by rw [hids]; simp
        rw [← hlength] at hrest
        rw [ih hrest, hids, htarget]
        simp [Target.isConversation]

end Persisting

end CallModelLLMReducer

end Agyn
