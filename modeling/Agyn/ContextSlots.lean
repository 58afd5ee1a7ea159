import Agyn.ItemCreation

/-!
How a model call finds the context items of its input. Each message of the sequence keeps
its id in a slot of the context; the first pass looks into the slots, and what it finds
empty gets a new item, whose id then goes back to the slot.
-/
namespace Agyn

namespace SequenceEntry

def item : SequenceEntry → ContextItem
  | .system text => contextItemInputFromSystem text
  | .summary text => contextItemInputFromSummary text
  | .memory text place => contextItemInputFromMemory text place
  | .conversation message _ => contextItemInputFromMessage message

def index? : SequenceEntry → Option ℕ
  | .conversation _ index => some index
  | _ => none

/-- Where in the context the id of a message is kept. -/
inductive Slot where
  | system
  | summary
  | memory (place : MemoryPlacement)
  | conversation (index : ℕ)
  deriving DecidableEq

def slot : SequenceEntry → Slot
  | .system _ => .system
  | .summary _ => .summary
  | .memory _ place => .memory place
  | .conversation _ index => .conversation index

@[simp] theorem slot_system {text : String} : (system text).slot = .system := rfl

@[simp] theorem slot_summary {text : String} : (summary text).slot = .summary := rfl

@[simp] theorem slot_memory {text : String} {place : MemoryPlacement} :
    (memory text place).slot = .memory place := rfl

@[simp] theorem slot_conversation {message : LLMMessage} {index : ℕ} :
    (conversation message index).slot = .conversation index := rfl

end SequenceEntry

namespace CallModelLLMReducer

def Target.ofEntry : SequenceEntry → Target
  | .system _ => .system
  | .summary text => .summary text
  | .memory _ place => .memory place
  | .conversation _ index => .conversation index

def reusedId (context : LLMContextState) : SequenceEntry → Option ℕ
  | .system _ => context.system.bind LLMContextSystemState.id
  | .summary text => context.summary.bind fun s => if s.text = some text then s.id else none
  | .memory _ place => memoryId context place
  | .conversation _ index => context.messageIds[index]?

def missing (context : LLMContextState) (e : SequenceEntry) : List PendingItem :=
  if reusedId context e = none then [⟨e.item, .ofEntry e⟩] else []

section Collecting

variable {context : LLMContextState} {pending : List PendingItem} {sequence : List SequenceEntry}
  {e e' : SequenceEntry}

def noted (context : LLMContextState) (e : SequenceEntry) : LLMContextState :=
  (collectEntry (context, []) e).1

def placed (memory : List LLMContextMemoryEntry) (place : MemoryPlacement) :
    List LLMContextMemoryEntry :=
  if memory.any fun m => m.place = place then memory else memory ++ [⟨none, place⟩]

theorem find?_placed (memory : List LLMContextMemoryEntry) (place place' : MemoryPlacement) :
    ((placed memory place).find? fun m => m.place = place').bind LLMContextMemoryEntry.id =
      (memory.find? fun m => m.place = place').bind LLMContextMemoryEntry.id := by
  unfold placed
  cases hany : memory.any fun m => m.place = place with
  | true => rfl
  | false =>
    rw [if_neg Bool.false_ne_true, List.find?_append]
    cases hfind : memory.find? fun m => m.place = place' with
    | some m => rfl
    | none => by_cases hplace : place = place' <;> simp [hplace]

theorem collectEntry_eq :
    collectEntry (context, pending) e = (noted context e, pending ++ missing context e) := by
  unfold noted missing collectEntry
  cases e with
  | system text =>
    cases hsystem : context.system with
    | none => simp [reusedId, hsystem, SequenceEntry.item, Target.ofEntry]
    | some system =>
      cases hid : system.id <;> simp [reusedId, hsystem, hid, SequenceEntry.item, Target.ofEntry]
  | summary text =>
    cases hid : context.summary.bind fun s => if s.text = some text then s.id else none <;>
      simp [reusedId, hid, SequenceEntry.item, Target.ofEntry]
  | memory text place =>
    have hmemory : memoryId { context with memory := placed context.memory place } place =
        memoryId context place := find?_placed context.memory place place
    unfold placed at hmemory
    dsimp only
    rw [hmemory]
    cases hid : memoryId context place <;>
      simp [reusedId, hid, SequenceEntry.item, Target.ofEntry]
  | conversation message index =>
    cases hid : context.messageIds[index]? <;>
      simp [reusedId, hid, SequenceEntry.item, Target.ofEntry]

@[simp] theorem noted_system {text : String} : noted context (.system text) =
    { context with system := some (context.system.getD ⟨none⟩) } := rfl

@[simp] theorem noted_summary {text : String} : noted context (.summary text) = context := by
  unfold noted collectEntry
  cases hsummary : context.summary with
  | none => simp [hsummary]
  | some summary =>
    obtain ⟨id, text'⟩ := summary
    by_cases htext : text' = some text
    · cases id <;> simp [hsummary, htext]
      rw [← htext, ← hsummary]
    · simp [hsummary, htext]

@[simp] theorem noted_memory {text : String} {place : MemoryPlacement} :
    noted context (.memory text place) =
      { context with memory := placed context.memory place } := rfl

@[simp] theorem noted_conversation {message : LLMMessage} {index : ℕ} :
    noted context (.conversation message index) = context := by
  unfold noted collectEntry
  cases hid : context.messageIds[index]? <;> simp [hid]

/-- The first pass does not change which ids can be reused. -/
@[simp] theorem reusedId_noted : reusedId (noted context e) e' = reusedId context e' := by
  cases e with
  | system text =>
    cases e' <;> cases hsystem : context.system <;> simp [reusedId, hsystem, memoryId]
  | summary text => simp
  | memory text place =>
    cases e' with
    | memory text' place' => exact find?_placed context.memory place place'
    | system text' => rfl
    | summary text' => rfl
    | conversation message index => rfl
  | conversation message index => simp

theorem foldl_collectEntry : sequence.foldl collectEntry (context, pending) =
    (sequence.foldl noted context, pending ++ sequence.flatMap (missing context)) := by
  induction sequence generalizing context pending with
  | nil => simp
  | cons e sequence ih =>
    have hmissing : sequence.flatMap (missing (noted context e)) =
        sequence.flatMap (missing context) := by
      unfold missing
      simp only [reusedId_noted]
    rw [List.foldl_cons, collectEntry_eq, ih, hmissing]
    simp

end Collecting

section Slots

variable {context : LLMContextState} {sequence : List SequenceEntry} {e e' : SequenceEntry}
  {id : ℕ}

theorem find?_modify_place (memory : List LLMContextMemoryEntry) (place place' : MemoryPlacement)
    (id : ℕ) :
    ((memory.modify (memory.findIdx fun m => m.place = place) fun m =>
        { m with id := some id }).find? fun m => m.place = place') =
      (memory.find? fun m => m.place = place').map fun m =>
        if place = place' then { m with id := some id } else m := by
  induction memory with
  | nil => rfl
  | cons m memory ih =>
    by_cases hplace : m.place = place
    · subst hplace
      by_cases hplace' : m.place = place'
      · subst hplace'
        simp [List.findIdx_cons]
      · simp [List.findIdx_cons, hplace']
    · by_cases hplace' : m.place = place'
      · subst hplace'
        simp [List.findIdx_cons, hplace, Ne.symm hplace]
      · simpa [List.findIdx_cons, hplace, hplace'] using ih

theorem entryId_of_reusedId (h : reusedId context e = some id) : entryId context e = some id := by
  cases e with
  | system text => exact h
  | memory text place => exact h
  | conversation message index => exact h
  | summary text =>
    unfold reusedId at h
    unfold entryId
    cases hsummary : context.summary with
    | none => simp [hsummary] at h
    | some summary =>
      by_cases htext : summary.text = some text
      · simpa [hsummary, htext] using h
      · simp [hsummary, htext] at h

theorem entryId_assign_of_ne (hslot : e'.slot ≠ e.slot) (hindex : e.index? = none) :
    entryId (assign context (.ofEntry e') id) e = entryId context e := by
  cases e with
  | conversation message index => simp [SequenceEntry.index?] at hindex
  | system text => cases e' <;> first | rfl | exact absurd rfl hslot
  | summary text => cases e' <;> first | rfl | exact absurd rfl hslot
  | memory text place =>
    cases e' with
    | system text' => rfl
    | summary text' => rfl
    | conversation message index => rfl
    | memory text' place' =>
      have hne : place' ≠ place := fun h => hslot (by rw [h]; rfl)
      change ((context.memory.modify _ _).find? _).bind _ = _
      rw [find?_modify_place]
      simp only [hne, ↓reduceIte, Option.map_id']
      rfl

theorem entryId_assign_self (hindex : e.index? = none)
    (hplace : ∀ text place, e = .memory text place →
      (context.memory.any fun m => m.place = place) = true) :
    entryId (assign context (.ofEntry e) id) e = some id := by
  cases e with
  | conversation message index => simp [SequenceEntry.index?] at hindex
  | system text => rfl
  | summary text => rfl
  | memory text place =>
    have hany := hplace text place rfl
    change ((context.memory.modify _ _).find? _).bind _ = _
    rw [find?_modify_place]
    cases hfind : context.memory.find? fun m => m.place = place with
    | some m => simp
    | none =>
      rw [List.find?_eq_none] at hfind
      obtain ⟨m, hm, hmplace⟩ := List.any_eq_true.mp hany
      exact absurd hmplace (hfind m hm)

theorem any_place_assign {target : Target} {place : MemoryPlacement} :
    ((assign context target id).memory.any fun m => m.place = place) =
      context.memory.any fun m => m.place = place := by
  cases target with
  | system => rfl
  | summary text => rfl
  | conversation index => rfl
  | memory place' =>
    have hfind := find?_modify_place context.memory place' place id
    rw [Bool.eq_iff_iff, List.any_eq_true, List.any_eq_true, ← List.find?_isSome,
      ← List.find?_isSome]
    change ((context.memory.modify _ _).find? _).isSome = true ↔ _
    rw [hfind, Option.isSome_map]

theorem foldl_noted_frame {β : Type} (f : LLMContextState → β)
    (h : ∀ c e, f (noted c e) = f c) : f (sequence.foldl noted context) = f context := by
  induction sequence generalizing context with
  | nil => rfl
  | cons e sequence ih =>
    change f (sequence.foldl noted (noted context e)) = f context
    rw [ih, h]

theorem any_place_noted {place : MemoryPlacement}
    (h : (context.memory.any fun m => m.place = place) = true) :
    ((noted context e).memory.any fun m => m.place = place) = true := by
  cases e with
  | system text => simpa using h
  | summary text => simpa using h
  | conversation message index => simpa using h
  | memory text place' =>
    change ((placed context.memory place').any fun m => m.place = place) = true
    unfold placed
    cases context.memory.any fun m => m.place = place' <;> simp_all

theorem any_place_foldl_noted {place : MemoryPlacement}
    (h : (context.memory.any fun m => m.place = place) = true ∨
      ∃ text, .memory text place ∈ sequence) :
    ((sequence.foldl noted context).memory.any fun m => m.place = place) = true := by
  induction sequence generalizing context with
  | nil => simpa using h
  | cons e sequence ih =>
    refine ih ?_
    rcases h with h | ⟨text, hmem⟩
    · exact .inl (any_place_noted h)
    · rcases List.mem_cons.mp hmem with heq | hmem
      · subst heq
        refine .inl ?_
        change ((placed context.memory place).any fun m => m.place = place) = true
        unfold placed
        cases hany : context.memory.any fun m => m.place = place <;> simp [hany]
      · exact .inr ⟨text, hmem⟩

end Slots

end CallModelLLMReducer

end Agyn
