import Mathlib.Data.List.Nodup
import Mathlib.Data.List.Perm.Basic

/-!
Maps that remember the order in which their keys were first written, as the
ECMAScript `Map` and `Set` do. Writing an existing key keeps its position,
deleting a key closes the gap, and a map built from a list of entries keeps the
first position and the last value of a repeated key. Distinctness of the keys
is a field of the structure, so a lookup is the same thing as membership.
-/
namespace Agyn

/-- Entries in insertion order, one for each key. -/
structure InsMap (κ ν : Type*) where
  entries : List (κ × ν)
  nodup : (entries.map Prod.fst).Nodup

namespace InsMap

variable {κ ν : Type*}

def keys (m : InsMap κ ν) : List κ := m.entries.map Prod.fst

def values (m : InsMap κ ν) : List ν := m.entries.map Prod.snd

def empty : InsMap κ ν := ⟨[], List.nodup_nil⟩

instance : Inhabited (InsMap κ ν) := ⟨empty⟩

theorem ext_entries {m n : InsMap κ ν} (h : m.entries = n.entries) : m = n := by
  cases m
  cases n
  cases h
  rfl

instance [DecidableEq κ] [DecidableEq ν] : DecidableEq (InsMap κ ν) := fun m n =>
  decidable_of_iff (m.entries = n.entries) ⟨ext_entries, fun h => h ▸ rfl⟩

variable [DecidableEq κ]

def get (m : InsMap κ ν) (k : κ) : Option ν :=
  (m.entries.find? fun e => e.1 = k).map Prod.snd

def has (m : InsMap κ ν) (k : κ) : Bool := (m.get k).isSome

private theorem keys_replace (es : List (κ × ν)) (k : κ) (v : ν) :
    (es.map fun e => if e.1 = k then (k, v) else e).map Prod.fst = es.map Prod.fst := by
  rw [List.map_map]
  apply List.map_congr_left
  intro e _
  by_cases h : e.1 = k <;> simp [h]

/-- `Map.prototype.set`: an existing key keeps its position. -/
def set (m : InsMap κ ν) (k : κ) (v : ν) : InsMap κ ν :=
  if h : k ∈ m.entries.map Prod.fst then
    ⟨m.entries.map fun e => if e.1 = k then (k, v) else e, by
      rw [keys_replace]
      exact m.nodup⟩
  else
    ⟨m.entries ++ [(k, v)], by
      rw [List.map_append, List.nodup_append]
      refine ⟨m.nodup, List.nodup_singleton k, ?_⟩
      intro a ha b hb hab
      rw [hab, List.mem_singleton.mp hb] at ha
      exact h ha⟩

/-- `Map.prototype.delete`. -/
def delete (m : InsMap κ ν) (k : κ) : InsMap κ ν :=
  ⟨m.entries.filter fun e => e.1 ≠ k,
    m.nodup.sublist (List.filter_sublist.map Prod.fst)⟩

/-- `new Map(entries)`. -/
def ofEntries (es : List (κ × ν)) : InsMap κ ν :=
  es.foldl (fun m e => m.set e.1 e.2) empty

section Lookup

theorem get_eq_some_iff (m : InsMap κ ν) (k : κ) (v : ν) :
    m.get k = some v ↔ (k, v) ∈ m.entries := by
  obtain ⟨es, hes⟩ := m
  simp only [get]
  induction es with
  | nil => simp
  | cons e rest ih =>
    simp only [List.map_cons, List.nodup_cons] at hes
    by_cases hk : e.1 = k
    · simp only [List.find?_cons, hk, decide_true, Option.map_some, Option.some.injEq,
        List.mem_cons]
      constructor
      · rintro rfl
        exact Or.inl (by rw [← hk])
      · rintro (rfl | hmem)
        · rfl
        · exact absurd (List.mem_map.mpr ⟨(k, v), hmem, rfl⟩) (hk ▸ hes.1)
    · have hne : (k, v) ≠ e := fun h => hk (h ▸ rfl)
      simp only [List.find?_cons, hk, decide_false, List.mem_cons, hne, false_or]
      exact ih hes.2

theorem get_eq_none_iff (m : InsMap κ ν) (k : κ) : m.get k = none ↔ k ∉ m.keys := by
  rw [Option.eq_none_iff_forall_not_mem]
  constructor
  · intro h hk
    obtain ⟨e, he, rfl⟩ := List.mem_map.mp hk
    exact h e.2 ((get_eq_some_iff m e.1 e.2).mpr he)
  · intro h v hv
    exact h (List.mem_map.mpr ⟨(k, v), (get_eq_some_iff m k v).mp hv, rfl⟩)

theorem mem_keys_iff (m : InsMap κ ν) (k : κ) : k ∈ m.keys ↔ ∃ v, m.get k = some v := by
  rw [← Option.isSome_iff_exists, ← Option.ne_none_iff_isSome, ne_eq, get_eq_none_iff, not_not]

theorem has_iff (m : InsMap κ ν) (k : κ) : m.has k = true ↔ ∃ v, m.get k = some v :=
  Option.isSome_iff_exists

theorem mem_values_iff (m : InsMap κ ν) (v : ν) : v ∈ m.values ↔ ∃ k, m.get k = some v := by
  simp only [values, List.mem_map, get_eq_some_iff]
  constructor
  · rintro ⟨e, he, rfl⟩
    exact ⟨e.1, he⟩
  · rintro ⟨k, hk⟩
    exact ⟨(k, v), hk, rfl⟩

@[simp] theorem get_empty (k : κ) : (empty : InsMap κ ν).get k = none := rfl

omit [DecidableEq κ] in
@[simp] theorem keys_empty : (empty : InsMap κ ν).keys = [] := rfl

theorem mem_set (m : InsMap κ ν) (k : κ) (v : ν) (e : κ × ν) :
    e ∈ (m.set k v).entries ↔ e = (k, v) ∨ e.1 ≠ k ∧ e ∈ m.entries := by
  unfold set
  split
  · rename_i hk
    obtain ⟨old, hold, hfst⟩ := List.mem_map.mp hk
    simp only [List.mem_map]
    constructor
    · rintro ⟨a, ha, rfl⟩
      by_cases h : a.1 = k
      · exact Or.inl (if_pos h)
      · rw [if_neg h]
        exact Or.inr ⟨h, ha⟩
    · rintro (rfl | ⟨hne, he⟩)
      · exact ⟨old, hold, if_pos hfst⟩
      · exact ⟨e, he, if_neg hne⟩
  · rename_i hk
    simp only [List.mem_append, List.mem_singleton]
    constructor
    · rintro (he | rfl)
      · exact Or.inr ⟨fun h => hk (List.mem_map.mpr ⟨e, he, h⟩), he⟩
      · exact Or.inl rfl
    · rintro (rfl | ⟨_, he⟩)
      · exact Or.inr rfl
      · exact Or.inl he

theorem mem_delete (m : InsMap κ ν) (k : κ) (e : κ × ν) :
    e ∈ (m.delete k).entries ↔ e.1 ≠ k ∧ e ∈ m.entries := by
  simp [delete, and_comm]

@[simp] theorem get_set_self (m : InsMap κ ν) (k : κ) (v : ν) : (m.set k v).get k = some v := by
  rw [get_eq_some_iff, mem_set]
  exact Or.inl rfl

theorem get_set_ne (m : InsMap κ ν) {k k' : κ} (v : ν) (h : k' ≠ k) :
    (m.set k v).get k' = m.get k' := by
  apply Option.ext
  intro w
  rw [get_eq_some_iff, get_eq_some_iff, mem_set]
  simp [h]

theorem get_set (m : InsMap κ ν) (k k' : κ) (v : ν) :
    (m.set k v).get k' = if k' = k then some v else m.get k' := by
  by_cases h : k' = k
  · subst h
    simp
  · rw [if_neg h, get_set_ne m v h]

@[simp] theorem get_delete_self (m : InsMap κ ν) (k : κ) : (m.delete k).get k = none := by
  rw [Option.eq_none_iff_forall_not_mem]
  intro v hv
  have hmem := (get_eq_some_iff _ _ _).mp hv
  exact ((mem_delete m k _).mp hmem).1 rfl

theorem get_delete_ne (m : InsMap κ ν) {k k' : κ} (h : k' ≠ k) :
    (m.delete k).get k' = m.get k' := by
  apply Option.ext
  intro w
  rw [get_eq_some_iff, get_eq_some_iff, mem_delete]
  simp [h]

theorem get_delete (m : InsMap κ ν) (k k' : κ) :
    (m.delete k).get k' = if k' = k then none else m.get k' := by
  by_cases h : k' = k
  · subst h
    simp
  · rw [if_neg h, get_delete_ne m h]

theorem set_set (m : InsMap κ ν) (k : κ) (v w : ν) : (m.set k v).set k w = m.set k w := by
  apply ext_entries
  by_cases hk : k ∈ m.entries.map Prod.fst
  · have hk' : k ∈ (m.set k v).entries.map Prod.fst := by
      rw [← keys, mem_keys_iff]
      exact ⟨v, get_set_self m k v⟩
    unfold set at hk' ⊢
    rw [dif_pos hk] at hk'
    rw [dif_pos hk, dif_pos hk', dif_pos hk]
    simp only [List.map_map]
    apply List.map_congr_left
    intro e _
    by_cases he : e.1 = k <;> simp [he]
  · have hk' : k ∈ (m.set k v).entries.map Prod.fst := by
      rw [← keys, mem_keys_iff]
      exact ⟨v, get_set_self m k v⟩
    unfold set at hk' ⊢
    rw [dif_neg hk] at hk'
    rw [dif_neg hk, dif_pos hk', dif_neg hk]
    change (m.entries ++ [(k, v)]).map _ = m.entries ++ [(k, w)]
    rw [List.map_append]
    congr 1
    · rw [List.map_congr_left (g := id), List.map_id]
      intro e he
      rw [if_neg, id]
      rintro rfl
      exact hk (List.mem_map.mpr ⟨e, he, rfl⟩)
    · simp

theorem set_get {m : InsMap κ ν} {k : κ} {v : ν} (h : m.get k = some v) : m.set k v = m := by
  have hmem := (get_eq_some_iff m k v).mp h
  apply ext_entries
  unfold set
  rw [dif_pos (List.mem_map.mpr ⟨(k, v), hmem, rfl⟩)]
  change m.entries.map _ = m.entries
  rw [List.map_congr_left (g := id), List.map_id]
  intro e he
  by_cases hk : e.1 = k
  · rw [if_pos hk, id]
    have hget := (get_eq_some_iff m k e.2).mpr (hk ▸ he)
    rw [h] at hget
    rw [Option.some.inj hget, ← hk]
  · rw [if_neg hk, id]

theorem set_entries_of_get_none (m : InsMap κ ν) (k : κ) (v : ν) (h : m.get k = none) :
    (m.set k v).entries = m.entries ++ [(k, v)] := by
  have hk : k ∉ m.entries.map Prod.fst := (get_eq_none_iff m k).mp h
  unfold set
  rw [dif_neg hk]

end Lookup

section OfEntries

/-- A lookup after writing a list of entries finds one of them or the old value. -/
theorem get_foldl_set_cases (es : List (κ × ν)) (m : InsMap κ ν) (k : κ) (v : ν)
    (h : (es.foldl (fun m e => m.set e.1 e.2) m).get k = some v) :
    (k, v) ∈ es ∨ m.get k = some v := by
  induction es generalizing m with
  | nil => exact Or.inr h
  | cons e rest ih =>
    rcases ih (m.set e.1 e.2) h with hrest | hset
    · exact Or.inl (List.mem_cons_of_mem _ hrest)
    · rw [get_set] at hset
      by_cases hk : k = e.1
      · rw [if_pos hk] at hset
        have hv : e.2 = v := Option.some.inj hset
        exact Or.inl (by rw [hk, ← hv]; exact List.mem_cons_self)
      · rw [if_neg hk] at hset
        exact Or.inr hset

theorem mem_keys_foldl_set (es : List (κ × ν)) (m : InsMap κ ν) (k : κ) :
    k ∈ (es.foldl (fun m e => m.set e.1 e.2) m).keys ↔ k ∈ es.map Prod.fst ∨ k ∈ m.keys := by
  induction es generalizing m with
  | nil => simp
  | cons e rest ih =>
    have hset : k ∈ (m.set e.1 e.2).keys ↔ k = e.1 ∨ k ∈ m.keys := by
      rw [mem_keys_iff, mem_keys_iff]
      by_cases hk : k = e.1
      · simp [hk]
      · simp [hk, get_set_ne m e.2 hk]
    rw [List.foldl_cons, ih, hset, List.map_cons, List.mem_cons]
    tauto

theorem mem_keys_ofEntries (es : List (κ × ν)) (k : κ) :
    k ∈ (ofEntries es).keys ↔ k ∈ es.map Prod.fst := by
  unfold ofEntries
  rw [mem_keys_foldl_set]
  simp

theorem mem_of_get_ofEntries (es : List (κ × ν)) (k : κ) (v : ν)
    (h : (ofEntries es).get k = some v) : (k, v) ∈ es := by
  rcases get_foldl_set_cases es empty k v h with hmem | hnone
  · exact hmem
  · simp at hnone

/-- Entries with new and pairwise distinct keys are appended as they come. -/
theorem foldl_set_entries (es : List (κ × ν)) (m : InsMap κ ν)
    (h : (m.keys ++ es.map Prod.fst).Nodup) :
    (es.foldl (fun m e => m.set e.1 e.2) m).entries = m.entries ++ es := by
  induction es generalizing m with
  | nil => simp
  | cons e rest ih =>
    have hnew : m.get e.1 = none := by
      rw [get_eq_none_iff]
      intro hk
      exact (List.nodup_append.mp h).2.2 e.1 hk e.1 (by simp) rfl
    have hset := set_entries_of_get_none m e.1 e.2 hnew
    have hkeys : (m.set e.1 e.2).keys = m.keys ++ [e.1] := by
      simp [keys, hset]
    rw [List.foldl_cons, ih, hset, List.append_assoc]
    · rfl
    · rw [hkeys]
      simpa using h

theorem ofEntries_entries (es : List (κ × ν)) (h : (es.map Prod.fst).Nodup) :
    (ofEntries es).entries = es := by
  unfold ofEntries
  rw [foldl_set_entries es empty (by simpa using h)]
  rfl

theorem get_ofEntries_of_mem (es : List (κ × ν)) (h : (es.map Prod.fst).Nodup) {k : κ} {v : ν}
    (hmem : (k, v) ∈ es) : (ofEntries es).get k = some v := by
  rw [get_eq_some_iff, ofEntries_entries es h]
  exact hmem

end OfEntries

end InsMap

/-- An ECMAScript `Set`: a map whose values carry nothing. -/
abbrev InsSet (κ : Type*) := InsMap κ Unit

namespace InsSet

variable {κ : Type*} [DecidableEq κ]

def add (s : InsSet κ) (k : κ) : InsSet κ := s.set k ()

/-- `new Set(keys)`. -/
def ofList (ks : List κ) : InsSet κ := InsMap.ofEntries (ks.map fun k => (k, ()))

theorem mem_keys_add (s : InsSet κ) (k k' : κ) : k' ∈ (s.add k).keys ↔ k' = k ∨ k' ∈ s.keys := by
  rw [InsMap.mem_keys_iff, InsMap.mem_keys_iff, add, InsMap.get_set]
  by_cases h : k' = k <;> simp [h]

theorem mem_keys_delete (s : InsSet κ) (k k' : κ) :
    k' ∈ (s.delete k).keys ↔ k' ≠ k ∧ k' ∈ s.keys := by
  rw [InsMap.mem_keys_iff, InsMap.mem_keys_iff, InsMap.get_delete]
  by_cases h : k' = k <;> simp [h]

theorem mem_keys_ofList (ks : List κ) (k : κ) : k ∈ (ofList ks).keys ↔ k ∈ ks := by
  rw [ofList, InsMap.mem_keys_ofEntries, List.map_map]
  simp

omit [DecidableEq κ] in
theorem keys_nodup (s : InsSet κ) : s.keys.Nodup := s.nodup

end InsSet

end Agyn
