import Mathlib.Data.List.Basic

/-!
Lists whose elements are found by a key, and the change of the first element with a
given key. The change keeps the keys, so what is found under every other key stays.
-/
namespace Agyn

variable {α κ : Type} {key : α → κ} {f : α → α}

theorem map_key_modify (hf : ∀ a, key (f a) = key a) (l : List α) (i : ℕ) :
    (l.modify i f).map key = l.map key := by
  induction l generalizing i with
  | nil => simp
  | cons a l ih =>
    cases i with
    | zero => simp [hf]
    | succ i => simp [ih]

theorem mem_modify {l : List α} {i : ℕ} {b : α} (h : b ∈ l.modify i f) :
    b ∈ l ∨ ∃ a ∈ l, b = f a := by
  induction l generalizing i with
  | nil => simp at h
  | cons a l ih =>
    cases i with
    | zero =>
      rw [List.modify_zero_cons, List.mem_cons] at h
      rcases h with rfl | h
      · exact Or.inr ⟨a, List.mem_cons_self, rfl⟩
      · exact Or.inl (List.mem_cons_of_mem _ h)
    | succ i =>
      rw [List.modify_succ_cons, List.mem_cons] at h
      rcases h with rfl | h
      · exact Or.inl List.mem_cons_self
      · rcases ih h with hmem | ⟨c, hc, rfl⟩
        · exact Or.inl (List.mem_cons_of_mem _ hmem)
        · exact Or.inr ⟨c, List.mem_cons_of_mem _ hc, rfl⟩

variable [DecidableEq κ]

/-- The change of the first element with the key `k` is seen under `k` only. -/
theorem find?_modify_findIdx (hf : ∀ a, key (f a) = key a) (l : List α) (k x : κ) :
    (l.modify (l.findIdx fun a => key a = k) f).find? (fun a => key a = x) =
      if x = k then (l.find? fun a => key a = k).map f else l.find? fun a => key a = x := by
  induction l with
  | nil => simp
  | cons a l ih =>
    rw [List.findIdx_cons]
    by_cases hk : key a = k
    · by_cases hx : x = k
      · simp [hk, hx, hf]
      · simp [hk, hx, hf, Ne.symm hx]
    · by_cases hx : x = k
      · subst hx
        simpa [hk] using ih
      · by_cases hax : key a = x
        · simp [hx, hax]
        · simpa [hk, hx, hax] using ih

theorem findIdx_lt_iff (key : α → κ) (l : List α) (k : κ) :
    (l.findIdx fun a => key a = k) < l.length ↔ k ∈ l.map key := by
  simp [List.findIdx_lt_length]

theorem find?_key_eq_none {l : List α} {k : κ} (h : k ∉ l.map key) :
    (l.find? fun a => key a = k) = none := by
  rw [List.find?_eq_none]
  intro a ha hk
  exact h (List.mem_map.mpr ⟨a, ha, by simpa using hk⟩)

theorem exists_find?_key {l : List α} {k : κ} (h : k ∈ l.map key) :
    ∃ a, (l.find? fun a => key a = k) = some a := by
  obtain ⟨a, ha, hk⟩ := List.mem_map.mp h
  rw [← Option.isSome_iff_exists, List.find?_isSome]
  exact ⟨a, ha, by simpa using hk⟩

end Agyn
