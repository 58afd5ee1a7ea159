import Mathlib.Data.List.DropRight
import Agyn.PersistedGraph

/-!
Texts without white space at their ends, as `trim` leaves them, and texts that are joined from such
parts with a separator.
-/
namespace Agyn

theorem trim_trim (s : String) : trim (trim s) = trim s := by
  have hcore : ∀ l : List Char, ((l.dropWhile isTrimmed).reverse.dropWhile isTrimmed).reverse =
      (l.dropWhile isTrimmed).rdropWhile isTrimmed := fun _ => rfl
  unfold trim
  rw [String.toList_ofList, hcore, hcore]
  obtain ⟨l, hl⟩ : ∃ l, s.toList.dropWhile isTrimmed = l := ⟨_, rfl⟩
  have hstart : ∀ h : 0 < l.length, ¬ isTrimmed l[0] :=
    List.dropWhile_eq_self_iff.mp (hl ▸ List.dropWhile_idempotent isTrimmed s.toList)
  -- what is left after the end is trimmed begins as before
  have hbegin := List.rdropWhile_prefix isTrimmed (l := l)
  have hfirst : (l.rdropWhile isTrimmed).dropWhile isTrimmed = l.rdropWhile isTrimmed := by
    refine List.dropWhile_eq_self_iff.mpr fun hpos => ?_
    rw [hbegin.getElem hpos]
    exact hstart (Nat.lt_of_lt_of_le hpos hbegin.length_le)
  rw [hl, hfirst, List.rdropWhile_idempotent]

theorem trim_eq_self_iff (s : String) : trim s = s ↔
    (∀ c ∈ s.toList.head?, ¬isTrimmed c) ∧ ∀ c ∈ s.toList.getLast?, ¬isTrimmed c := by
  have htrim : trim s = s ↔ (s.toList.dropWhile isTrimmed).rdropWhile isTrimmed = s.toList := by
    rw [← String.toList_inj]
    unfold trim
    rw [String.toList_ofList]
    rfl
  have hfirst : (∀ c ∈ s.toList.head?, ¬isTrimmed c) ↔ s.toList.dropWhile isTrimmed = s.toList := by
    rw [List.dropWhile_eq_self_iff]
    cases s.toList <;> simp
  have hlast : (∀ c ∈ s.toList.getLast?, ¬isTrimmed c) ↔
      s.toList.rdropWhile isTrimmed = s.toList := by
    rw [List.rdropWhile_eq_self_iff]
    constructor
    · exact fun h hne => h _ (List.getLast?_eq_some_getLast hne)
    · intro h c hc
      obtain ⟨hne, rfl⟩ := List.mem_getLast?_eq_getLast hc
      exact h hne
  rw [htrim, hfirst, hlast]
  constructor
  · intro h
    have hlength := congrArg List.length h
    have hend := (List.rdropWhile_prefix isTrimmed (l := s.toList.dropWhile isTrimmed)).length_le
    have hbegin := (List.dropWhile_suffix isTrimmed (l := s.toList)).length_le
    have hdrop : s.toList.dropWhile isTrimmed = s.toList :=
      (List.dropWhile_suffix isTrimmed).eq_of_length_le (by omega)
    exact ⟨hdrop, by rwa [hdrop] at h⟩
  · rintro ⟨hdrop, hrdrop⟩
    rw [hdrop, hrdrop]

end Agyn
