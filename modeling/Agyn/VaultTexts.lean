import Mathlib.Data.List.Infix
import Agyn.EnvEditor
import Agyn.SeparatorRuns
import Agyn.TrimmedTexts

/-!
Parts of a reference to the vault, the text that joins them with slashes and what is parsed of such
a text. The parts of a text can be told apart when it has a mount that is known, or a key alone.
-/
namespace Agyn.EnvEditor

open JsonTree

variable {N : Type} {segments : List String} {key : String} {mount : Option String}

/-- A part of a reference: trimmed, not empty and without a slash. -/
def IsPart (s : String) : Prop := s ≠ "" ∧ trim s = s ∧ '/' ∉ s.toList

instance : DecidablePred IsPart :=
  fun s => inferInstanceAs (Decidable (s ≠ "" ∧ trim s = s ∧ '/' ∉ s.toList))

theorem joinSlash_append {l m : List String} (hl : l ≠ []) (hm : m ≠ []) :
    joinSlash (l ++ m) = joinSlash l ++ "/" ++ joinSlash m :=
  String.intercalate_append_of_ne_nil hl hm

theorem joinSlash_ne_empty (hne : segments ≠ []) (h : ∀ s ∈ segments, IsPart s) :
    joinSlash segments ≠ "" := by
  cases segments with
  | nil => exact absurd rfl hne
  | cons s rest =>
    have hs := (h s List.mem_cons_self).1
    cases rest with
    | nil =>
      rw [joinSlash, String.intercalate_singleton]
      exact hs
    | cons t rest =>
      rw [joinSlash, String.intercalate_cons_cons]
      intro hempty
      have hlist := congrArg String.toList hempty
      simp at hlist

theorem joinSlash_eq_empty (h : ∀ s ∈ segments, IsPart s) :
    joinSlash segments = "" ↔ segments = [] := by
  constructor
  · intro hempty
    by_contra hne
    exact joinSlash_ne_empty hne h hempty
  · rintro rfl
    rfl

theorem joinSlash_joined (hne : segments ≠ []) (before after : List String) :
    joinSlash (before ++ [joinSlash segments] ++ after) =
      joinSlash (before ++ segments ++ after) := by
  have hsingle : joinSlash [joinSlash segments] = joinSlash segments := String.intercalate_singleton
  have hbefore : joinSlash (before ++ [joinSlash segments]) = joinSlash (before ++ segments) := by
    by_cases hb : before = []
    · rw [hb, List.nil_append, List.nil_append, hsingle]
    · rw [joinSlash_append hb (by simp), joinSlash_append hb hne, hsingle]
  by_cases ha : after = []
  · rw [ha, List.append_nil, List.append_nil, hbefore]
  · rw [joinSlash_append (by simp) ha, joinSlash_append (by simp [hne]) ha, hbefore]

theorem toList_joinSlash (segments : List String) :
    (joinSlash segments).toList = ['/'].intercalate (segments.map String.toList) := by
  rw [joinSlash, String.toList_intercalate]
  rfl

/-- Parts that are joined are trimmed as a whole. -/
theorem trim_joinSlash (h : ∀ s ∈ segments, IsPart s) :
    trim (joinSlash segments) = joinSlash segments := by
  rw [trim_eq_self_iff]
  constructor
  · cases segments with
    | nil => simp [joinSlash]
    | cons s rest =>
      have hs := h s List.mem_cons_self
      have hhead : (joinSlash (s :: rest)).toList.head? = s.toList.head? := by
        cases rest with
        | nil => rw [joinSlash, String.intercalate_singleton]
        | cons t rest =>
          rw [joinSlash, String.intercalate_cons_cons, String.append_assoc, String.toList_append,
            List.head?_append_of_ne_nil]
          simpa using hs.1
      rw [hhead]
      exact ((trim_eq_self_iff s).mp hs.2.1).1
  · rcases List.eq_nil_or_concat segments with rfl | ⟨init, s, rfl⟩
    · simp [joinSlash]
    · have hs := h s (by simp)
      have hlast : (joinSlash (init ++ [s])).toList.getLast? = s.toList.getLast? := by
        by_cases hinit : init = []
        · rw [hinit, List.nil_append, joinSlash, String.intercalate_singleton]
        · rw [joinSlash_append hinit (by simp), String.toList_append,
            List.getLast?_append_of_ne_nil, joinSlash, String.intercalate_singleton]
          rw [joinSlash, String.intercalate_singleton]
          simpa using hs.1
      rw [List.concat_eq_append, hlast]
      exact ((trim_eq_self_iff s).mp hs.2.1).2

/-- Parts that are joined are found again. -/
theorem vaultSegments_joinSlash (h : ∀ s ∈ segments, IsPart s) :
    vaultSegments (joinSlash segments) = segments := by
  by_cases hne : segments = []
  · subst hne
    decide
  · have hsplit : (joinSlash segments).toList.splitOn '/' = segments.map String.toList := by
      rw [toList_joinSlash, List.splitOn_intercalate]
      · rintro l hl
        obtain ⟨s, hs, rfl⟩ := List.mem_map.mp hl
        exact (h s hs).2.2
      · simpa using hne
    have hmap : (segments.map String.toList).map (fun segment => trim (String.ofList segment)) =
        segments := by
      rw [List.map_map]
      refine (List.map_congr_left fun s hs => ?_).trans (List.map_id _)
      simpa using (h s hs).2.1
    rw [vaultSegments, hsplit, hmap]
    exact List.filter_eq_self.mpr fun s hs => by simpa using (h s hs).1

/-- What is found in a text is parts. -/
theorem isPart_of_mem_vaultSegments {input s : String} (h : s ∈ vaultSegments input) :
    IsPart s := by
  obtain ⟨hmem, hne⟩ := List.mem_filter.mp h
  obtain ⟨segment, hsegment, rfl⟩ := List.mem_map.mp hmem
  refine ⟨by simpa using hne, trim_trim _, fun hslash => ?_⟩
  have hsub : ∀ s : String, (trim s).toList ⊆ s.toList := by
    intro s
    rw [trim, String.toList_ofList]
    exact List.Subset.trans (List.rdropWhile_prefix isTrimmed _).subset
      (List.dropWhile_suffix isTrimmed).subset
  have hin := hsub _ hslash
  rw [String.toList_ofList] at hin
  exact not_mem_of_mem_splitOn '/' input.toList segment hsegment hin

/-- What is parsed is nothing, or a key that is a part, with a mount that is one or no path. -/
theorem parseVaultString_cases (input : String) (preferredMount : Option String) :
    parseVaultString input preferredMount = ⟨"", "", none⟩ ∨
      ((trim input).length ≠ 0 ∧ IsPart (parseVaultString input preferredMount).key ∧
        (∀ m, (parseVaultString input preferredMount).mount = some m → IsPart m) ∧
        ((parseVaultString input preferredMount).mount = none →
          (parseVaultString input preferredMount).path = "")) := by
  have hparts : ∀ s ∈ vaultSegments (trim input), IsPart s :=
    fun s hs => isPart_of_mem_vaultSegments hs
  unfold parseVaultString
  dsimp only
  generalize vaultSegments (trim input) = segments at hparts
  split_ifs with hempty hnone hpreferred hpath
  · exact .inl rfl
  · exact .inl rfl
  all_goals
    have hne : segments ≠ [] := fun h => hnone (h ▸ rfl)
    have hkey : IsPart (segments.getLastD "") := by
      rw [List.getLastD_eq_getLast?, List.getLast?_eq_some_getLast hne]
      exact hparts _ (List.getLast_mem hne)
    have hfirst : ∀ m, segments.dropLast.head? = some m → IsPart m :=
      fun m hm => hparts m (List.mem_of_mem_dropLast (List.mem_of_head? hm))
    refine .inr ⟨hempty, hkey, ?_⟩
  · refine ⟨fun m hm => hfirst m (hpreferred.2.trans hm), fun hm => ?_⟩
    have hmount : preferredMount = none := hm
    rw [hmount] at hpreferred
    exact absurd rfl hpreferred.1
  · refine ⟨hfirst, fun hm => ?_⟩
    rw [List.head?_eq_none_iff.mp hm] at hpath
    exact absurd hpath (Nat.lt_irrefl 0)
  · have hnil : segments.dropLast = [] := List.eq_nil_of_length_eq_zero (by omega)
    refine ⟨fun m hm => absurd hm (by simp), fun _ => ?_⟩
    show joinSlash segments.dropLast = ""
    rw [hnil]
    rfl

/-- A text of parts with its mount in front. -/
theorem parseVaultString_mount {m : String} (hm : IsPart m) (hsegments : ∀ s ∈ segments, IsPart s)
    (hkey : IsPart key) :
    parseVaultString (joinSlash (m :: segments ++ [key])) (some m) =
      ⟨joinSlash segments, key, some m⟩ := by
  have hparts : ∀ s ∈ m :: segments ++ [key], IsPart s := by
    intro s hs
    obtain hs | hs := List.mem_append.mp hs
    · obtain rfl | hs := List.mem_cons.mp hs
      · exact hm
      · exact hsegments s hs
    · rwa [List.mem_singleton.mp hs]
  have hlength : (joinSlash (m :: segments ++ [key])).length ≠ 0 := by
    simpa using joinSlash_ne_empty (by simp) hparts
  have hlast : (m :: segments ++ [key]).getLastD "" = key := by
    rw [List.getLastD_eq_getLast?, List.getLast?_concat, Option.getD_some]
  unfold parseVaultString
  dsimp only
  rw [trim_joinSlash hparts, vaultSegments_joinSlash hparts, if_neg hlength,
    if_neg (by simp), List.dropLast_concat, hlast, if_pos ⟨hm.1, rfl⟩]
  rfl

theorem parseVaultString_key (hkey : IsPart key) :
    parseVaultString key none = ⟨"", key, none⟩ := by
  have hparts : ∀ s ∈ [key], IsPart s := by simpa using hkey
  have hjoin : joinSlash [key] = key := String.intercalate_singleton
  have hsegments : vaultSegments key = [key] := by
    rw [← hjoin, vaultSegments_joinSlash hparts, hjoin]
  have hlength : key.length ≠ 0 := by simpa using hkey.1
  unfold parseVaultString
  dsimp only
  rw [hkey.2.1, hsegments, if_neg hlength]
  simp [joinSlash]

end Agyn.EnvEditor
