import Agyn.MigrationWalk

/-!
What a migration does to a document. The walk changes exactly the positions of its conversions and
keeps the positions of its errors; a result that validates has no legacy reference in it, so a
second migration finds nothing to do.
-/
namespace Agyn.RefMigration

open JsonTree

variable {N : Type} {ctx : TransformContext} {v w : JsonTree N} {out : TransformOutcome N}
  {pointer p q : Pointer} {P : TransformOutcome N → Bool}

mutual

def referencesAt (ctx : TransformContext) (P : TransformOutcome N → Bool) :
    JsonTree N → List Pointer
  | .arr items => itemReferencesAt ctx P items 0
  | .obj proto entries =>
    match transformReference ctx (.obj proto entries) [] with
    | some out => if P out then [[]] else []
    | none => entryReferencesAt ctx P entries
  | _ => []

def itemReferencesAt (ctx : TransformContext) (P : TransformOutcome N → Bool) :
    List (JsonTree N) → ℕ → List Pointer
  | [], _ => []
  | item :: rest, i =>
    (referencesAt ctx P item).map (.index i :: ·) ++ itemReferencesAt ctx P rest (i + 1)

def entryReferencesAt (ctx : TransformContext) (P : TransformOutcome N → Bool) :
    List (String × JsonTree N) → List Pointer
  | [] => []
  | (key, value) :: rest =>
    (referencesAt ctx P value).map (.key key :: ·) ++ entryReferencesAt ctx P rest

end

def convertedAt (ctx : TransformContext) (v : JsonTree N) : List Pointer :=
  referencesAt ctx (fun out => out.changed) v

def failedAt (ctx : TransformContext) (v : JsonTree N) : List Pointer :=
  referencesAt ctx (fun out => !out.errors.isEmpty) v

mutual

/-- An object that is rebuilt has the key `__proto__`, which is lost. -/
def losesKey (ctx : TransformContext) : JsonTree N → Bool
  | .arr items => itemsLoseKey ctx items
  | .obj proto entries =>
    match transformReference ctx (.obj proto entries) [] with
    | some _ => false
    | none =>
      "__proto__" ∈ entries.map Prod.fst && (convertedAt ctx (.obj proto entries)).length > 0 ||
        entriesLoseKey ctx entries
  | _ => false

def itemsLoseKey (ctx : TransformContext) : List (JsonTree N) → Bool
  | [] => false
  | item :: rest => losesKey ctx item || itemsLoseKey ctx rest

def entriesLoseKey (ctx : TransformContext) : List (String × JsonTree N) → Bool
  | [] => false
  | (_, value) :: rest => losesKey ctx value || entriesLoseKey ctx rest

end

theorem itemReferencesAt_eq (items : List (JsonTree N)) (i : ℕ) :
    itemReferencesAt ctx P items i = (items.zipIdx i).flatMap fun e =>
      (referencesAt ctx P e.1).map (.index e.2 :: ·) := by
  induction items generalizing i with
  | nil => rfl
  | cons item items ih => simp [itemReferencesAt, ih]

theorem entryReferencesAt_eq (entries : List (String × JsonTree N)) :
    entryReferencesAt ctx P entries = entries.flatMap fun e =>
      (referencesAt ctx P e.2).map (.key e.1 :: ·) := by
  induction entries with
  | nil => rfl
  | cons e entries ih => simp [entryReferencesAt, ih]

theorem referencesAt_of_some (h : transformReference ctx v [] = some out) :
    referencesAt ctx P v = if P out then [[]] else [] := by
  cases v with
  | obj proto entries => rw [referencesAt, h]
  | _ => exact absurd h (by rw [transformReference_of_not_object rfl]; simp)

theorem referencesAt_of_none (h : transformReference ctx v [] = none) :
    referencesAt ctx P v = v.childPositions (referencesAt ctx P) := by
  cases v with
  | arr items =>
    rw [referencesAt, itemReferencesAt_eq]
    simp [childPositions, JsonTree.children, List.flatMap_map]
  | obj proto entries =>
    rw [referencesAt, h]
    dsimp only
    rw [entryReferencesAt_eq]
    simp [childPositions, JsonTree.children, List.flatMap_map]
  | _ => rfl

theorem itemsLoseKey_eq_false {items : List (JsonTree N)} :
    itemsLoseKey ctx items = false ↔ ∀ item ∈ items, losesKey ctx item = false := by
  induction items with
  | nil => simp [itemsLoseKey]
  | cons item items ih => simp [itemsLoseKey, ih]

theorem entriesLoseKey_eq_false {entries : List (String × JsonTree N)} :
    entriesLoseKey ctx entries = false ↔ ∀ e ∈ entries, losesKey ctx e.2 = false := by
  induction entries with
  | nil => simp [entriesLoseKey]
  | cons e entries ih => simp [entriesLoseKey, ih]

theorem losesKey_child (h : transformReference ctx v [] = none) (hkey : losesKey ctx v = false)
    {e : Segment × JsonTree N} (he : e ∈ v.children) : losesKey ctx e.2 = false := by
  cases v with
  | arr items =>
    obtain ⟨⟨item, i⟩, hitem, rfl⟩ := List.mem_map.mp he
    exact itemsLoseKey_eq_false.mp hkey item (List.fst_mem_of_mem_zipIdx hitem)
  | obj proto entries =>
    obtain ⟨entry, hentry, rfl⟩ := List.mem_map.mp he
    rw [losesKey, h] at hkey
    exact entriesLoseKey_eq_false.mp (Bool.or_eq_false_iff.mp hkey).2 entry hentry
  | _ => simp [JsonTree.children] at he

theorem no_proto_of_converted (h : transformReference ctx v [] = none)
    (hkey : losesKey ctx v = false) (hconverted : convertedAt ctx v ≠ []) :
    "__proto__" ∉ ownKeys v := by
  cases v with
  | obj proto entries =>
    rw [losesKey, h] at hkey
    have hfirst := (Bool.or_eq_false_iff.mp hkey).1
    have hlength : (convertedAt ctx (.obj proto entries)).length > 0 :=
      List.length_pos_iff.mpr hconverted
    simpa [hlength, ownKeys] using hfirst
  | _ => simp [ownKeys]

/-- What the walk lists of references with such an outcome, it lists at their positions. -/
theorem listed_eq (list : TransformOutcome N → List String)
    (hsome : ∀ {v out}, transformReference ctx v [] = some out → ∀ pointer,
      list (out.locate pointer) = if P out then [pointerToString pointer] else [])
    (hnone : ∀ {v out pointer}, Combined ctx v pointer out →
      list out = v.children.flatMap fun e => list (transformValue ctx e.2 (pointer ++ [e.1])))
    (v : JsonTree N) (pointer : Pointer) :
    list (transformValue ctx v pointer) =
      (referencesAt ctx P v).map fun p => pointerToString (pointer ++ p) := by
  induction v using JsonTree.induct_children generalizing pointer with
  | h v ih =>
    cases href : transformReference ctx v [] with
    | some out =>
      rw [transformValue_of_some href, referencesAt_of_some href, hsome href]
      split_ifs
      · rw [List.map_singleton, List.append_nil]
      · rfl
    | none =>
      rw [hnone (transformValue_of_none href pointer), referencesAt_of_none href, childPositions,
        List.map_flatMap]
      refine List.flatMap_congr fun e he => ?_
      rw [ih e he, List.map_map]
      exact List.map_congr_left fun p _ => by simp

theorem conversions_eq (v : JsonTree N) (pointer : Pointer) :
    (transformValue ctx v pointer).conversions.map (·.pointer) =
      (convertedAt ctx v).map fun p => pointerToString (pointer ++ p) := by
  refine listed_eq (fun out => out.conversions.map (·.pointer)) (fun href pointer => ?_)
    (fun h => ?_) v pointer
  · cases outcome_of_some href <;>
      simp [TransformOutcome.locate, unchanged, failed, converted]
  · rw [h.conversions, List.map_flatMap]

theorem errors_eq (v : JsonTree N) (pointer : Pointer) :
    (transformValue ctx v pointer).errors.map (·.pointer) =
      (failedAt ctx v).map fun p => pointerToString (pointer ++ p) := by
  refine listed_eq (fun out => out.errors.map (·.pointer)) (fun href pointer => ?_)
    (fun h => ?_) v pointer
  · cases outcome_of_some href <;>
      simp [TransformOutcome.locate, unchanged, failed, converted]
  · rw [h.errors, List.map_flatMap]

theorem changed_iff (v : JsonTree N) (pointer : Pointer) :
    (transformValue ctx v pointer).changed = true ↔ convertedAt ctx v ≠ [] := by
  induction v using JsonTree.induct_children generalizing pointer with
  | h v ih =>
    unfold convertedAt
    cases href : transformReference ctx v [] with
    | some out =>
      rw [transformValue_of_some href, referencesAt_of_some href]
      cases outcome_of_some href <;>
        simp [TransformOutcome.locate, unchanged, failed, converted]
    | none =>
      rw [(transformValue_of_none href pointer).changed, referencesAt_of_none href,
        childPositions, ne_eq, List.flatMap_eq_nil_iff, List.any_eq_true]
      push Not
      refine exists_congr fun e => and_congr_right fun he => ?_
      rw [ih e he, convertedAt, ne_eq, ne_eq, List.map_eq_nil_iff]

theorem value_of_not_converted (h : convertedAt ctx v = []) (pointer : Pointer) :
    (transformValue ctx v pointer).value = v := by
  have hsame : (transformValue ctx v pointer).changed = false := by
    by_contra hc
    exact (changed_iff v pointer).mp (by simpa using hc) h
  cases href : transformReference ctx v [] with
  | some out =>
    rw [transformValue_of_some href] at hsame ⊢
    cases outcome_of_some href with
    | converted w r _ _ _ => simp [TransformOutcome.locate, converted] at hsame
    | _ => rfl
  | none => exact (transformValue_of_none href pointer).same hsame

/-- A value that is rebuilt has the children that the walk makes. -/
theorem children_of_converted (href : transformReference ctx v [] = none)
    (hkey : losesKey ctx v = false) :
    (transformValue ctx v pointer).value.children =
      v.children.map fun e => (e.1, (transformValue ctx e.2 []).value) := by
  have hchild : v.children.map (fun e => (e.1, (transformValue ctx e.2 (pointer ++ [e.1])).value)) =
      v.children.map fun e => (e.1, (transformValue ctx e.2 []).value) :=
    List.map_congr_left fun e _ => by rw [(transformValue_at e.2 _).2]
  by_cases hconverted : convertedAt ctx v = []
  · rw [value_of_not_converted hconverted]
    have hnone : ∀ e ∈ v.children, convertedAt ctx e.2 = [] := by
      rw [convertedAt, referencesAt_of_none href, childPositions,
        List.flatMap_eq_nil_iff] at hconverted
      exact fun e he => List.map_eq_nil_iff.mp (hconverted e he)
    refine (List.map_id _).symm.trans (List.map_congr_left fun e he => ?_)
    rw [value_of_not_converted (hnone e he)]
    rfl
  · have hvalue :=
      (transformValue_of_none href pointer).value ((changed_iff v pointer).mpr hconverted)
    rw [hvalue, hchild]
    exact children_rebuild (no_proto_of_converted href hkey hconverted)
      fun _ c => (transformValue ctx c []).value

/-- The result differs from the document exactly where something was converted. -/
theorem replacedAt (hdoc : v.isDocument = true) (hkey : losesKey ctx v = false) :
    ReplacedAt v (transformValue ctx v []).value (convertedAt ctx v) := by
  induction v using JsonTree.induct_children with
  | h v ih =>
    cases href : transformReference ctx v [] with
    | some out =>
      rw [transformValue_of_some href, convertedAt, referencesAt_of_some href]
      cases outcome_of_some href with
      | converted w r _ hne _ => exact .root hne
      | _ => exact .refl v
    | none =>
      have hpositions : convertedAt ctx v = v.childPositions (convertedAt ctx) :=
        referencesAt_of_none href
      rw [hpositions]
      refine ReplacedAt.children (g := fun c => (transformValue ctx c []).value) hdoc
        (children_of_converted href hkey) (fun e he => ?_) fun hnil => ?_
      · exact ih e he (isDocument_child hdoc he) (losesKey_child href hkey he)
      · exact (value_of_not_converted (hpositions.trans hnil) []).symm

/-- A position with an error of the walk has its value in the result. -/
theorem kept_of_failed (hdoc : v.isDocument = true) (hkey : losesKey ctx v = false)
    (hp : p ∈ failedAt ctx v) :
    ∃ a, v.at? p = some a ∧ (transformValue ctx v []).value.at? p = some a := by
  induction v using JsonTree.induct_children generalizing p with
  | h v ih =>
    unfold failedAt at hp
    cases href : transformReference ctx v [] with
    | some out =>
      rw [referencesAt_of_some href] at hp
      rw [transformValue_of_some href]
      cases outcome_of_some href with
      | canonical _ => simp [unchanged] at hp
      | failed message _ =>
        obtain rfl : p = [] := by simpa [failed] using hp
        exact ⟨v, rfl, rfl⟩
      | converted w r _ _ _ => simp [converted] at hp
    | none =>
      rw [referencesAt_of_none href] at hp
      obtain ⟨e, he, q, hq, rfl⟩ := mem_childPositions.mp hp
      obtain ⟨a, hv, hw⟩ := ih e he (isDocument_child hdoc he) (losesKey_child href hkey he) hq
      refine ⟨a, ?_, ?_⟩
      · rw [at?_cons, lookup_child hdoc he, Option.bind_some, hv]
      · rw [at?_cons, children_of_converted href hkey, lookup_map _ fun _ c =>
          (transformValue ctx c []).value, lookup_child hdoc he, Option.map_some,
          Option.bind_some, hw]

theorem nodup_referencesAt (hdoc : v.isDocument = true) : (referencesAt ctx P v).Nodup := by
  induction v using JsonTree.induct_children with
  | h v ih =>
    cases href : transformReference ctx v [] with
    | some out =>
      rw [referencesAt_of_some href]
      split_ifs <;> simp
    | none =>
      rw [referencesAt_of_none href]
      exact nodup_childPositions hdoc fun e he => ih e he (isDocument_child hdoc he)

theorem escapeChar_append_inj {x y : Char} {xs ys : List Char}
    (h : escapeChar x ++ xs = escapeChar y ++ ys) : x = y ∧ xs = ys := by
  unfold escapeChar at h
  split_ifs at h with hx hy hy' hx' hy hy' hy hy'
  all_goals
    simp only [List.cons_append, List.nil_append, List.cons.injEq] at h
  · exact ⟨hx.trans hy.symm, h.2.2⟩
  · simp at h
  · exact absurd h.1.symm hy
  · simp at h
  · exact ⟨hx'.trans hy'.symm, h.2.2⟩
  · exact absurd h.1.symm hy
  · exact absurd h.1 hx
  · exact absurd h.1 hx
  · exact h

theorem flatMap_escapeChar_inj {xs ys : List Char}
    (h : xs.flatMap escapeChar = ys.flatMap escapeChar) : xs = ys := by
  have hne : ∀ c, escapeChar c ≠ [] := fun c => by unfold escapeChar; split_ifs <;> simp
  induction xs generalizing ys with
  | nil =>
    cases ys with
    | nil => rfl
    | cons y ys => exact absurd h.symm (by simp [hne y])
  | cons x xs ih =>
    cases ys with
    | nil => exact absurd h (by simp [hne x])
    | cons y ys =>
      rw [List.flatMap_cons, List.flatMap_cons] at h
      obtain ⟨rfl, hrest⟩ := escapeChar_append_inj h
      rw [ih hrest]

theorem escapePointerSegment_inj {s t : String}
    (h : escapePointerSegment s = escapePointerSegment t) : s = t := by
  have hlist := congrArg String.toList h
  rw [escapePointerSegment, escapePointerSegment, String.toList_ofList, String.toList_ofList]
    at hlist
  exact String.toList_inj.mp (flatMap_escapeChar_inj hlist)

theorem not_mem_escapePointerSegment (s : String) : '/' ∉ (escapePointerSegment s).toList := by
  rw [escapePointerSegment, String.toList_ofList, List.mem_flatMap]
  rintro ⟨c, -, hc⟩
  unfold escapeChar at hc
  split_ifs at hc with htilde hslash
  · simp at hc
  · simp at hc
  · exact hslash (List.mem_singleton.mp hc).symm

/-- Pointers below the root that are written alike have parts that are written alike. -/
theorem map_segmentText_inj (hp : p ≠ []) (hq : q ≠ [])
    (h : pointerToString p = pointerToString q) : p.map segmentText = q.map segmentText := by
  have hsplit : ∀ r : Pointer, r ≠ [] →
      (pointerToString r).toList.tail.splitOn '/' =
        (r.map segmentText).map fun s => (escapePointerSegment s).toList := by
    intro r hr
    have htail : (pointerToString r).toList.tail =
        ['/'].intercalate ((r.map segmentText).map fun s => (escapePointerSegment s).toList) := by
      rw [pointerToString, if_neg (by simpa using hr), String.toList_append,
        String.toList_intercalate, List.map_map, List.map_map]
      rfl
    rw [htail, List.splitOn_intercalate]
    · simpa using fun s _ => not_mem_escapePointerSegment (segmentText s)
    · simpa using hr
  have hlists : (p.map segmentText).map (fun s => (escapePointerSegment s).toList) =
      (q.map segmentText).map fun s => (escapePointerSegment s).toList := by
    rw [← hsplit p hp, h, hsplit q hq]
  refine List.map_injective_iff.mpr (fun s t hst => ?_) hlists
  exact escapePointerSegment_inj (String.toList_inj.mp hst)

theorem segmentText_index_inj {i j : ℕ} (h : toString i = toString j) : i = j := by
  have hlist := congrArg (fun s => Nat.ofDigitChars 10 s.toList 0) h
  simpa using hlist

/-- Positions of one value that are written alike are the same. -/
theorem eq_of_map_segmentText {a b : JsonTree N} (hp : v.at? p = some a) (hq : v.at? q = some b)
    (h : p.map segmentText = q.map segmentText) : p = q := by
  induction p generalizing v q with
  | nil => exact (List.map_eq_nil_iff.mp h.symm).symm
  | cons s p ih =>
    cases q with
    | nil => simp at h
    | cons t q =>
      obtain ⟨htext, hrest⟩ := List.cons.inj h
      obtain ⟨c, hc, hp⟩ := Option.bind_eq_some_iff.mp hp
      obtain ⟨d, hd, hq⟩ := Option.bind_eq_some_iff.mp hq
      have hst : s = t := by
        have hs := mem_of_lookup_eq_some hc
        have ht := mem_of_lookup_eq_some hd
        cases v with
        | arr items =>
          obtain ⟨⟨_, i⟩, -, hi⟩ := List.mem_map.mp hs
          obtain ⟨⟨_, j⟩, -, hj⟩ := List.mem_map.mp ht
          obtain ⟨rfl, -⟩ := Prod.mk.inj hi
          obtain ⟨rfl, -⟩ := Prod.mk.inj hj
          exact congrArg Segment.index (segmentText_index_inj htext)
        | obj proto entries =>
          obtain ⟨⟨k, _⟩, -, hk⟩ := List.mem_map.mp hs
          obtain ⟨⟨l, _⟩, -, hl⟩ := List.mem_map.mp ht
          obtain ⟨rfl, -⟩ := Prod.mk.inj hk
          obtain ⟨rfl, -⟩ := Prod.mk.inj hl
          exact congrArg Segment.key htext
        | _ => simp [JsonTree.children] at hs
      subst hst
      obtain rfl := Option.some.inj (hc.symm.trans hd)
      rw [ih hp hq hrest]

/-- No pointer is listed twice, also as a text. -/
theorem nodup_pointers (hdoc : v.isDocument = true) (hkey : losesKey ctx v = false) :
    ((convertedAt ctx v).map pointerToString).Nodup := by
  have hnodup : (convertedAt ctx v).Nodup := nodup_referencesAt hdoc
  refine List.Nodup.map_on (fun p hp q hq heq => ?_) hnodup
  cases href : transformReference ctx v [] with
  | some out =>
    -- the value itself is a reference, so that it is the only position
    rw [convertedAt, referencesAt_of_some href] at hp hq
    split_ifs at hp hq
    · rw [List.mem_singleton.mp hp, List.mem_singleton.mp hq]
    · simp at hp
  | none =>
    have hne : ∀ r ∈ convertedAt ctx v, r ≠ [] := by
      rw [convertedAt, referencesAt_of_none href]
      intro r hr hnil
      obtain ⟨_, _, _, _, rfl⟩ := mem_childPositions.mp hr
      exact absurd hnil (by simp)
    obtain ⟨a, _, ha, -⟩ := (replacedAt hdoc hkey).differs p hp
    obtain ⟨b, _, hb, -⟩ := (replacedAt hdoc hkey).differs q hq
    exact eq_of_map_segmentText ha hb (map_segmentText_inj (hne p hp) (hne q hq) heq)

theorem not_legacy_of_collect (h : collectPostTransformErrors v pointer = []) :
    isLegacyRef v = false ∧
      ∀ e ∈ v.children, collectPostTransformErrors e.2 (pointer ++ [e.1]) = [] := by
  have hlegacy : isLegacyRef v = false := by
    by_contra hc
    rw [collect_of_legacy (by simpa using hc)] at h
    exact absurd h (by simp)
  rw [collect_of_not_legacy hlegacy, List.append_eq_nil_iff, List.flatMap_eq_nil_iff] at h
  exact ⟨hlegacy, h.2⟩

/-- A value that validates has no legacy reference in it. -/
theorem no_legacy_of_collect {a : JsonTree N} (h : collectPostTransformErrors v pointer = [])
    (hp : v.at? p = some a) : isLegacyRef a = false := by
  obtain ⟨hlegacy, hchildren⟩ := not_legacy_of_collect h
  induction p generalizing v pointer with
  | nil => exact Option.some.inj hp ▸ hlegacy
  | cons s p ih =>
    obtain ⟨c, hc, hp⟩ := Option.bind_eq_some_iff.mp hp
    have hchild := hchildren (s, c) (mem_of_lookup_eq_some hc)
    exact ih hchild hp (not_legacy_of_collect hchild).1 (not_legacy_of_collect hchild).2

/-- The walk finds nothing to do in a value that validates. -/
theorem transformValue_of_collect (h : collectPostTransformErrors v pointer = [])
    (pointer' : Pointer) : transformValue ctx v pointer' = unchanged v := by
  induction v using JsonTree.induct_children generalizing pointer pointer' with
  | h v ih =>
    obtain ⟨hlegacy, hchildren⟩ := not_legacy_of_collect h
    cases href : transformReference ctx v [] with
    | some out =>
      rw [transformValue_of_some href]
      cases outcome_of_some href with
      | canonical _ => rfl
      | failed message hv => exact absurd (hlegacy.symm.trans hv) (by simp)
      | converted w r hv _ _ => exact absurd (hlegacy.symm.trans hv) (by simp)
    | none =>
      have hcombined := transformValue_of_none href pointer'
      have hchild : ∀ e ∈ v.children,
          transformValue ctx e.2 (pointer' ++ [e.1]) = unchanged e.2 :=
        fun e he => ih e he (hchildren e he) (pointer' ++ [e.1])
      have hchanged : (transformValue ctx v pointer').changed = false := by
        rw [hcombined.changed, List.any_eq_false]
        intro e he
        rw [hchild e he]
        simp [unchanged]
      have hconversions : (transformValue ctx v pointer').conversions = [] := by
        rw [hcombined.conversions, List.flatMap_eq_nil_iff]
        exact fun e he => by rw [hchild e he]; rfl
      have herrors : (transformValue ctx v pointer').errors = [] := by
        rw [hcombined.errors, List.flatMap_eq_nil_iff]
        exact fun e he => by rw [hchild e he]; rfl
      have hsame := hcombined.same hchanged
      generalize transformValue ctx v pointer' = out at hchanged hconversions herrors hsame ⊢
      obtain ⟨value, changed, conversions, errors⟩ := out
      obtain rfl : value = v := hsame
      obtain rfl : changed = false := hchanged
      obtain rfl : conversions = [] := hconversions
      obtain rfl : errors = [] := herrors
      rfl

theorem exists_child_of_ownKey {name : String} (h : name ∈ ownKeys v) :
    ∃ e ∈ v.children, e.1 = .key name := by
  cases v with
  | obj proto entries =>
    obtain ⟨e, he, rfl⟩ := List.mem_map.mp h
    exact ⟨(.key e.1, e.2), List.mem_map_of_mem he, rfl⟩
  | _ => simp [ownKeys] at h

/-- An error of the validation is at the value, at a property of it, or in a child. -/
theorem collect_cases {e : MigrationError} (h : e ∈ collectPostTransformErrors v pointer) :
    e.pointer = pointerToString pointer ∨
      (∃ c ∈ v.children, e.pointer = pointerToString (pointer ++ [c.1])) ∨
      ∃ c ∈ v.children, e ∈ collectPostTransformErrors c.2 (pointer ++ [c.1]) := by
  cases hlegacy : isLegacyRef v with
  | true =>
    rw [collect_of_legacy hlegacy, List.mem_singleton] at h
    exact .inl (h ▸ rfl)
  | false =>
    rw [collect_of_not_legacy hlegacy, List.mem_append, List.mem_flatMap] at h
    obtain hown | hchild := h
    · have hproperty : ∀ {name}, e ∈ nodePropertyErrors v pointer name →
          ∃ c ∈ v.children, e.pointer = pointerToString (pointer ++ [c.1]) := by
        intro name hname
        unfold nodePropertyErrors at hname
        split_ifs at hname with hcond
        · simp only [Bool.and_eq_true, decide_eq_true_eq] at hcond
          obtain ⟨c, hc, hkey⟩ := exists_child_of_ownKey hcond.1.2
          rw [List.mem_singleton] at hname
          exact ⟨c, hc, by rw [hname, hkey]⟩
        · simp at hname
      unfold ownErrors objectErrors at hown
      split_ifs at hown
      · obtain (hcanonical | hconfig) | hstate :=
          (List.mem_append.mp hown).imp_left List.mem_append.mp
        · refine .inl ?_
          unfold canonicalErrors at hcanonical
          split_ifs at hcanonical <;> simp_all
        · exact .inr (.inl (hproperty hconfig))
        · exact .inr (.inl (hproperty hstate))
      · simp at hown
    · exact .inr (.inr hchild)

/-- An error of the validation is at a position of the value. -/
theorem exists_position_of_collect (hdoc : v.isDocument = true) {e : MigrationError}
    (h : e ∈ collectPostTransformErrors v pointer) :
    ∃ q a, e.pointer = pointerToString (pointer ++ q) ∧ v.at? q = some a := by
  induction v using JsonTree.induct_children generalizing pointer with
  | h v ih =>
    obtain hroot | ⟨c, hc, hchild⟩ | ⟨c, hc, hchild⟩ := collect_cases h
    · exact ⟨[], v, by rw [hroot, List.append_nil], rfl⟩
    · refine ⟨[c.1], c.2, hchild, ?_⟩
      rw [at?_cons, lookup_child hdoc hc]
      rfl
    · obtain ⟨q, a, hpointer, ha⟩ := ih c hc (isDocument_child hdoc hc) hchild
      refine ⟨c.1 :: q, a, ?_, ?_⟩
      · rw [hpointer, List.append_assoc]
        rfl
      · rw [at?_cons, lookup_child hdoc hc, Option.bind_some, ha]

/-- What stands below a child, before and after the walk. -/
theorem at?_child (hdoc : v.isDocument = true) (href : transformReference ctx v [] = none)
    (hkey : losesKey ctx v = false) {c : Segment × JsonTree N} (hc : c ∈ v.children)
    (q : Pointer) :
    v.at? (c.1 :: q) = c.2.at? q ∧ (transformValue ctx v []).value.at? (c.1 :: q) =
      (transformValue ctx c.2 []).value.at? q := by
  constructor
  · rw [at?_cons, lookup_child hdoc hc, Option.bind_some]
  · rw [at?_cons, children_of_converted href hkey,
      lookup_map _ fun _ c => (transformValue ctx c []).value, lookup_child hdoc hc,
      Option.map_some, Option.bind_some]

/-- The position of an error of the validation has its value in the result, or something was
converted at it or below it. -/
theorem kept_or_converted (hdoc : v.isDocument = true) (hkey : losesKey ctx v = false)
    {e : MigrationError}
    (h : e ∈ collectPostTransformErrors (transformValue ctx v []).value pointer) :
    ∃ q, e.pointer = pointerToString (pointer ++ q) ∧
      ((∃ a, v.at? q = some a ∧ (transformValue ctx v []).value.at? q = some a) ∨
        ∃ p ∈ convertedAt ctx v, q <+: p) := by
  induction v using JsonTree.induct_children generalizing pointer with
  | h v ih =>
    by_cases hconverted : convertedAt ctx v = []
    · rw [value_of_not_converted hconverted] at h ⊢
      obtain ⟨q, a, hpointer, ha⟩ := exists_position_of_collect hdoc h
      exact ⟨q, hpointer, .inl ⟨a, ha, ha⟩⟩
    · obtain ⟨p, hp⟩ := List.exists_mem_of_ne_nil _ hconverted
      cases href : transformReference ctx v [] with
      | some out =>
        rw [convertedAt, referencesAt_of_some href] at hconverted
        rw [transformValue_of_some href] at h
        cases outcome_of_some href with
        | converted w r _ _ hvalid =>
          rw [show ((converted w r).locate []).value = w from rfl, hvalid] at h
          exact absurd h List.not_mem_nil
        | _ => exact absurd rfl hconverted
      | none =>
        have hbelow : ∀ c ∈ v.children, ∀ p ∈ convertedAt ctx c.2,
            c.1 :: p ∈ convertedAt ctx v := by
          intro c hc p hp
          rw [convertedAt, referencesAt_of_none href]
          exact mem_childPositions.mpr ⟨c, hc, p, hp, rfl⟩
        obtain hroot | ⟨c', hc', hchild⟩ | ⟨c', hc', hchild⟩ := collect_cases h
        · exact ⟨[], by rw [hroot, List.append_nil], .inr ⟨p, hp, List.nil_prefix⟩⟩
        · rw [children_of_converted href hkey] at hc'
          obtain ⟨c, hc, rfl⟩ := List.mem_map.mp hc'
          refine ⟨[c.1], hchild, ?_⟩
          obtain ⟨hbefore, hafter⟩ := at?_child hdoc href hkey hc []
          by_cases hnone : convertedAt ctx c.2 = []
          · refine .inl ⟨c.2, hbefore, ?_⟩
            rw [hafter, value_of_not_converted hnone]
            rfl
          · obtain ⟨p, hp⟩ := List.exists_mem_of_ne_nil _ hnone
            refine .inr ⟨c.1 :: p, hbelow c hc p hp, ?_⟩
            exact (List.prefix_cons_inj c.1).mpr List.nil_prefix
        · rw [children_of_converted href hkey] at hc'
          obtain ⟨c, hc, rfl⟩ := List.mem_map.mp hc'
          obtain ⟨q, hpointer, hq⟩ :=
            ih c hc (isDocument_child hdoc hc) (losesKey_child href hkey hc) hchild
          refine ⟨c.1 :: q, by rw [hpointer, List.append_assoc]; rfl, ?_⟩
          obtain ⟨hbefore, hafter⟩ := at?_child hdoc href hkey hc q
          obtain ⟨a, ha, ha'⟩ | ⟨p, hp, hle⟩ := hq
          · exact .inl ⟨a, hbefore.trans ha, hafter.trans ha'⟩
          · exact .inr ⟨c.1 :: p, hbelow c hc p hp, (List.prefix_cons_inj c.1).mpr hle⟩

/-- What a migration that reports no error leaves: no legacy reference, the document outside the
positions of its conversions, each of which is listed once, and nothing to do a second time. -/
structure Migrated (ctx : TransformContext) (input : JsonTree N) (out : TransformOutcome N) :
    Prop where
  complete : ∀ p a, out.value.at? p = some a → isLegacyRef a = false
  replaced : ∃ ps, out.conversions.map (·.pointer) = ps.map pointerToString ∧
    (out.conversions.map (·.pointer)).Nodup ∧ ReplacedAt input out.value ps
  idempotent : migrateValue ctx true out.value = unchanged out.value

def KeepsValue (input : JsonTree N) (out : TransformOutcome N) (e : MigrationError) : Prop :=
  ∃ q a, e.pointer = pointerToString q ∧ input.at? q = some a ∧ out.value.at? q = some a

/-- The error is one of the validation, at or above a position that is listed as converted. -/
def AboveConversion (out : TransformOutcome N) (e : MigrationError) : Prop :=
  e ∈ collectPostTransformErrors out.value [] ∧
    ∃ q p, e.pointer = pointerToString q ∧ q <+: p ∧
      pointerToString p ∈ out.conversions.map (·.pointer)

theorem migrateValue_sound (ctx : TransformContext) (input : JsonTree N)
    (hdoc : input.isDocument = true) (hkey : losesKey ctx input = false) :
    ((migrateValue ctx true input).errors = [] →
      Migrated ctx input (migrateValue ctx true input)) ∧
    ∀ validate, ∀ e ∈ (migrateValue ctx validate input).errors,
      KeepsValue input (migrateValue ctx validate input) e ∨
        AboveConversion (migrateValue ctx validate input) e := by
  have hpointers : (transformValue ctx input []).conversions.map (·.pointer) =
      (convertedAt ctx input).map fun p => pointerToString ([] ++ p) := conversions_eq input []
  have hreplaced := replacedAt hdoc hkey
  constructor
  · intro herrors
    have hvalid : collectPostTransformErrors (transformValue ctx input []).value [] = [] :=
      (List.append_eq_nil_iff.mp herrors).2
    refine ⟨fun p a ha => no_legacy_of_collect hvalid ha, ⟨_, hpointers, ?_, hreplaced⟩, ?_⟩
    · show ((transformValue ctx input []).conversions.map (·.pointer)).Nodup
      rw [hpointers]
      exact nodup_pointers hdoc hkey
    · show migrateValue ctx true (transformValue ctx input []).value = _
      rw [migrateValue, transformValue_of_collect hvalid]
      simp [unchanged, hvalid, migrateValue]
  · intro validate e he
    obtain hfailed | hvalidation := List.mem_append.mp he
    · have hmem : e.pointer ∈ (failedAt ctx input).map fun p => pointerToString ([] ++ p) := by
        rw [← errors_eq]
        exact List.mem_map_of_mem hfailed
      obtain ⟨q, hq, hpointer⟩ := List.mem_map.mp hmem
      obtain ⟨a, ha, ha'⟩ := kept_of_failed hdoc hkey hq
      exact .inl ⟨q, a, hpointer.symm, ha, ha'⟩
    · split_ifs at hvalidation with hvalidate
      · obtain ⟨q, hpointer, ⟨a, ha, ha'⟩ | ⟨p, hp, hle⟩⟩ :=
          kept_or_converted hdoc hkey hvalidation
        · exact .inl ⟨q, a, hpointer, ha, ha'⟩
        · refine .inr ⟨hvalidation, q, p, hpointer, hle, ?_⟩
          show pointerToString p ∈ (transformValue ctx input []).conversions.map (·.pointer)
          rw [hpointers]
          exact List.mem_map_of_mem hp
      · simp at hvalidation

def secretMounts : TransformContext := ⟨"secret", ["secret"]⟩

def staticRef (value : JsonTree ℕ) : JsonTree ℕ :=
  .record [("source", .str "static"), ("value", value)]

/-- A vault reference that takes the default mount, beside a static one in a list. -/
def legacyDocument : JsonTree ℕ :=
  .record [("token", .record [("source", .str "vault"), ("value", .str "workspace/app-token")]),
    ("tags", .arr [staticRef (.str "alpha"), .str "beta"])]

theorem migrated_legacyDocument :
    Migrated secretMounts legacyDocument (migrateValue secretMounts true legacyDocument) :=
  (migrateValue_sound secretMounts legacyDocument (by decide) (by decide +kernel)).1
    (by decide +kernel)

def staticConfigNode : JsonTree ℕ :=
  .record [("id", .str "n"), ("template", .str "t"), ("config", staticRef (.str "x"))]

/-- An object with an own property `__proto__`. -/
def protoDocument : JsonTree ℕ :=
  .record [("__proto__", .num 1), ("x", staticRef (.str "y"))]

/-- The position of an error of the validation has lost its value; an object that is rebuilt has
lost a property at which nothing was converted. -/
theorem not_migrated_staticConfigNode :
    ((migrateValue secretMounts true staticConfigNode).errors.map (·.pointer) = ["/config"] ∧
      staticConfigNode.at? [.key "config"] = some (staticRef (.str "x")) ∧
      (migrateValue secretMounts true staticConfigNode).value.at? [.key "config"] =
        some (.str "x")) ∧
    (migrateValue secretMounts true protoDocument).errors = [] ∧
      (migrateValue secretMounts true protoDocument).conversions.map (·.pointer) = ["/x"] ∧
      protoDocument.at? [.key "__proto__"] = some (.num 1) ∧
      (migrateValue secretMounts true protoDocument).value.at? [.key "__proto__"] = none :=
  ⟨⟨by decide +kernel, rfl, rfl⟩, by decide +kernel, by decide +kernel, rfl, rfl⟩

end Agyn.RefMigration
