import Agyn.RefMigration

/-!
The walks of a migration, each as one equation over the children of a value, and what becomes of
a reference: it stays, or it gives way to a value that validates and is no reference to migrate.
-/
namespace Agyn.RefMigration

open JsonTree

variable {N : Type} {ctx : TransformContext} {v w : JsonTree N} {out : TransformOutcome N}
  {pointer p q : Pointer}

theorem transformItems_eq (items : List (JsonTree N)) (pointer : Pointer) (i : ℕ) :
    transformItems ctx items pointer i = (items.zipIdx i).map fun e =>
      (e.2, transformValue ctx e.1 (pointer ++ [.index e.2])) := by
  induction items generalizing i with
  | nil => rfl
  | cons item items ih => simp [transformItems, ih]

theorem transformEntries_eq (entries : List (String × JsonTree N)) (pointer : Pointer) :
    transformEntries ctx entries pointer = entries.map fun e =>
      (e.1, transformValue ctx e.2 (pointer ++ [.key e.1])) := by
  induction entries with
  | nil => rfl
  | cons e entries ih => simp [transformEntries, ih]

def TransformOutcome.locate (out : TransformOutcome N) (pointer : Pointer) : TransformOutcome N :=
  { out with
    conversions := out.conversions.map fun r => { r with pointer := pointerToString pointer }
    errors := out.errors.map fun e => { e with pointer := pointerToString pointer } }

theorem buildVaultRef_locate (input : JsonTree N) (mount : String) (pathSegments : List String)
    (key : Option String) (used : Bool) :
    buildVaultRef input pointer mount pathSegments key used =
      (buildVaultRef input [] mount pathSegments key used).locate pointer := by
  unfold buildVaultRef
  dsimp only
  split_ifs <;> rfl

theorem transformLegacyVaultRef_locate (input : JsonTree N) :
    transformLegacyVaultRef ctx input pointer =
      (transformLegacyVaultRef ctx input []).locate pointer := by
  unfold transformLegacyVaultRef
  dsimp only
  split_ifs
  · rfl
  · rfl
  · split
    · rfl
    · rfl
    · split_ifs
      · rfl
      · exact buildVaultRef_locate ..
    · exact buildVaultRef_locate ..

theorem transformLegacyEnvRef_locate (input : JsonTree N) :
    transformLegacyEnvRef input pointer = (transformLegacyEnvRef input []).locate pointer := by
  unfold transformLegacyEnvRef
  dsimp only
  split_ifs <;> rfl

theorem transformLegacyStaticRef_locate (input : JsonTree N) :
    transformLegacyStaticRef input pointer =
      (transformLegacyStaticRef input []).locate pointer := by
  unfold transformLegacyStaticRef
  dsimp only
  split_ifs <;> rfl

theorem transformReference_locate (input : JsonTree N) (pointer : Pointer) :
    transformReference ctx input pointer =
      (transformReference ctx input []).map (·.locate pointer) := by
  unfold transformReference
  split_ifs
  · rfl
  · rw [Option.map_some, ← transformLegacyVaultRef_locate]
  · rw [Option.map_some, ← transformLegacyEnvRef_locate]
  · rw [Option.map_some, ← transformLegacyStaticRef_locate]
  · rfl

theorem isPlainObject_of_isLegacyRef (h : isLegacyRef v = true) : isPlainObject v = true := by
  by_contra hobj
  simp [isLegacyRef, isLegacyVaultRef, isLegacyEnvRef, isLegacyStaticRef, hobj] at h

theorem transformReference_of_not_object (h : isPlainObject v = false) :
    transformReference ctx v pointer = none := by
  simp [transformReference, isCanonicalVaultRef, isCanonicalVarRef, isLegacyVaultRef,
    isLegacyEnvRef, isLegacyStaticRef, h]

theorem transformValue_of_some (h : transformReference ctx v [] = some out) (pointer : Pointer) :
    transformValue ctx v pointer = out.locate pointer := by
  cases v with
  | obj proto entries => rw [transformValue, transformReference_locate, h, Option.map_some]
  | _ =>
    rw [transformReference_of_not_object rfl] at h
    exact absurd h (by simp)

theorem foldl_assign (proto : Option (JsonTree N)) (entries done : List (String × JsonTree N))
    (h : "__proto__" ∉ entries.map Prod.fst) :
    entries.foldl (fun result e => assign result.1 result.2 e.1 e.2) (proto, done) =
      (proto, done ++ entries) := by
  induction entries generalizing done with
  | nil => simp
  | cons e entries ih =>
    rw [List.map_cons, List.mem_cons, not_or] at h
    have hassign : assign proto done e.1 e.2 = (proto, done ++ [e]) := if_neg (Ne.symm h.1)
    rw [List.foldl_cons, hassign, ih _ h.2, List.append_assoc]
    rfl

theorem assignAll_of_no_proto {entries : List (String × JsonTree N)}
    (h : "__proto__" ∉ entries.map Prod.fst) : assignAll entries = .record entries := by
  rw [assignAll, foldl_assign none entries [] h]
  rfl

/-- A value with other children in the place of its own. -/
def rebuild : JsonTree N → List (Segment × JsonTree N) → JsonTree N
  | .arr _, next => .arr (next.map Prod.snd)
  | .obj _ _, next => assignAll (next.map fun e => (segmentText e.1, e.2))
  | v, _ => v

/-- The outcome for a value that is no reference, from those for its children. -/
structure Combined (ctx : TransformContext) (v : JsonTree N) (pointer : Pointer)
    (out : TransformOutcome N) : Prop where
  changed : out.changed =
    v.children.any fun e => (transformValue ctx e.2 (pointer ++ [e.1])).changed
  conversions : out.conversions =
    v.children.flatMap fun e => (transformValue ctx e.2 (pointer ++ [e.1])).conversions
  errors : out.errors =
    v.children.flatMap fun e => (transformValue ctx e.2 (pointer ++ [e.1])).errors
  same : out.changed = false → out.value = v
  value : out.changed = true → out.value =
    rebuild v (v.children.map fun e => (e.1, (transformValue ctx e.2 (pointer ++ [e.1])).value))

theorem combine_value {κ : Type} {build : List (κ × JsonTree N) → JsonTree N}
    {parts : List (κ × TransformOutcome N)} (h : (combine v build parts).changed = true) :
    (combine v build parts).value = build (parts.map fun part => (part.1, part.2.value)) :=
  if_pos h

theorem zipIdx_map_zipIdx {α β : Type} (l : List α) (g : α × ℕ → β) (i : ℕ) :
    ((l.zipIdx i).map g).zipIdx i = (l.zipIdx i).map fun e => (g e, e.2) := by
  induction l generalizing i with
  | nil => rfl
  | cons a l ih => simp [ih]

theorem children_rebuild (h : "__proto__" ∉ ownKeys v) (g : Segment → JsonTree N → JsonTree N) :
    (rebuild v (v.children.map fun e => (e.1, g e.1 e.2))).children =
      v.children.map fun e => (e.1, g e.1 e.2) := by
  cases v with
  | arr items =>
    simp only [rebuild, JsonTree.children, List.map_map, zipIdx_map_zipIdx]
    rfl
  | obj proto entries =>
    rw [rebuild, assignAll_of_no_proto]
    · simp [JsonTree.children, segmentText]
    · simpa [ownKeys, JsonTree.children, segmentText, Function.comp_def] using h
  | _ => rfl

theorem transformValue_of_none (h : transformReference ctx v [] = none) (pointer : Pointer) :
    Combined ctx v pointer (transformValue ctx v pointer) := by
  cases v with
  | arr items =>
    rw [transformValue, transformItems_eq]
    refine ⟨?_, ?_, ?_, fun hsame => ?_, fun hchanged => ?_⟩
    · simp [combine, JsonTree.children, List.any_map, Function.comp_def]
    · simp [combine, JsonTree.children, List.flatMap_map]
    · simp [combine, JsonTree.children, List.flatMap_map]
    · exact if_neg (by simpa [combine] using hsame)
    · rw [combine_value hchanged]
      simp [rebuild, JsonTree.children]
  | obj proto entries =>
    rw [transformValue, transformReference_locate, h, Option.map_none]
    dsimp only
    rw [transformEntries_eq]
    refine ⟨?_, ?_, ?_, fun hsame => ?_, fun hchanged => ?_⟩
    · simp [combine, JsonTree.children, List.any_map, Function.comp_def]
    · simp [combine, JsonTree.children, List.flatMap_map]
    · simp [combine, JsonTree.children, List.flatMap_map]
    · exact if_neg (by simpa [combine] using hsame)
    · rw [combine_value hchanged]
      simp [rebuild, JsonTree.children, segmentText, Function.comp_def]
  | _ =>
    exact ⟨rfl, rfl, rfl, fun _ => rfl, fun h => absurd h (by simp [transformValue, unchanged])⟩

/-- The place of a value has no part in what becomes of it. -/
theorem transformValue_at (v : JsonTree N) (pointer : Pointer) :
    (transformValue ctx v pointer).changed = (transformValue ctx v []).changed ∧
      (transformValue ctx v pointer).value = (transformValue ctx v []).value := by
  induction v using JsonTree.induct_children generalizing pointer with
  | h v ih =>
    cases href : transformReference ctx v [] with
    | some out =>
      rw [transformValue_of_some href, transformValue_of_some href]
      exact ⟨rfl, rfl⟩
    | none =>
      have hhere := transformValue_of_none href pointer
      have hroot := transformValue_of_none href []
      have hchild : ∀ e ∈ v.children, ∀ at',
          (transformValue ctx e.2 (at' ++ [e.1])).changed = (transformValue ctx e.2 []).changed ∧
            (transformValue ctx e.2 (at' ++ [e.1])).value = (transformValue ctx e.2 []).value :=
        fun e he at' => ih e he (at' ++ [e.1])
      have hchanged :
          (transformValue ctx v pointer).changed = (transformValue ctx v []).changed := by
        rw [hhere.changed, hroot.changed, Bool.eq_iff_iff, List.any_eq_true, List.any_eq_true]
        refine exists_congr fun e => and_congr_right fun he => ?_
        rw [(hchild e he pointer).1, (hchild e he []).1]
      refine ⟨hchanged, ?_⟩
      cases hc : (transformValue ctx v []).changed with
      | false => rw [hhere.same (hchanged.trans hc), hroot.same hc]
      | true =>
        rw [hhere.value (hchanged.trans hc), hroot.value hc]
        refine congrArg (rebuild v) (List.map_congr_left fun e he => ?_)
        rw [(hchild e he pointer).2, (hchild e he []).2]

theorem get_source_of_isLegacyRef (h : isLegacyRef v = true) : v.get "source" ≠ none := by
  intro hnone
  simp [isLegacyRef, isLegacyVaultRef, isLegacyEnvRef, isLegacyStaticRef, hnone, isStr] at h

/-- A reference is canonical and stays, or is legacy, and is kept with an error or gives way to
something else that validates. -/
inductive Outcome (v : JsonTree N) : TransformOutcome N → Prop
  | canonical : (isCanonicalVaultRef v || isCanonicalVarRef v) = true → Outcome v (unchanged v)
  | failed (message : String) : isLegacyRef v = true → Outcome v (failed v [] message)
  | converted (w : JsonTree N) (r : ConversionRecord) : isLegacyRef v = true → v ≠ w →
      (∀ pointer, collectPostTransformErrors w pointer = []) → Outcome v (converted w r)

theorem collectItemErrors_eq (items : List (JsonTree N)) (pointer : Pointer) (i : ℕ) :
    collectItemErrors items pointer i = (items.zipIdx i).flatMap fun e =>
      collectPostTransformErrors e.1 (pointer ++ [.index e.2]) := by
  induction items generalizing i with
  | nil => rfl
  | cons item items ih => simp [collectItemErrors, ih]

theorem collectEntryErrors_eq (entries : List (String × JsonTree N)) (pointer : Pointer) :
    collectEntryErrors entries pointer = entries.flatMap fun e =>
      collectPostTransformErrors e.2 (pointer ++ [.key e.1]) := by
  induction entries with
  | nil => rfl
  | cons e entries ih => simp [collectEntryErrors, ih]

/-- The errors of a value by itself, when it is no legacy reference. -/
def ownErrors (v : JsonTree N) (pointer : Pointer) : List MigrationError :=
  if isPlainObject v then objectErrors v pointer else []

theorem collect_of_legacy (h : isLegacyRef v = true) (pointer : Pointer) :
    collectPostTransformErrors v pointer =
      [⟨pointerToString pointer, "Legacy reference remains after migration"⟩] := by
  cases v with
  | obj proto entries => rw [collectPostTransformErrors, if_pos h]
  | _ => exact absurd (isPlainObject_of_isLegacyRef h) (by simp [isPlainObject])

theorem collect_of_not_legacy (h : isLegacyRef v = false) (pointer : Pointer) :
    collectPostTransformErrors v pointer = ownErrors v pointer ++
      v.children.flatMap fun e => collectPostTransformErrors e.2 (pointer ++ [e.1]) := by
  cases v with
  | arr items =>
    rw [collectPostTransformErrors, collectItemErrors_eq]
    simp [ownErrors, isPlainObject, JsonTree.children, List.flatMap_map]
  | obj proto entries =>
    rw [collectPostTransformErrors, if_neg (by simp [h]), collectEntryErrors_eq]
    simp [ownErrors, isPlainObject, JsonTree.children, List.flatMap_map]
  | _ => rfl

theorem canonicalErrors_of_secret (h : SecretReferenceSchema v = true) (pointer : Pointer) :
    canonicalErrors v pointer = [] := by
  have hkind : isStr "vault" (v.get "kind") = true := by
    simp only [SecretReferenceSchema, Bool.and_eq_true] at h
    exact h.1.1.1.1.2
  rw [canonicalErrors, if_pos hkind, if_pos h]

theorem canonicalErrors_of_variable (h : VariableReferenceSchema v = true) (pointer : Pointer) :
    canonicalErrors v pointer = [] := by
  have hkind : isStr "var" (v.get "kind") = true := by
    simp only [VariableReferenceSchema, Bool.and_eq_true] at h
    exact h.1.1.1.2
  have hvault : ¬isStr "vault" (v.get "kind") = true := by
    intro hvault
    generalize v.get "kind" = kind at hkind hvault
    unfold isStr at hkind hvault
    split at hkind
    · simp_all
    · simp at hkind
  rw [canonicalErrors, if_neg hvault, if_pos hkind, if_pos h]

theorem isString_default (h : VariableReferenceSchema v = true) {d : JsonTree N}
    (hd : v.get "default" = some d) : isString (some d) = true := by
  simp only [VariableReferenceSchema, Bool.and_eq_true] at h
  simpa [hd] using h.1.2

/-- A canonical reference that is made, which has no properties but strings, validates. -/
theorem collect_of_strings (hsource : v.get "source" = none) (hid : v.get "id" = none)
    (hcanonical : ∀ pointer, canonicalErrors v pointer = [])
    (hchildren : ∀ e ∈ v.children, isString (some e.2) = true) (pointer : Pointer) :
    collectPostTransformErrors v pointer = [] := by
  have hlegacy : isLegacyRef v = false := by
    by_contra h
    exact get_source_of_isLegacyRef (by simpa using h) hsource
  have hown : ownErrors v pointer = [] := by
    simp [ownErrors, objectErrors, hcanonical, nodePropertyErrors, hid, isString]
  rw [collect_of_not_legacy hlegacy, hown, List.nil_append, List.flatMap_eq_nil_iff]
  intro e he
  have hstring := hchildren e he
  cases hvalue : e.2 with
  | str text => rfl
  | _ => simp [hvalue, isString] at hstring

theorem outcome_buildVaultRef (hv : isLegacyRef v = true) (mount : String)
    (pathSegments : List String) (key : Option String) (used : Bool) :
    Outcome v (buildVaultRef v [] mount pathSegments key used) := by
  unfold buildVaultRef
  dsimp only
  split_ifs with hkey hpath hschema
  · exact .failed _ hv
  · exact .failed _ hv
  · refine .converted _ _ hv (fun heq => ?_) (collect_of_strings rfl rfl ?_ ?_)
    · exact get_source_of_isLegacyRef hv (heq ▸ rfl)
    · exact canonicalErrors_of_secret hschema
    · simp [JsonTree.children, isString]
  · exact .failed _ hv

theorem outcome_vault (hv : isLegacyRef v = true) :
    Outcome v (transformLegacyVaultRef ctx v []) := by
  unfold transformLegacyVaultRef
  dsimp only
  split_ifs
  · exact .failed _ hv
  · exact .failed _ hv
  · split
    · exact .failed _ hv
    · exact .failed _ hv
    · split_ifs
      · exact .failed _ hv
      · exact outcome_buildVaultRef hv ..
    · exact outcome_buildVaultRef hv ..

theorem outcome_env (hv : isLegacyRef v = true) : Outcome v (transformLegacyEnvRef v []) := by
  unfold transformLegacyEnvRef
  dsimp only
  split_ifs with henv hschema
  · exact .failed _ hv
  · have hdefault : ∀ d, v.get "default" = some d → isString (some d) = true :=
      fun d hd => isString_default hschema (by rw [hd]; rfl)
    refine .converted _ _ hv (fun heq => ?_) (collect_of_strings ?_ ?_ ?_ ?_)
    · refine get_source_of_isLegacyRef hv (heq ▸ ?_)
      cases v.get "default" <;> rfl
    · cases v.get "default" <;> rfl
    · cases v.get "default" <;> rfl
    · exact canonicalErrors_of_variable hschema
    · cases hd : v.get "default" with
      | none => simp [JsonTree.children, isString]
      | some d => simpa [JsonTree.children, isString] using hdefault d hd
  · exact .failed _ hv

theorem outcome_static (hv : isLegacyRef v = true) : Outcome v (transformLegacyStaticRef v []) := by
  have hobj := isPlainObject_of_isLegacyRef hv
  unfold transformLegacyStaticRef
  dsimp only
  split_ifs with hprim
  · refine .converted _ _ hv (fun heq => ?_) fun pointer => ?_
    · rw [← heq] at hprim
      cases v <;> simp [isPlainObject, isPrimitive] at hobj hprim
    · generalize (v.get "value").getD .null = w at hprim
      cases w <;> simp [isPrimitive, collectPostTransformErrors] at hprim ⊢
  · exact .failed _ hv

theorem outcome_of_some (h : transformReference ctx v [] = some out) : Outcome v out := by
  unfold transformReference at h
  split_ifs at h with hcanonical hvault henv hstatic
  · exact Option.some.inj h ▸ .canonical hcanonical
  · exact Option.some.inj h ▸ outcome_vault (by simp [isLegacyRef, hvault])
  · exact Option.some.inj h ▸ outcome_env (by simp [isLegacyRef, henv])
  · exact Option.some.inj h ▸ outcome_static (by simp [isLegacyRef, hstatic])

end Agyn.RefMigration
