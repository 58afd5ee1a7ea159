import Agyn.VaultTexts

/-!
What is written back of entries that were read and not edited. A reference to the vault comes back
exactly when it has a mount and a key that can be told apart in its text, or a key alone, or nothing
to show; a variable when its name is trimmed. An edit of one row leaves the others as they are
written back. The list of environment variables as a whole: what is saved of it without an edit, and
what an edit of one variable leaves of the others.
-/
namespace Agyn.EnvEditor

open JsonTree

section Entries

variable {N : Type} {entries : List (String × JsonTree N)} {v : JsonTree N}

/-- A record with these fields and no others, in any order. -/
def HasFields (v : JsonTree N) (field : String → Option (JsonTree N)) : Prop :=
  ∃ entries, v = .record entries ∧ (entries.map Prod.fst).Nodup ∧ ∀ k, lookup entries k = field k

structure VaultRef where
  mount : Option String
  segments : List String
  key : String
  isPart : ∀ s ∈ segments, IsPart s
  slashFree : '/' ∉ key.toList

def VaultRef.field (ref : VaultRef) (k : String) : Option (JsonTree N) :=
  if k = "kind" then some (.str "vault")
  else if k = "path" then some (.str (joinSlash ref.segments))
  else if k = "key" then some (.str ref.key)
  else if k = "mount" then ref.mount.map .str
  else none

def variableField (name : String) (default : Option String) (k : String) : Option (JsonTree N) :=
  if k = "kind" then some (.str "var")
  else if k = "name" then some (.str name)
  else if k = "default" then default.map .str
  else none

inductive EnvReference where
  | plain (text : String)
  | vault (ref : VaultRef)
  | var (name : String) (default : Option String)

def EnvReference.source : EnvReference → EnvSource
  | .plain _ => .static
  | .vault _ => .vault
  | .var _ _ => .variable

def EnvReference.Describes (reference : EnvReference) (v : JsonTree N) : Prop :=
  match reference with
  | .plain text => v = .str text
  | .vault ref => HasFields v ref.field
  | .var name default => HasFields v (variableField name default)

/-- The parts can be told apart in the text. -/
def VaultRef.RoundTrips (ref : VaultRef) : Prop :=
  (ref.segments = [] ∧ ref.key = "" ∧ ref.mount ≠ some "") ∨
    (IsPart ref.key ∧ (∀ m, ref.mount = some m → IsPart m) ∧
      (ref.mount = none → ref.segments = []))

def EnvReference.RoundTrips : EnvReference → Prop
  | .plain _ => True
  | .vault ref => ref.RoundTrips
  | .var name _ => trim name = name

@[simp] theorem asString_str (s : String) : asString (some (.str s : JsonTree N)) = some s := rfl

@[simp] theorem asString_none : asString (none : Option (JsonTree N)) = none := rfl

@[simp] theorem asString_map_str (s : Option String) :
    asString (s.map (JsonTree.str (N := N))) = s := by
  cases s <;> rfl

theorem formatVaultSegments_eq {ref : VaultRef} (h : HasFields v ref.field) :
    formatVaultSegments v = joinSlash
      ((if (ref.mount.map trim).getD "" ≠ "" ∧ (ref.segments ≠ [] ∨ trim ref.key ≠ "") then
          [(ref.mount.map trim).getD ""] else []) ++
        ref.segments ++ if trim ref.key ≠ "" then [trim ref.key] else []) := by
  obtain ⟨entries, rfl, -, hfield⟩ := h
  have hget : ∀ k, (JsonTree.record entries).get k = ref.field k := hfield
  have hpath : joinSlash ref.segments ≠ "" ↔ ref.segments ≠ [] :=
    not_congr (joinSlash_eq_empty ref.isPart)
  unfold formatVaultSegments
  simp only [hget, VaultRef.field, String.reduceEq, reduceIte, asString_str, asString_map_str,
    asString_none, Option.map_some, Option.getD_some, trim_joinSlash ref.isPart, hpath,
    Option.isSome_none, Bool.false_eq_true, and_false]
  by_cases hsegments : ref.segments = []
  · simp only [hsegments, ne_eq, not_true_eq_false, reduceIte]
  · simp only [hsegments, ne_eq, not_false_eq_true, reduceIte]
    exact joinSlash_joined hsegments _ _

/-- What is shown of a reference that round trips, and parsed of that text. -/
theorem VaultRef.RoundTrips.parse {ref : VaultRef} (hround : ref.RoundTrips)
    (h : HasFields v ref.field) :
    ref.mount ≠ some "" ∧
      ((trim (formatVaultSegments v) = "" ∧
          parseVaultString (formatVaultSegments v) ref.mount =
            ⟨joinSlash ref.segments, ref.key, none⟩) ∨
        parseVaultString (formatVaultSegments v) ref.mount =
          ⟨joinSlash ref.segments, ref.key, ref.mount⟩) := by
  rw [formatVaultSegments_eq h]
  obtain ⟨hsegments, hkey, hmount⟩ | ⟨hkey, hmount, hpath⟩ := hround
  · have htrim : trim "" = "" := by decide
    refine ⟨hmount, .inl ?_⟩
    simp [hsegments, hkey, htrim, joinSlash, parseVaultString]
  · rw [hkey.2.1]
    cases hm : ref.mount with
    | none =>
      rw [hpath hm]
      refine ⟨by simp, .inr ?_⟩
      simpa [hkey.1, joinSlash] using parseVaultString_key hkey
    | some m =>
      have hpart := hmount m hm
      refine ⟨fun heq => hpart.1 (Option.some.inj heq), .inr ?_⟩
      simpa [hkey.1, hpart.1, hpart.2.1] using parseVaultString_mount hpart ref.isPart hkey

/-- The mount that is written with a text, when `mount` was there before. -/
def writtenMount (input : String) (mount : Option String) : Option String :=
  if (parseVaultString input mount).mount.getD "" ≠ "" then (parseVaultString input mount).mount
  else if (trim input).length = 0 ∧ mount.getD "" ≠ "" then mount
  else none

def vaultFields (input : String) (mount : Option String) :
    List (String × Option (JsonTree N)) :=
  [("kind", some (.str "vault")), ("path", some (.str (parseVaultString input mount).path)),
    ("key", some (.str (parseVaultString input mount).key)),
    ("mount", (writtenMount input mount).map .str), ("value", none), ("name", none),
    ("default", none)]

theorem getD_eq_some {s : Option String} (h : s.getD "" ≠ "") : s = some (s.getD "") := by
  cases s with
  | none => exact absurd rfl h
  | some s => rfl

theorem getD_ne_empty {s : Option String} (hs : s ≠ none) (h : s ≠ some "") : s.getD "" ≠ "" := by
  cases s with
  | none => exact absurd rfl hs
  | some s => exact fun heq => h (congrArg some heq)

theorem writtenMount_ne_empty (input : String) (mount : Option String) :
    writtenMount input mount ≠ some "" := by
  unfold writtenMount
  split_ifs with hparsed hempty
  · exact fun h => hparsed (by rw [h]; rfl)
  · exact fun h => hempty.2 (by rw [h]; rfl)
  · simp

theorem writtenMount_eq_self {input : String} {mount : Option String} (hne : mount ≠ some "")
    (h : (trim input = "" ∧ (parseVaultString input mount).mount = none) ∨
      (parseVaultString input mount).mount = mount) : writtenMount input mount = mount := by
  unfold writtenMount
  by_cases hnone : mount = none
  · subst hnone
    have hparse : (parseVaultString input none).mount = none := h.elim And.right id
    simp [hparse]
  · have hmount := getD_ne_empty hnone hne
    obtain ⟨htrim, hparse⟩ | hparse := h
    · rw [hparse, if_neg (by simp), if_pos ⟨by rw [htrim]; rfl, hmount⟩]
    · rw [hparse, if_pos hmount]

theorem setProperty_record (entries : List (String × JsonTree N)) (key : String)
    (value : JsonTree N) : setProperty (.record entries) key value =
      .record (setKey entries (key, some value)) := rfl

theorem deleteProperty_record (entries : List (String × JsonTree N)) (key : String) :
    deleteProperty (.record entries) key = .record (setKey entries (key, none)) := rfl

theorem buildVaultValue_record (input : String) (entries : List (String × JsonTree N)) :
    buildVaultValue input (some (.record entries)) =
      .record (setKeys entries (vaultFields input (asString (lookup entries "mount")))) := by
  have hprev : ((some (JsonTree.record entries)).bind fun value => asString (value.get "mount")) =
      asString (lookup entries "mount") := rfl
  unfold buildVaultValue vaultFields writtenMount
  dsimp only
  rw [hprev]
  generalize asString (lookup entries "mount") = mount
  generalize parseVaultString input mount = parsed
  have hrecord : previousRecord (some (JsonTree.record entries)) = .record entries := rfl
  rw [hrecord]
  split_ifs with hparsed hempty
  · conv_rhs => rw [getD_eq_some hparsed]
    simp only [setProperty_record, deleteProperty_record, setKeys_cons, setKeys_nil,
      Option.map_some]
  · conv_rhs => rw [getD_eq_some hempty.2]
    simp only [setProperty_record, deleteProperty_record, setKeys_cons, setKeys_nil,
      Option.map_some]
  · simp only [setProperty_record, deleteProperty_record, setKeys_cons, setKeys_nil,
      Option.map_none]

theorem buildVaultValue_eq_iff {ref : VaultRef} (h : HasFields v ref.field) :
    buildVaultValue (formatVaultSegments v) (some v) = v ↔ ref.RoundTrips := by
  have hformat := fun hround : ref.RoundTrips => hround.parse h
  generalize formatVaultSegments v = input at hformat ⊢
  obtain ⟨entries, rfl, hnodup, hfield⟩ := h
  have hmount : asString (lookup entries "mount") = ref.mount := by
    rw [hfield]
    exact asString_map_str ref.mount
  have hfields : setKeys entries (vaultFields input ref.mount) = entries ↔
      (parseVaultString input ref.mount).path = joinSlash ref.segments ∧
        (parseVaultString input ref.mount).key = ref.key ∧
        writtenMount input ref.mount = ref.mount := by
    rw [setKeys_eq_self_iff hnodup (by simp [vaultFields])]
    have hinj : ∀ s t : Option String, s.map (JsonTree.str (N := N)) = t.map .str ↔ t = s :=
      fun s t => (Option.map_injective fun a b hab => JsonTree.str.inj hab).eq_iff.trans eq_comm
    simp [vaultFields, hfield, VaultRef.field, hinj, eq_comm (b := joinSlash _),
      eq_comm (a := ref.key)]
  rw [buildVaultValue_record, hmount, JsonTree.obj.injEq, hfields]
  simp only [true_and]
  constructor
  · rintro ⟨hpath, hkey, hwritten⟩
    obtain hnone | ⟨hinput, hpart, hparts, hnopath⟩ := parseVaultString_cases input ref.mount
    · left
      rw [hnone] at hpath hkey
      refine ⟨(joinSlash_eq_empty ref.isPart).mp hpath.symm, hkey.symm, ?_⟩
      exact fun h => writtenMount_ne_empty input ref.mount (hwritten.trans h)
    · right
      rw [hkey] at hpart
      have hm : (parseVaultString input ref.mount).mount = ref.mount := by
        unfold writtenMount at hwritten
        split_ifs at hwritten with hparsed hempty
        · exact hwritten
        · exact absurd hempty.1 hinput
        · refine Eq.trans ?_ hwritten
          by_contra hsome
          exact hparsed (getD_ne_empty hsome fun hm => (hparts "" hm).1 rfl)
      refine ⟨hpart, fun m hmem => hparts m (hm.trans hmem), fun hmem => ?_⟩
      rw [← joinSlash_eq_empty ref.isPart, ← hpath]
      exact hnopath (hm.trans hmem)
  · intro hround
    obtain ⟨hmem, ⟨htrim, hparse⟩ | hparse⟩ := hformat hround
    · have hmount := writtenMount_eq_self hmem (.inl ⟨htrim, congrArg ParsedVault.mount hparse⟩)
      exact ⟨congrArg ParsedVault.path hparse, congrArg ParsedVault.key hparse, hmount⟩
    · have hmount := writtenMount_eq_self hmem (.inr (congrArg ParsedVault.mount hparse))
      exact ⟨congrArg ParsedVault.path hparse, congrArg ParsedVault.key hparse, hmount⟩

theorem buildVariableValue_eq_iff {name : String} {default : Option String}
    (h : HasFields v (variableField name default)) :
    buildVariableValue name (some v) = v ↔ trim name = name := by
  obtain ⟨entries, rfl, hnodup, hfield⟩ := h
  have hbuild : buildVariableValue name (some (.record entries)) =
      .record (setKeys entries [("kind", some (.str "var")), ("name", some (.str (trim name))),
        ("value", none), ("path", none), ("key", none), ("mount", none)]) := rfl
  rw [hbuild, JsonTree.obj.injEq, setKeys_eq_self_iff hnodup (by simp)]
  simp [hfield, variableField, eq_comm]

/-- An entry with a name and a value, and perhaps an id and the source of its value. -/
structure EnvItem (N : Type) where
  entries : List (String × JsonTree N)
  name : String
  value : JsonTree N
  reference : EnvReference
  id : Option String
  nodup : (entries.map Prod.fst).Nodup
  hasName : lookup entries "name" = some (.str name)
  hasValue : lookup entries "value" = some value
  hasId : lookup entries "id" = id.map .str
  hasSource : lookup entries "source" = none ∨
    lookup entries "source" = some (.str reference.source.text)
  describes : reference.Describes value

/-- What is written for the source: nothing for a text, unless it was there. -/
def EnvItem.sourceField (item : EnvItem N) : Option (JsonTree N) :=
  match item.reference with
  | .plain _ => lookup item.entries "source"
  | reference => some (.str reference.source.text)

/-- The entry with its id, and with the source of a reference. -/
def EnvItem.saved (item : EnvItem N) (uuid : String) : JsonTree N :=
  .record (setKeys item.entries
    [("id", some (.str (item.id.getD uuid))), ("source", item.sourceField)])

theorem EnvReference.Describes.infer {reference : EnvReference} (h : reference.Describes v) :
    fromReferenceSourceType (inferReferenceSource (some v)) = reference.source := by
  cases reference with
  | plain text =>
    obtain rfl := h
    rfl
  | vault ref =>
    obtain ⟨entries, rfl, -, hfield⟩ := h
    have hkind : (JsonTree.record entries).get "kind" = some (.str "vault") := hfield "kind"
    simp [inferReferenceSource, isVaultReferenceValue, isRecord, hkind]
    rfl
  | var name default =>
    obtain ⟨entries, rfl, -, hfield⟩ := h
    have hget : ∀ k, (JsonTree.record entries).get k = variableField name default k := hfield
    simp [inferReferenceSource, isVaultReferenceValue, isVariableReferenceValue, isRecord, hget,
      variableField]
    rfl

/-- The value of a row that is not edited is the value that was read, when it round trips. -/
theorem EnvReference.Describes.build_eq_iff {reference : EnvReference} (h : reference.Describes v)
    {row : EnvVar N} (hsource : row.source = reference.source)
    (hvalue : row.value = extractDisplayValue reference.source (some v))
    (hshape : row.metadata.valueShape = cloneValueShape (some v)) :
    buildEnvValue row = v ↔ reference.RoundTrips := by
  unfold buildEnvValue
  cases reference with
  | plain text =>
    obtain rfl := h
    simp [hsource, hvalue, hshape, EnvReference.source, cloneValueShape, extractDisplayValue,
      isRecord, EnvReference.RoundTrips]
  | vault ref =>
    have hbuild := buildVaultValue_eq_iff h
    obtain ⟨entries, rfl, -, -⟩ := h
    rw [hsource, hvalue, hshape]
    exact hbuild
  | var name default =>
    have hbuild := buildVariableValue_eq_iff h
    obtain ⟨entries, rfl, -, hfield⟩ := h
    have hname : (asString ((JsonTree.record entries).get "name")).getD "" = name := by
      have hget : (JsonTree.record entries).get "name" = variableField name default "name" :=
        hfield "name"
      rw [hget]
      rfl
    rw [hsource, hvalue, hshape]
    show buildVariableValue ((asString ((JsonTree.record entries).get "name")).getD "") _ = _ ↔ _
    rw [hname]
    exact hbuild

theorem asEnvSource_text (source : EnvSource) : asEnvSource (some source.text) = some source := by
  cases source <;> rfl

/-- The source that is read, or what is inferred from the value. -/
theorem EnvItem.rawSource (item : EnvItem N) :
    asEnvSource (asString (lookup item.entries "source")) =
      if lookup item.entries "source" = none then none else some item.reference.source := by
  obtain hnone | hsome := item.hasSource
  · rw [hnone]
    rfl
  · rw [hsome, if_neg (by simp)]
    exact asEnvSource_text item.reference.source

theorem readEnvVar_item (item : EnvItem N) (uuid : String) :
    readEnvVar uuid (.record item.entries) =
      { id := item.id.getD uuid
        name := item.name
        value := extractDisplayValue item.reference.source (some item.value)
        source := item.reference.source
        metadata := ⟨.name, some (.record item.entries),
          asEnvSource (asString (lookup item.entries "source")),
          cloneValueShape (some item.value)⟩ } := by
  have hget : ∀ k, (JsonTree.record item.entries).get k = lookup item.entries k := fun _ => rfl
  have hsource : (asEnvSource (asString (lookup item.entries "source"))).getD
      item.reference.source = item.reference.source := by
    rw [item.rawSource]
    split_ifs <;> rfl
  have hkey : resolveKeyField (.record item.entries) = .name := by
    simp [resolveKeyField, hget, item.hasName]
  unfold readEnvVar
  simp only [isRecord, reduceIte, hkey, hget, item.hasName, item.hasValue, item.hasId,
    item.describes.infer, hsource, asString_str, asString_map_str, Option.getD_some]

/-- The source that is written for a row that was read. -/
theorem EnvItem.sourceField_eq (item : EnvItem N) :
    item.sourceField =
      if item.reference.source = .static then
        if asEnvSource (asString (lookup item.entries "source")) = some .static ∨
            (asEnvSource (asString (lookup item.entries "source")) = none ∧
              hasOwnProperty (.record item.entries) "source") then
          some (.str "static")
        else none
      else some (.str item.reference.source.text) := by
  rw [item.rawSource]
  have hhas := item.hasSource
  unfold EnvItem.sourceField
  cases hreference : item.reference with
  | plain text =>
    rw [hreference] at hhas
    obtain hnone | hsome := hhas
    · have hmem : "source" ∉ item.entries.map Prod.fst := lookup_eq_none_iff.mp hnone
      have hown : hasOwnProperty (.record item.entries) "source" = false := by
        simpa [hasOwnProperty] using hmem
      simp [hnone, hown, EnvReference.source]
    · simp [hsome, EnvReference.source, EnvSource.text]
  | vault ref => rfl
  | var name default => rfl

theorem serializeEnvVar_record (row : EnvVar N) (hkey : row.metadata.keyField = .name)
    (horiginal : row.metadata.original = some (.record entries)) :
    serializeEnvVar row = .record (setKeys entries
      [("id", some (.str row.id)), ("name", some (.str row.name)),
        ("source",
          if row.source = .static then
            if row.metadata.originalSource = some .static ∨
                (row.metadata.originalSource = none ∧
                  hasOwnProperty (.record entries) "source") then
              some (.str "static")
            else none
          else some (.str row.source.text)),
        ("value", some (buildEnvValue row))]) := by
  unfold serializeEnvVar
  simp only [hkey, horiginal, Option.isNone_some, Bool.false_eq_true, reduceIte, Option.any_some,
    Option.getD_some]
  split_ifs <;>
    simp only [setProperty_record, deleteProperty_record, setKeys_cons, setKeys_nil]

theorem serializeEnvVar_readEnvVar (item : EnvItem N) (uuid : String) :
    serializeEnvVar (readEnvVar uuid (.record item.entries)) = item.saved uuid ↔
      item.reference.RoundTrips := by
  have hread := readEnvVar_item item uuid
  have hbuild : buildEnvValue (readEnvVar uuid (.record item.entries)) = item.value ↔
      item.reference.RoundTrips :=
    item.describes.build_eq_iff (by rw [hread]) (by rw [hread]) (by rw [hread])
  rw [serializeEnvVar_record _ (by rw [hread]) (by rw [hread]), ← hbuild]
  obtain ⟨value, hvalue⟩ : ∃ b, buildEnvValue (readEnvVar uuid (.record item.entries)) = b :=
    ⟨_, rfl⟩
  rw [hvalue, hread, ← item.sourceField_eq]
  have hid := nodup_setKey item.nodup ("id", some (.str (item.id.getD uuid)))
  have hname : setKey (setKey item.entries ("id", some (.str (item.id.getD uuid))))
      ("name", some (.str item.name)) =
      setKey item.entries ("id", some (.str (item.id.getD uuid))) :=
    setKey_eq_self hid (by rw [lookup_setKey]; exact item.hasName)
  have hwritten : setKeys item.entries [("id", some (.str (item.id.getD uuid))),
      ("name", some (.str item.name)), ("source", item.sourceField), ("value", some value)] =
      setKey (setKeys item.entries
        [("id", some (.str (item.id.getD uuid))), ("source", item.sourceField)])
        ("value", some value) :=
    congrArg (fun entries => setKeys entries [("source", item.sourceField), ("value", some value)])
      hname
  have hlookup : lookup (setKeys item.entries [("id", some (.str (item.id.getD uuid))),
      ("source", item.sourceField)]) "value" = some item.value := by
    rw [lookup_setKeys_of_notMem (by simp), item.hasValue]
  rw [hwritten, EnvItem.saved, JsonTree.obj.injEq]
  constructor
  · rintro ⟨-, heq⟩
    rw [← heq, lookup_setKey, if_pos rfl] at hlookup
    exact Option.some.inj hlookup
  · rintro rfl
    exact ⟨rfl, setKey_eq_self (nodup_setKey hid _) hlookup⟩

end Entries

section EntryList

variable {N : Type}

def envList (items : List (EnvItem N)) : JsonTree N := .arr (items.map fun i => .record i.entries)

/-- Where an edit leaves the row `j`, unless it is the row that is edited. -/
def Edit.place (j : ℕ) : Edit → Option ℕ
  | .add => some j
  | .remove index => if j = index then none else some (if j < index then j else j - 1)
  | .name index _ | .value index _ | .source index _ => if j = index then none else some j

theorem Edit.apply_getElem? {edit : Edit} {j k : ℕ} (h : edit.place j = some k) (uuid : String)
    {rows : List (EnvVar N)} (hj : j < rows.length) : (edit.apply uuid rows)[k]? = rows[j]? := by
  cases edit with
  | add =>
    obtain rfl : j = k := Option.some.inj h
    exact List.getElem?_append_left hj
  | remove index =>
    simp only [Edit.place] at h
    split_ifs at h with heq hlt
    · obtain rfl := Option.some.inj h
      exact List.getElem?_eraseIdx_of_lt hlt
    · obtain rfl := Option.some.inj h
      have hsucc : j - 1 + 1 = j := by omega
      rw [Edit.apply, List.getElem?_eraseIdx_of_ge (by omega), hsucc]
  | name index _ | value index _ | source index _ =>
    simp only [Edit.place] at h
    split_ifs at h with heq
    obtain rfl := Option.some.inj h
    exact List.getElem?_modify_ne _ _ (Ne.symm heq)

theorem readEnvList_envList (uuid : ℕ → String) (items : List (EnvItem N)) :
    readEnvList uuid (envList items) =
      items.zipIdx.map fun e => readEnvVar (uuid e.2) (.record e.1.entries) := by
  simp [envList, readEnvList, List.zipIdx_map]

/-- What is saved of a list is the list with its ids and its sources, exactly when every value round
trips, and an edit leaves every other variable so. -/
theorem savedEnv_iff (uuid : ℕ → String) (items : List (EnvItem N)) :
    (serializeEnvVars (readEnvList uuid (envList items)) =
        items.zipIdx.map (fun e => e.1.saved (uuid e.2)) ↔
      ∀ item ∈ items, item.reference.RoundTrips) ∧
    ∀ (added : String) (edit : Edit) (j k : ℕ) (item : EnvItem N), edit.place j = some k →
      items[j]? = some item → item.reference.RoundTrips →
      (serializeEnvVars (edit.apply added (readEnvList uuid (envList items))))[k]? =
        some (item.saved (uuid j)) := by
  rw [readEnvList_envList]
  constructor
  · rw [serializeEnvVars, List.map_map, List.map_inj_left]
    constructor
    · intro h item hitem
      obtain ⟨j, hj, rfl⟩ := List.mem_iff_getElem.mp hitem
      exact (serializeEnvVar_readEnvVar _ (uuid j)).mp (h (items[j], j)
        (List.mk_mem_zipIdx_iff_getElem?.mpr (List.getElem?_eq_getElem hj)))
    · intro h e he
      exact (serializeEnvVar_readEnvVar e.1 (uuid e.2)).mpr
        (h e.1 (List.fst_mem_of_mem_zipIdx he))
  · intro added edit j k item hplace hitem hround
    have hj : j < items.length := (List.getElem?_eq_some_iff.mp hitem).1
    rw [serializeEnvVars, List.getElem?_map, Edit.apply_getElem? hplace added (by simpa using hj),
      List.getElem?_map, List.getElem?_zipIdx, hitem]
    simpa using (serializeEnvVar_readEnvVar item (uuid j)).mpr hround

def appToken : VaultRef where
  mount := some "secret"
  segments := ["app", "prod"]
  key := "TOKEN"
  isPart := by decide +kernel
  slashFree := by decide +kernel

theorem hasFields_appToken : HasFields (N := ℕ) (.record [("kind", .str "vault"),
    ("path", .str "app/prod"), ("key", .str "TOKEN"), ("mount", .str "secret")])
    appToken.field := by
  have hpath : joinSlash ["app", "prod"] = "app/prod" := by decide +kernel
  refine ⟨_, rfl, by decide, fun k => ?_⟩
  simp only [lookup, VaultRef.field, appToken, hpath]
  grind

/-- An entry whose value is a reference with a mount. -/
def tokenItem : EnvItem ℕ where
  entries := [("name", .str "TOKEN"), ("value", .record [("kind", .str "vault"),
    ("path", .str "app/prod"), ("key", .str "TOKEN"), ("mount", .str "secret")])]
  name := "TOKEN"
  value := .record [("kind", .str "vault"), ("path", .str "app/prod"), ("key", .str "TOKEN"),
    ("mount", .str "secret")]
  reference := .vault appToken
  id := none
  nodup := by decide
  hasName := rfl
  hasValue := rfl
  hasId := rfl
  hasSource := .inl rfl
  describes := hasFields_appToken

def plainItem : EnvItem ℕ where
  entries := [("name", .str "MODE"), ("value", .str "dev")]
  name := "MODE"
  value := .str "dev"
  reference := .plain "dev"
  id := none
  nodup := by decide
  hasName := rfl
  hasValue := rfl
  hasId := rfl
  hasSource := .inl rfl
  describes := rfl

theorem savedEnv_appToken :
    serializeEnvVars (readEnvList (fun _ => "u") (envList [tokenItem, plainItem])) =
      [tokenItem.saved "u", plainItem.saved "u"] ∧
    (serializeEnvVars ((Edit.value 1 "prod").apply "v"
      (readEnvList (fun _ => "u") (envList [tokenItem, plainItem]))))[0]? =
      some (tokenItem.saved "u") := by
  have htoken : tokenItem.reference.RoundTrips :=
    .inr ⟨by decide +kernel, fun m hm => Option.some.inj hm ▸ by decide +kernel, nofun⟩
  have hplain : plainItem.reference.RoundTrips := trivial
  obtain ⟨hsaved, hedit⟩ := savedEnv_iff (fun _ => "u") [tokenItem, plainItem]
  exact ⟨hsaved.mpr (by simp [htoken, hplain]),
    hedit "v" (.value 1 "prod") 0 0 tokenItem rfl rfl htoken⟩

/-- A reference gets its source, and one without a mount gets its first segment as a mount. -/
theorem not_savedEnv_references :
    serializeEnvVars (readEnvList (fun _ => "u") (.arr [
      .record [("name", .str "A"), ("value", .record [("kind", .str "vault"),
        ("path", .str "app"), ("key", .str "TOKEN"), ("mount", .str "secret")])],
      .record [("name", .str "B"), ("value", .record [("kind", .str "vault"),
        ("path", .str "app"), ("key", .str "TOKEN")])]])) =
    [.record [("name", .str "A"), ("value", .record [("kind", .str "vault"),
        ("path", .str "app"), ("key", .str "TOKEN"), ("mount", (.str "secret" : JsonTree ℕ))]),
        ("id", .str "u"), ("source", .str "vault")],
      .record [("name", .str "B"), ("value", .record [("kind", .str "vault"),
        ("path", .str ""), ("key", .str "TOKEN"), ("mount", .str "app")]),
        ("id", .str "u"), ("source", .str "vault")]] := rfl

end EntryList

end Agyn.EnvEditor
