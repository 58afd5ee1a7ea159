import Agyn.ItemNormalization
import Agyn.KeptPositions

/-!
The ids of context items. The items of the inputs that are not dropped are created one after the
other, each with an id that was not drawn before, and the ids are handed out by position: the
`i`-th id to the `i`-th entry. An entry gets the id of its own item when nothing was dropped at or
before it.
-/
namespace Agyn.ContextItems

open KeptPositions NullBytes

variable {N σ : Type}

/-- What `contextItem.create` does, with the ids that were drawn so far. -/
structure ContextItemDelegate (N σ : Type) where
  create : JsValue N → σ → Except String String × σ
  Drawn : σ → String → Prop
  /-- The id of a row is a uuid, and the primary key. -/
  created : ∀ data s id, (create data s).1 = .ok id →
    id ≠ "" ∧ ¬Drawn s id ∧ Drawn (create data s).2 id
  kept : ∀ data s id, Drawn s id → Drawn (create data s).2 id

inductive CreateError where
  | nullByteGuard (error : ContextItemNullByteGuardError)
  | store (message : String)

section Creating

variable (rt : Runtime N) (delegate : ContextItemDelegate N σ)

def roleValue : CoercedRole → JsValue N
  | .role r => .str r.text
  | .inherited "constructor" => .nonData "function"
  | .inherited _ => .obj true []

def createData (item : NormalizedContextItem N) : JsValue N :=
  .record [("role", roleValue item.role),
    ("contentText", (item.contentText.map .str).getD .null), ("contentJson", item.contentJson),
    ("metadata", item.metadata), ("sizeBytes", .num (rt.ofNat item.sizeBytes))]

def createNormalized (item : NormalizedContextItem N) (s : σ) : Except CreateError String × σ :=
  match sanitizeContextItemPayload rt.env none (createData rt item) with
  | .error e => (.error (.nullByteGuard e), s)
  | .ok data =>
    let (created, s') := delegate.create data s
    (created.mapError .store, s')

def upsertNormalizedContextItems :
    List (NormalizedContextItem N) → σ → Except CreateError (List String) × σ
  | [], s => (.ok [], s)
  | item :: items, s =>
    match createNormalized rt delegate item s with
    | (.error e, s) => (.error e, s)
    | (.ok id, s) =>
      let (ids, s) := upsertNormalizedContextItems items s
      (ids.map (id :: ·), s)

/-- An input that is missing is left out. -/
def createContextItems (items : List (Option (ContextItemInput N))) (s : σ) :
    Except CreateError (List String) × σ :=
  let provided := items.filterMap id
  if provided.length = 0 then (.ok [], s)
  else
    match normalizeContextItems rt provided with
    | .error e => (.error (.nullByteGuard e), s)
    | .ok normalized =>
      if normalized.length = 0 then (.ok [], s)
      else upsertNormalizedContextItems rt delegate normalized s

structure ContextItemAppendEntry (N : Type) where
  input : Option (ContextItemInput N)
  assign : Bool

def assignments (entries : List (ContextItemAppendEntry N)) (ids : List String) :
    List (ℕ × String) :=
  ids.zipIdx.filterMap fun (id, index) =>
    entries[index]?.bind fun entry => if id ≠ "" ∧ entry.assign then some (index, id) else none

/-- The ids that are returned, with the calls of the callbacks that were made. -/
def persistContextItems (entries : List (ContextItemAppendEntry N)) (s : σ) :
    Except CreateError (List String × List (ℕ × String)) × σ :=
  if entries.length = 0 then (.ok ([], []), s)
  else
    let (created, s) := createContextItems rt delegate (entries.map (·.input)) s
    (created.map fun ids => (ids, assignments entries ids), s)

/-- The item that is made of the input of an entry, unless it is dropped. -/
def keptItem (entry : ContextItemAppendEntry N) : Option (NormalizedContextItem N) :=
  entry.input.bind fun input => (normalizeContextItem rt input).toOption.join

def keptItems (entries : List (ContextItemAppendEntry N)) : List (ℕ × NormalizedContextItem N) :=
  keptFrom (keptItem rt) 0 entries

/-- `upsertNormalizedContextItems`, where every id goes with the entry of its item. -/
def createFrom : List (ℕ × NormalizedContextItem N) → σ →
    Except CreateError (List (ℕ × String)) × σ
  | [], s => (.ok [], s)
  | (index, item) :: items, s =>
    match createNormalized rt delegate item s with
    | (.error e, s) => (.error e, s)
    | (.ok id, s) =>
      let (created, s) := createFrom items s
      (created.map ((index, id) :: ·), s)

end Creating

section Ids

variable {rt : Runtime N} {delegate : ContextItemDelegate N σ} {s s' : σ}
  {entries : List (ContextItemAppendEntry N)} {items : List (ℕ × NormalizedContextItem N)}
  {created : List (ℕ × String)} {ids : List String}

theorem upsertNormalizedContextItems_eq (items : List (ℕ × NormalizedContextItem N)) (s : σ) :
    upsertNormalizedContextItems rt delegate (items.map Prod.snd) s =
      ((createFrom rt delegate items s).1.map fun created => created.map Prod.snd,
        (createFrom rt delegate items s).2) := by
  induction items generalizing s with
  | nil => rfl
  | cons e items ih =>
    obtain ⟨index, item⟩ := e
    rw [List.map_cons, upsertNormalizedContextItems, createFrom]
    obtain ⟨r, t⟩ := createNormalized rt delegate item s
    cases r with
    | error e => rfl
    | ok id =>
      simp only [ih t]
      cases (createFrom rt delegate items t).1 <;> rfl

theorem normalizeContextItems_eq {inputs : List (ContextItemInput N)}
    {out : List (NormalizedContextItem N)} (h : normalizeContextItems rt inputs = .ok out) :
    out = inputs.filterMap fun input => (normalizeContextItem rt input).toOption.join := by
  induction inputs generalizing out with
  | nil =>
    obtain rfl := Except.ok.inj h
    rfl
  | cons input inputs ih =>
    rw [normalizeContextItems] at h
    cases hinput : normalizeContextItem rt input with
    | error e =>
      rw [hinput] at h
      cases h
    | ok normalized =>
      rw [hinput] at h
      cases hrest : normalizeContextItems rt inputs with
      | error e =>
        rw [hrest] at h
        cases h
      | ok rest =>
        rw [hrest] at h
        obtain rfl := Except.ok.inj h
        rw [ih hrest]
        cases normalized with
        | none => rw [List.filterMap_cons_none (by rw [hinput]; rfl)]; rfl
        | some item => rw [List.filterMap_cons_some (by rw [hinput]; rfl)]; rfl

theorem filterMap_inputs (rt : Runtime N) (entries : List (ContextItemAppendEntry N)) :
    ((entries.map (·.input)).filterMap id).filterMap
        (fun input => (normalizeContextItem rt input).toOption.join) =
      (keptItems rt entries).map Prod.snd := by
  rw [keptItems, map_snd_keptFrom, List.filterMap_filterMap, List.filterMap_map]
  rfl

/-- The items that are created are those of the entries that are kept. -/
theorem createContextItems_eq_ok
    (h : createContextItems rt delegate (entries.map (·.input)) s = (.ok ids, s')) :
    ∃ created, createFrom rt delegate (keptItems rt entries) s = (.ok created, s') ∧
      ids = created.map Prod.snd := by
  have hitems := filterMap_inputs rt entries
  unfold createContextItems at h
  generalize (entries.map (·.input)).filterMap id = provided at h hitems
  have hnone : (keptItems rt entries).map Prod.snd = [] →
      ((.ok [], s) : Except CreateError (List String) × σ) = (.ok ids, s') →
      ∃ created, createFrom rt delegate (keptItems rt entries) s = (.ok created, s') ∧
        ids = created.map Prod.snd := by
    rintro hkept heq
    obtain ⟨hids, rfl⟩ := Prod.mk.inj heq
    obtain rfl := Except.ok.inj hids
    exact ⟨[], by rw [List.map_eq_nil_iff.mp hkept]; rfl, rfl⟩
  simp only at h
  split_ifs at h with hprovided
  · refine hnone ?_ h
    rw [← hitems, List.length_eq_zero_iff.mp hprovided]
    rfl
  · cases hnormalize : normalizeContextItems rt provided with
    | error e =>
      rw [hnormalize] at h
      cases (Prod.mk.inj h).1
    | ok normalized =>
      have hkept := (normalizeContextItems_eq hnormalize).trans hitems
      rw [hnormalize] at h
      simp only at h
      split_ifs at h with hnormalized
      · exact hnone (hkept.symm.trans (List.length_eq_zero_iff.mp hnormalized)) h
      · rw [hkept, upsertNormalizedContextItems_eq] at h
        obtain ⟨hids, rfl⟩ := Prod.mk.inj h
        cases hcreated : (createFrom rt delegate (keptItems rt entries) s).1 with
        | error e =>
          rw [hcreated] at hids
          cases hids
        | ok created =>
          rw [hcreated] at hids
          exact ⟨created, by rw [← hcreated], (Except.ok.inj hids).symm⟩

theorem createNormalized_drawn (rt : Runtime N) (delegate : ContextItemDelegate N σ)
    (item : NormalizedContextItem N) (s : σ) :
    (∀ id, delegate.Drawn s id → delegate.Drawn (createNormalized rt delegate item s).2 id) ∧
      ∀ id, (createNormalized rt delegate item s).1 = .ok id →
        id ≠ "" ∧ ¬delegate.Drawn s id ∧
          delegate.Drawn (createNormalized rt delegate item s).2 id := by
  unfold createNormalized
  cases sanitizeContextItemPayload rt.env none (createData rt item) with
  | error e => exact ⟨fun _ h => h, fun _ h => by cases h⟩
  | ok data =>
    refine ⟨delegate.kept data s, fun id h => delegate.created data s id ?_⟩
    change (delegate.create data s).1.mapError CreateError.store = .ok id at h
    cases hcreate : (delegate.create data s).1 with
    | error e =>
      rw [hcreate] at h
      cases h
    | ok id' =>
      rw [hcreate] at h
      obtain rfl := Except.ok.inj h
      rfl

/-- Every item has an id of its own, that was not drawn before. -/
theorem createFrom_ids (h : createFrom rt delegate items s = (.ok created, s')) :
    created.map Prod.fst = items.map Prod.fst ∧ (created.map Prod.snd).Nodup ∧
      ∀ id ∈ created.map Prod.snd, id ≠ "" ∧ ¬delegate.Drawn s id := by
  induction items generalizing s created with
  | nil =>
    obtain ⟨hcreated, -⟩ := Prod.mk.inj h
    obtain rfl := Except.ok.inj hcreated
    exact ⟨rfl, List.nodup_nil, by simp⟩
  | cons e items ih =>
    obtain ⟨index, item⟩ := e
    have hitem := createNormalized_drawn rt delegate item s
    rw [createFrom] at h
    generalize createNormalized rt delegate item s = out at h hitem
    obtain ⟨r, t⟩ := out
    cases r with
    | error e => cases (Prod.mk.inj h).1
    | ok id =>
      obtain ⟨hkeeps, hdrawn⟩ := hitem
      obtain ⟨hne, hnew, hthere⟩ := hdrawn id rfl
      obtain ⟨rest, t', hrest⟩ : ∃ r t', createFrom rt delegate items t = (r, t') := ⟨_, _, rfl⟩
      simp only [hrest] at h
      obtain ⟨hcreated, rfl⟩ := Prod.mk.inj h
      cases rest with
      | error e => cases hcreated
      | ok rest =>
        obtain rfl := Except.ok.inj hcreated
        obtain ⟨hindices, hnodup, hids⟩ := ih hrest
        refine ⟨by rw [List.map_cons, List.map_cons, hindices], ?_, ?_⟩
        · rw [List.map_cons, List.nodup_cons]
          exact ⟨fun hmem => (hids id hmem).2 hthere, hnodup⟩
        · rw [List.map_cons, List.forall_mem_cons]
          exact ⟨⟨hne, hnew⟩, fun id' hmem => ⟨(hids id' hmem).1, fun hd =>
            (hids id' hmem).2 (hkeeps id' hd)⟩⟩

theorem mem_assignments {i : ℕ} {id : String} :
    (i, id) ∈ assignments entries ids ↔
      ids[i]? = some id ∧ id ≠ "" ∧ ∃ entry, entries[i]? = some entry ∧ entry.assign = true := by
  simp only [assignments, List.mem_filterMap, Prod.exists, List.mk_mem_zipIdx_iff_getElem?,
    Option.bind_eq_some_iff, Option.ite_none_right_eq_some, Option.some.injEq, Prod.mk.injEq]
  constructor
  · rintro ⟨id', i', hid, entry, hentry, ⟨hne, hassign⟩, rfl, rfl⟩
    exact ⟨hid, hne, entry, hentry, hassign⟩
  · rintro ⟨hid, hne, entry, hentry, hassign⟩
    exact ⟨id, i, hid, entry, hentry, ⟨hne, hassign⟩, rfl, rfl⟩

/-- Every entry with a callback gets the id of the item that was created from it, and no other. -/
def LinesUp (entries : List (ContextItemAppendEntry N)) (created assigned : List (ℕ × String)) :
    Prop :=
  ∀ i entry, entries[i]? = some entry → ∀ id,
    (i, id) ∈ assigned ↔ entry.assign = true ∧ (i, id) ∈ created

/-- Nothing is dropped up to an entry with a callback, or the entry is dropped itself and stands
behind as many entries as are kept. -/
def Aligned (rt : Runtime N) (entries : List (ContextItemAppendEntry N)) : Prop :=
  ∀ i entry, entries[i]? = some entry → entry.assign = true →
    (∀ e ∈ entries.take (i + 1), (keptItem rt e).isSome) ∨
      (keptItem rt entry = none ∧ (entries.filterMap (keptItem rt)).length ≤ i)

theorem persistContextItems_eq_ok {assigned : List (ℕ × String)}
    (h : persistContextItems rt delegate entries s = (.ok (ids, assigned), s')) :
    ∃ created, createFrom rt delegate (keptItems rt entries) s = (.ok created, s') ∧
      ids = created.map Prod.snd ∧ assigned = assignments entries ids := by
  unfold persistContextItems at h
  split_ifs at h with hempty
  · obtain ⟨hout, rfl⟩ := Prod.mk.inj h
    obtain ⟨rfl, rfl⟩ := Prod.mk.inj (Except.ok.inj hout)
    rw [List.length_eq_zero_iff.mp hempty]
    exact ⟨[], rfl, rfl, rfl⟩
  · obtain ⟨r, t, hcreate⟩ : ∃ r t,
        createContextItems rt delegate (entries.map (·.input)) s = (r, t) := ⟨_, _, rfl⟩
    simp only [hcreate] at h
    obtain ⟨hout, rfl⟩ := Prod.mk.inj h
    cases r with
    | error e => cases hout
    | ok ids' =>
      obtain ⟨rfl, rfl⟩ := Prod.mk.inj (Except.ok.inj hout)
      obtain ⟨created, hcreated, hids⟩ := createContextItems_eq_ok hcreate
      exact ⟨created, hcreated, hids, rfl⟩

/-- The entry of the item with an id. -/
theorem mem_created_iff (hnodup : (created.map Prod.snd).Nodup) {i j : ℕ} {id : String}
    (hid : (created.map Prod.snd)[j]? = some id) :
    (i, id) ∈ created ↔ (created.map Prod.fst)[j]? = some i := by
  obtain ⟨e, he, rfl⟩ := Option.map_eq_some_iff.mp ((List.getElem?_map ..).symm.trans hid)
  rw [List.getElem?_map, he, Option.map_some, Option.some.injEq]
  constructor
  · intro hmem
    have heq := List.inj_on_of_nodup_map hnodup hmem (List.mem_of_getElem? he) rfl
    rw [← heq]
  · rintro rfl
    exact List.mem_of_getElem? he

/-- The id that the position of an entry has is that of its own item when nothing is dropped up to
there. -/
theorem mem_created_self_iff (hcreated : createFrom rt delegate (keptItems rt entries) s =
    (.ok created, s')) {i : ℕ} (hi : i < entries.length) {id : String}
    (hid : (created.map Prod.snd)[i]? = some id) :
    (i, id) ∈ created ↔ ∀ e ∈ entries.take (i + 1), (keptItem rt e).isSome := by
  obtain ⟨hindices, hnodup, -⟩ := createFrom_ids hcreated
  rw [mem_created_iff hnodup hid, hindices, List.getElem?_map, keptItems,
    ← keptFrom_aligned_iff (n := 0) hi, Nat.zero_add]

theorem exists_mem_created_iff (hcreated : createFrom rt delegate (keptItems rt entries) s =
    (.ok created, s')) {i : ℕ} {entry : ContextItemAppendEntry N}
    (hentry : entries[i]? = some entry) :
    (∃ id, (i, id) ∈ created) ↔ (keptItem rt entry).isSome := by
  have hmem : (∃ id, (i, id) ∈ created) ↔ i ∈ created.map Prod.fst := by simp
  have hkept : i ∈ (keptItems rt entries).map Prod.fst ↔
      ∃ item, (0 + i, item) ∈ keptFrom (keptItem rt) 0 entries := by
    simp [keptItems]
  rw [hmem, (createFrom_ids hcreated).1, hkept, Option.isSome_iff_exists]
  simp only [mem_keptFrom, hentry, Option.bind_some]

theorem length_created (hcreated : createFrom rt delegate (keptItems rt entries) s =
    (.ok created, s')) :
    (created.map Prod.snd).length = (entries.filterMap (keptItem rt)).length := by
  have hcount := congrArg List.length (createFrom_ids hcreated).1
  rw [List.length_map, List.length_map, keptItems, length_keptFrom] at hcount
  rw [List.length_map, hcount]

/-- An entry at a position that has an id. -/
theorem lines_of_lt (hcreated : createFrom rt delegate (keptItems rt entries) s =
    (.ok created, s')) {i : ℕ} (hi : i < entries.length)
    (hcount : i < (created.map Prod.snd).length) :
    (∀ id, (created.map Prod.snd)[i]? = some id ↔ (i, id) ∈ created) ↔
      ∀ e ∈ entries.take (i + 1), (keptItem rt e).isSome := by
  have hid := List.getElem?_eq_getElem hcount
  have hself := mem_created_self_iff hcreated hi hid
  constructor
  · exact fun hall => hself.mp ((hall _).mp hid)
  · intro hkept id
    constructor
    · exact fun hid' => (mem_created_self_iff hcreated hi hid').mpr hkept
    · intro hmem
      have hfst : (created.map Prod.fst).Nodup :=
        (createFrom_ids hcreated).1 ▸ nodup_keptFrom 0 entries
      have heq := List.inj_on_of_nodup_map hfst hmem (hself.mpr hkept) rfl
      rw [hid, (Prod.mk.inj heq).2]

/-- An entry at a position behind all ids. -/
theorem lines_of_le (hcreated : createFrom rt delegate (keptItems rt entries) s =
    (.ok created, s')) {i : ℕ} {entry : ContextItemAppendEntry N}
    (hentry : entries[i]? = some entry)
    (hcount : (created.map Prod.snd).length ≤ i) :
    (∀ id, (created.map Prod.snd)[i]? = some id ↔ (i, id) ∈ created) ↔
      keptItem rt entry = none := by
  have hexists := exists_mem_created_iff hcreated hentry
  rw [List.getElem?_eq_none hcount]
  constructor
  · intro hall
    by_contra hkept
    obtain ⟨id, hmem⟩ := hexists.mpr (Option.isSome_iff_ne_none.mpr hkept)
    exact absurd ((hall id).mpr hmem) (by simp)
  · intro hdropped id
    refine ⟨fun hid => absurd hid (by simp), fun hmem => ?_⟩
    rw [hdropped] at hexists
    exact absurd (hexists.mp ⟨id, hmem⟩) (by simp)

/-- What is assigned lines up with what is created exactly when the entries are aligned. -/
theorem linesUp_iff {assigned : List (ℕ × String)}
    (h : persistContextItems rt delegate entries s = (.ok (ids, assigned), s')) :
    ∃ created, createFrom rt delegate (keptItems rt entries) s = (.ok created, s') ∧
      ids = created.map Prod.snd ∧ (LinesUp entries created assigned ↔ Aligned rt entries) := by
  obtain ⟨created, hcreated, rfl, rfl⟩ := persistContextItems_eq_ok h
  refine ⟨created, hcreated, rfl, ?_⟩
  obtain ⟨-, -, hfresh⟩ := createFrom_ids hcreated
  have hlength := length_created hcreated
  refine forall_congr' fun i => forall_congr' fun entry => forall_congr' fun hentry => ?_
  have hi : i < entries.length := (List.getElem?_eq_some_iff.mp hentry).1
  by_cases hassign : entry.assign = true
  swap
  · simp [mem_assignments, hentry, hassign]
  have hassigned : ∀ id, (i, id) ∈ assignments entries (created.map Prod.snd) ↔
      (created.map Prod.snd)[i]? = some id := by
    intro id
    rw [mem_assignments]
    refine ⟨fun hid => hid.1, fun hid => ⟨hid, ?_, entry, hentry, hassign⟩⟩
    exact (hfresh id (List.mem_of_getElem? hid)).1
  simp only [hassigned, hassign, true_and, forall_const]
  by_cases hcount : i < (created.map Prod.snd).length
  · rw [lines_of_lt hcreated hi hcount]
    refine (or_iff_left fun hdropped => ?_).symm
    have := hdropped.2
    omega
  · rw [lines_of_le hcreated hentry (Nat.le_of_not_lt hcount)]
    constructor
    · exact fun hdropped => .inr ⟨hdropped, by omega⟩
    · rintro (hkept | hdropped)
      · obtain ⟨e, he, -⟩ :=
          Option.map_eq_some_iff.mp ((keptFrom_aligned_iff (n := 0) hi).mpr hkept)
        have hlt := (List.getElem?_eq_some_iff.mp he).1
        rw [length_keptFrom] at hlt
        omega
      · exact hdropped.1

end Ids

def demoDelegate : ContextItemDelegate ℕ ℕ where
  create _ drawn := (.ok (String.ofList (List.replicate (drawn + 1) 'a')), drawn + 1)
  Drawn drawn id := id.length ≤ drawn
  created data drawn id h := by
    obtain rfl := Except.ok.inj h
    refine ⟨fun hempty => ?_, by simp, by simp⟩
    simpa using congrArg String.length hempty
  kept data drawn id h := Nat.le_succ_of_le h

def demoRuntime : Runtime ℕ := ⟨fun a b => a ≤ b, fun _ => "", id, ⟨none, none⟩⟩

def textEntry (text : JsValue ℕ) : ContextItemAppendEntry ℕ :=
  ⟨some ⟨none, text, .undefined, .undefined⟩, true⟩

theorem linesUp_texts :
    ∃ created, createFrom demoRuntime demoDelegate
        (keptItems demoRuntime [textEntry (.str "a"), textEntry (.str "b")]) 0 =
          (.ok created, 2) ∧
      ["a", "aa"] = created.map Prod.snd ∧
      (LinesUp [textEntry (.str "a"), textEntry (.str "b")] created [(0, "a"), (1, "aa")] ↔
        Aligned demoRuntime [textEntry (.str "a"), textEntry (.str "b")]) :=
  linesUp_iff (by rfl)

/-- The id of the second entry goes to the first one, whose input is dropped. -/
theorem ids_shifted :
    persistContextItems demoRuntime demoDelegate [textEntry .undefined, textEntry (.str "b")] 0 =
        (.ok (["a"], [(0, "a")]), 1) ∧
      createFrom demoRuntime demoDelegate
          (keptItems demoRuntime [textEntry .undefined, textEntry (.str "b")]) 0 =
        (.ok [(1, "a")], 1) ∧
      ¬LinesUp [textEntry .undefined, textEntry (.str "b")] [(1, "a")] [(0, "a")] := by
  refine ⟨rfl, rfl, fun h => ?_⟩
  have hfirst := (h 0 _ rfl "a").mp (by simp)
  simp at hfirst

end Agyn.ContextItems
