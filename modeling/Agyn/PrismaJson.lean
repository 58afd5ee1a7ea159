import Mathlib.Order.Basic
import Mathlib.Data.List.Forall2

/-!
The conversion of a value to the JSON that the database takes. Values are told apart as the
conversion tells them apart; numbers are an opaque `N`. An object is plain when its prototype
is that of object literals or missing. Writing the key `__proto__` of a fresh object sets its
prototype and creates no property, so a rebuilt object loses an own property of that name.
-/
namespace Agyn

/-- The values of the language; `nonData` is a function, a symbol or a bigint, by `typeof`. -/
inductive JsValue (N : Type) where
  | undefined
  | nonData (type : String)
  | null
  | bool (b : Bool)
  | num (n : N)
  | str (s : String)
  | arr (items : List (JsValue N))
  | obj (isPlain : Bool) (entries : List (String × JsValue N))

variable {N : Type}

namespace JsValue

abbrev record (entries : List (String × JsValue N)) : JsValue N := .obj true entries

def lookup (entries : List (String × JsValue N)) (key : String) : Option (JsValue N) :=
  (entries.find? fun e => e.1 = key).map Prod.snd

/-- `obj[key]`, for keys that no prototype has. -/
def get (v : JsValue N) (key : String) : JsValue N :=
  match v with
  | .obj _ entries => (lookup entries key).getD .undefined
  | _ => .undefined

def isDefined : JsValue N → Bool
  | .undefined => false
  | .nonData _ => false
  | _ => true

mutual

def isJsonData : JsValue N → Bool
  | .undefined => false
  | .nonData _ => false
  | .null => true
  | .bool _ => true
  | .num _ => true
  | .str _ => true
  | .arr items => areJsonData items
  | .obj isPlain entries => isPlain && areJsonEntries entries

def areJsonData : List (JsValue N) → Bool
  | [] => true
  | v :: rest => isJsonData v && areJsonData rest

def areJsonEntries : List (String × JsValue N) → Bool
  | [] => true
  | (_, v) :: rest => isJsonData v && areJsonEntries rest

end

end JsValue

open JsValue

mutual

def isInputJsonValue : JsValue N → Bool
  | .undefined => false
  | .nonData _ => false
  | .null => false
  | .bool _ => true
  | .num _ => true
  | .str _ => true
  | .arr items => areInputJsonValues items
  | .obj isPlain entries => isPlain && areInputJsonEntries entries

def areInputJsonValues : List (JsValue N) → Bool
  | [] => true
  | v :: rest => isInputJsonValue v && areInputJsonValues rest

def areInputJsonEntries : List (String × JsValue N) → Bool
  | [] => true
  | (_, v) :: rest => isInputJsonValue v && areInputJsonEntries rest

end

/-- An object under construction: whether it is still plain, and its own properties. -/
abbrev JsObject (N : Type) := Bool × List (String × JsValue N)

/-- `out[key] = v` for a key that `out` does not have yet. The setter of `__proto__` takes
objects and null, and ignores other values. -/
def putProperty (out : JsObject N) (key : String) (v : JsValue N) : JsObject N :=
  if key = "__proto__" then
    match v with
    | .arr _ => (false, out.2)
    | .obj _ _ => (false, out.2)
    | _ => out
  else (out.1, out.2 ++ [(key, v)])

/-- `toPrismaJsonValueNullable`, given what `toPrismaJsonValue` does on the value. -/
def orNull (v : JsValue N) (converted : Except String (JsValue N)) : Except String (JsValue N) :=
  if isInputJsonValue v then .ok v
  else
    match v with
    | .null => .ok .null
    | _ => converted

mutual

def toPrismaJsonValue : JsValue N → Except String (JsValue N)
  | .undefined => .error "Unable to convert value to JSON"
  | .nonData _ => .error "Unable to convert value to JSON"
  | .null => .error "Unable to convert value to JSON: null is not allowed"
  | .bool b => .ok (.bool b)
  | .num n => .ok (.num n)
  | .str s => .ok (.str s)
  | .arr items =>
    if areInputJsonValues items then .ok (.arr items)
    else do return .arr (← toPrismaJsonItems items)
  | .obj isPlain entries =>
    if isPlain && areInputJsonEntries entries then .ok (.obj isPlain entries)
    else if isPlain then do
      let out ← toPrismaJsonEntries (true, []) entries
      return .obj out.1 out.2
    else .error "Unable to convert value to JSON"

def toPrismaJsonItems : List (JsValue N) → Except String (List (JsValue N))
  | [] => .ok []
  | v :: rest => do
    let el ← orNull v (toPrismaJsonValue v)
    return el :: (← toPrismaJsonItems rest)

/-- The loop over the entries of an object: undefined properties are dropped. -/
def toPrismaJsonEntries (out : JsObject N) : List (String × JsValue N) →
    Except String (JsObject N)
  | [] => .ok out
  | (_, .undefined) :: rest => toPrismaJsonEntries out rest
  | (k, .nonData type) :: _ =>
    .error ("Unable to convert value to JSON: non-serializable property " ++ k ++
      " of type " ++ type)
  | (k, v) :: rest => do
    let converted ← orNull v (toPrismaJsonValue v)
    toPrismaJsonEntries (putProperty out k converted) rest

end

def toPrismaJsonValueNullable (v : JsValue N) : Except String (JsValue N) :=
  orNull v (toPrismaJsonValue v)

section Results

theorem ok_of_bind {α β : Type} {x : Except String α} {f : α → Except String β} {b : β}
    (h : x.bind f = .ok b) : ∃ a, x = .ok a ∧ f a = .ok b := by
  cases x with
  | error e => simp [Except.bind] at h
  | ok a => exact ⟨a, rfl, h⟩

theorem ok_of_map {α β : Type} {x : Except String α} {f : α → β} {b : β}
    (h : x.map f = .ok b) : ∃ a, x = .ok a ∧ f a = b := by
  cases x with
  | error e => simp [Except.map] at h
  | ok a => exact ⟨a, rfl, by simpa [Except.map] using h⟩

theorem mapM_eq_ok_iff {α β : Type} {f : α → Except String β} {l : List α} {results : List β} :
    l.mapM f = .ok results ↔ List.Forall₂ (fun a b => f a = .ok b) l results := by
  induction l generalizing results with
  | nil => simp [pure, Except.pure, eq_comm]
  | cons a l ih =>
    rw [List.mapM_cons, List.forall₂_cons_left_iff]
    constructor
    · intro h
      obtain ⟨b, hb, h⟩ := ok_of_bind h
      obtain ⟨bs, hbs, h⟩ := ok_of_bind h
      cases h
      exact ⟨b, bs, hb, ih.mp hbs, rfl⟩
    · rintro ⟨b, bs, hb, hbs, rfl⟩
      rw [hb, ih.mpr hbs]
      rfl

theorem exists_mapM_ok_iff {α β : Type} {f : α → Except String β} {l : List α} :
    (∃ results, l.mapM f = .ok results) ↔ ∀ a ∈ l, ∃ b, f a = .ok b := by
  simp only [mapM_eq_ok_iff]
  induction l with
  | nil => simp
  | cons a l ih =>
    rw [List.forall_mem_cons, ← ih]
    constructor
    · rintro ⟨_, hall⟩
      obtain ⟨b, bs, hb, hbs, rfl⟩ := List.forall₂_cons_left_iff.mp hall
      exact ⟨⟨b, hb⟩, bs, hbs⟩
    · rintro ⟨⟨b, hb⟩, bs, hbs⟩
      exact ⟨b :: bs, .cons hb hbs⟩

end Results

section Kept

mutual

/-- No object that has to be rebuilt, because a null is inside it, has the key `__proto__`. -/
def keepsKeys : JsValue N → Bool
  | .arr items => keepsItems items
  | .obj _ entries =>
    (areInputJsonEntries entries || entries.all fun e => e.1 ≠ "__proto__") && keepsEntries entries
  | _ => true

def keepsItems : List (JsValue N) → Bool
  | [] => true
  | v :: rest => keepsKeys v && keepsItems rest

def keepsEntries : List (String × JsValue N) → Bool
  | [] => true
  | (_, v) :: rest => keepsKeys v && keepsEntries rest

end

theorem orNull_of_input {v : JsValue N} {r : Except String (JsValue N)}
    (h : isInputJsonValue v = true) : orNull v r = .ok v := by
  simp [orNull, h]

theorem putProperty_of_ne (out : JsObject N) {key : String} (v : JsValue N)
    (h : key ≠ "__proto__") : putProperty out key v = (out.1, out.2 ++ [(key, v)]) := by
  simp [putProperty, h]

theorem toPrismaJsonItems_eq_mapM (items : List (JsValue N)) :
    toPrismaJsonItems items = items.mapM toPrismaJsonValueNullable := by
  induction items with
  | nil => rfl
  | cons v rest ih => rw [List.mapM_cons, ← ih, toPrismaJsonItems, toPrismaJsonValueNullable]

theorem toPrismaJsonItems_of_input {items : List (JsValue N)}
    (h : areInputJsonValues items = true) : toPrismaJsonItems items = .ok items := by
  induction items with
  | nil => rfl
  | cons v rest ih =>
    simp only [areInputJsonValues, Bool.and_eq_true] at h
    rw [toPrismaJsonItems, orNull_of_input h.1, ih h.2]
    rfl

theorem nullable_arr (items : List (JsValue N)) :
    toPrismaJsonValueNullable (.arr items) = (toPrismaJsonItems items).map .arr := by
  by_cases h : areInputJsonValues items = true
  · simp [toPrismaJsonValueNullable, orNull, isInputJsonValue, h, toPrismaJsonItems_of_input h,
      Except.map]
  · simp only [toPrismaJsonValueNullable, orNull, isInputJsonValue, h, toPrismaJsonValue]
    cases toPrismaJsonItems items <;> rfl

theorem nullable_record (entries : List (String × JsValue N)) :
    toPrismaJsonValueNullable (.record entries) =
      if areInputJsonEntries entries then .ok (.record entries)
      else (toPrismaJsonEntries (true, []) entries).map fun out => .obj out.1 out.2 := by
  by_cases h : areInputJsonEntries entries = true
  · simp [toPrismaJsonValueNullable, orNull, isInputJsonValue, h]
  · simp only [toPrismaJsonValueNullable, orNull, isInputJsonValue, h, toPrismaJsonValue]
    cases toPrismaJsonEntries (true, []) entries <;> rfl

theorem toPrismaJsonItems_cons (v : JsValue N) (rest : List (JsValue N)) :
    toPrismaJsonItems (v :: rest) =
      (toPrismaJsonValueNullable v).bind fun w => (toPrismaJsonItems rest).map (w :: ·) := by
  simp only [toPrismaJsonItems, toPrismaJsonValueNullable]
  cases orNull v (toPrismaJsonValue v) with
  | error e => rfl
  | ok w => cases toPrismaJsonItems rest <;> rfl

/-- A data property is converted and then written. -/
theorem toPrismaJsonEntries_cons (out : JsObject N) (k : String) {v : JsValue N}
    (rest : List (String × JsValue N)) (hv : isDefined v = true) :
    toPrismaJsonEntries out ((k, v) :: rest) =
      (toPrismaJsonValueNullable v).bind fun w =>
        toPrismaJsonEntries (putProperty out k w) rest := by
  cases v <;> first | rfl | simp [isDefined] at hv

theorem isDefined_of_data {v : JsValue N} (h : isJsonData v = true) : isDefined v = true := by
  cases v <;> simp_all [isDefined, isJsonData]

theorem isDefined_of_input {v : JsValue N} (h : isInputJsonValue v = true) :
    isDefined v = true := by
  cases v <;> simp_all [isDefined, isInputJsonValue]

theorem toPrismaJsonEntries_of_input (out : JsObject N) {entries : List (String × JsValue N)}
    (h : areInputJsonEntries entries = true)
    (hkeys : entries.all (fun e => e.1 ≠ "__proto__") = true) :
    toPrismaJsonEntries out entries = .ok (out.1, out.2 ++ entries) := by
  induction entries generalizing out with
  | nil => simp [toPrismaJsonEntries]
  | cons e rest ih =>
    obtain ⟨k, v⟩ := e
    simp only [areInputJsonEntries, List.all_cons, Bool.and_eq_true, decide_eq_true_eq] at h hkeys
    rw [toPrismaJsonEntries_cons out k rest (isDefined_of_input h.1), toPrismaJsonValueNullable,
      orNull_of_input h.1]
    simpa [Except.bind, putProperty_of_ne out v hkeys.1] using
      ih (out.1, out.2 ++ [(k, v)]) h.2 hkeys.2

/-- Without the key `__proto__` the entries are converted one after another. -/
theorem nullable_record_of_keys {entries : List (String × JsValue N)}
    (hkeys : entries.all (fun e => e.1 ≠ "__proto__") = true) :
    toPrismaJsonValueNullable (.record entries) =
      (toPrismaJsonEntries (true, []) entries).map fun out => .obj out.1 out.2 := by
  rw [nullable_record]
  by_cases h : areInputJsonEntries entries = true
  · simp [h, toPrismaJsonEntries_of_input (true, []) h hkeys, Except.map]
  · simp [h]

mutual

/-- Data without such an object is converted to itself. -/
theorem toPrismaJsonValueNullable_of_keeps (v : JsValue N) (hdata : isJsonData v = true)
    (hkeeps : keepsKeys v = true) : toPrismaJsonValueNullable v = .ok v := by
  cases v with
  | undefined => simp [isJsonData] at hdata
  | nonData type => simp [isJsonData] at hdata
  | null => rfl
  | bool b => rfl
  | num n => rfl
  | str s => rfl
  | arr items =>
    have hitems := toPrismaJsonItems_of_keeps items hdata hkeeps
    simp [nullable_arr, hitems, Except.map]
  | obj isPlain entries =>
    simp only [isJsonData, Bool.and_eq_true] at hdata
    obtain ⟨rfl, hentries⟩ := hdata
    rw [nullable_record]
    by_cases hinput : areInputJsonEntries entries = true
    · simp [hinput]
    · simp only [keepsKeys, hinput, Bool.false_or, Bool.and_eq_true] at hkeeps
      have hloop := toPrismaJsonEntries_of_keeps (true, []) entries hentries hkeeps.2 hkeeps.1
      simp [hinput, hloop, Except.map]

theorem toPrismaJsonItems_of_keeps (items : List (JsValue N)) (hdata : areJsonData items = true)
    (hkeeps : keepsItems items = true) : toPrismaJsonItems items = .ok items := by
  cases items with
  | nil => rfl
  | cons v rest =>
    simp only [areJsonData, keepsItems, Bool.and_eq_true] at hdata hkeeps
    have hv := toPrismaJsonValueNullable_of_keeps v hdata.1 hkeeps.1
    have hrest := toPrismaJsonItems_of_keeps rest hdata.2 hkeeps.2
    simp [toPrismaJsonItems_cons, hv, hrest, Except.bind, Except.map]

theorem toPrismaJsonEntries_of_keeps (out : JsObject N) (entries : List (String × JsValue N))
    (hdata : areJsonEntries entries = true) (hkeeps : keepsEntries entries = true)
    (hkeys : entries.all (fun e => e.1 ≠ "__proto__") = true) :
    toPrismaJsonEntries out entries = .ok (out.1, out.2 ++ entries) := by
  cases entries with
  | nil => simp [toPrismaJsonEntries]
  | cons e rest =>
    obtain ⟨k, v⟩ := e
    simp only [areJsonEntries, keepsEntries, List.all_cons, Bool.and_eq_true,
      decide_eq_true_eq] at hdata hkeeps hkeys
    have hv := toPrismaJsonValueNullable_of_keeps v hdata.1 hkeeps.1
    rw [toPrismaJsonEntries_cons out k rest (isDefined_of_data hdata.1), hv]
    have hrest := toPrismaJsonEntries_of_keeps (putProperty out k v) rest hdata.2 hkeeps.2 hkeys.2
    rw [putProperty_of_ne out v hkeys.1] at hrest
    simpa [Except.bind, putProperty_of_ne out v hkeys.1] using hrest

end

end Kept

section Size

mutual

def jsonSize : JsValue N → ℕ
  | .arr items => itemsSize items + 1
  | .obj _ entries => entriesSize entries + 1
  | _ => 1

def itemsSize : List (JsValue N) → ℕ
  | [] => 0
  | v :: rest => jsonSize v + itemsSize rest

def entriesSize : List (String × JsValue N) → ℕ
  | [] => 0
  | (_, v) :: rest => jsonSize v + entriesSize rest

end

theorem jsonSize_pos (v : JsValue N) : 0 < jsonSize v := by
  cases v <;> simp [jsonSize]

theorem entriesSize_append (a b : List (String × JsValue N)) :
    entriesSize (a ++ b) = entriesSize a + entriesSize b := by
  induction a with
  | nil => simp [entriesSize]
  | cons e a ih => simp [entriesSize, ih, Nat.add_assoc]

theorem putProperty_proto (out : JsObject N) (v : JsValue N) :
    (putProperty out "__proto__" v).2 = out.2 := by
  cases v <;> simp [putProperty]

theorem putProperty_size_le (out : JsObject N) (key : String) (v : JsValue N) :
    entriesSize (putProperty out key v).2 ≤ entriesSize out.2 + jsonSize v := by
  by_cases hkey : key = "__proto__"
  · rw [hkey, putProperty_proto]
    omega
  · rw [putProperty_of_ne out v hkey, entriesSize_append]
    simp [entriesSize]

mutual

theorem keepsKeys_of_input (v : JsValue N) (h : isInputJsonValue v = true) :
    keepsKeys v = true := by
  cases v with
  | arr items => exact keepsItems_of_input items h
  | obj isPlain entries =>
    simp only [isInputJsonValue, Bool.and_eq_true] at h
    simp [keepsKeys, h.2, keepsEntries_of_input entries h.2]
  | _ => rfl

theorem keepsItems_of_input (items : List (JsValue N)) (h : areInputJsonValues items = true) :
    keepsItems items = true := by
  cases items with
  | nil => rfl
  | cons v rest =>
    simp only [areInputJsonValues, Bool.and_eq_true] at h
    simp [keepsItems, keepsKeys_of_input v h.1, keepsItems_of_input rest h.2]

theorem keepsEntries_of_input (entries : List (String × JsValue N))
    (h : areInputJsonEntries entries = true) : keepsEntries entries = true := by
  cases entries with
  | nil => rfl
  | cons e rest =>
    obtain ⟨k, v⟩ := e
    simp only [areInputJsonEntries, Bool.and_eq_true] at h
    simp [keepsEntries, keepsKeys_of_input v h.1, keepsEntries_of_input rest h.2]

end

/-- An undefined property is dropped, any other is converted and written. -/
theorem toPrismaJsonEntries_cons_ok {out result : JsObject N} {k : String} {v : JsValue N}
    {rest : List (String × JsValue N)}
    (h : toPrismaJsonEntries out ((k, v) :: rest) = .ok result) :
    toPrismaJsonEntries out rest = .ok result ∨
      ∃ w, toPrismaJsonValueNullable v = .ok w ∧
        toPrismaJsonEntries (putProperty out k w) rest = .ok result := by
  cases v with
  | undefined => exact Or.inl h
  | nonData type => simp [toPrismaJsonEntries] at h
  | _ => exact Or.inr (ok_of_bind h)

mutual

/-- A conversion adds nothing, and a property that is lost makes the value smaller. -/
theorem nullable_size (v w : JsValue N) (h : toPrismaJsonValueNullable v = .ok w) :
    jsonSize w ≤ jsonSize v ∧ (keepsKeys v = false → jsonSize w < jsonSize v) := by
  by_cases hinput : isInputJsonValue v = true
  · rw [toPrismaJsonValueNullable, orNull_of_input hinput, Except.ok.injEq] at h
    simp [← h, keepsKeys_of_input v hinput]
  · cases v with
    | undefined =>
      simp [toPrismaJsonValueNullable, orNull, isInputJsonValue, toPrismaJsonValue] at h
    | nonData type =>
      simp [toPrismaJsonValueNullable, orNull, isInputJsonValue, toPrismaJsonValue] at h
    | null =>
      have hw : (.ok .null : Except String (JsValue N)) = .ok w := h
      cases hw
      simp [keepsKeys]
    | bool b => exact absurd rfl hinput
    | num n => exact absurd rfl hinput
    | str s => exact absurd rfl hinput
    | arr items =>
      rw [nullable_arr] at h
      obtain ⟨converted, hitems, rfl⟩ := ok_of_map h
      obtain ⟨hle, hlt⟩ := items_size items converted hitems
      simp only [jsonSize, keepsKeys]
      exact ⟨by omega, fun hkeeps => by have := hlt hkeeps; omega⟩
    | obj isPlain entries =>
      cases isPlain with
      | false => simp [toPrismaJsonValueNullable, orNull, isInputJsonValue, toPrismaJsonValue] at h
      | true =>
        have hslow : areInputJsonEntries entries = false := by
          simpa [isInputJsonValue] using hinput
        rw [nullable_record, if_neg (by simp [hslow])] at h
        obtain ⟨out, hloop, rfl⟩ := ok_of_map h
        obtain ⟨hle, hlt⟩ := entries_size (true, []) out entries hloop
        simp only [entriesSize, Nat.zero_add] at hle hlt
        simp only [jsonSize, keepsKeys, hslow, Bool.false_or]
        exact ⟨by omega, fun hkeeps => by have := hlt hkeeps; omega⟩

theorem items_size (items converted : List (JsValue N))
    (h : toPrismaJsonItems items = .ok converted) :
    itemsSize converted ≤ itemsSize items ∧
      (keepsItems items = false → itemsSize converted < itemsSize items) := by
  cases items with
  | nil =>
    simp only [toPrismaJsonItems, Except.ok.injEq] at h
    simp [← h, keepsItems]
  | cons v rest =>
    rw [toPrismaJsonItems_cons] at h
    obtain ⟨w, hv, h⟩ := ok_of_bind h
    obtain ⟨tail, hrest, rfl⟩ := ok_of_map h
    obtain ⟨hhead, hhead'⟩ := nullable_size v w hv
    obtain ⟨htail, htail'⟩ := items_size rest tail hrest
    simp only [itemsSize, keepsItems, Bool.and_eq_false_iff]
    refine ⟨by omega, ?_⟩
    rintro (hkeeps | hkeeps)
    · have := hhead' hkeeps
      omega
    · have := htail' hkeeps
      omega

theorem entries_size (out result : JsObject N) (entries : List (String × JsValue N))
    (h : toPrismaJsonEntries out entries = .ok result) :
    entriesSize result.2 ≤ entriesSize out.2 + entriesSize entries ∧
      ((entries.all (fun e => e.1 ≠ "__proto__") && keepsEntries entries) = false →
        entriesSize result.2 < entriesSize out.2 + entriesSize entries) := by
  cases entries with
  | nil =>
    simp only [toPrismaJsonEntries, Except.ok.injEq] at h
    simp [← h, keepsEntries]
  | cons e rest =>
    obtain ⟨k, v⟩ := e
    have hvpos := jsonSize_pos v
    rcases toPrismaJsonEntries_cons_ok h with h | ⟨w, hv, h⟩
    · obtain ⟨htail, -⟩ := entries_size out result rest h
      simp only [entriesSize]
      exact ⟨by omega, fun _ => by omega⟩
    · obtain ⟨hhead, hhead'⟩ := nullable_size v w hv
      obtain ⟨htail, htail'⟩ := entries_size (putProperty out k w) result rest h
      by_cases hkey : k = "__proto__"
      · rw [hkey, putProperty_proto] at htail
        simp only [entriesSize]
        exact ⟨by omega, fun _ => by omega⟩
      · have hput := putProperty_size_le out k w
        simp only [entriesSize, keepsEntries, List.all_cons, hkey, ne_eq, not_false_eq_true,
          decide_true, Bool.true_and, Bool.and_eq_false_iff] at htail' ⊢
        refine ⟨by omega, ?_⟩
        rintro (hkeys | hkeeps | hkeeps)
        · have := htail' (Or.inl hkeys)
          omega
        · have := hhead' hkeeps
          omega
        · have := htail' (Or.inr hkeeps)
          omega

end

end Size

end Agyn
