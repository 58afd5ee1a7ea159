import Agyn.NullBytes

/-!
What the two sanitizers do to a value: both refuse or clean it alike. Every string is cleaned and no
key is, so that what is left has no NUL where no key that is kept has one.
-/
namespace Agyn.NullBytes

variable {N : Type}

mutual

/-- A string in the value has a NUL, outside the objects that are not plain. -/
def changed : JsValue N → Bool
  | .str s => includesNull s
  | .arr items => itemsChanged items
  | .obj isPlain entries => isPlain && entriesChanged entries
  | _ => false

def itemsChanged : List (JsValue N) → Bool
  | [] => false
  | v :: rest => changed v || itemsChanged rest

def entriesChanged : List (String × JsValue N) → Bool
  | [] => false
  | (_, v) :: rest => changed v || entriesChanged rest

end

mutual

def cleaned : JsValue N → JsValue N
  | .str s => .str (withoutNulls s)
  | .arr items => .arr (cleanedItems items)
  | .obj isPlain entries =>
    if isPlain && entriesChanged entries then
      .obj (rebuilt (true, []) entries).1 (rebuilt (true, []) entries).2
    else .obj isPlain entries
  | v => v

def cleanedItems : List (JsValue N) → List (JsValue N)
  | [] => []
  | v :: rest => cleaned v :: cleanedItems rest

/-- The entries written one after the other to an object. -/
def rebuilt (out : JsObject N) : List (String × JsValue N) → JsObject N
  | [] => out
  | (key, v) :: rest => rebuilt (putProperty out key (cleaned v)) rest

end

theorem withoutNulls_of_not_includesNull {s : String} (h : includesNull s = false) :
    withoutNulls s = s := by
  have hmem : NULL_CHAR ∉ s.toList := by simpa [includesNull] using h
  rw [withoutNulls, List.filter_eq_self.mpr fun c hc => ?_, String.ofList_toList]
  simpa using fun heq : c = NULL_CHAR => hmem (heq ▸ hc)

theorem includesNull_withoutNulls (s : String) : includesNull (withoutNulls s) = false := by
  simp [includesNull, withoutNulls]

section Yields

variable {α β : Type} {guard c d : Bool} {x : Guarded α} {a : α}

/-- A guard refuses what would be changed; otherwise the result is there. -/
def Yields (guard c : Bool) (x : Guarded α) (a : α) : Prop :=
  if guard && c then ∃ e, x = .error e else x = .ok a

theorem yields_ok (guard : Bool) (a : α) : Yields guard false (.ok a) a := by
  simp [Yields]

theorem Yields.map (h : Yields guard c x a) (f : α → β) : Yields guard c (x.map f) (f a) := by
  unfold Yields at h ⊢
  split_ifs at h ⊢
  · obtain ⟨e, rfl⟩ := h
    exact ⟨e, rfl⟩
  · rw [h]
    rfl

theorem Yields.bind {f : α → Guarded β} {b : β} (h : Yields guard c x a)
    (hf : Yields guard d (f a) b) : Yields guard (c || d) (x.bind f) b := by
  cases c with
  | false =>
    have hx : x = .ok a := by simpa [Yields] using h
    rw [hx, Bool.false_or]
    exact hf
  | true =>
    cases guard with
    | false =>
      have hx : x = .ok a := by simpa [Yields] using h
      have hb : f a = .ok b := by simpa [Yields] using hf
      rw [hx]
      exact hb
    | true =>
      obtain ⟨e, rfl⟩ : ∃ e, x = .error e := by simpa [Yields] using h
      exact ⟨e, rfl⟩

end Yields

theorem sanitizeString_yields (guard : Bool) (field : SanitizeField) (path : List String)
    (value : String) : Yields guard (includesNull value)
      (sanitizeString guard field path value) (withoutNulls value) := by
  unfold sanitizeString
  by_cases hempty : value = ""
  · subst hempty
    simp [Yields, includesNull, withoutNulls]
  rw [if_neg hempty]
  cases hnull : includesNull value with
  | false => simp [Yields, withoutNulls_of_not_includesNull hnull]
  | true => cases guard <;> simp [Yields]

theorem withoutNulls_ne_iff (s : String) : decide (withoutNulls s ≠ s) = includesNull s := by
  cases hnull : includesNull s with
  | false => simp [withoutNulls_of_not_includesNull hnull]
  | true =>
    refine decide_eq_true fun heq => ?_
    rw [← heq, includesNull_withoutNulls] at hnull
    exact Bool.false_ne_true hnull

theorem sanitizeStringValue_yields (guard : Bool) (field : SanitizeField) (path : List String)
    (value : String) : Yields guard (includesNull value)
      (sanitizeStringValue (N := N) guard field path value)
      (.str (withoutNulls value), includesNull value) := by
  have h := (sanitizeString_yields guard field path value).map fun s =>
    ((JsValue.str s : JsValue N), decide (s ≠ value))
  rwa [withoutNulls_ne_iff] at h

mutual

/-- What is not changed is left as it is. -/
theorem cleaned_of_not_changed (v : JsValue N) (h : changed v = false) : cleaned v = v := by
  cases v with
  | str s => rw [cleaned, withoutNulls_of_not_includesNull h]
  | arr items => rw [cleaned, cleanedItems_of_not_changed items h]
  | obj isPlain entries =>
    have hentries : (isPlain && entriesChanged entries) = false := h
    rw [cleaned, hentries, if_neg Bool.false_ne_true]
  | _ => rfl

theorem cleanedItems_of_not_changed (items : List (JsValue N)) (h : itemsChanged items = false) :
    cleanedItems items = items := by
  cases items with
  | nil => rfl
  | cons v rest =>
    obtain ⟨hv, hrest⟩ := Bool.or_eq_false_iff.mp h
    rw [cleanedItems, cleaned_of_not_changed v hv, cleanedItems_of_not_changed rest hrest]

end

/-- The result of a rebuilt array is the cleaned array, rebuilt or not. -/
theorem cleaned_arr (items : List (JsValue N)) :
    (if itemsChanged items then .arr (cleanedItems items) else .arr items) =
      cleaned (.arr items) := by
  rw [cleaned]
  split_ifs with h
  · rfl
  · rw [cleanedItems_of_not_changed items (by simpa using h)]

mutual

theorem prismaJson_yields (guard : Bool) (field : SanitizeField) (path : List String)
    (v : JsValue N) :
    Yields guard (changed v) (prismaJson guard field path v) (cleaned v, changed v) := by
  cases v with
  | str s => exact sanitizeStringValue_yields guard field path s
  | arr items =>
    have h := (prismaItems_yields guard field path 0 items).map fun next =>
      (if next.2 then JsValue.arr next.1 else .arr items, next.2)
    rw [← cleaned_arr]
    exact h
  | obj isPlain entries =>
    cases isPlain with
    | false => exact yields_ok guard _
    | true =>
      have h := (prismaEntries_yields guard field path (true, []) entries).map fun out =>
        (if out.2 then JsValue.obj out.1.1 out.1.2 else .obj true entries, out.2)
      exact h
  | _ => exact yields_ok guard _

theorem prismaItems_yields (guard : Bool) (field : SanitizeField) (path : List String) (index : ℕ)
    (items : List (JsValue N)) :
    Yields guard (itemsChanged items) (prismaItems guard field path index items)
      (cleanedItems items, itemsChanged items) := by
  cases items with
  | nil => exact yields_ok guard _
  | cons v rest =>
    refine (prismaJson_yields guard field (path ++ [toString index]) v).bind ?_
    exact (prismaItems_yields guard field path (index + 1) rest).map fun next =>
      (cleaned v :: next.1, changed v || next.2)

theorem prismaEntries_yields (guard : Bool) (field : SanitizeField) (path : List String)
    (out : JsObject N) (entries : List (String × JsValue N)) :
    Yields guard (entriesChanged entries) (prismaEntries guard field path out entries)
      (rebuilt out entries, entriesChanged entries) := by
  cases entries with
  | nil => exact yields_ok guard _
  | cons e rest =>
    obtain ⟨key, v⟩ := e
    refine (prismaJson_yields guard field (path ++ [key]) v).bind ?_
    exact (prismaEntries_yields guard field path (putProperty out key (cleaned v)) rest).map
      fun next => (next.1, changed v || next.2)

end

mutual

theorem sanitizeValue_yields (guard : Bool) (path : List String) (v : JsValue N) :
    Yields guard (changed v) (sanitizeValue guard path v) (cleaned v, changed v) := by
  cases v with
  | str s => exact sanitizeStringValue_yields guard (resolveField path) path s
  | arr items =>
    have h := (sanitizeElements_yields guard path [] false items).map fun result =>
      (if result.2 then JsValue.arr result.1 else .arr items, result.2)
    rw [← cleaned_arr]
    exact h
  | obj isPlain entries =>
    cases isPlain with
    | false => exact yields_ok guard _
    | true =>
      exact (sanitizeRecord_yields guard path (true, []) false entries).map fun out =>
        (if out.2 then JsValue.obj out.1.1 out.1.2 else .obj true entries, out.2)
  | _ => exact yields_ok guard _

theorem sanitizeElements_yields (guard : Bool) (path : List String) (result : List (JsValue N))
    (mutated : Bool) (items : List (JsValue N)) :
    Yields guard (itemsChanged items) (sanitizeElements guard path result mutated items)
      (result ++ cleanedItems items, mutated || itemsChanged items) := by
  cases items with
  | nil =>
    have h := yields_ok guard (result, mutated)
    rw [cleanedItems, itemsChanged, List.append_nil, Bool.or_false]
    exact h
  | cons v rest =>
    refine (sanitizeValue_yields guard (path ++ [toString result.length]) v).bind ?_
    have h := sanitizeElements_yields guard path (result ++ [cleaned v]) (mutated || changed v) rest
    rw [List.append_assoc, Bool.or_assoc] at h
    exact h

theorem sanitizeRecord_yields (guard : Bool) (path : List String) (out : JsObject N)
    (mutated : Bool) (entries : List (String × JsValue N)) :
    Yields guard (entriesChanged entries) (sanitizeRecord guard path out mutated entries)
      (rebuilt out entries, mutated || entriesChanged entries) := by
  cases entries with
  | nil =>
    rw [rebuilt, entriesChanged, Bool.or_false]
    exact yields_ok guard _
  | cons e rest =>
    obtain ⟨key, v⟩ := e
    refine (sanitizeValue_yields guard (path ++ [key]) v).bind ?_
    have h := sanitizeRecord_yields guard path (putProperty out key (cleaned v))
      (mutated || changed v) rest
    rw [Bool.or_assoc] at h
    exact h

end

end Agyn.NullBytes
