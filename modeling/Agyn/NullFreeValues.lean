import Agyn.NullByteCleaning

/-!
Values without a NUL, in strings and in keys: exactly when both sanitizers leave one, leave one as
it is, do the same when they are applied again, and agree.
-/
namespace Agyn.NullBytes

variable {N : Type}

mutual

/-- No string at any depth has a NUL, keys included. -/
def nullFree : JsValue N → Bool
  | .str s => !includesNull s
  | .arr items => itemsNullFree items
  | .obj _ entries => entriesNullFree entries
  | _ => true

def itemsNullFree : List (JsValue N) → Bool
  | [] => true
  | v :: rest => nullFree v && itemsNullFree rest

def entriesNullFree : List (String × JsValue N) → Bool
  | [] => true
  | (key, v) :: rest => !includesNull key && nullFree v && entriesNullFree rest

end

mutual

/-- No key of a plain object has a NUL, apart from what is below a key `__proto__` of an object that
is rebuilt because of a NUL in a string below it; objects that are not plain have no NUL at all. -/
def keysNullFree : JsValue N → Bool
  | .arr items => itemsKeysNullFree items
  | .obj isPlain entries =>
    if isPlain then entriesKeysNullFree (entriesChanged entries) entries
    else entriesNullFree entries
  | _ => true

def itemsKeysNullFree : List (JsValue N) → Bool
  | [] => true
  | v :: rest => keysNullFree v && itemsKeysNullFree rest

def entriesKeysNullFree (rebuilds : Bool) : List (String × JsValue N) → Bool
  | [] => true
  | (key, v) :: rest =>
    (rebuilds && key = "__proto__" || !includesNull key && keysNullFree v) &&
      entriesKeysNullFree rebuilds rest

end

theorem entriesNullFree_append (entries rest : List (String × JsValue N)) :
    entriesNullFree (entries ++ rest) = (entriesNullFree entries && entriesNullFree rest) := by
  induction entries with
  | nil => rfl
  | cons e entries ih =>
    obtain ⟨key, v⟩ := e
    simp only [List.cons_append, entriesNullFree, ih, Bool.and_assoc]

theorem entriesChanged_append (entries rest : List (String × JsValue N)) :
    entriesChanged (entries ++ rest) = (entriesChanged entries || entriesChanged rest) := by
  induction entries with
  | nil => rfl
  | cons e entries ih =>
    obtain ⟨key, v⟩ := e
    simp only [List.cons_append, entriesChanged, ih, Bool.or_assoc]

theorem putProperty_proto (out : JsObject N) (v : JsValue N) :
    (putProperty out "__proto__" v).2 = out.2 := by
  cases v <;> rfl

mutual

/-- What is cleaned has no NUL exactly when no key that is kept has one. -/
theorem nullFree_cleaned (v : JsValue N) : nullFree (cleaned v) = keysNullFree v := by
  cases v with
  | str s => simp [cleaned, nullFree, keysNullFree, includesNull_withoutNulls]
  | arr items => rw [cleaned, nullFree, keysNullFree, itemsNullFree_cleaned items]
  | obj isPlain entries =>
    cases isPlain with
    | false => rfl
    | true =>
      rw [cleaned, keysNullFree, Bool.true_and, if_pos rfl]
      cases hchanged : entriesChanged entries with
      | true =>
        rw [if_pos rfl, nullFree, entriesNullFree_rebuilt (true, []) entries]
        rfl
      | false =>
        rw [if_neg Bool.false_ne_true, nullFree, entriesNullFree_of_not_changed entries hchanged]
  | _ => rfl

theorem itemsNullFree_cleaned (items : List (JsValue N)) :
    itemsNullFree (cleanedItems items) = itemsKeysNullFree items := by
  cases items with
  | nil => rfl
  | cons v rest =>
    rw [cleanedItems, itemsNullFree, itemsKeysNullFree, nullFree_cleaned v,
      itemsNullFree_cleaned rest]

theorem entriesNullFree_rebuilt (out : JsObject N) (entries : List (String × JsValue N)) :
    entriesNullFree (rebuilt out entries).2 =
      (entriesNullFree out.2 && entriesKeysNullFree true entries) := by
  cases entries with
  | nil => rw [rebuilt, entriesKeysNullFree, Bool.and_true]
  | cons e rest =>
    obtain ⟨key, v⟩ := e
    rw [rebuilt, entriesNullFree_rebuilt _ rest, entriesKeysNullFree]
    by_cases hproto : key = "__proto__"
    · subst hproto
      rw [putProperty_proto]
      simp
    · rw [putProperty_of_ne out _ hproto, entriesNullFree_append, entriesNullFree,
        nullFree_cleaned v]
      simp [hproto, entriesNullFree, Bool.and_assoc]

theorem entriesNullFree_of_not_changed (entries : List (String × JsValue N))
    (h : entriesChanged entries = false) :
    entriesNullFree entries = entriesKeysNullFree false entries := by
  cases entries with
  | nil => rfl
  | cons e rest =>
    obtain ⟨key, v⟩ := e
    obtain ⟨hv, hrest⟩ := Bool.or_eq_false_iff.mp h
    have hfree := nullFree_cleaned v
    rw [cleaned_of_not_changed v hv] at hfree
    rw [entriesNullFree, entriesKeysNullFree, hfree, entriesNullFree_of_not_changed rest hrest]
    simp

end

mutual

/-- Nothing is left to be changed. -/
theorem changed_cleaned (v : JsValue N) : changed (cleaned v) = false := by
  cases v with
  | str s => exact includesNull_withoutNulls s
  | arr items => exact itemsChanged_cleaned items
  | obj isPlain entries =>
    rw [cleaned]
    split_ifs with h
    · rw [changed, entriesChanged_rebuilt (true, []) entries rfl, Bool.and_false]
    · exact Bool.eq_false_iff.mpr h
  | _ => rfl

theorem itemsChanged_cleaned (items : List (JsValue N)) :
    itemsChanged (cleanedItems items) = false := by
  cases items with
  | nil => rfl
  | cons v rest =>
    rw [cleanedItems, itemsChanged, changed_cleaned v, itemsChanged_cleaned rest, Bool.or_false]

theorem entriesChanged_rebuilt (out : JsObject N) (entries : List (String × JsValue N))
    (hout : entriesChanged out.2 = false) : entriesChanged (rebuilt out entries).2 = false := by
  cases entries with
  | nil => exact hout
  | cons e rest =>
    obtain ⟨key, v⟩ := e
    refine entriesChanged_rebuilt _ rest ?_
    by_cases hproto : key = "__proto__"
    · subst hproto
      rw [putProperty_proto]
      exact hout
    · rw [putProperty_of_ne out _ hproto, entriesChanged_append, hout, entriesChanged,
        changed_cleaned v]
      rfl

end

mutual

theorem not_changed_of_nullFree (v : JsValue N) (h : nullFree v) : changed v = false := by
  cases v with
  | str s =>
    rw [changed]
    simpa [nullFree] using h
  | arr items => exact itemsNotChanged_of_nullFree items h
  | obj isPlain entries =>
    rw [changed, entriesNotChanged_of_nullFree entries h, Bool.and_false]
  | _ => rfl

theorem itemsNotChanged_of_nullFree (items : List (JsValue N)) (h : itemsNullFree items) :
    itemsChanged items = false := by
  cases items with
  | nil => rfl
  | cons v rest =>
    obtain ⟨hv, hrest⟩ := Bool.and_eq_true_iff.mp h
    rw [itemsChanged, not_changed_of_nullFree v hv, itemsNotChanged_of_nullFree rest hrest,
      Bool.or_false]

theorem entriesNotChanged_of_nullFree (entries : List (String × JsValue N))
    (h : entriesNullFree entries) : entriesChanged entries = false := by
  cases entries with
  | nil => rfl
  | cons e rest =>
    obtain ⟨key, v⟩ := e
    obtain ⟨hkey, hrest⟩ := Bool.and_eq_true_iff.mp h
    obtain ⟨-, hv⟩ := Bool.and_eq_true_iff.mp hkey
    rw [entriesChanged, not_changed_of_nullFree v hv, entriesNotChanged_of_nullFree rest hrest,
      Bool.or_false]

end

section Sanitizers

variable {env : NullGuardEnv} {guardOverride : Option Bool} {field : SanitizeField}
  {path : List String} {v r : JsValue N}

def refuses (env : NullGuardEnv) (guardOverride : Option Bool) (v : JsValue N) : Bool :=
  guardOverride.getD (isNullGuardEnabled env) && changed v

theorem Yields.eq_ok {α : Type} {guard c : Bool} {x : Guarded α} {a b : α}
    (h : Yields guard c x a) : x = .ok b ↔ (guard && c) = false ∧ b = a := by
  unfold Yields at h
  split_ifs at h with hrefuses
  · obtain ⟨e, he⟩ := h
    simp [he, hrefuses]
  · simp [h, hrefuses, eq_comm]

theorem sanitizePrismaJson_eq_ok :
    sanitizePrismaJson env guardOverride field path v = .ok r ↔
      refuses env guardOverride v = false ∧ r = cleaned v :=
  ((prismaJson_yields (guardOverride.getD (isNullGuardEnabled env)) field path v).map (·.1)).eq_ok

def isString : JsValue N → Bool
  | .str _ => true
  | _ => false

/-- Strings that are not inside anything are left to pass. -/
theorem sanitizeContextItemPayload_eq_ok :
    sanitizeContextItemPayload env guardOverride v = .ok r ↔
      if isString v then r = v else refuses env guardOverride v = false ∧ r = cleaned v := by
  have h := ((sanitizeValue_yields (guardOverride.getD (isNullGuardEnabled env)) [] v).map
    fun next => orElse next.1 v).eq_ok (b := r)
  cases v with
  | arr items => exact h
  | obj isPlain entries =>
    have horElse : orElse (cleaned (.obj isPlain entries)) (.obj isPlain entries) =
        cleaned (.obj isPlain entries) := by
      rw [cleaned]
      split_ifs <;> rfl
    rw [horElse] at h
    exact h
  | _ => simp [sanitizeContextItemPayload, isString, refuses, changed, cleaned, eq_comm]

structure Sanitizes (sanitize : JsValue N → Guarded (JsValue N)) (v : JsValue N) : Prop where
  free : ∀ r, sanitize v = .ok r → nullFree r
  unchanged : nullFree v → sanitize v = .ok v
  idempotent : ∀ r, sanitize v = .ok r → sanitize r = .ok r

structure SanitizesAlike (env : NullGuardEnv) (guardOverride : Option Bool) (field : SanitizeField)
    (path : List String) (v : JsValue N) : Prop where
  json : Sanitizes (sanitizePrismaJson env guardOverride field path) v
  payload : Sanitizes (sanitizeContextItemPayload env guardOverride) v
  agree : ∀ r r', sanitizePrismaJson env guardOverride field path v = .ok r →
    sanitizeContextItemPayload env guardOverride v = .ok r' → r = r'

theorem refuses_cleaned : refuses env guardOverride (cleaned v) = false := by
  rw [refuses, changed_cleaned, Bool.and_false]

theorem cleaned_cleaned : cleaned (cleaned v) = cleaned v :=
  cleaned_of_not_changed _ (changed_cleaned v)

theorem sanitizes_json (h : refuses env guardOverride v ∨ keysNullFree v) :
    Sanitizes (sanitizePrismaJson env guardOverride field path) v where
  free := by
    intro r hr
    obtain ⟨hrefuses, rfl⟩ := sanitizePrismaJson_eq_ok.mp hr
    rw [nullFree_cleaned]
    exact h.resolve_left (by simp [hrefuses])
  unchanged := by
    intro hfree
    have hchanged := not_changed_of_nullFree v hfree
    rw [sanitizePrismaJson_eq_ok, refuses, hchanged, cleaned_of_not_changed v hchanged]
    simp
  idempotent := by
    intro r hr
    obtain ⟨-, rfl⟩ := sanitizePrismaJson_eq_ok.mp hr
    exact sanitizePrismaJson_eq_ok.mpr ⟨refuses_cleaned, cleaned_cleaned.symm⟩

theorem isString_cleaned : isString (cleaned v) = isString v := by
  cases v with
  | obj isPlain entries =>
    rw [cleaned]
    split_ifs <;> rfl
  | _ => rfl

theorem payload_eq_ok_of_not_isString (h : isString v = false) :
    sanitizeContextItemPayload env guardOverride v = .ok r ↔
      sanitizePrismaJson env guardOverride field path v = .ok r := by
  rw [sanitizeContextItemPayload_eq_ok, sanitizePrismaJson_eq_ok, h, if_neg Bool.false_ne_true]

/-- The promise holds exactly for values that are no string with a NUL and whose keys have none, or
that the guard refuses. -/
theorem sanitizesAlike_iff :
    SanitizesAlike env guardOverride field path v ↔
      (isString v → nullFree v) ∧ (refuses env guardOverride v ∨ keysNullFree v) := by
  constructor
  · intro h
    refine ⟨fun hstr => ?_, ?_⟩
    · exact h.payload.free v (sanitizeContextItemPayload_eq_ok.mpr (by rw [if_pos hstr]))
    · cases hrefuses : refuses env guardOverride v with
      | true => exact .inl rfl
      | false =>
        have hfree := h.json.free (cleaned v) (sanitizePrismaJson_eq_ok.mpr ⟨hrefuses, rfl⟩)
        rw [nullFree_cleaned] at hfree
        exact .inr hfree
  · rintro ⟨hstring, hkeys⟩
    have hjson : Sanitizes (sanitizePrismaJson env guardOverride field path) v :=
      sanitizes_json hkeys
    cases hstr : isString v with
    | false =>
      have heq : ∀ r, sanitizeContextItemPayload env guardOverride v = .ok r ↔
          sanitizePrismaJson env guardOverride field path v = .ok r :=
        fun r => payload_eq_ok_of_not_isString hstr
      refine ⟨hjson, ⟨fun r hr => hjson.free r ((heq r).mp hr),
        fun hfree => (heq v).mpr (hjson.unchanged hfree), fun r hr => ?_⟩, fun r r' hr hr' => ?_⟩
      · obtain ⟨-, rfl⟩ := sanitizePrismaJson_eq_ok.mp ((heq r).mp hr)
        rw [payload_eq_ok_of_not_isString (isString_cleaned.trans hstr)]
        exact hjson.idempotent _ ((heq _).mp hr)
      · exact Except.ok.inj (hr.symm.trans ((heq r').mp hr'))
    | true =>
      have hfree : nullFree v := hstring hstr
      have hpayload : ∀ r, sanitizeContextItemPayload env guardOverride v = .ok r ↔ r = v :=
        fun r => by rw [sanitizeContextItemPayload_eq_ok, if_pos hstr]
      refine ⟨hjson, ⟨fun r hr => ?_, fun _ => (hpayload v).mpr rfl, fun r hr => ?_⟩,
        fun r r' hr hr' => ?_⟩
      · exact (hpayload r).mp hr ▸ hfree
      · obtain rfl := (hpayload r).mp hr
        exact hr
      · obtain rfl := (hpayload r').mp hr'
        exact Except.ok.inj (hr.symm.trans (hjson.unchanged hfree))

end Sanitizers

/-- A NUL in a key stays. -/
theorem null_key_kept :
    sanitizePrismaJson ⟨none, none⟩ (some false) .payload []
        (.record [("a\x00b", .bool true)] : JsValue ℕ) = .ok (.record [("a\x00b", .bool true)]) ∧
      ¬SanitizesAlike ⟨none, none⟩ (some false) .payload []
        (.record [("a\x00b", .bool true)] : JsValue ℕ) := by
  have hkept : sanitizePrismaJson ⟨none, none⟩ (some false) .payload []
      (.record [("a\x00b", .bool true)] : JsValue ℕ) = .ok (.record [("a\x00b", .bool true)]) :=
    rfl
  refine ⟨hkept, fun h => ?_⟩
  have hfree := h.json.free _ hkept
  exact absurd hfree (by decide +kernel)

end Agyn.NullBytes
