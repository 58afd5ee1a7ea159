import Agyn.StatePersistence

/-!
A stored conversation is read back. The context and the summary always are; a message is
exactly when no object inside its source is rebuilt without its own key `__proto__`, which
happens when a null is inside that object.
-/
namespace Agyn.StateCodec

open JsValue

variable {N : Type}

section Entries

theorem lookup_cons (e : String × JsValue N) (entries : List (String × JsValue N)) (key : String) :
    lookup (e :: entries) key = if e.1 = key then some e.2 else lookup entries key := by
  by_cases h : e.1 = key <;> simp [lookup, h]

def dropUndefined (entries : List (String × JsValue N)) : List (String × JsValue N) :=
  entries.filter fun e => isDefined e.2

/-- Every property is undefined or data that is converted to itself. -/
def Storable (entries : List (String × JsValue N)) : Prop :=
  ∀ e ∈ entries, e.1 ≠ "__proto__" ∧
    (e.2 = .undefined ∨ (isJsonData e.2 = true ∧ keepsKeys e.2 = true))

theorem toPrismaJsonEntries_of_storable (out : JsObject N) {entries : List (String × JsValue N)}
    (h : Storable entries) :
    toPrismaJsonEntries out entries = .ok (out.1, out.2 ++ dropUndefined entries) := by
  induction entries generalizing out with
  | nil => simp [toPrismaJsonEntries, dropUndefined]
  | cons e rest ih =>
    obtain ⟨k, v⟩ := e
    obtain ⟨hkey, hv⟩ := h (k, v) List.mem_cons_self
    have hrest : Storable rest := fun e he => h e (List.mem_cons_of_mem _ he)
    rcases hv with rfl | ⟨hdata, hkeeps⟩
    · exact ih out hrest
    · have hdefined := isDefined_of_data hdata
      rw [toPrismaJsonEntries_cons out k rest hdefined,
        toPrismaJsonValueNullable_of_keeps v hdata hkeeps]
      simpa [Except.bind, putProperty_of_ne out v hkey, dropUndefined, hdefined] using
        ih (out.1, out.2 ++ [(k, v)]) hrest

theorem nullable_of_storable {entries : List (String × JsValue N)} (h : Storable entries) :
    toPrismaJsonValueNullable (.record entries) = .ok (.record (dropUndefined entries)) := by
  have hkeys : entries.all (fun e => e.1 ≠ "__proto__") = true := by
    rw [List.all_eq_true]
    exact fun e he => decide_eq_true (h e he).1
  rw [nullable_record_of_keys hkeys, toPrismaJsonEntries_of_storable _ h]
  rfl

end Entries

section Context

theorem idsValue_data (ids : List String) :
    isJsonData (idsValue ids : JsValue N) = true ∧ keepsKeys (idsValue ids : JsValue N) = true := by
  induction ids with
  | nil => exact ⟨rfl, rfl⟩
  | cons id ids ih => exact ih

theorem memoryValue_data (memory : List LLMContextMemoryEntry) :
    isJsonData (.arr (memory.map memoryValue) : JsValue N) = true ∧
      keepsKeys (.arr (memory.map memoryValue) : JsValue N) = true := by
  induction memory with
  | nil => exact ⟨rfl, rfl⟩
  | cons entry memory ih =>
    obtain ⟨id, place⟩ := entry
    obtain ⟨ihd, ihk⟩ := ih
    simp only [isJsonData, keepsKeys] at ihd ihk
    cases id <;> cases place <;>
      simp [isJsonData, keepsKeys, areJsonData, keepsItems, memoryValue, idValue, placeValue,
        areJsonEntries, keepsEntries, ihd, ihk]

theorem summaryValue_storable (summary : Option LLMContextSummaryState) :
    (summaryValue summary : JsValue N) = .undefined ∨
      (isJsonData (summaryValue summary : JsValue N) = true ∧
        keepsKeys (summaryValue summary : JsValue N) = true) := by
  rcases summary with _ | ⟨_ | id, _ | text⟩
  · exact Or.inl rfl
  all_goals
    simp [summaryValue, idValue, isJsonData, areJsonEntries, keepsKeys, keepsEntries]

theorem systemValue_storable (system : Option LLMContextSystemState) :
    (systemValue system : JsValue N) = .undefined ∨
      (isJsonData (systemValue system : JsValue N) = true ∧
        keepsKeys (systemValue system : JsValue N) = true) := by
  rcases system with _ | ⟨_ | id⟩
  · exact Or.inl rfl
  all_goals
    simp [systemValue, idValue, isJsonData, areJsonEntries, keepsKeys, keepsEntries]

def storedContext (context : LLMContextState) : JsValue N :=
  .record (dropUndefined [
    ("messageIds", idsValue context.messageIds),
    ("memory", .arr (context.memory.map memoryValue)),
    ("summary", summaryValue context.summary),
    ("system", systemValue context.system),
    ("pendingNewContextItemIds", (context.pendingNewContextItemIds.map idsValue).getD .undefined)])

theorem serializeContext_storable (context : LLMContextState) :
    Storable ([
      ("messageIds", idsValue context.messageIds),
      ("memory", .arr (context.memory.map memoryValue)),
      ("summary", summaryValue context.summary),
      ("system", systemValue context.system),
      ("pendingNewContextItemIds",
        (context.pendingNewContextItemIds.map idsValue).getD .undefined)] :
      List (String × JsValue N)) := by
  intro e he
  simp only [List.mem_cons, List.not_mem_nil, or_false] at he
  rcases he with rfl | rfl | rfl | rfl | rfl
  · exact ⟨by simp, Or.inr (idsValue_data _)⟩
  · exact ⟨by simp, Or.inr (memoryValue_data _)⟩
  · exact ⟨by simp, summaryValue_storable _⟩
  · exact ⟨by simp, systemValue_storable _⟩
  · refine ⟨by simp, ?_⟩
    cases context.pendingNewContextItemIds with
    | none => exact Or.inl rfl
    | some ids => exact Or.inr (idsValue_data ids)

theorem nullable_serializeContext (context : LLMContextState) :
    toPrismaJsonValueNullable (serializeContext context : JsValue N) =
      .ok (storedContext context) :=
  nullable_of_storable (serializeContext_storable context)

/-- What is read back of a context: a missing list of pending items becomes empty. -/
def LLMContextState.reloaded (context : LLMContextState) : LLMContextState :=
  { context with
    pendingNewContextItemIds := some (context.pendingNewContextItemIds.getD []) }

theorem readIds_idsValue (ids : List String) :
    readList readString (idsValue ids : JsValue N) = .ok ids := by
  simp only [idsValue, readList, mapM_eq_ok_iff, List.forall₂_map_left_iff]
  exact List.forall₂_same.mpr fun _ _ => rfl

theorem readMemory_memoryValue (memory : List LLMContextMemoryEntry) :
    readList readMemoryEntry (.arr (memory.map memoryValue) : JsValue N) = .ok memory := by
  simp only [readList, mapM_eq_ok_iff, List.forall₂_map_left_iff]
  refine List.forall₂_same.mpr fun entry _ => ?_
  obtain ⟨_ | id, _ | _⟩ := entry <;> rfl

theorem readSummary_summaryValue (summary : Option LLMContextSummaryState) :
    readRecord readSummary (summaryValue summary : JsValue N) = .ok summary := by
  rcases summary with _ | ⟨_ | id, _ | text⟩ <;> rfl

theorem readSystem_systemValue (system : Option LLMContextSystemState) :
    readRecord readSystem (systemValue system : JsValue N) = .ok system := by
  rcases system with _ | ⟨_ | id⟩ <;> rfl

theorem lookup_dropUndefined_none {entries : List (String × JsValue N)} {key : String}
    (h : key ∉ entries.map Prod.fst) : lookup (dropUndefined entries) key = none := by
  have hfind : ((dropUndefined entries).find? fun e => e.1 = key) = none := by
    rw [List.find?_eq_none]
    intro e he hk
    exact h (List.mem_map.mpr ⟨e, (List.mem_filter.mp he).1, by simpa using hk⟩)
  rw [lookup, hfind]
  rfl

/-- A property that is dropped reads as undefined, before and after. -/
theorem get_dropUndefined {entries : List (String × JsValue N)} (key : String)
    (hnodup : (entries.map Prod.fst).Nodup) (h : Storable entries) :
    (JsValue.record (dropUndefined entries)).get key = (JsValue.record entries).get key := by
  induction entries with
  | nil => rfl
  | cons e rest ih =>
    obtain ⟨k, v⟩ := e
    rw [List.map_cons, List.nodup_cons] at hnodup
    have hrest : Storable rest := fun e he => h e (List.mem_cons_of_mem _ he)
    have ih := ih hnodup.2 hrest
    simp only [JsValue.get] at ih ⊢
    rcases (h (k, v) List.mem_cons_self).2 with hv | ⟨hdata, -⟩
    · obtain rfl : v = .undefined := hv
      have hdrop : dropUndefined ((k, .undefined) :: rest) = dropUndefined rest := rfl
      rw [hdrop]
      by_cases hk : k = key
      · subst hk
        rw [lookup_dropUndefined_none hnodup.1]
        simp [lookup]
      · rw [ih]
        simp [lookup, hk]
    · have hdrop : dropUndefined ((k, v) :: rest) = (k, v) :: dropUndefined rest := by
        simp [dropUndefined, isDefined_of_data hdata]
      rw [hdrop]
      by_cases hk : k = key
      · simp [lookup, hk]
      · simpa [lookup, hk] using ih

theorem deserializeContext_storedContext (context : LLMContextState) :
    deserializeContext (storedContext context : JsValue N) = .ok context.reloaded := by
  have hget (key : String) :
      (storedContext context : JsValue N).get key = (serializeContext context).get key :=
    get_dropUndefined key (by simp) (serializeContext_storable context)
  have hids : (serializeContext context : JsValue N).get "messageIds" =
    idsValue context.messageIds := rfl
  have hmemory : (serializeContext context : JsValue N).get "memory" =
    .arr (context.memory.map memoryValue) := rfl
  have hsummary : (serializeContext context : JsValue N).get "summary" =
    summaryValue context.summary := rfl
  have hsystem : (serializeContext context : JsValue N).get "system" =
    systemValue context.system := rfl
  have hpending : readList readString
      ((serializeContext context : JsValue N).get "pendingNewContextItemIds") =
      .ok (context.pendingNewContextItemIds.getD []) := by
    cases hp : context.pendingNewContextItemIds with
    | none => simp [serializeContext, hp, JsValue.get, lookup, readList]
    | some ids => simpa [serializeContext, hp, JsValue.get, lookup] using readIds_idsValue ids
  simp only [deserializeContext, hget, hpending]
  simp only [hids, hmemory, hsummary, hsystem, readIds_idsValue, readMemory_memoryValue,
    readSummary_summaryValue, readSystem_systemValue]
  rfl

end Context

section Messages

/-- The plain value of a message is JSON data of the type that its class declares. -/
def LLMMessage.BuiltFromJson : LLMMessage N → Prop
  | .human source => ∃ entries, source = .record entries ∧ areJsonEntries entries = true ∧
      lookup entries "role" = some (.str "user") ∧ (lookup entries "content").isSome = true
  | .system source => ∃ entries, source = .record entries ∧ areJsonEntries entries = true ∧
      lookup entries "role" = some (.str "system") ∧ (lookup entries "content").isSome = true
  | .ai _ => False
  | .response output _ => areJsonData output = true
  | .toolCallOutput source => ∃ entries, source = .record entries ∧
      areJsonEntries entries = true ∧ (lookup entries "type").isSome = true ∧
      (lookup entries "output").isSome = true

def responsePlain (output : List (JsValue N)) (usage : Option (ResponseUsageSnapshot N)) :
    JsValue N :=
  .record (("output", .arr output) :: usageEntry usage)

theorem usageEntry_storable (usage : Option (ResponseUsageSnapshot N)) :
    Storable (usageEntry usage) := by
  intro e he
  rcases usage with _ | ⟨i, _ | c, o, _ | r, t⟩
  · simp [usageEntry] at he
  all_goals
    simp only [usageEntry, List.mem_singleton] at he
    subst he
    simp [ResponseUsageSnapshot.toPlain, tokensDetails, isJsonData, areJsonEntries, keepsKeys,
      keepsEntries]

theorem normalizeUsage_toPlain (usage : ResponseUsageSnapshot N) :
    normalizeUsage usage.toPlain = some usage := by
  obtain ⟨i, _ | c, o, _ | r, t⟩ := usage <;> rfl

theorem isUsageValue_toPlain (usage : ResponseUsageSnapshot N) :
    isUsageValue usage.toPlain = true := by
  obtain ⟨i, _ | c, o, _ | r, t⟩ := usage <;> rfl

theorem newResponse_plain (output : List (JsValue N)) (usage : Option (ResponseUsageSnapshot N)) :
    newResponse (responsePlain output usage) = .response output usage := by
  cases usage with
  | none => rfl
  | some usage =>
    have hget : (responsePlain output (some usage)).get "usage" = usage.toPlain := rfl
    rw [newResponse, hget, normalizeUsage_toPlain]
    rfl

theorem isResponseValue_plain (output : List (JsValue N))
    (usage : Option (ResponseUsageSnapshot N)) :
    isResponseValue (responsePlain output usage) = true := by
  cases usage with
  | none => rfl
  | some usage =>
    have h := isUsageValue_toPlain usage
    simpa [isResponseValue, responsePlain, usageEntry, isRecord, hasKey, lookup, JsValue.get,
      isArray, ResponseUsageSnapshot.toPlain] using h

/-- Only the output of a response can change in its conversion. -/
theorem nullable_responsePlain (output : List (JsValue N))
    (usage : Option (ResponseUsageSnapshot N)) :
    toPrismaJsonValueNullable (responsePlain output usage) =
      (toPrismaJsonItems output).map (responsePlain · usage) := by
  have hstorable := usageEntry_storable usage
  have hkeys : (("output", .arr output) :: usageEntry usage).all
      (fun e => e.1 ≠ "__proto__") = true := by
    rw [List.all_cons, Bool.and_eq_true, List.all_eq_true]
    exact ⟨by simp, fun e he => decide_eq_true (hstorable e he).1⟩
  have hdrop : dropUndefined (usageEntry usage) = usageEntry usage := by
    cases usage <;> rfl
  rw [responsePlain, nullable_record_of_keys hkeys, toPrismaJsonEntries_cons _ _ _ rfl,
    nullable_arr]
  cases toPrismaJsonItems output with
  | error e => rfl
  | ok items =>
    simp only [Except.map, Except.bind]
    rw [toPrismaJsonEntries_of_storable _ hstorable, hdrop]
    simp [putProperty, responsePlain]

theorem toPrismaJsonValue_record (entries : List (String × JsValue N)) :
    toPrismaJsonValue (.record entries) = toPrismaJsonValueNullable (.record entries) := by
  rw [nullable_record, toPrismaJsonValue]
  cases areInputJsonEntries entries with
  | true => rfl
  | false => cases toPrismaJsonEntries (true, []) entries <;> rfl

theorem isDefined_of_nullable {v w : JsValue N} (h : toPrismaJsonValueNullable v = .ok w) :
    isDefined w = true := by
  cases v with
  | undefined =>
    simp [toPrismaJsonValueNullable, orNull, isInputJsonValue, toPrismaJsonValue] at h
  | nonData type =>
    simp [toPrismaJsonValueNullable, orNull, isInputJsonValue, toPrismaJsonValue] at h
  | arr items =>
    rw [nullable_arr] at h
    obtain ⟨converted, -, rfl⟩ := ok_of_map h
    rfl
  | obj isPlain entries =>
    cases isPlain with
    | false => simp [toPrismaJsonValueNullable, orNull, isInputJsonValue, toPrismaJsonValue] at h
    | true =>
      rw [nullable_record] at h
      split at h
      · cases h
        rfl
      · obtain ⟨out, -, rfl⟩ := ok_of_map h
        rfl
  | _ =>
    cases h
    rfl

theorem nullable_plainMessage (kind : String) {value : JsValue N}
    (hvalue : isDefined value = true) :
    toPrismaJsonValueNullable (plainMessage kind value) =
      (toPrismaJsonValueNullable value).map (plainMessage kind) := by
  have hkeys : [("kind", .str kind), ("value", value)].all
      (fun e => e.1 ≠ "__proto__") = true := by simp
  rw [plainMessage, nullable_record_of_keys hkeys, toPrismaJsonEntries_cons _ _ _ rfl,
    toPrismaJsonValueNullable, orNull_of_input rfl]
  simp only [Except.bind]
  rw [toPrismaJsonEntries_cons _ _ _ hvalue]
  cases toPrismaJsonValueNullable value with
  | error e => rfl
  | ok w => simp [Except.bind, Except.map, toPrismaJsonEntries, putProperty, plainMessage]

def LLMMessage.kind : LLMMessage N → String
  | .human _ => "human"
  | .system _ => "system"
  | .ai _ => "ai"
  | .response _ _ => "response"
  | .toolCallOutput _ => "tool_call_output"

theorem serializeMessage_eq {m : LLMMessage N} (h : m.BuiltFromJson) :
    serializeMessage m = (toPrismaJsonValueNullable m.toPlain).map (plainMessage m.kind) := by
  cases m with
  | human source =>
    obtain ⟨entries, rfl, -⟩ := h
    simp only [serializeMessage, LLMMessage.toPlain, LLMMessage.kind, toPrismaJsonValue_record]
  | system source =>
    obtain ⟨entries, rfl, -⟩ := h
    simp only [serializeMessage, LLMMessage.toPlain, LLMMessage.kind, toPrismaJsonValue_record]
  | ai source => exact h.elim
  | response output usage =>
    simp only [serializeMessage, LLMMessage.toPlain, LLMMessage.kind, toPrismaJsonValue_record]
  | toolCallOutput source =>
    obtain ⟨entries, rfl, -⟩ := h
    simp only [serializeMessage, LLMMessage.toPlain, LLMMessage.kind, toPrismaJsonValue_record]

theorem isJsonData_toPlain {m : LLMMessage N} (h : m.BuiltFromJson) :
    isJsonData m.toPlain = true := by
  cases m with
  | human source =>
    obtain ⟨entries, rfl, hdata, -⟩ := h
    exact hdata
  | system source =>
    obtain ⟨entries, rfl, hdata, -⟩ := h
    exact hdata
  | ai source => exact h.elim
  | response output usage =>
    have hdata : areJsonData output = true := h
    rcases usage with _ | ⟨i, _ | c, o, _ | r, t⟩ <;>
      simp [LLMMessage.toPlain, isJsonData, areJsonEntries, usageEntry, hdata,
        ResponseUsageSnapshot.toPlain, tokensDetails]
  | toolCallOutput source =>
    obtain ⟨entries, rfl, hdata, -⟩ := h
    exact hdata

/-- A message is made of its own plain value again. -/
theorem deserializeMessage_toPlain {m : LLMMessage N} (h : m.BuiltFromJson) :
    deserializeMessage (plainMessage m.kind m.toPlain) = .ok m := by
  cases m with
  | human source =>
    obtain ⟨entries, rfl, -, hrole, hcontent⟩ := h
    simp [deserializeMessage, plainMessage, LLMMessage.kind, LLMMessage.toPlain, JsValue.get,
      lookup_cons, isUserMessage, isRoleMessage, isRecord, hasKey, hrole, hcontent, isString]
  | system source =>
    obtain ⟨entries, rfl, -, hrole, hcontent⟩ := h
    simp [deserializeMessage, plainMessage, LLMMessage.kind, LLMMessage.toPlain, JsValue.get,
      lookup_cons, isSystemMessage, isRoleMessage, isRecord, hasKey, hrole, hcontent, isString]
  | ai source => exact h.elim
  | response output usage =>
    have hguard := isResponseValue_plain output usage
    have hnew := newResponse_plain output usage
    simp only [responsePlain] at hguard hnew
    simp [deserializeMessage, plainMessage, LLMMessage.kind, LLMMessage.toPlain, JsValue.get,
      lookup_cons, hguard, hnew]
  | toolCallOutput source =>
    obtain ⟨entries, rfl, -, htype, houtput⟩ := h
    simp [deserializeMessage, plainMessage, LLMMessage.kind, LLMMessage.toPlain, JsValue.get,
      lookup_cons, isFunctionCallOutput, isRecord, hasKey, htype, houtput]

def reloadMessage (m : LLMMessage N) : Except String (LLMMessage N) :=
  (serializeMessage m).bind fun plain =>
    (toPrismaJsonValueNullable plain).bind deserializeMessage

theorem reloadMessage_eq {m : LLMMessage N} (h : m.BuiltFromJson) :
    reloadMessage m = (toPrismaJsonValueNullable m.toPlain).bind fun w =>
      (toPrismaJsonValueNullable w).bind fun stored =>
        deserializeMessage (plainMessage m.kind stored) := by
  rw [reloadMessage, serializeMessage_eq h]
  cases hw : toPrismaJsonValueNullable m.toPlain with
  | error e => rfl
  | ok w =>
    simp only [Except.map, Except.bind]
    rw [nullable_plainMessage m.kind (isDefined_of_nullable hw)]
    cases toPrismaJsonValueNullable w <;> rfl

/-- A value that comes back after two conversions lost no property in the first. -/
theorem keepsKeys_of_twice {v w : JsValue N} (hw : toPrismaJsonValueNullable v = .ok w)
    (hv : toPrismaJsonValueNullable w = .ok v) : keepsKeys v = true := by
  have hfirst := (nullable_size v w hw).2
  have hsecond := (nullable_size w v hv).1
  by_contra hkeeps
  have := hfirst (by simpa using hkeeps)
  omega

theorem keepsItems_of_twice {items converted : List (JsValue N)}
    (hw : toPrismaJsonItems items = .ok converted)
    (hv : toPrismaJsonItems converted = .ok items) : keepsItems items = true := by
  have hfirst := (items_size items converted hw).2
  have hsecond := (items_size converted items hv).1
  by_contra hkeeps
  have := hfirst (by simpa using hkeeps)
  omega

theorem keepsKeys_responsePlain (output : List (JsValue N))
    (usage : Option (ResponseUsageSnapshot N)) :
    keepsKeys (responsePlain output usage) = keepsItems output := by
  rcases usage with _ | ⟨i, _ | c, o, _ | r, t⟩ <;>
    simp [responsePlain, usageEntry, ResponseUsageSnapshot.toPlain, tokensDetails, keepsKeys,
      keepsEntries]

theorem deserialize_source {stored : JsValue N} {m : LLMMessage N}
    (h : deserializeMessage (plainMessage m.kind stored) = .ok m)
    (hresponse : ∀ output usage, m ≠ .response output usage) : stored = m.toPlain := by
  cases m with
  | response output usage => exact absurd rfl (hresponse output usage)
  | ai source =>
    simp [deserializeMessage, plainMessage, LLMMessage.kind, JsValue.get, lookup_cons] at h
  | human source =>
    simp only [deserializeMessage, plainMessage, LLMMessage.kind, JsValue.get, lookup_cons] at h
    by_cases hguard : isUserMessage stored = true
    · simpa [hguard, LLMMessage.toPlain] using h
    · simp [hguard] at h
  | system source =>
    simp only [deserializeMessage, plainMessage, LLMMessage.kind, JsValue.get, lookup_cons] at h
    by_cases hguard : isSystemMessage stored = true
    · simpa [hguard, LLMMessage.toPlain] using h
    · simp [hguard] at h
  | toolCallOutput source =>
    simp only [deserializeMessage, plainMessage, LLMMessage.kind, JsValue.get, lookup_cons] at h
    by_cases hguard : isFunctionCallOutput stored = true
    · simpa [hguard, LLMMessage.toPlain] using h
    · simp [hguard] at h

/-- A message that is read back kept the properties of its source. -/
theorem keepsKeys_of_deserialized {m : LLMMessage N} (h : m.BuiltFromJson) {w stored : JsValue N}
    (hw : toPrismaJsonValueNullable m.toPlain = .ok w)
    (hstored : toPrismaJsonValueNullable w = .ok stored)
    (hread : deserializeMessage (plainMessage m.kind stored) = .ok m) :
    keepsKeys m.toPlain = true := by
  cases m with
  | ai source => exact h.elim
  | response output usage =>
    have hplain : (LLMMessage.response output usage).toPlain = responsePlain output usage := rfl
    rw [hplain, nullable_responsePlain] at hw
    obtain ⟨first, hfirst, rfl⟩ := ok_of_map hw
    rw [nullable_responsePlain] at hstored
    obtain ⟨second, hsecond, rfl⟩ := ok_of_map hstored
    have hsame : second = output := by
      have hnew := newResponse_plain second usage
      have hguard := isResponseValue_plain second usage
      simp only [deserializeMessage, plainMessage, LLMMessage.kind, JsValue.get, lookup_cons]
        at hread
      simpa [hguard, hnew] using hread
    rw [hplain, keepsKeys_responsePlain]
    exact keepsItems_of_twice hfirst (hsame ▸ hsecond)
  | _ =>
    have hsame := deserialize_source hread (by simp)
    exact keepsKeys_of_twice hw (hsame ▸ hstored)

theorem reloadMessage_iff {m : LLMMessage N} (h : m.BuiltFromJson) :
    reloadMessage m = .ok m ↔ keepsKeys m.toPlain = true := by
  rw [reloadMessage_eq h]
  constructor
  · intro hreload
    obtain ⟨w, hw, hreload⟩ := ok_of_bind hreload
    obtain ⟨stored, hstored, hread⟩ := ok_of_bind hreload
    exact keepsKeys_of_deserialized h hw hstored hread
  · intro hkeeps
    have hself := toPrismaJsonValueNullable_of_keeps m.toPlain (isJsonData_toPlain h) hkeeps
    rw [hself]
    simp only [Except.bind]
    rw [hself]
    exact deserializeMessage_toPlain h

end Messages

section States

/-- What is read back of a state: all but `meta`. -/
def LLMState.reloaded (s : LLMState N) : LLMState N :=
  { s with context := s.context.reloaded, turnMeta := LLMTurnMeta.empty }

/-- The state is stored, what is stored is accepted, and it is read back. -/
def RoundTrips (s : LLMState N) : Prop :=
  ∃ plain stored, serializeState s = .ok plain ∧ toPrismaJsonValue plain = .ok stored ∧
    isPlainLLMState stored = true ∧ deserializeState stored = .ok s.reloaded

def storedSummary : Option String → List (String × JsValue N)
  | some summary => [("summary", .str summary)]
  | none => []

def storedState (messages : List (JsValue N)) (s : LLMState N) : JsValue N :=
  .record (("messages", .arr messages) :: (storedSummary s.summary ++
    [("context", storedContext s.context)]))

def plainState (messages : List (JsValue N)) (s : LLMState N) : JsValue N :=
  .record [
    ("messages", .arr messages),
    ("summary", (s.summary.map .str).getD .undefined),
    ("context", serializeContext s.context)]

theorem toPrismaJsonValue_plainState (messages : List (JsValue N)) (s : LLMState N) :
    toPrismaJsonValue (plainState messages s) =
      (toPrismaJsonItems messages).map (storedState · s) := by
  rw [plainState, toPrismaJsonValue_record, nullable_record_of_keys (by simp),
    toPrismaJsonEntries_cons _ _ _ rfl, nullable_arr]
  cases toPrismaJsonItems messages with
  | error e => rfl
  | ok items =>
    have hcontext (out : JsObject N) :
        toPrismaJsonEntries out [("context", serializeContext s.context)] =
          .ok (out.1, out.2 ++ [("context", storedContext s.context)]) := by
      rw [toPrismaJsonEntries_cons _ _ _ rfl, nullable_serializeContext]
      simp [Except.bind, toPrismaJsonEntries, putProperty]
    have hsummary (out : JsObject N) :
        toPrismaJsonEntries out [("summary", (s.summary.map .str).getD .undefined),
          ("context", serializeContext s.context)] =
          .ok (out.1,
            out.2 ++ storedSummary s.summary ++ [("context", storedContext s.context)]) := by
      cases s.summary with
      | none => exact (hcontext out).trans (by simp [storedSummary])
      | some summary =>
        rw [toPrismaJsonEntries_cons _ _ _ rfl]
        exact (hcontext _).trans (by simp [putProperty, storedSummary])
    simp only [Except.map, Except.bind, hsummary]
    simp [putProperty, storedState]

/-- The summary and the context of a stored state are read back. -/
theorem deserializeState_storedState {messages : List (JsValue N)} (s : LLMState N)
    (hplain : isPlainLLMState (storedState messages s) = true) :
    deserializeState (storedState messages s) =
      (messages.mapM deserializeMessage).map fun read =>
        { s.reloaded with messages := read } := by
  have hmessages : (storedState messages s).get "messages" = .arr messages := by
    simp [storedState, JsValue.get, lookup_cons]
  have hsummary : readOptionalString ((storedState messages s).get "summary") =
      .ok s.summary := by
    cases hs : s.summary <;>
      simp [storedState, storedSummary, hs, JsValue.get, lookup, readOptionalString]
  have hcontext : (storedState messages s).get "context" = storedContext s.context := by
    cases hs : s.summary <;>
      simp [storedState, storedSummary, hs, JsValue.get, lookup_cons]
  rw [deserializeState, if_pos hplain, hmessages, hsummary, hcontext,
    deserializeContext_storedContext]
  simp only [asItems]
  cases messages.mapM deserializeMessage <;> rfl

theorem serializeState_eq (s : LLMState N) :
    serializeState s = (s.messages.mapM serializeMessage).map (plainState · s) := by
  rw [serializeState]
  cases s.messages.mapM serializeMessage <;> rfl

/-- Message by message, storing and reading back is the reloading of each. -/
theorem reloadMessage_of_forall₂ {messages read : List (LLMMessage N)}
    {plain stored : List (JsValue N)}
    (hplain : List.Forall₂ (fun m p => serializeMessage m = .ok p) messages plain)
    (hstored : List.Forall₂ (fun p q => toPrismaJsonValueNullable p = .ok q) plain stored)
    (hread : List.Forall₂ (fun q m => deserializeMessage q = .ok m) stored read) :
    List.Forall₂ (fun m m' => reloadMessage m = .ok m') messages read := by
  induction hplain generalizing stored read with
  | nil =>
    cases hstored
    cases hread
    exact .nil
  | cons hp _ ih =>
    cases hstored with
    | cons hq hqs =>
      cases hread with
      | cons hm hms =>
        refine .cons ?_ (ih hqs hms)
        rw [reloadMessage, hp]
        simp only [Except.bind]
        rw [hq]
        exact hm

theorem keepsKeys_of_roundTrips {s : LLMState N} (hs : ∀ m ∈ s.messages, m.BuiltFromJson)
    (h : RoundTrips s) : ∀ m ∈ s.messages, keepsKeys m.toPlain = true := by
  obtain ⟨plain, stored, hplain, hstored, haccepted, hread⟩ := h
  rw [serializeState_eq] at hplain
  obtain ⟨messages, hmessages, rfl⟩ := ok_of_map hplain
  rw [toPrismaJsonValue_plainState] at hstored
  obtain ⟨items, hitems, rfl⟩ := ok_of_map hstored
  rw [deserializeState_storedState s haccepted] at hread
  obtain ⟨read, hdeserialized, hsame⟩ := ok_of_map hread
  obtain rfl : read = s.messages := congrArg LLMState.messages hsame
  rw [toPrismaJsonItems_eq_mapM] at hitems
  have hreload := reloadMessage_of_forall₂ (mapM_eq_ok_iff.mp hmessages)
    (mapM_eq_ok_iff.mp hitems) (mapM_eq_ok_iff.mp hdeserialized)
  intro m hm
  exact (reloadMessage_iff (hs m hm)).mp (List.forall₂_same.mp hreload m hm)

theorem roundTrips_of_keepsKeys {s : LLMState N} (hs : ∀ m ∈ s.messages, m.BuiltFromJson)
    (h : ∀ m ∈ s.messages, keepsKeys m.toPlain = true) : RoundTrips s := by
  have hself (m : LLMMessage N) (hm : m ∈ s.messages) :
      toPrismaJsonValueNullable m.toPlain = .ok m.toPlain :=
    toPrismaJsonValueNullable_of_keeps _ (isJsonData_toPlain (hs m hm)) (h m hm)
  let plain (m : LLMMessage N) : JsValue N := plainMessage m.kind m.toPlain
  have hmessages : s.messages.mapM serializeMessage = .ok (s.messages.map plain) := by
    rw [mapM_eq_ok_iff, List.forall₂_map_right_iff, List.forall₂_same]
    intro m hm
    rw [serializeMessage_eq (hs m hm), hself m hm]
    rfl
  have hitems : toPrismaJsonItems (s.messages.map plain) = .ok (s.messages.map plain) := by
    rw [toPrismaJsonItems_eq_mapM, mapM_eq_ok_iff, List.forall₂_same]
    intro p hp
    obtain ⟨m, hm, rfl⟩ := List.mem_map.mp hp
    rw [nullable_plainMessage m.kind (isDefined_of_data (isJsonData_toPlain (hs m hm))),
      hself m hm]
    rfl
  have haccepted : isPlainLLMState (storedState (s.messages.map plain) s) = true := by
    cases s.messages <;> rfl
  refine ⟨plainState (s.messages.map plain) s, storedState (s.messages.map plain) s, ?_, ?_,
    haccepted, ?_⟩
  · rw [serializeState_eq, hmessages]
    rfl
  · rw [toPrismaJsonValue_plainState, hitems]
    rfl
  · have hread : (s.messages.map plain).mapM deserializeMessage = .ok s.messages := by
      rw [mapM_eq_ok_iff, List.forall₂_map_left_iff, List.forall₂_same]
      exact fun m hm => deserializeMessage_toPlain (hs m hm)
    rw [deserializeState_storedState s haccepted, hread]
    rfl

/-- A state made of JSON data is stored and read back if and only if no object inside a message
has to be rebuilt, because a null is inside it, and has the key `__proto__`. -/
theorem roundTrips_iff (s : LLMState N) (hs : ∀ m ∈ s.messages, m.BuiltFromJson) :
    RoundTrips s ↔ ∀ m ∈ s.messages, keepsKeys m.toPlain = true :=
  ⟨keepsKeys_of_roundTrips hs, roundTrips_of_keepsKeys hs⟩

/-- A question and a response with one more item, an object with a null inside it. -/
def answered (item : List (String × JsValue ℕ)) : LLMState ℕ :=
  ⟨[.human (.record [("role", .str "user"), ("content", .arr [])]),
    .response [.record (("error", .null) :: item)] none], some "greeted",
    ⟨["c1"], [⟨none, .afterSystem⟩], none, some ⟨some "c0"⟩, none⟩, LLMTurnMeta.empty⟩

theorem answered_built (item : List (String × JsValue ℕ)) (h : areJsonEntries item = true) :
    ∀ m ∈ (answered item).messages, m.BuiltFromJson := by
  intro m hm
  simp only [answered, List.mem_cons, List.not_mem_nil, or_false] at hm
  rcases hm with rfl | rfl
  · exact ⟨_, rfl, rfl, rfl, rfl⟩
  · simp [LLMMessage.BuiltFromJson, areJsonData, isJsonData, areJsonEntries, h]

theorem answered_roundTrips : RoundTrips (answered [("type", .str "web_page")]) :=
  (roundTrips_iff _ (answered_built _ rfl)).mpr (by
    intro m hm
    simp only [answered, List.mem_cons, List.not_mem_nil, or_false] at hm
    rcases hm with rfl | rfl <;> rfl)

/-- The own property `__proto__` of an object with a null is lost. -/
theorem proto_not_roundTrips :
    (∀ m ∈ (answered [("__proto__", .str "web_page")]).messages, m.BuiltFromJson) ∧
      ¬ RoundTrips (answered [("__proto__", .str "web_page")]) := by
  refine ⟨answered_built _ rfl, fun h => ?_⟩
  have hkeeps := keepsKeys_of_roundTrips (answered_built _ rfl) h
    (.response [.record [("error", .null), ("__proto__", .str "web_page")]] none)
    (by simp [answered])
  revert hkeeps
  decide

end States

end Agyn.StateCodec
