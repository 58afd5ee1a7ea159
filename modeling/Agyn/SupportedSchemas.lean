import Agyn.JsonSchemaToZod

/-!
Where the conversion keeps the meaning of a schema, each direction by itself. It turns away no value
that satisfies a schema whose keywords it reads no more narrowly than they are meant: the branches
of an `allOf` that describe objects declare what the whole declares, as each of them is closed by
itself. It lets in no other value for a schema of whose keywords it leaves out none. Both are by
induction over the tree.
-/
namespace Agyn.JsonSchemaToZod

open JsonTree (lookup)
open JSONSchema (node)

/-- An enum of scalars, the only literals that zod compares. -/
structure Listed (schema : Keywords JSONSchema) (values : List JsonValue) : Prop where
  enum : schema.enum = some values
  nonempty : values ≠ []
  scalar : ∀ x ∈ values, x.isScalar = true

def Defaults (schema : Keywords JSONSchema) : Prop :=
  schema.type = .absent ∨ "null" ∈ schema.type.names

/-- The conversion of the node reads no keyword more narrowly than it is meant. -/
structure AddsNothing (schema : Keywords JSONSchema) : Prop where
  enum : schema.enum.getD [] = []
  properties : Defaults schema → schema.properties = none
  items : "array" ∈ schema.type.names → ∀ items, schema.items ≠ .tuple items
  proto : "object" ∈ schema.type.names → ∀ e ∈ schema.declared, e.1 ≠ "__proto__"
  own : "object" ∈ schema.type.names →
    ∀ name ∈ (node schema).meaning.declares, name ∈ schema.declared.map Prod.fst
  branches : ∀ b ∈ schema.branches, b.meaning.describesObjects →
    ∀ name ∈ (node schema).meaning.declares, name ∈ b.meaning.declares

inductive NothingAdded : JSONSchema → Prop where
  | listed {schema : Keywords JSONSchema} {values : List JsonValue} (h : Listed schema values)
    (null : schema.nullable = true → .null ∈ values) : NothingAdded (node schema)
  | read {schema : Keywords JSONSchema} (h : AddsNothing schema)
    (properties : "object" ∈ schema.type.names → ∀ e ∈ schema.declared, NothingAdded e.2)
    (items : "array" ∈ schema.type.names → ∀ s ∈ schema.items.parts, NothingAdded s)
    (alternatives : Defaults schema → ∀ alts, schema.alternatives = some alts →
      ∀ s ∈ alts, NothingAdded s)
    (branches : ∀ s ∈ schema.branches, NothingAdded s) : NothingAdded (node schema)

/-- Without a type nothing is read but branches and alternatives of one kind. -/
structure Untyped (schema : Keywords JSONSchema) : Prop where
  enum : schema.enum = none
  type : schema.type = .absent
  properties : schema.properties = none
  needed : schema.needed = []
  items : schema.items = .absent
  alternatives : schema.anyOf = none ∨ schema.oneOf = none

/-- The types are told apart, and no alternatives are next to them. -/
structure Typed (schema : Keywords JSONSchema) : Prop where
  enum : schema.enum = none
  given : schema.type.names ≠ []
  names : ∀ name ∈ schema.type.names, name ∈ ["string", "number", "boolean", "array", "object"]
  alternatives : schema.anyOf = none ∧ schema.oneOf = none
  needed : "object" ∈ schema.type.names → ∀ name ∈ schema.needed,
    ∃ s, lookup schema.declared name = some s ∧ fallsBack s = false
  proto : "object" ∈ schema.type.names → ∀ e ∈ schema.declared, e.1 ≠ "__proto__"

inductive NothingLost : JSONSchema → Prop where
  | listed {schema : Keywords JSONSchema} {values : List JsonValue} (h : Listed schema values)
    (rest : ∀ x ∈ values, (node schema.withoutEnum).Satisfies x) : NothingLost (node schema)
  | untyped {schema : Keywords JSONSchema} (h : Untyped schema)
    (alternatives : ∀ alts, schema.alternatives = some alts → ∀ s ∈ alts, NothingLost s)
    (branches : ∀ s ∈ schema.branches, NothingLost s) : NothingLost (node schema)
  | typed {schema : Keywords JSONSchema} (h : Typed schema)
    (properties : "object" ∈ schema.type.names → ∀ e ∈ schema.declared, NothingLost e.2)
    (items : "array" ∈ schema.type.names → ∀ s ∈ schema.items.parts, NothingLost s)
    (branches : ∀ s ∈ schema.branches, NothingLost s) : NothingLost (node schema)
  | propertied {schema : Keywords JSONSchema} (type : schema.type = .absent)
    (properties : schema.properties ≠ none)
    (object : NothingLost (node (withType schema "object"))) : NothingLost (node schema)

variable {Z : Type} {z : Zod Z} {schema : Keywords JSONSchema} {v : JsonValue}

theorem Listed.accepts_iff {values : List JsonValue} (h : Listed schema values)
    (hz : z.Documented) (v : Option JsonValue) :
    z.accepts (convert z (node schema)) v ↔ ∃ x ∈ values, v = some x := by
  have hnode : convert z (node schema) = enumOf z values := by
    rw [convert_node, convertNode, Keywords.enum_map, h.enum]
    cases values with
    | nil => exact absurd rfl h.nonempty
    | cons x xs => rfl
  rw [hnode, hz.accepts_enumOf h.scalar]

theorem declared_keys_map {Y : Type} (f : JSONSchema → Y) (schema : Keywords JSONSchema) :
    (schema.map f).declared.map Prod.fst = schema.declared.map Prod.fst := by
  simp [Function.comp_def]

theorem proto_map {Y : Type} (f : JSONSchema → Y) (h : ∀ e ∈ schema.declared, e.1 ≠ "__proto__") :
    ∀ e ∈ (schema.map f).declared, e.1 ≠ "__proto__" := by
  rw [Keywords.declared_map, List.forall_mem_map]
  exact h

/-- No value has the empty type, the one name that is not read as a type. -/
theorem mem_typesOf {type : TypeKeyword} {name : String} (hname : name ∈ type.names)
    (htype : v.hasType name = true) : name ∈ typesOf type := by
  cases type with
  | absent => exact hname
  | many names => exact hname
  | one t =>
    obtain rfl := List.mem_singleton.mp hname
    have hne : name ≠ "" := by
      rintro rfl
      cases v <;> simp [JsonValue.hasType] at htype
    rw [typesOf, if_neg hne]
    exact hname

def Complete (z : Zod Z) (s : JSONSchema) : Prop :=
  ∀ v, s.Satisfies v → z.accepts (convert z s) (some v)

theorem Listed.complete {values : List JsonValue} (h : Listed schema values) (hz : z.Documented)
    (hnull : schema.nullable = true → .null ∈ values) : Complete z (node schema) := by
  intro v hv
  rw [h.accepts_iff hz]
  refine ⟨v, ?_, rfl⟩
  obtain ⟨hnullable, rfl⟩ | ⟨hadmitted, -⟩ := JSONSchema.satisfies_node.mp hv
  · exact hnull hnullable
  · exact hadmitted.enum values h.enum

namespace AddsNothing

theorem accepts_object (h : AddsNothing schema) (hz : z.Documented)
    (hobject : "object" ∈ schema.type.names) {entries : List (String × JsonValue)}
    (hadmitted : Meaning.Admitted (schema.map JSONSchema.meaning) (.obj entries))
    (hcloses : (node schema).meaning.closes (.obj entries))
    (hprops : ∀ e ∈ schema.declared, Complete z e.2) :
    z.accepts (baseOf z (schema.map (convert z)) (some "object")) (some (.obj entries)) := by
  refine (hz.accepts_objectOf (proto_map _ (h.proto hobject))).mpr ⟨entries, rfl, ?_, ?_⟩
  · intro e he
    rw [declared_keys_map]
    exact h.own hobject _
      (hcloses (JSONSchema.describesObjects_node.mpr (.inl hobject)) entries rfl e he)
  · intro name a ha
    rw [Keywords.lookup_declared_map] at ha
    obtain ⟨s, hs, rfl⟩ := Option.map_eq_some_iff.mp ha
    refine ⟨fun x hx => ?_, fun hname hnone => ?_⟩
    · refine hprops _ (JsonTree.mem_of_lookup_eq_some hs) x ?_
      exact hadmitted.properties entries rfl name x s.meaning hx
        (by rw [Keywords.lookup_declared_map, hs]; rfl)
    · exact absurd (hadmitted.required entries rfl name hname) hnone

theorem accepts_array (h : AddsNothing schema) (hz : z.Documented)
    (harray : "array" ∈ schema.type.names) {values : List JsonValue}
    (hadmitted : Meaning.Admitted (schema.map JSONSchema.meaning) (.arr values))
    (hitems : ∀ s ∈ schema.items.parts, Complete z s) :
    z.accepts (baseOf z (schema.map (convert z)) (some "array")) (some (.arr values)) := by
  have hall := hadmitted.items values rfl
  change Meaning.itemsHold (schema.items.map JSONSchema.meaning) values at hall
  cases heq : schema.items with
  | absent =>
    have hmap : (schema.map (convert z)).items = .absent :=
      congrArg (ItemsKeyword.map (convert z)) heq
    rw [baseOf_absent z hmap]
    simp [hz.array, hz.any]
  | each s =>
    rw [heq] at hall
    have hs : Complete z s := hitems s (by simp [heq, ItemsKeyword.parts])
    have hmap : (schema.map (convert z)).items = .each (convert z s) :=
      congrArg (ItemsKeyword.map (convert z)) heq
    rw [baseOf_each z hmap]
    exact (hz.array _ _).mpr ⟨values, rfl, fun x hx => hs x (hall x hx)⟩
  | tuple items => exact absurd heq (h.items harray items)

theorem accepts_untyped (h : AddsNothing schema) (hz : z.Documented) (hdefault : Defaults schema)
    (hadmitted : Meaning.Admitted (schema.map JSONSchema.meaning) v)
    (halts : ∀ alts, schema.alternatives = some alts → ∀ s ∈ alts, Complete z s) :
    z.accepts (untypedBase z (schema.map (convert z))) (some v) := by
  rw [hz.accepts_untypedBase ((schema.properties_map_eq_none _).mpr (h.properties hdefault)),
    Keywords.alternatives_map]
  intro _ heq
  obtain ⟨alts, halt, rfl⟩ := Option.map_eq_some_iff.mp heq
  have hsome : ∃ m ∈ alts.map JSONSchema.meaning, m.holds v := by
    obtain hany | ⟨-, hone⟩ := Option.or_eq_some_iff.mp halt
    · exact hadmitted.anyOf _ (by simp [Keywords.map, hany])
    · exact hadmitted.oneOf _ (by simp [Keywords.map, hone])
  obtain ⟨_, hm, hholds⟩ := hsome
  obtain ⟨s, hs, rfl⟩ := List.mem_map.mp hm
  exact ⟨_, List.mem_map_of_mem hs, halts alts halt s hs v hholds⟩

/-- The value has one of the types, and the base for that one accepts it. -/
theorem exists_accepts_base (h : AddsNothing schema) (hz : z.Documented)
    (hadmitted : Meaning.Admitted (schema.map JSONSchema.meaning) v)
    (hcloses : (node schema).meaning.closes v)
    (hprops : "object" ∈ schema.type.names → ∀ e ∈ schema.declared, Complete z e.2)
    (hitems : "array" ∈ schema.type.names → ∀ s ∈ schema.items.parts, Complete z s)
    (halts : Defaults schema → ∀ alts, schema.alternatives = some alts →
      ∀ s ∈ alts, Complete z s) :
    ∃ t ∈ if typesOf schema.type = [] then [none] else (typesOf schema.type).map some,
      z.accepts (baseOf z (schema.map (convert z)) t) (some v) := by
  obtain habsent | ⟨name, hname, htype⟩ := hadmitted.type
  · change schema.type = .absent at habsent
    refine ⟨none, by simp [habsent, typesOf], ?_⟩
    exact h.accepts_untyped hz (.inl habsent) hadmitted (halts (.inl habsent))
  · change name ∈ schema.type.names at hname
    have hmem := mem_typesOf hname htype
    refine ⟨some name, ?_, ?_⟩
    · rw [if_neg (List.ne_nil_of_mem hmem)]
      exact List.mem_map_of_mem hmem
    cases v with
    | null =>
      obtain rfl := beq_iff_eq.mp htype
      rw [baseOf_of_notMem (by decide)]
      exact h.accepts_untyped hz (.inr hname) hadmitted (halts (.inr hname))
    | bool b =>
      obtain rfl := beq_iff_eq.mp htype
      exact (hz.boolean _).mpr ⟨b, rfl⟩
    | num q =>
      have hread : baseOf z (schema.map (convert z)) (some name) = z.number := by
        simp only [JsonValue.hasType, Bool.or_eq_true, Bool.and_eq_true, beq_iff_eq] at htype
        obtain rfl | ⟨rfl, -⟩ := htype <;> rfl
      rw [hread]
      exact (hz.number _).mpr ⟨q, rfl⟩
    | str s =>
      obtain rfl := beq_iff_eq.mp htype
      exact (hz.string _).mpr ⟨s, rfl⟩
    | arr values =>
      obtain rfl := beq_iff_eq.mp htype
      exact h.accepts_array hz hname hadmitted (hitems hname)
    | obj entries =>
      obtain rfl := beq_iff_eq.mp htype
      exact h.accepts_object hz hname hadmitted hcloses (hprops hname)

theorem complete (h : AddsNothing schema) (hz : z.Documented)
    (hprops : "object" ∈ schema.type.names → ∀ e ∈ schema.declared, Complete z e.2)
    (hitems : "array" ∈ schema.type.names → ∀ s ∈ schema.items.parts, Complete z s)
    (halts : Defaults schema → ∀ alts, schema.alternatives = some alts → ∀ s ∈ alts, Complete z s)
    (hbranches : ∀ b ∈ schema.branches, Complete z b) : Complete z (node schema) := by
  intro v hv
  rw [convert_node, hz.accepts_convertNode h.enum]
  refine (JSONSchema.satisfies_node.mp hv).imp ?_ ?_
  · rintro ⟨hnull, rfl⟩
    exact ⟨hnull, rfl⟩
  · rintro ⟨hadmitted, hcloses⟩
    refine ⟨h.exists_accepts_base hz hadmitted hcloses hprops hitems halts, ?_⟩
    rw [Keywords.branches_map, List.forall_mem_map]
    refine fun b hb => hbranches b hb v ⟨?_, fun hdescribes entries heq e he => ?_⟩
    · refine hadmitted.allOf _ ?_
      rw [Keywords.branches_map]
      exact List.mem_map_of_mem hb
    · refine h.branches b hb hdescribes _ (hcloses ?_ entries heq e he)
      exact JSONSchema.describesObjects_node.mpr (.inr (.inr ⟨b, hb, hdescribes⟩))

end AddsNothing

theorem complete_of_nothingAdded (hz : z.Documented) {s : JSONSchema} (h : NothingAdded s) :
    Complete z s := by
  induction h with
  | listed h hnull => exact h.complete hz hnull
  | read h _ _ _ _ hprops hitems halts hbranches =>
    exact h.complete hz hprops hitems halts hbranches

/-- What is accepted satisfies the schema, and `undefined` is only if the schema falls back. -/
structure Sound (z : Zod Z) (s : JSONSchema) : Prop where
  value (v : JsonValue) : z.accepts (convert z s) (some v) → s.Satisfies v
  fallsBack : z.accepts (convert z s) none → fallsBack s = true

theorem Listed.sound {values : List JsonValue} (h : Listed schema values) (hz : z.Documented)
    (hrest : ∀ x ∈ values, (node schema.withoutEnum).Satisfies x) : Sound z (node schema) where
  value v haccepts := by
    obtain ⟨_, hv, heq⟩ := (h.accepts_iff hz _).mp haccepts
    obtain rfl := Option.some.inj heq
    rw [JSONSchema.satisfies_node]
    refine (JSONSchema.satisfies_node.mp (hrest v hv)).imp_right fun hrest => ?_
    have henum : ∀ values', schema.enum = some values' → v ∈ values' := fun values' heq =>
      Option.some.inj (h.enum.symm.trans heq) ▸ hv
    obtain ⟨⟨htype, -, hreq, hprops, hitems, hany, hone, hall⟩, hcloses⟩ := hrest
    refine ⟨⟨htype, henum, hreq, hprops, hitems, hany, hone, hall⟩, ?_⟩
    rw [JSONSchema.meaning_node] at hcloses ⊢
    exact hcloses
  fallsBack haccepts := by
    obtain ⟨x, -, heq⟩ := (h.accepts_iff hz none).mp haccepts
    cases heq

/-- A node whose branches are all closed is closed over what all of them declare. -/
theorem closes_node
    (hown : (node schema).meaning.describesObjects → (∃ b ∈ schema.branches,
        b.meaning.describesObjects) ∨ ∀ entries, v = .obj entries →
        ∀ e ∈ entries, e.1 ∈ schema.declared.map Prod.fst)
    (hbranches : ∀ b ∈ schema.branches, b.meaning.closes v) : (node schema).meaning.closes v := by
  intro hdescribes entries hv e he
  rw [JSONSchema.declares_node, List.mem_append, List.mem_flatMap]
  obtain ⟨b, hb, hb'⟩ | hown := hown hdescribes
  · exact .inr ⟨b, hb, hbranches b hb hb' entries hv e he⟩
  · exact .inl (hown entries hv e he)

theorem Untyped.accepts_iff (h : Untyped schema) (hz : z.Documented) (v : Option JsonValue) :
    z.accepts (convert z (node schema)) v ↔ schema.nullable = true ∧ v = some .null ∨
      (∀ alts, schema.alternatives = some alts → ∃ s ∈ alts, z.accepts (convert z s) v) ∧
        ∀ b ∈ schema.branches, z.accepts (convert z b) v := by
  have hbase : z.accepts (untypedBase z (schema.map (convert z))) v ↔
      ∀ alts, schema.alternatives = some alts → ∃ s ∈ alts, z.accepts (convert z s) v := by
    rw [hz.accepts_untypedBase ((schema.properties_map_eq_none _).mpr h.properties),
      Keywords.alternatives_map]
    cases schema.alternatives <;> simp
  rw [convert_node, hz.accepts_convertNode (by simp [h.enum]), ← hbase, Keywords.branches_map,
    List.forall_mem_map]
  simp only [Keywords.type_map, Keywords.nullable_map, h.type, typesOf, if_true,
    List.mem_singleton, exists_eq_left]
  rfl

theorem Untyped.sound (h : Untyped schema) (hz : z.Documented)
    (halts : ∀ alts, schema.alternatives = some alts → ∀ s ∈ alts, Sound z s)
    (hbranches : ∀ b ∈ schema.branches, Sound z b) : Sound z (node schema) where
  value v haccepts := by
    rw [JSONSchema.satisfies_node]
    refine ((h.accepts_iff hz _).mp haccepts).imp ?_ ?_
    · rintro ⟨hnull, heq⟩
      exact ⟨hnull, Option.some.inj heq⟩
    rintro ⟨hsome, hall⟩
    have hbranch : ∀ b ∈ schema.branches, b.Satisfies v := fun b hb =>
      (hbranches b hb).value v (hall b hb)
    have hparts (keyword : Option (List JSONSchema))
        (hread : ∀ alts, keyword = some alts → schema.alternatives = some alts)
        (ms : List Meaning) (heq : keyword.map (List.map JSONSchema.meaning) = some ms) :
        ∃ m ∈ ms, m.holds v := by
      obtain ⟨alts, halt, rfl⟩ := Option.map_eq_some_iff.mp heq
      obtain ⟨s, hs, haccepts⟩ := hsome alts (hread alts halt)
      exact ⟨_, List.mem_map_of_mem hs, (halts alts (hread alts halt) s hs).value v haccepts⟩
    refine ⟨⟨.inl h.type, by simp [h.enum], ?_, ?_, ?_, ?_, ?_, ?_⟩, ?_⟩
    · simp [h.needed]
    · simp [Keywords.declared, h.properties, lookup]
    · intro values _
      rw [show (schema.map JSONSchema.meaning).items = .absent by
        simp [Keywords.map, h.items, ItemsKeyword.map]]
      trivial
    · refine hparts _ fun alts heq => ?_
      simp [Keywords.alternatives, heq]
    · refine hparts _ fun alts heq => ?_
      have hany : schema.anyOf = none := h.alternatives.resolve_right (by simp [heq])
      simp [Keywords.alternatives, hany, heq]
    · rw [Keywords.branches_map, List.forall_mem_map]
      exact fun b hb => (hbranch b hb).1
    · refine closes_node (fun hdescribes => .inl ?_) fun b hb => (hbranch b hb).2
      simpa [JSONSchema.describesObjects_node, h.type, h.properties, TypeKeyword.names]
        using hdescribes
  fallsBack haccepts := by
    obtain ⟨-, hnull⟩ | ⟨hsome, hall⟩ := (h.accepts_iff hz none).mp haccepts
    · cases hnull
    rw [fallsBack_node]
    refine ⟨by simp [h.enum], .inl (by simp [h.type, typesOf]), h.properties, ?_, ?_⟩
    · intro alts heq
      obtain ⟨s, hs, haccepted⟩ := hsome alts heq
      exact ⟨s, hs, (halts alts heq s hs).fallsBack haccepted⟩
    · exact fun b hb => (hbranches b hb).fallsBack (hall b hb)

/-- What the node itself says of an object, if it is closed over its own properties. -/
structure OwnObject (schema : Keywords JSONSchema) (entries : List (String × JsonValue)) :
    Prop where
  closed : ∀ e ∈ entries, e.1 ∈ schema.declared.map Prod.fst
  needed : ∀ name ∈ schema.needed, name ∈ entries.map Prod.fst
  properties : ∀ name x s, lookup entries name = some x → lookup schema.declared name = some s →
    s.Satisfies x

namespace Typed

theorem typesOf_eq (h : Typed schema) : typesOf schema.type = schema.type.names := by
  cases htype : schema.type with
  | one name =>
    have hname := h.names name (by simp [htype, TypeKeyword.names])
    refine if_neg fun heq => ?_
    simp [heq] at hname
  | _ => rfl

theorem accepts_iff (h : Typed schema) (hz : z.Documented) (v : Option JsonValue) :
    z.accepts (convert z (node schema)) v ↔ schema.nullable = true ∧ v = some .null ∨
      (∃ name ∈ schema.type.names,
        z.accepts (baseOf z (schema.map (convert z)) (some name)) v) ∧
        ∀ b ∈ schema.branches, z.accepts (convert z b) v := by
  rw [convert_node, hz.accepts_convertNode (by simp [h.enum]), Keywords.type_map, h.typesOf_eq,
    if_neg h.given, Keywords.branches_map, List.forall_mem_map]
  simp only [List.mem_map, exists_exists_and_eq_and]
  rfl

theorem object_sound (h : Typed schema) (hz : z.Documented)
    (hobject : "object" ∈ schema.type.names) (hprops : ∀ e ∈ schema.declared, Sound z e.2)
    {u : Option JsonValue}
    (haccepts : z.accepts (baseOf z (schema.map (convert z)) (some "object")) u) :
    ∃ entries, u = some (.obj entries) ∧ OwnObject schema entries := by
  obtain ⟨entries, rfl, hclosed, hall⟩ :=
    (hz.accepts_objectOf (proto_map _ (h.proto hobject))).mp haccepts
  rw [declared_keys_map] at hclosed
  have hlookup {name : String} {s : JSONSchema} (hs : lookup schema.declared name = some s) :
      lookup (schema.map (convert z)).declared name = some (convert z s) := by
    rw [Keywords.lookup_declared_map, hs]
    rfl
  have hsound {name : String} {s : JSONSchema} (hs : lookup schema.declared name = some s) :
      Sound z s := hprops _ (JsonTree.mem_of_lookup_eq_some hs)
  refine ⟨entries, rfl, hclosed, fun name hname => ?_, fun name x s hx hs => ?_⟩
  · obtain ⟨s, hs, hback⟩ := h.needed hobject name hname
    by_contra hnone
    have hundefined := (hall name _ (hlookup hs)).2 hname hnone
    rw [(hsound hs).fallsBack hundefined] at hback
    cases hback
  · exact (hsound hs).value x ((hall name _ (hlookup hs)).1 x hx)

theorem array_sound (hz : z.Documented) (hitems : ∀ s ∈ schema.items.parts, Sound z s)
    {u : Option JsonValue}
    (haccepts : z.accepts (baseOf z (schema.map (convert z)) (some "array")) u) :
    ∃ values, u = some (.arr values) ∧
      Meaning.itemsHold (schema.items.map JSONSchema.meaning) values := by
  cases heq : schema.items with
  | absent =>
    have hmap : (schema.map (convert z)).items = .absent :=
      congrArg (ItemsKeyword.map (convert z)) heq
    rw [baseOf_absent z hmap] at haccepts
    obtain ⟨values, rfl, -⟩ := (hz.array _ _).mp haccepts
    exact ⟨values, rfl, trivial⟩
  | each s =>
    have hmap : (schema.map (convert z)).items = .each (convert z s) :=
      congrArg (ItemsKeyword.map (convert z)) heq
    rw [baseOf_each z hmap] at haccepts
    obtain ⟨values, rfl, hall⟩ := (hz.array _ _).mp haccepts
    have hs : Sound z s := hitems s (by simp [heq, ItemsKeyword.parts])
    exact ⟨values, rfl, fun x hx => hs.value x (hall x hx)⟩
  | tuple items =>
    have hmap : (schema.map (convert z)).items = .tuple (items.map (convert z)) :=
      congrArg (ItemsKeyword.map (convert z)) heq
    rw [baseOf_tuple z hmap] at haccepts
    obtain ⟨values, rfl, hall⟩ := (hz.tuple _ _).mp haccepts
    rw [List.forall₂_map_left_iff, List.forall₂_iff_zip] at hall
    refine ⟨values, rfl, ?_⟩
    change ∀ e ∈ (items.map JSONSchema.meaning).zip values, e.1.holds e.2
    rw [List.zip_map_left, List.forall_mem_map]
    intro e he
    have hs : Sound z e.1 := hitems e.1 (by simpa [heq, ItemsKeyword.parts] using
      (List.of_mem_zip he).1)
    exact hs.value e.2 (hall.2 he)

/-- A value has one of the types at most, so that only what is said for that one counts. -/
theorem base_sound (h : Typed schema) (hz : z.Documented) {name : String}
    (hname : name ∈ schema.type.names)
    (hprops : "object" ∈ schema.type.names → ∀ e ∈ schema.declared, Sound z e.2)
    (hitems : "array" ∈ schema.type.names → ∀ s ∈ schema.items.parts, Sound z s)
    {u : Option JsonValue}
    (haccepts : z.accepts (baseOf z (schema.map (convert z)) (some name)) u) :
    ∃ v, u = some v ∧ v.hasType name = true ∧
      (∀ entries, v = .obj entries → OwnObject schema entries) ∧
      ∀ values, v = .arr values →
        Meaning.itemsHold (schema.items.map JSONSchema.meaning) values := by
  have hmem := h.names name hname
  simp only [List.mem_cons, List.not_mem_nil, or_false] at hmem
  rcases hmem with rfl | rfl | rfl | rfl | rfl
  · obtain ⟨s, rfl⟩ := (hz.string u).mp haccepts
    exact ⟨_, rfl, rfl, by simp, by simp⟩
  · obtain ⟨q, rfl⟩ := (hz.number u).mp haccepts
    exact ⟨_, rfl, rfl, by simp, by simp⟩
  · obtain ⟨b, rfl⟩ := (hz.boolean u).mp haccepts
    exact ⟨_, rfl, rfl, by simp, by simp⟩
  · obtain ⟨values, rfl, hall⟩ := array_sound hz (hitems hname) haccepts
    exact ⟨_, rfl, rfl, by simp, by rintro _ ⟨⟩; exact hall⟩
  · obtain ⟨entries, rfl, hown⟩ := h.object_sound hz hname (hprops hname) haccepts
    exact ⟨_, rfl, rfl, by rintro _ ⟨⟩; exact hown, by simp⟩

theorem sound (h : Typed schema) (hz : z.Documented)
    (hprops : "object" ∈ schema.type.names → ∀ e ∈ schema.declared, Sound z e.2)
    (hitems : "array" ∈ schema.type.names → ∀ s ∈ schema.items.parts, Sound z s)
    (hbranches : ∀ b ∈ schema.branches, Sound z b) : Sound z (node schema) where
  value v haccepts := by
    rw [JSONSchema.satisfies_node]
    refine ((h.accepts_iff hz _).mp haccepts).imp ?_ ?_
    · rintro ⟨hnull, heq⟩
      exact ⟨hnull, Option.some.inj heq⟩
    rintro ⟨⟨name, hname, hbase⟩, hall⟩
    have hbranch : ∀ b ∈ schema.branches, b.Satisfies v := fun b hb =>
      (hbranches b hb).value v (hall b hb)
    obtain ⟨_, heq, htype, hown, hvalues⟩ := h.base_sound hz hname hprops hitems hbase
    obtain rfl := Option.some.inj heq
    refine ⟨⟨.inr ⟨name, hname, htype⟩, ?_, ?_, ?_, hvalues, ?_, ?_, ?_⟩, ?_⟩
    · simp [h.enum]
    · exact fun entries hv => (hown entries hv).needed
    · intro entries hv key x m hx hm
      rw [Keywords.lookup_declared_map] at hm
      obtain ⟨s, hs, rfl⟩ := Option.map_eq_some_iff.mp hm
      exact (hown entries hv).properties key x s hx hs
    · simp [Keywords.map, h.alternatives.1]
    · simp [Keywords.map, h.alternatives.2]
    · rw [Keywords.branches_map, List.forall_mem_map]
      exact fun b hb => (hbranch b hb).1
    · exact closes_node (fun _ => .inr fun entries hv => (hown entries hv).closed)
        fun b hb => (hbranch b hb).2
  fallsBack haccepts := by
    obtain ⟨-, hnull⟩ | ⟨⟨name, hname, hbase⟩, -⟩ := (h.accepts_iff hz none).mp haccepts
    · cases hnull
    · obtain ⟨v, hnone, -⟩ := h.base_sound hz hname hprops hitems hbase
      cases hnone

end Typed

/-- Properties without a type are converted as those of an object are. -/
theorem convertNode_withType (schema : Keywords Z) (htype : schema.type = .absent)
    (hprops : schema.properties ≠ none) :
    convertNode z (withType schema "object") = convertNode z schema := by
  obtain ⟨_, properties, required, items, enum, anyOf, oneOf, allOf, nullable⟩ := schema
  obtain rfl : _ = TypeKeyword.absent := htype
  cases properties with
  | none => exact absurd rfl hprops
  | some properties =>
    match enum with
    | none => rfl
    | some [] => rfl
    | some (x :: xs) => rfl

theorem propertied_sound (htype : schema.type = .absent) (hprops : schema.properties ≠ none)
    (h : Sound z (node (withType schema "object"))) : Sound z (node schema) := by
  have heq : convert z (node (withType schema "object")) = convert z (node schema) := by
    rw [convert_node, convert_node]
    exact convertNode_withType (schema.map (convert z)) htype
      (mt (schema.properties_map_eq_none _).mp hprops)
  constructor
  · intro v haccepts
    rw [← heq] at haccepts
    have hsatisfies := JSONSchema.satisfies_node.mp (h.value v haccepts)
    refine JSONSchema.satisfies_node.mpr (hsatisfies.imp_right ?_)
    rintro ⟨hadmitted, hcloses⟩
    refine ⟨{ hadmitted with type := .inl htype }, fun _ => ?_⟩
    have hdescribes : (node (withType schema "object")).meaning.describesObjects :=
      JSONSchema.describesObjects_node.mpr (.inr (.inl hprops))
    intro entries hv e he
    have hmem := hcloses hdescribes entries hv e he
    rw [JSONSchema.declares_node] at hmem ⊢
    exact hmem
  · intro haccepts
    rw [← heq] at haccepts
    obtain ⟨-, htypes, -⟩ := (fallsBack_node _).mp (h.fallsBack haccepts)
    simp [withType, typesOf, readTypes] at htypes

theorem sound_of_nothingLost (hz : z.Documented) {s : JSONSchema} (h : NothingLost s) :
    Sound z s := by
  induction h with
  | listed h hrest => exact h.sound hz hrest
  | untyped h _ _ halts hbranches => exact h.sound hz halts hbranches
  | typed h _ _ _ hprops hitems hbranches => exact h.sound hz hprops hitems hbranches
  | propertied htype hprops _ ih => exact propertied_sound htype hprops ih

/-- **The conversion accepts what satisfies the schema**, no value being turned away for the one
reason and none let in for the other. -/
theorem keeps_meaning (hz : z.Documented) (s : JSONSchema) :
    (NothingAdded s → ∀ v, s.Satisfies v → z.accepts (jsonSchemaToZod z (some s)) (some v)) ∧
      (NothingLost s → ∀ v, z.accepts (jsonSchemaToZod z (some s)) (some v) → s.Satisfies v) ∧
      (fallsBack s = true → ∀ v, z.accepts (jsonSchemaToZod z (some s)) (some v)) :=
  ⟨complete_of_nothingAdded hz, fun h => (sound_of_nothingLost hz h).value,
    fun h v => accepts_of_fallsBack hz s h (some v)⟩

/-- Without branches the node is closed over its own properties. -/
theorem mem_declared_of_mem_declares (hbranches : schema.allOf = none) :
    ∀ name ∈ (node schema).meaning.declares, name ∈ schema.declared.map Prod.fst := by
  rw [JSONSchema.declares_node]
  simp [Keywords.branches, hbranches]

def orderSchema : Keywords JSONSchema where
  type := .one "string"
  enum := some [.str "asc", .str "desc"]

def tagSchema : Keywords JSONSchema where
  type := .one "string"
  nullable := true

def searchSchema : Keywords JSONSchema where
  type := .one "object"
  properties := some [("order", node orderSchema), ("tag", node tagSchema)]
  required := some ["order"]

theorem listed_order : Listed orderSchema [.str "asc", .str "desc"] :=
  ⟨rfl, by simp, by simp [JsonValue.isScalar]⟩

theorem nothingAdded_search : NothingAdded (node searchSchema) := by
  have htag : NothingAdded (node tagSchema) := by
    refine .read ⟨rfl, fun _ => rfl, ?_, ?_, ?_, ?_⟩ ?_ ?_ ?_ ?_
    case refine_3 => exact fun _ => mem_declared_of_mem_declares rfl
    all_goals simp [tagSchema, TypeKeyword.names, Keywords.branches, Keywords.alternatives]
  have horder : NothingAdded (node orderSchema) := .listed listed_order nofun
  refine .read ⟨rfl, ?_, ?_, ?_, ?_, ?_⟩ ?_ ?_ ?_ ?_
  case refine_4 => exact fun _ => mem_declared_of_mem_declares rfl
  case refine_6 => simp [searchSchema, Keywords.declared, htag, horder]
  all_goals simp [searchSchema, TypeKeyword.names, Keywords.declared, Keywords.branches,
    Keywords.alternatives, Defaults]

theorem satisfies_string (s : String) : (node { type := .one "string" }).Satisfies (.str s) := by
  refine JSONSchema.satisfies_node.mpr
    (.inr ⟨⟨.inr ⟨"string", ?_, rfl⟩, ?_, ?_, ?_, ?_, ?_, ?_, ?_⟩, ?_⟩)
  all_goals simp [Keywords.map, TypeKeyword.names, Keywords.branches, Meaning.closes]

theorem nothingLost_search : NothingLost (node searchSchema) := by
  have htag : NothingLost (node tagSchema) := by
    refine .typed ⟨rfl, ?_, ?_, ⟨rfl, rfl⟩, ?_, ?_⟩ ?_ ?_ ?_
    all_goals simp [tagSchema, TypeKeyword.names, Keywords.branches]
  have horder : NothingLost (node orderSchema) := .listed listed_order <| by
    simp only [List.forall_mem_cons, List.not_mem_nil, false_imp_iff, implies_true, and_true]
    exact ⟨satisfies_string "asc", satisfies_string "desc"⟩
  refine .typed ⟨rfl, ?_, ?_, ⟨rfl, rfl⟩, ?_, ?_⟩ ?_ ?_ ?_
  case refine_3 =>
    rintro - name hname
    obtain rfl := List.mem_singleton.mp hname
    exact ⟨node orderSchema, rfl, rfl⟩
  case refine_5 => simp [searchSchema, Keywords.declared, htag, horder]
  all_goals simp [searchSchema, TypeKeyword.names, Keywords.declared, Keywords.branches]

theorem keeps_meaning_search :
    (∀ v, checks.accepts (jsonSchemaToZod checks (some (node searchSchema))) (some v) ↔
      (node searchSchema).Satisfies v) ∧
    ∀ v, checks.accepts (jsonSchemaToZod checks (some (node { type := .one "date" }))) (some v) :=
  ⟨fun v => ⟨(keeps_meaning checks_documented _).2.1 nothingLost_search v,
    (keeps_meaning checks_documented _).1 nothingAdded_search v⟩,
    (keeps_meaning checks_documented (node { type := .one "date" })).2.2 rfl⟩

def recordOf (name : String) : JSONSchema :=
  node { type := .one "object", properties := some [(name, node { type := .one "string" })] }

def apart : JSONSchema := node { allOf := some [recordOf "order", recordOf "tag"] }

def stringOrNull : JSONSchema := node { type := .many ["string", "null"] }

theorem recordOf_admits (name : String) (s : String) :
    (recordOf name).meaning.admits (.obj [("order", .str s)]) := by
  rw [recordOf, JSONSchema.meaning_node]
  refine .inr ⟨.inr ⟨"object", ?_, rfl⟩, ?_, ?_, ?_, ?_, ?_, ?_, ?_⟩
  case refine_4 =>
    rintro _ ⟨⟩ key x m hx hm
    obtain ⟨-, rfl⟩ := Prod.mk.inj (List.mem_singleton.mp (JsonTree.mem_of_lookup_eq_some hx))
    obtain ⟨-, rfl⟩ := Prod.mk.inj (List.mem_singleton.mp (JsonTree.mem_of_lookup_eq_some hm))
    exact satisfies_string s
  all_goals simp [Keywords.map, TypeKeyword.names, Keywords.branches, Keywords.needed]

theorem meaning_not_kept :
    (checks.accepts (jsonSchemaToZod checks (some stringOrNull)) (some (.bool true)) ∧
      ¬stringOrNull.Satisfies (.bool true)) ∧
    ¬checks.accepts (jsonSchemaToZod checks (some apart)) (some (.obj [("order", .str "asc")])) ∧
      apart.Satisfies (.obj [("order", .str "asc")]) := by
  refine ⟨⟨rfl, fun h => ?_⟩, nofun, ?_⟩
  · obtain ⟨hnull, -⟩ | ⟨hadmitted, -⟩ := JSONSchema.satisfies_node.mp h
    · cases hnull
    · have htype := hadmitted.type
      simp [Keywords.map, TypeKeyword.names, JsonValue.hasType] at htype
  · refine JSONSchema.satisfies_node.mpr (.inr ⟨⟨.inl rfl, ?_, ?_, ?_, ?_, ?_, ?_, ?_⟩, ?_⟩)
    case refine_7 =>
      rw [Keywords.branches_map, List.forall_mem_map]
      intro b hb
      obtain rfl | hb := List.mem_cons.mp hb
      · exact recordOf_admits "order" "asc"
      · obtain rfl := List.mem_singleton.mp hb
        exact recordOf_admits "tag" "asc"
    case refine_8 =>
      rintro - _ ⟨⟩ e he
      obtain rfl := List.mem_singleton.mp he
      rw [JSONSchema.declares_node, List.mem_append, List.mem_flatMap]
      refine .inr ⟨recordOf "order", List.mem_cons_self, ?_⟩
      rw [recordOf, JSONSchema.declares_node]
      exact List.mem_append_left _ List.mem_cons_self
    all_goals simp [Keywords.map, Keywords.needed, Keywords.declared, lookup]

end Agyn.JsonSchemaToZod
