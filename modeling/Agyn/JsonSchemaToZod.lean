import Agyn.JsonSchemas
import Mathlib.Data.List.Forall2

/-!
`jsonSchemaToZod` over what zod's combinators are documented to accept. One node is converted from
its converted subschemas: its type is switched on, the branches are added, and `null` last. A schema
of which no keyword is read falls back to `z.any()`; it alone accepts `undefined`, so that a
required property with such a schema may be missing.
-/
namespace Agyn.JsonSchemaToZod

open JsonTree (lookup)

/-- The combinators of zod that the conversion uses. A schema runs on a value or, for a property
that an object lacks, on `undefined`. -/
structure Zod (Z : Type) where
  any : Z
  enum : List String → Z
  literal : JsonValue → Z
  union : List Z → Z
  string : Z
  number : Z
  boolean : Z
  tuple : List Z → Z
  array : Z → Z
  strictObject : List (String × Z) → Z
  optional : Z → Z
  and : Z → Z → Z
  nullable : Z → Z
  accepts : Z → Option JsonValue → Prop

namespace Zod

variable {Z : Type}

structure Documented (z : Zod Z) : Prop where
  any (v) : z.accepts z.any v
  enum (names v) : z.accepts (z.enum names) v ↔ ∃ name ∈ names, v = some (.str name)
  literal (x v) : x.isScalar = true → (z.accepts (z.literal x) v ↔ v = some x)
  union (alts v) : z.accepts (z.union alts) v ↔ ∃ a ∈ alts, z.accepts a v
  string (v) : z.accepts z.string v ↔ ∃ s, v = some (.str s)
  number (v) : z.accepts z.number v ↔ ∃ q, v = some (.num q)
  boolean (v) : z.accepts z.boolean v ↔ ∃ b, v = some (.bool b)
  tuple (items v) : z.accepts (z.tuple items) v ↔
    ∃ values, v = some (.arr values) ∧ List.Forall₂ (fun a x => z.accepts a (some x)) items values
  array (item v) : z.accepts (z.array item) v ↔
    ∃ values, v = some (.arr values) ∧ ∀ x ∈ values, z.accepts item (some x)
  strictObject (shape v) : z.accepts (z.strictObject shape) v ↔
    ∃ entries, v = some (.obj entries) ∧ (∀ e ∈ entries, e.1 ∈ shape.map Prod.fst) ∧
      ∀ name a, lookup shape name = some a → z.accepts a (lookup entries name)
  optional (a v) : z.accepts (z.optional a) v ↔ v = none ∨ z.accepts a v
  and (a b v) : z.accepts (z.and a b) v ↔ z.accepts a v ∧ z.accepts b v
  nullable (a v) : z.accepts (z.nullable a) v ↔ v = some .null ∨ z.accepts a v

end Zod

section

variable {Z : Type} (z : Zod Z)

/-- `schema.type ? [schema.type] : []`, or the list. -/
def typesOf : TypeKeyword → List String
  | .absent => []
  | .one name => if name = "" then [] else [name]
  | .many names => names

def stringOf? : JsonValue → Option String
  | .str s => some s
  | _ => none

def enumOf (values : List JsonValue) : Z :=
  if values.all fun x => (stringOf? x).isSome then z.enum (values.filterMap stringOf?).eraseDups
  else z.union (values.map z.literal)

/-- `z.object(shape).strict()`. The names are distinct, so that each assignment adds a key to
the shape, except that of `__proto__`, which sets the prototype of the shape. -/
def objectOf (required : List String) (properties : List (String × Z)) : Z :=
  z.strictObject ((properties.filter fun e => e.1 ≠ "__proto__").map fun e =>
    (e.1, if e.1 ∈ required then e.2 else z.optional e.2))

/-- The `default` of the switch. -/
def untypedBase (schema : Keywords Z) : Z :=
  match schema.properties, schema.alternatives with
  | some properties, _ => objectOf z schema.needed properties
  | none, some [alt] => alt
  | none, some alts => z.union alts
  | none, none => z.any

/-- The `switch` on the one type that is left. -/
def baseOf (schema : Keywords Z) : Option String → Z
  | some "string" => z.string
  | some "number" => z.number
  | some "integer" => z.number
  | some "boolean" => z.boolean
  | some "array" =>
    match schema.items with
    | .tuple items => z.tuple items
    | .each item => z.array item
    | .absent => z.array z.any
  | some "object" => objectOf z schema.needed schema.declared
  | _ => untypedBase z schema

theorem baseOf_absent {schema : Keywords Z} (h : schema.items = .absent) :
    baseOf z schema (some "array") = z.array z.any := by
  simp only [baseOf, h]

theorem baseOf_each {schema : Keywords Z} {item : Z} (h : schema.items = .each item) :
    baseOf z schema (some "array") = z.array item := by
  simp only [baseOf, h]

theorem baseOf_tuple {schema : Keywords Z} {items : List Z} (h : schema.items = .tuple items) :
    baseOf z schema (some "array") = z.tuple items := by
  simp only [baseOf, h]

/-- No two calls of `z.any()` return the same object, so that the tests for it find nothing and
every branch is added. -/
def convertSingle (schema : Keywords Z) : Z :=
  let base := baseOf z schema (typesOf schema.type).head?
  let base := schema.branches.foldl z.and base
  if schema.nullable then z.nullable base else base

/-- `{ ...schema, type: name }` -/
def withType (schema : Keywords Z) (name : String) : Keywords Z := { schema with type := .one name }

/-- The conversion of a node whose subschemas are converted. The call for one of several types
finds no enum and a single type. -/
def convertNode (schema : Keywords Z) : Z :=
  match schema.enum with
  | some (x :: xs) => enumOf z (x :: xs)
  | _ =>
    match typesOf schema.type with
    | t :: t' :: rest =>
      z.union ((t :: t' :: rest).map fun t => convertSingle z (withType schema t))
    | _ => convertSingle z schema

def convert : JSONSchema → Z := JSONSchema.fold (convertNode z)

def jsonSchemaToZod : Option JSONSchema → Z
  | none => z.any
  | some schema => convert z schema

/-- The input schema of a tool: what is no `ZodObject` gives way to an object without keys. -/
def createLocalTool (isZodObject : Z → Bool) (inputSchema : Option JSONSchema) : Z :=
  let schemaCandidate := jsonSchemaToZod z inputSchema
  if isZodObject schemaCandidate then schemaCandidate else z.strictObject []

end

namespace Zod.Documented

variable {Z : Type} {z : Zod Z} {schema : Keywords Z} {v : Option JsonValue}

theorem accepts_foldl_and (hz : z.Documented) (branches : List Z) (base : Z) :
    z.accepts (branches.foldl z.and base) v ↔
      z.accepts base v ∧ ∀ b ∈ branches, z.accepts b v := by
  induction branches generalizing base with
  | nil => simp
  | cons b rest ih => rw [List.foldl_cons, ih, hz.and, List.forall_mem_cons, and_assoc]

theorem accepts_convertSingle (hz : z.Documented) (schema : Keywords Z) :
    z.accepts (convertSingle z schema) v ↔ schema.nullable = true ∧ v = some .null ∨
      z.accepts (baseOf z schema (typesOf schema.type).head?) v ∧
        ∀ b ∈ schema.branches, z.accepts b v := by
  cases h : schema.nullable
  · simp [convertSingle, h, hz.accepts_foldl_and]
  · simp [convertSingle, h, hz.accepts_foldl_and, hz.nullable]

theorem accepts_withType (hz : z.Documented) (schema : Keywords Z) (name : String) :
    z.accepts (convertSingle z (withType schema name)) v ↔
      schema.nullable = true ∧ v = some .null ∨
        z.accepts (baseOf z schema (some name)) v ∧ ∀ b ∈ schema.branches, z.accepts b v := by
  rw [hz.accepts_convertSingle]
  by_cases h : name = ""
  · subst h
    rfl
  · have htype : typesOf (withType schema name).type = [name] := if_neg h
    rw [htype]
    rfl

/-- Every type of a list has its base, and the branches are added to each. -/
theorem accepts_convertNode (hz : z.Documented) (henum : schema.enum.getD [] = []) :
    z.accepts (convertNode z schema) v ↔ schema.nullable = true ∧ v = some .null ∨
      (∃ t ∈ if typesOf schema.type = [] then [none] else (typesOf schema.type).map some,
        z.accepts (baseOf z schema t) v) ∧ ∀ b ∈ schema.branches, z.accepts b v := by
  have hnode : convertNode z schema = match typesOf schema.type with
      | t :: t' :: rest =>
        z.union ((t :: t' :: rest).map fun t => convertSingle z (withType schema t))
      | _ => convertSingle z schema := by
    match h : schema.enum with
    | none => rw [convertNode, h]
    | some [] => rw [convertNode, h]
    | some (x :: xs) => simp [h] at henum
  rw [hnode]
  match h : typesOf schema.type with
  | [] => simp [hz.accepts_convertSingle, h]
  | [t] => simp [hz.accepts_convertSingle, h]
  | t :: t' :: rest =>
    simp only [hz.union, List.mem_map, exists_exists_and_eq_and, hz.accepts_withType,
      reduceCtorEq, if_false]
    constructor
    · rintro ⟨name, hname, h | ⟨hbase, hbranches⟩⟩
      · exact .inl h
      · exact .inr ⟨⟨name, hname, hbase⟩, hbranches⟩
    · rintro (h | ⟨⟨name, hname, hbase⟩, hbranches⟩)
      · exact ⟨t, List.mem_cons_self, .inl h⟩
      · exact ⟨name, hname, .inr ⟨hbase, hbranches⟩⟩

theorem accepts_untypedBase (hz : z.Documented) (hprops : schema.properties = none) :
    z.accepts (untypedBase z schema) v ↔
      ∀ alts, schema.alternatives = some alts → ∃ a ∈ alts, z.accepts a v := by
  rw [untypedBase, hprops]
  match schema.alternatives with
  | none => simp [hz.any]
  | some [alt] => simp
  | some [] => simp [hz.union]
  | some (a :: b :: rest) => simp [hz.union]

theorem accepts_enumOf (hz : z.Documented) {values : List JsonValue}
    (hscalar : ∀ x ∈ values, x.isScalar = true) :
    z.accepts (enumOf z values) v ↔ ∃ x ∈ values, v = some x := by
  rw [enumOf]
  split_ifs with hstrings
  · simp only [hz.enum, List.mem_eraseDups, List.mem_filterMap]
    constructor
    · rintro ⟨s, ⟨x, hx, hs⟩, rfl⟩
      cases x with
      | str s' => exact ⟨_, hx, by rw [Option.some.inj hs]⟩
      | _ => simp [stringOf?] at hs
    · rintro ⟨x, hx, rfl⟩
      have hs := List.all_eq_true.mp hstrings x hx
      cases x with
      | str s => exact ⟨s, ⟨_, hx, rfl⟩, rfl⟩
      | _ => simp [stringOf?] at hs
  · simp only [hz.union, List.mem_map, exists_exists_and_eq_and]
    exact exists_congr fun x => and_congr_right fun hx => hz.literal x v (hscalar x hx)

/-- The properties of an object that accept it, each where the object has it or needs it. -/
theorem accepts_objectOf (hz : z.Documented) {required : List String}
    {properties : List (String × Z)} (hproto : ∀ e ∈ properties, e.1 ≠ "__proto__") :
    z.accepts (objectOf z required properties) v ↔ ∃ entries, v = some (.obj entries) ∧
      (∀ e ∈ entries, e.1 ∈ properties.map Prod.fst) ∧
      ∀ name a, lookup properties name = some a →
        (∀ x, lookup entries name = some x → z.accepts a (some x)) ∧
          (name ∈ required → name ∉ entries.map Prod.fst → z.accepts a none) := by
  have hshape : properties.filter (fun e => e.1 ≠ "__proto__") = properties :=
    List.filter_eq_self.mpr fun e he => by simpa using hproto e he
  rw [objectOf, hshape, hz.strictObject]
  refine exists_congr fun entries => and_congr_right fun _ => and_congr (by simp) ?_
  refine forall_congr' fun name => ?_
  rw [JsonTree.lookup_map properties fun name a =>
    if name ∈ required then a else z.optional a]
  cases hname : lookup properties name with
  | none => simp
  | some a =>
    simp only [Option.map_some, Option.some.injEq, forall_eq']
    cases hentry : lookup entries name with
    | none =>
      have hmem := JsonTree.lookup_eq_none_iff.mp hentry
      split_ifs with hreq
      · simp [hreq, hmem]
      · simp [hreq, hz.optional]
    | some x =>
      have hmem : name ∈ entries.map Prod.fst :=
        List.mem_map_of_mem (JsonTree.mem_of_lookup_eq_some hentry)
      split_ifs with hreq
      · simp [hmem]
      · simp [hreq, hz.optional]

end Zod.Documented

def readTypes : List String := ["string", "number", "integer", "boolean", "array", "object"]

def saysNothing (schema : Keywords Bool) : Bool :=
  (schema.enum.getD []).isEmpty &&
    ((typesOf schema.type).isEmpty || (typesOf schema.type).any (· ∉ readTypes)) &&
    schema.properties.isNone && ((schema.alternatives).all fun alts => alts.any id) &&
    schema.branches.all id

def fallsBack : JSONSchema → Bool := JSONSchema.fold saysNothing

section

variable {Z : Type} {z : Zod Z}

theorem convert_node (schema : Keywords JSONSchema) :
    convert z (.node schema) = convertNode z (schema.map (convert z)) :=
  JSONSchema.fold_node _ schema

theorem fallsBack_node (schema : Keywords JSONSchema) : fallsBack (.node schema) = true ↔
    schema.enum.getD [] = [] ∧
      (typesOf schema.type = [] ∨ ∃ name ∈ typesOf schema.type, name ∉ readTypes) ∧
      schema.properties = none ∧
      (∀ alts, schema.alternatives = some alts → ∃ s ∈ alts, fallsBack s = true) ∧
      ∀ b ∈ schema.branches, fallsBack b = true := by
  have hnode : fallsBack (.node schema) = saysNothing (schema.map fallsBack) :=
    JSONSchema.fold_node _ schema
  have halts : ((schema.map fallsBack).alternatives.all fun alts => alts.any id) = true ↔
      ∀ alts, schema.alternatives = some alts → ∃ s ∈ alts, fallsBack s = true := by
    rw [Keywords.alternatives_map]
    cases schema.alternatives <;> simp
  rw [hnode, saysNothing]
  simp only [Bool.and_eq_true, Bool.or_eq_true, halts, List.isEmpty_iff,
    Option.isNone_iff_eq_none, Keywords.enum_map, Keywords.type_map,
    Keywords.properties_map_eq_none, Keywords.branches_map, List.any_eq_true, List.all_map,
    List.all_eq_true, decide_eq_true_eq, Function.comp_apply, id_eq, and_assoc]

theorem baseOf_of_notMem {schema : Keywords Z} {name : String} (h : name ∉ readTypes) :
    baseOf z schema (some name) = untypedBase z schema := by
  unfold baseOf
  split
  case h_7 => rfl
  all_goals
    rename_i heq
    obtain rfl := Option.some.inj heq
    exact absurd (by decide) h

/-- A schema that falls back accepts everything, `undefined` too. -/
theorem accepts_of_fallsBack (hz : z.Documented) :
    ∀ s, fallsBack s = true → ∀ v, z.accepts (convert z s) v := by
  refine JSONSchema.Inherited.holds ?_
  intro schema ih h v
  obtain ⟨henum, htypes, hprops, halts, hbranches⟩ := (fallsBack_node schema).mp h
  have hbase : z.accepts (untypedBase z (schema.map (convert z))) v := by
    rw [hz.accepts_untypedBase ((schema.properties_map_eq_none _).mpr hprops),
      Keywords.alternatives_map]
    intro _ heq
    obtain ⟨alts, halt, rfl⟩ := Option.map_eq_some_iff.mp heq
    obtain ⟨s, hs, hback⟩ := halts alts halt
    exact ⟨_, List.mem_map_of_mem hs, ih s (Keywords.mem_parts_of_alternatives halt hs) hback v⟩
  have hbranch : ∀ b ∈ (schema.map (convert z)).branches, z.accepts b v := by
    rw [Keywords.branches_map, List.forall_mem_map]
    exact fun s hs => ih s (Keywords.mem_parts_of_branches hs) (hbranches s hs) v
  rw [convert_node, hz.accepts_convertNode henum]
  refine .inr ⟨?_, hbranch⟩
  rw [Keywords.type_map]
  obtain htypes | htypes := htypes
  · exact ⟨none, by simp [htypes], hbase⟩
  · obtain ⟨name, hname, hread⟩ := htypes
    refine ⟨some name, ?_, ?_⟩
    · rw [if_neg (List.ne_nil_of_mem hname)]
      exact List.mem_map_of_mem hname
    · rw [baseOf_of_notMem hread]
      exact hbase

/-- A tool keeps the schema of an object that has neither branches nor is nullable. -/
theorem createLocalTool_eq {isZodObject : Z → Bool}
    (hobject : ∀ shape, isZodObject (z.strictObject shape) = true) {schema : Keywords JSONSchema}
    (henum : schema.enum = none) (htype : schema.type = .one "object")
    (hbranches : schema.allOf = none) (hnullable : schema.nullable = false) :
    createLocalTool z isZodObject (some (.node schema)) =
      jsonSchemaToZod z (some (.node schema)) := by
  have hconvert : convert z (.node schema) =
      objectOf z schema.needed (schema.map (convert z)).declared := by
    obtain ⟨_, properties, required, items, _, anyOf, oneOf, _, _⟩ := schema
    obtain rfl : _ = TypeKeyword.one "object" := htype
    obtain rfl : _ = none := henum
    obtain rfl : _ = none := hbranches
    obtain rfl : _ = false := hnullable
    rw [convert_node]
    rfl
  refine if_pos ?_
  rw [jsonSchemaToZod, hconvert]
  exact hobject _

end

def sameScalar : JsonValue → JsonValue → Bool
  | .null, .null => true
  | .bool a, .bool b => a == b
  | .num a, .num b => a == b
  | .str a, .str b => a == b
  | _, _ => false

theorem sameScalar_iff {x y : JsonValue} (hx : x.isScalar = true) :
    sameScalar x y = true ↔ y = x := by
  cases x with
  | arr items => cases hx
  | obj entries => cases hx
  | null => cases y <;> simp [sameScalar]
  | _ =>
    cases y <;> simp only [sameScalar, beq_iff_eq, reduceCtorEq, Bool.false_eq_true,
      JsonValue.bool.injEq, JsonValue.num.injEq, JsonValue.str.injEq]
    exact eq_comm

def ofItems (p : List JsonValue → Bool) : Option JsonValue → Bool
  | some (.arr items) => p items
  | _ => false

def ofEntries (p : List (String × JsonValue) → Bool) : Option JsonValue → Bool
  | some (.obj entries) => p entries
  | _ => false

def checkTuple (items : List (Option JsonValue → Bool)) (values : List JsonValue) : Bool :=
  items.length == values.length && (items.zip values).all fun e => e.1 (some e.2)

def checkShape (shape : List (String × (Option JsonValue → Bool)))
    (entries : List (String × JsonValue)) : Bool :=
  (entries.all fun e => (shape.map Prod.fst).contains e.1) &&
    (shape.map Prod.fst).all fun name => (lookup shape name).all fun a => a (lookup entries name)

def checks : Zod (Option JsonValue → Bool) where
  any _ := true
  enum names v := names.any fun name => v.any (sameScalar (.str name))
  literal x v := v.any (sameScalar x)
  union alts v := alts.any fun a => a v
  string v := v.any (JsonValue.hasType "string")
  number v := v.any (JsonValue.hasType "number")
  boolean v := v.any (JsonValue.hasType "boolean")
  tuple items := ofItems (checkTuple items)
  array item := ofItems fun values => values.all fun x => item (some x)
  strictObject shape := ofEntries (checkShape shape)
  optional a v := v.isNone || a v
  and a b v := a v && b v
  nullable a v := v.any (sameScalar .null) || a v
  accepts a v := a v = true

theorem any_sameScalar_iff {x : JsonValue} (hx : x.isScalar = true) (v : Option JsonValue) :
    v.any (sameScalar x) = true ↔ v = some x := by
  cases v with
  | none => simp
  | some y => rw [Option.any_some, sameScalar_iff hx, Option.some.injEq]

theorem ofItems_iff (p : List JsonValue → Bool) (v : Option JsonValue) :
    ofItems p v = true ↔ ∃ items, v = some (.arr items) ∧ p items = true := by
  rcases v with _ | _ | _ | _ | _ | items | _
  case some.arr => exact ⟨fun h => ⟨items, rfl, h⟩, fun ⟨_, heq, h⟩ => by cases heq; exact h⟩
  all_goals exact ⟨nofun, nofun⟩

theorem ofEntries_iff (p : List (String × JsonValue) → Bool) (v : Option JsonValue) :
    ofEntries p v = true ↔ ∃ entries, v = some (.obj entries) ∧ p entries = true := by
  rcases v with _ | _ | _ | _ | _ | _ | entries
  case some.obj => exact ⟨fun h => ⟨entries, rfl, h⟩, fun ⟨_, heq, h⟩ => by cases heq; exact h⟩
  all_goals exact ⟨nofun, nofun⟩

theorem checkTuple_iff (items : List (Option JsonValue → Bool)) (values : List JsonValue) :
    checkTuple items values = true ↔
      List.Forall₂ (fun a x => a (some x) = true) items values := by
  simp [checkTuple, List.forall₂_iff_zip]

theorem checkShape_iff (shape : List (String × (Option JsonValue → Bool)))
    (entries : List (String × JsonValue)) : checkShape shape entries = true ↔
      (∀ e ∈ entries, e.1 ∈ shape.map Prod.fst) ∧
        ∀ name a, lookup shape name = some a → a (lookup entries name) = true := by
  have hlookup : (∀ name ∈ shape.map Prod.fst, ∀ a, lookup shape name = some a →
      a (lookup entries name) = true) ↔
      ∀ name a, lookup shape name = some a → a (lookup entries name) = true := by
    refine ⟨fun h name a ha => h name ?_ a ha, fun h name _ => h name⟩
    exact List.mem_map_of_mem (JsonTree.mem_of_lookup_eq_some ha)
  simp only [checkShape, Bool.and_eq_true, List.all_eq_true, Option.all_eq_true,
    List.contains_iff_mem, hlookup]

theorem checks_documented : checks.Documented where
  any _ := rfl
  enum names v := by
    refine List.any_eq_true.trans (exists_congr fun name => and_congr_right fun _ => ?_)
    exact any_sameScalar_iff rfl v
  literal x v hx := any_sameScalar_iff hx v
  union alts v := List.any_eq_true
  string v := by
    change v.any _ = true ↔ _
    rcases v with _ | _ | _ | _ | _ | _ | _ <;> simp [JsonValue.hasType]
  number v := by
    change v.any _ = true ↔ _
    rcases v with _ | _ | _ | _ | _ | _ | _ <;> simp [JsonValue.hasType]
  boolean v := by
    change v.any _ = true ↔ _
    rcases v with _ | _ | _ | _ | _ | _ | _ <;> simp [JsonValue.hasType]
  tuple items v := by
    refine (ofItems_iff _ v).trans (exists_congr fun values => and_congr_right fun _ => ?_)
    exact checkTuple_iff items values
  array item v := by
    refine (ofItems_iff _ v).trans (exists_congr fun values => and_congr_right fun _ => ?_)
    exact List.all_eq_true
  strictObject shape v := by
    refine (ofEntries_iff _ v).trans (exists_congr fun entries => and_congr_right fun _ => ?_)
    exact checkShape_iff shape entries
  optional a v := (Bool.or_eq_true _ _).to_iff.trans (or_congr_left Option.isNone_iff_eq_none)
  and a b v := (Bool.and_eq_true _ _).to_iff
  nullable a v := by
    refine (Bool.or_eq_true _ _).to_iff.trans (or_congr_left ?_)
    exact any_sameScalar_iff rfl v

end Agyn.JsonSchemaToZod
