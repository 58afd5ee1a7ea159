import Mathlib.Data.Rat.Defs
import Agyn.JsonTrees

/-!
The JSON Schemas in which MCP servers state the arguments of their tools, and what they mean.
A schema is a tree of keywords: what is defined of schemas is defined for one node whose
subschemas have their values already, and `fold` runs it over the tree.

The meaning closes objects late. A branch of an `allOf` says nothing of other properties than
those it declares, and the schema around it closes the object over what all of them declare.
-/
namespace Agyn

open JsonTree (lookup)

/-- Numbers are rationals, so that a whole one can be told. -/
inductive JsonValue where
  | null
  | bool (b : Bool)
  | num (q : ℚ)
  | str (s : String)
  | arr (items : List JsonValue)
  | obj (entries : List (String × JsonValue))

namespace JsonValue

def isScalar : JsonValue → Bool
  | .arr _ => false
  | .obj _ => false
  | _ => true

def hasType (name : String) : JsonValue → Bool
  | .null => name == "null"
  | .bool _ => name == "boolean"
  | .num q => name == "number" || name == "integer" && q.isInt
  | .str _ => name == "string"
  | .arr _ => name == "array"
  | .obj _ => name == "object"

end JsonValue

/-- `type?: string | string[]` -/
inductive TypeKeyword where
  | absent
  | one (name : String)
  | many (names : List String)

def TypeKeyword.names : TypeKeyword → List String
  | .absent => []
  | .one name => [name]
  | .many names => names

/-- `items?: JSONSchema | JSONSchema[]` -/
inductive ItemsKeyword (X : Type) where
  | absent
  | each (item : X)
  | tuple (items : List X)

namespace ItemsKeyword

variable {X Y : Type}

def map (f : X → Y) : ItemsKeyword X → ItemsKeyword Y
  | .absent => .absent
  | .each item => .each (f item)
  | .tuple items => .tuple (items.map f)

def parts : ItemsKeyword X → List X
  | .absent => []
  | .each item => [item]
  | .tuple items => items

end ItemsKeyword

/-- The keywords of a schema with an `X` for each subschema. The properties are in the order of
`Object.entries`; descriptions, defaults and references are not read. -/
structure Keywords (X : Type) where
  type : TypeKeyword := .absent
  properties : Option (List (String × X)) := none
  required : Option (List String) := none
  items : ItemsKeyword X := .absent
  enum : Option (List JsonValue) := none
  anyOf : Option (List X) := none
  oneOf : Option (List X) := none
  allOf : Option (List X) := none
  nullable : Bool := false

namespace Keywords

variable {X Y : Type}

def map (f : X → Y) (schema : Keywords X) : Keywords Y where
  type := schema.type
  properties := schema.properties.map fun entries => entries.map fun e => (e.1, f e.2)
  required := schema.required
  items := schema.items.map f
  enum := schema.enum
  anyOf := schema.anyOf.map fun parts => parts.map f
  oneOf := schema.oneOf.map fun parts => parts.map f
  allOf := schema.allOf.map fun parts => parts.map f
  nullable := schema.nullable

/-- `schema.properties || {}`, and the same for the other two. -/
abbrev declared (schema : Keywords X) : List (String × X) := schema.properties.getD []

abbrev needed (schema : Keywords X) : List String := schema.required.getD []

abbrev branches (schema : Keywords X) : List X := schema.allOf.getD []

/-- `schema.anyOf || schema.oneOf`; an empty list is there. -/
abbrev alternatives (schema : Keywords X) : Option (List X) := schema.anyOf.or schema.oneOf

def withoutEnum (schema : Keywords X) : Keywords X := { schema with enum := none }

def parts (schema : Keywords X) : List X :=
  schema.declared.map Prod.snd ++ schema.items.parts ++ schema.anyOf.getD [] ++
    schema.oneOf.getD [] ++ schema.branches

@[simp] theorem type_map (f : X → Y) (schema : Keywords X) :
    (schema.map f).type = schema.type := rfl

@[simp] theorem enum_map (f : X → Y) (schema : Keywords X) :
    (schema.map f).enum = schema.enum := rfl

@[simp] theorem nullable_map (f : X → Y) (schema : Keywords X) :
    (schema.map f).nullable = schema.nullable := rfl

@[simp] theorem needed_map (f : X → Y) (schema : Keywords X) :
    (schema.map f).needed = schema.needed := rfl

@[simp] theorem properties_map_eq_none (f : X → Y) (schema : Keywords X) :
    (schema.map f).properties = none ↔ schema.properties = none := Option.map_eq_none_iff

@[simp] theorem declared_map (f : X → Y) (schema : Keywords X) :
    (schema.map f).declared = schema.declared.map fun e => (e.1, f e.2) := by
  cases h : schema.properties <;> simp [declared, map, h]

theorem lookup_declared_map (f : X → Y) (schema : Keywords X) (name : String) :
    lookup (schema.map f).declared name = (lookup schema.declared name).map f := by
  rw [declared_map]
  exact JsonTree.lookup_map schema.declared (fun _ => f) name

@[simp] theorem branches_map (f : X → Y) (schema : Keywords X) :
    (schema.map f).branches = schema.branches.map f := by
  cases h : schema.allOf <;> simp [branches, map, h]

@[simp] theorem alternatives_map (f : X → Y) (schema : Keywords X) :
    (schema.map f).alternatives = schema.alternatives.map fun parts => parts.map f := by
  cases h : schema.anyOf <;> simp [alternatives, map, h]

theorem mem_parts_of_alternatives {schema : Keywords X} {alts : List X} {s : X}
    (halts : schema.alternatives = some alts) (h : s ∈ alts) : s ∈ schema.parts := by
  simp only [parts, List.mem_append]
  obtain hany | ⟨-, hone⟩ := Option.or_eq_some_iff.mp halts
  · exact .inl (.inl (.inr (by simpa [hany] using h)))
  · exact .inl (.inr (by simpa [hone] using h))

theorem mem_parts_of_branches {schema : Keywords X} {s : X} (h : s ∈ schema.branches) :
    s ∈ schema.parts := by
  simp only [parts, List.mem_append]
  exact .inr h

end Keywords

inductive JSONSchema where
  | node (keywords : Keywords JSONSchema)

namespace JSONSchema

variable {Y : Type} (f : Keywords Y → Y)

mutual

/-- The value of a schema whose nodes take theirs from the values of their subschemas. -/
def fold : JSONSchema → Y
  | .node ⟨type, properties, required, items, enum, anyOf, oneOf, allOf, nullable⟩ =>
    f ⟨type, foldEntries? properties, required, foldItems items, enum, foldParts? anyOf,
      foldParts? oneOf, foldParts? allOf, nullable⟩

def foldItems : ItemsKeyword JSONSchema → ItemsKeyword Y
  | .absent => .absent
  | .each item => .each (fold item)
  | .tuple items => .tuple (foldParts items)

def foldParts? : Option (List JSONSchema) → Option (List Y)
  | none => none
  | some parts => some (foldParts parts)

def foldParts : List JSONSchema → List Y
  | [] => []
  | s :: rest => fold s :: foldParts rest

def foldEntries? : Option (List (String × JSONSchema)) → Option (List (String × Y))
  | none => none
  | some entries => some (foldEntries entries)

def foldEntries : List (String × JSONSchema) → List (String × Y)
  | [] => []
  | (name, s) :: rest => (name, fold s) :: foldEntries rest

end

theorem foldParts_eq (parts : List JSONSchema) : foldParts f parts = parts.map (fold f) := by
  induction parts with
  | nil => simp [foldParts]
  | cons s rest ih => simp [foldParts, ih]

theorem foldEntries_eq (entries : List (String × JSONSchema)) :
    foldEntries f entries = entries.map fun e => (e.1, fold f e.2) := by
  induction entries with
  | nil => simp [foldEntries]
  | cons e rest ih => simp [foldEntries, ih]

theorem fold_node (schema : Keywords JSONSchema) :
    fold f (.node schema) = f (schema.map (fold f)) := by
  obtain ⟨type, properties, required, items, enum, anyOf, oneOf, allOf, nullable⟩ := schema
  have hparts (parts : Option (List JSONSchema)) :
      foldParts? f parts = parts.map fun parts => parts.map (fold f) := by
    cases parts <;> simp [foldParts?, foldParts_eq]
  have hentries : foldEntries? f properties =
      properties.map fun entries => entries.map fun e => (e.1, fold f e.2) := by
    cases properties <;> simp [foldEntries?, foldEntries_eq]
  have hitems : foldItems f items = items.map (fold f) := by
    cases items <;> simp [foldItems, ItemsKeyword.map, foldParts_eq]
  simp only [fold, Keywords.map, hparts, hentries, hitems]

/-- A node has the property if its subschemas have it. -/
def Inherited (P : JSONSchema → Prop) : Prop :=
  ∀ schema : Keywords JSONSchema, (∀ s ∈ schema.parts, P s) → P (.node schema)

namespace Inherited

variable {P : JSONSchema → Prop}

mutual

theorem holds (h : Inherited P) : ∀ s, P s
  | .node ⟨type, properties, required, items, enum, anyOf, oneOf, allOf, nullable⟩ => by
    refine h _ fun s hs => ?_
    simp only [Keywords.parts, List.mem_append] at hs
    rcases hs with (((hs | hs) | hs) | hs) | hs
    · exact h.entries? properties s hs
    · exact h.items items s hs
    · exact h.parts? anyOf s hs
    · exact h.parts? oneOf s hs
    · exact h.parts? allOf s hs

private theorem items (h : Inherited P) :
    ∀ items : ItemsKeyword JSONSchema, ∀ s ∈ items.parts, P s
  | .absent => by simp [ItemsKeyword.parts]
  | .each item => by simpa [ItemsKeyword.parts] using h.holds item
  | .tuple items => h.parts items

private theorem parts? (h : Inherited P) :
    ∀ parts : Option (List JSONSchema), ∀ s ∈ parts.getD [], P s
  | none => by simp
  | some parts => h.parts parts

private theorem parts (h : Inherited P) : ∀ parts : List JSONSchema, ∀ s ∈ parts, P s
  | [] => by simp
  | s :: rest => List.forall_mem_cons.mpr ⟨h.holds s, h.parts rest⟩

private theorem entries? (h : Inherited P) : ∀ entries : Option (List (String × JSONSchema)),
    ∀ s ∈ (entries.getD []).map Prod.snd, P s
  | none => by simp
  | some entries => h.entries entries

private theorem entries (h : Inherited P) : ∀ entries : List (String × JSONSchema),
    ∀ s ∈ entries.map Prod.snd, P s
  | [] => by simp
  | (_, s) :: rest => List.forall_mem_cons.mpr ⟨h.holds s, h.entries rest⟩

end

end Inherited

end JSONSchema

/-- What a schema says of a value and, left to the schema around it, what it says of objects:
whether it describes them, and the properties that it declares. -/
structure Meaning where
  admits : JsonValue → Prop
  describesObjects : Prop
  declares : List String

namespace Meaning

def closes (m : Meaning) (v : JsonValue) : Prop :=
  m.describesObjects → ∀ entries, v = .obj entries → ∀ e ∈ entries, e.1 ∈ m.declares

/-- What the schema says where no other schema is around it. -/
def holds (m : Meaning) (v : JsonValue) : Prop := m.admits v ∧ m.closes v

/-- A list of items says something of the places it has; those after them are free. -/
def itemsHold : ItemsKeyword Meaning → List JsonValue → Prop
  | .absent, _ => True
  | .each m, values => ∀ v ∈ values, m.holds v
  | .tuple ms, values => ∀ e ∈ ms.zip values, e.1.holds e.2

/-- The keywords one by one, `nullable` apart. -/
structure Admitted (schema : Keywords Meaning) (v : JsonValue) : Prop where
  type : schema.type = .absent ∨ ∃ name ∈ schema.type.names, v.hasType name = true
  enum : ∀ values, schema.enum = some values → v ∈ values
  required : ∀ entries, v = .obj entries → ∀ name ∈ schema.needed, name ∈ entries.map Prod.fst
  properties : ∀ entries, v = .obj entries → ∀ name x m, lookup entries name = some x →
    lookup schema.declared name = some m → m.holds x
  items : ∀ values, v = .arr values → itemsHold schema.items values
  anyOf : ∀ parts, schema.anyOf = some parts → ∃ m ∈ parts, m.holds v
  oneOf : ∀ parts, schema.oneOf = some parts → ∃ m ∈ parts, m.holds v
  allOf : ∀ m ∈ schema.branches, m.admits v

def ofKeywords (schema : Keywords Meaning) : Meaning where
  admits v := schema.nullable = true ∧ v = .null ∨ Admitted schema v
  describesObjects := "object" ∈ schema.type.names ∨ schema.properties.isSome = true ∨
    ∃ m ∈ schema.branches, m.describesObjects
  declares := schema.declared.map Prod.fst ++ schema.branches.flatMap declares

end Meaning

namespace JSONSchema

def meaning : JSONSchema → Meaning := fold Meaning.ofKeywords

def Satisfies (s : JSONSchema) (v : JsonValue) : Prop := s.meaning.holds v

variable {schema : Keywords JSONSchema} {v : JsonValue}

theorem meaning_node (schema : Keywords JSONSchema) :
    (node schema).meaning = .ofKeywords (schema.map meaning) :=
  fold_node _ schema

theorem describesObjects_node : (node schema).meaning.describesObjects ↔
    "object" ∈ schema.type.names ∨ schema.properties ≠ none ∨
      ∃ b ∈ schema.branches, b.meaning.describesObjects := by
  simp [meaning_node, Meaning.ofKeywords, Option.isSome_iff_ne_none]

theorem declares_node : (node schema).meaning.declares =
    schema.declared.map Prod.fst ++ schema.branches.flatMap fun b => b.meaning.declares := by
  rw [meaning_node]
  simp only [Meaning.ofKeywords, Keywords.declared_map, Keywords.branches_map, List.map_map,
    List.flatMap_map]
  rfl

/-- `null` is no object, so that only what the keywords admit has to be closed. -/
theorem satisfies_node : (node schema).Satisfies v ↔ schema.nullable = true ∧ v = .null ∨
    Meaning.Admitted (schema.map meaning) v ∧ (node schema).meaning.closes v := by
  have hadmits : (node schema).meaning.admits v ↔ schema.nullable = true ∧ v = .null ∨
      Meaning.Admitted (schema.map meaning) v := by
    rw [meaning_node]
    rfl
  rw [Satisfies, Meaning.holds, hadmits, or_and_right]
  refine or_congr_left (and_iff_left_of_imp ?_)
  rintro ⟨-, rfl⟩ - entries heq
  cases heq

end JSONSchema

end Agyn
