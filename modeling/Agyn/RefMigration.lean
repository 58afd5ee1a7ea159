import Agyn.JsonTrees
import Agyn.PersistedGraph
import Agyn.SeparatorRuns

/-!
The migration of the legacy references of a graph file. The walk replaces legacy references by
canonical ones, or by the value of a static one, and stops at a reference of either kind; a value
with nothing to convert in it is returned as it is, any other is rebuilt. The validation then walks
over the result.
-/
namespace Agyn.RefMigration

open JsonTree

variable {N : Type}

structure TransformContext where
  defaultMount : String
  knownMounts : List String

inductive ConversionKind where
  | vault
  | var
  | static
  deriving DecidableEq

inductive LegacyKind where
  | vault
  | env
  | static
  deriving DecidableEq

structure ConversionRecord where
  pointer : String
  kind : ConversionKind
  legacy : LegacyKind
  usedDefaultMount : Bool := false
  deriving DecidableEq

structure MigrationError where
  pointer : String
  message : String
  deriving DecidableEq

structure TransformOutcome (N : Type) where
  value : JsonTree N
  changed : Bool
  conversions : List ConversionRecord
  errors : List MigrationError

def isPlainObject : JsonTree N → Bool
  | .obj _ _ => true
  | _ => false

def segmentText : Segment → String
  | .index i => toString i
  | .key k => k

def escapeChar (c : Char) : List Char :=
  if c = '~' then ['~', '0'] else if c = '/' then ['~', '1'] else [c]

def escapePointerSegment (segment : String) : String :=
  String.ofList (segment.toList.flatMap escapeChar)

def pointerToString (pointer : Pointer) : String :=
  if pointer.length = 0 then "/"
  else "/" ++ "/".intercalate (pointer.map fun part => escapePointerSegment (segmentText part))

def isNonEmptyString : Option (JsonTree N) → Bool
  | some (.str s) => s ≠ ""
  | _ => false

def isString : Option (JsonTree N) → Bool
  | some (.str _) => true
  | _ => false

def isStr (text : String) : Option (JsonTree N) → Bool
  | some (.str s) => s = text
  | _ => false

def ownKeys : JsonTree N → List String
  | .obj _ entries => entries.map Prod.fst
  | _ => []

/-- The schema takes an object with these keys and no others. -/
def SecretReferenceSchema (value : JsonTree N) : Bool :=
  isPlainObject value && isStr "vault" (value.get "kind") && isNonEmptyString (value.get "path") &&
    isNonEmptyString (value.get "key") &&
    ((value.get "mount").isNone || isNonEmptyString (value.get "mount")) &&
    (ownKeys value).all (· ∈ ["kind", "path", "key", "mount"])

def VariableReferenceSchema (value : JsonTree N) : Bool :=
  isPlainObject value && isStr "var" (value.get "kind") && isNonEmptyString (value.get "name") &&
    ((value.get "default").isNone || isString (value.get "default")) &&
    (ownKeys value).all (· ∈ ["kind", "name", "default"])

def isCanonicalVaultRef (value : JsonTree N) : Bool :=
  isPlainObject value && isStr "vault" (value.get "kind") && SecretReferenceSchema value

def isCanonicalVarRef (value : JsonTree N) : Bool :=
  isPlainObject value && isStr "var" (value.get "kind") && VariableReferenceSchema value

def isLegacyVaultRef (value : JsonTree N) : Bool :=
  isPlainObject value && isStr "vault" (value.get "source") && isString (value.get "value")

def isLegacyEnvRef (value : JsonTree N) : Bool :=
  isPlainObject value && isStr "env" (value.get "source") && isString (value.get "envVar")

def isLegacyStaticRef (value : JsonTree N) : Bool :=
  isPlainObject value && isStr "static" (value.get "source") && "value" ∈ ownKeys value

def isLegacyRef (value : JsonTree N) : Bool :=
  isLegacyVaultRef value || isLegacyEnvRef value || isLegacyStaticRef value

def stringOf : Option (JsonTree N) → String
  | some (.str s) => s
  | _ => ""

def unchanged (input : JsonTree N) : TransformOutcome N := ⟨input, false, [], []⟩

def failed (input : JsonTree N) (pointer : Pointer) (message : String) : TransformOutcome N :=
  ⟨input, false, [], [⟨pointerToString pointer, message⟩]⟩

def converted (value : JsonTree N) (record : ConversionRecord) : TransformOutcome N :=
  ⟨value, true, [record], []⟩

/-- What is left of `transformLegacyVaultRef` once the parts are known. -/
def buildVaultRef (input : JsonTree N) (pointer : Pointer) (mount : String)
    (pathSegments : List String) (key : Option String) (usedDefaultMount : Bool) :
    TransformOutcome N :=
  if key.getD "" = "" then failed input pointer "Legacy vault reference missing key segment"
  else if pathSegments.length = 0 then
    failed input pointer "Legacy vault reference missing path segment"
  else
    let nextValue : JsonTree N := .record [("kind", .str "vault"), ("mount", .str mount),
      ("path", .str ("/".intercalate pathSegments)), ("key", .str (key.getD ""))]
    if SecretReferenceSchema nextValue then
      converted nextValue ⟨pointerToString pointer, .vault, .vault, usedDefaultMount⟩
    else failed input pointer "Canonical vault reference validation failed"

def transformLegacyVaultRef (ctx : TransformContext) (input : JsonTree N) (pointer : Pointer) :
    TransformOutcome N :=
  let raw := trim (stringOf (input.get "value"))
  if raw = "" then failed input pointer "Legacy vault reference is empty"
  else if raw.toList.head? = some '/' then
    failed input pointer "Legacy vault reference cannot start with \"/\""
  else
    match (pieces '/' raw.toList).map String.ofList with
    | [] => failed input pointer
        "Legacy vault reference must include mount, path, and key segments"
    | [_] => failed input pointer
        "Legacy vault reference must include mount, path, and key segments"
    | [first, second] =>
      if first ∈ ctx.knownMounts then
        failed input pointer
          "Legacy vault reference missing path segment between mount and key"
      else buildVaultRef input pointer ctx.defaultMount [first] (some second) true
    | mount :: rest => buildVaultRef input pointer mount rest.dropLast rest.getLast? false

def transformLegacyEnvRef (input : JsonTree N) (pointer : Pointer) : TransformOutcome N :=
  let envVar := trim (stringOf (input.get "envVar"))
  if envVar = "" then failed input pointer "Legacy env reference missing envVar"
  else
    let nextValue : JsonTree N := .record ([("kind", .str "var"), ("name", .str envVar)] ++
      ((input.get "default").map fun default => ("default", default)).toList)
    if VariableReferenceSchema nextValue then
      converted nextValue ⟨pointerToString pointer, .var, .env, false⟩
    else failed input pointer "Canonical variable reference validation failed"

def isPrimitive : JsonTree N → Bool
  | .arr _ => false
  | .obj _ _ => false
  | _ => true

def transformLegacyStaticRef (input : JsonTree N) (pointer : Pointer) : TransformOutcome N :=
  let primitive := (input.get "value").getD .null
  if isPrimitive primitive then
    converted primitive ⟨pointerToString pointer, .static, .static, false⟩
  else failed input pointer "Legacy static reference must resolve to a primitive value"

/-- A reference, canonical or legacy; there is no result for any other value. -/
def transformReference (ctx : TransformContext) (input : JsonTree N) (pointer : Pointer) :
    Option (TransformOutcome N) :=
  if isCanonicalVaultRef input || isCanonicalVarRef input then some (unchanged input)
  else if isLegacyVaultRef input then some (transformLegacyVaultRef ctx input pointer)
  else if isLegacyEnvRef input then some (transformLegacyEnvRef input pointer)
  else if isLegacyStaticRef input then some (transformLegacyStaticRef input pointer)
  else none

/-- `result[key] = value` for a key that `result` does not have. The setter of `__proto__` takes
objects and null, and ignores other values. -/
def assign (proto : Option (JsonTree N)) (entries : List (String × JsonTree N)) (key : String)
    (value : JsonTree N) : Option (JsonTree N) × List (String × JsonTree N) :=
  if key = "__proto__" then
    match value with
    | .null => (some .null, entries)
    | .arr items => (some (.arr items), entries)
    | .obj proto' entries' => (some (.obj proto' entries'), entries)
    | _ => (proto, entries)
  else (proto, entries ++ [(key, value)])

/-- The object that the loop builds, property by property. -/
def assignAll (entries : List (String × JsonTree N)) : JsonTree N :=
  let result := entries.foldl (fun result e => assign result.1 result.2 e.1 e.2) (none, [])
  .obj result.1 result.2

/-- The outcomes of the parts of a value, in order. -/
def combine {κ : Type} (input : JsonTree N) (build : List (κ × JsonTree N) → JsonTree N)
    (parts : List (κ × TransformOutcome N)) : TransformOutcome N :=
  let changed := parts.any fun part => part.2.changed
  { value := if changed then build (parts.map fun part => (part.1, part.2.value)) else input
    changed
    conversions := parts.flatMap fun part => part.2.conversions
    errors := parts.flatMap fun part => part.2.errors }

mutual

def transformValue (ctx : TransformContext) : JsonTree N → Pointer → TransformOutcome N
  | .arr items, pointer =>
    combine (.arr items) (fun next => .arr (next.map Prod.snd))
      (transformItems ctx items pointer 0)
  | .obj proto entries, pointer =>
    match transformReference ctx (.obj proto entries) pointer with
    | some outcome => outcome
    | none => combine (.obj proto entries) assignAll (transformEntries ctx entries pointer)
  | input, _ => unchanged input

def transformItems (ctx : TransformContext) :
    List (JsonTree N) → Pointer → ℕ → List (ℕ × TransformOutcome N)
  | [], _, _ => []
  | item :: rest, pointer, index =>
    (index, transformValue ctx item (pointer ++ [.index index])) ::
      transformItems ctx rest pointer (index + 1)

def transformEntries (ctx : TransformContext) :
    List (String × JsonTree N) → Pointer → List (String × TransformOutcome N)
  | [], _ => []
  | (key, value) :: rest, pointer =>
    (key, transformValue ctx value (pointer ++ [.key key])) :: transformEntries ctx rest pointer

end

def canonicalErrors (value : JsonTree N) (pointer : Pointer) : List MigrationError :=
  if isStr "vault" (value.get "kind") then
    if SecretReferenceSchema value then []
    else [⟨pointerToString pointer, "Invalid canonical vault reference detected"⟩]
  else if isStr "var" (value.get "kind") then
    if VariableReferenceSchema value then []
    else [⟨pointerToString pointer, "Invalid canonical variable reference detected"⟩]
  else []

def nodePropertyErrors (value : JsonTree N) (pointer : Pointer) (name : String) :
    List MigrationError :=
  if isString (value.get "id") && isString (value.get "template") && name ∈ ownKeys value &&
      !isPlainObject ((value.get name).getD .null) then
    [⟨pointerToString (pointer ++ [.key name]),
      s!"PersistedGraphNode.{name} must be an object when provided"⟩]
  else []

/-- The errors of an object that is no legacy reference, without those of its properties. -/
def objectErrors (value : JsonTree N) (pointer : Pointer) : List MigrationError :=
  canonicalErrors value pointer ++ nodePropertyErrors value pointer "config" ++
    nodePropertyErrors value pointer "state"

mutual

def collectPostTransformErrors : JsonTree N → Pointer → List MigrationError
  | .arr items, pointer => collectItemErrors items pointer 0
  | .obj proto entries, pointer =>
    if isLegacyRef (.obj proto entries) then
      [⟨pointerToString pointer, "Legacy reference remains after migration"⟩]
    else objectErrors (.obj proto entries) pointer ++ collectEntryErrors entries pointer
  | _, _ => []

def collectItemErrors : List (JsonTree N) → Pointer → ℕ → List MigrationError
  | [], _, _ => []
  | item :: rest, pointer, index =>
    collectPostTransformErrors item (pointer ++ [.index index]) ++
      collectItemErrors rest pointer (index + 1)

def collectEntryErrors : List (String × JsonTree N) → Pointer → List MigrationError
  | [], _ => []
  | (key, child) :: rest, pointer =>
    collectPostTransformErrors child (pointer ++ [.key key]) ++ collectEntryErrors rest pointer

end

def migrateValue (ctx : TransformContext) (validate : Bool) (input : JsonTree N) :
    TransformOutcome N :=
  let transformed := transformValue ctx input []
  let validationErrors :=
    if validate then collectPostTransformErrors transformed.value [] else []
  { transformed with errors := transformed.errors ++ validationErrors }

end Agyn.RefMigration
