import Mathlib.Data.List.Sort
import Agyn.NullBytes
import Agyn.PersistedGraph

/-!
What is stored of an input of a context item: its role, its text without NUL characters, its JSON
and metadata. An input with neither text nor JSON is dropped. Values have no JSON nulls of Prisma
inside; the collation of keys and the text of JSON are parameters.
-/
namespace Agyn.ContextItems

open JsValue NullBytes

variable {N : Type}

inductive ContextItemRole where
  | system
  | user
  | assistant
  | tool
  | memory
  | summary
  | other
  deriving DecidableEq

def ContextItemRole.text : ContextItemRole → String
  | .system => "system"
  | .user => "user"
  | .assistant => "assistant"
  | .tool => "tool"
  | .memory => "memory"
  | .summary => "summary"
  | .other => "other"

/-- `inherited` is what the prototype of object literals has under the name of a role. -/
inductive CoercedRole where
  | role (r : ContextItemRole)
  | inherited (name : String)
  deriving DecidableEq

def ROLE_ALIASES : List (String × ContextItemRole) :=
  [("system", .system), ("user", .user), ("human", .user), ("assistant", .assistant),
    ("ai", .assistant), ("tool", .tool), ("function", .tool), ("memory", .memory),
    ("summary", .summary), ("other", .other)]

/-- The properties of that prototype whose names are in lower case. -/
def inheritedNames : List String := ["constructor", "__proto__"]

def coerceContextItemRole (value : Option String) : CoercedRole :=
  match value with
  | none => .role .other
  | some value =>
    if trim value ≠ "" then
      let normalized := (trim value).toLower
      match ROLE_ALIASES.lookup normalized with
      | some role => .role role
      | none => if normalized ∈ inheritedNames then .inherited normalized else .role .other
    else .role .other

structure ContextItemInput (N : Type) where
  role : Option String
  contentText : JsValue N
  contentJson : JsValue N
  metadata : JsValue N

structure NormalizedContextItem (N : Type) where
  role : CoercedRole
  contentText : Option String
  contentJson : JsValue N
  metadata : JsValue N
  sizeBytes : ℕ

/-- `Prisma.JsonNull`, an object of a class. -/
def prismaJsonNull : JsValue N := .obj false []

/-- What the language and its environment do: `localeCompare` as an order, `JSON.stringify`, the
number of a length, and the switches of the guard. -/
structure Runtime (N : Type) where
  localeLe : String → String → Bool
  stringify : JsValue N → String
  ofNat : ℕ → N
  env : NullGuardEnv

section Normalizing

variable (rt : Runtime N)

mutual

def toCanonicalJson : JsValue N → JsValue N
  | .arr items => .arr (canonicalItems items)
  | .obj _ entries =>
    let sorted := (canonicalEntries entries).mergeSort fun a b => rt.localeLe a.1 b.1
    let out := sorted.foldl (fun out e => putProperty out e.1 e.2) (true, [])
    .obj out.1 out.2
  | v => v

def canonicalItems : List (JsValue N) → List (JsValue N)
  | [] => []
  | v :: rest => toCanonicalJson v :: canonicalItems rest

def canonicalEntries : List (String × JsValue N) → List (String × JsValue N)
  | [] => []
  | (key, v) :: rest => (key, toCanonicalJson v) :: canonicalEntries rest

end

/-- The JSON that is stored, and its canonical form when there is one. -/
def normalizeJsonValue (value : JsValue N) : Guarded (JsValue N × Option (JsValue N)) :=
  match value with
  | .undefined | .null => .ok (prismaJsonNull, none)
  | value =>
    (sanitizePrismaJson rt.env none .contentJson ["contentJson"] value).map fun sanitized =>
      match toPrismaJsonValue sanitized with
      | .ok jsonValue => (jsonValue, some (toCanonicalJson rt jsonValue))
      | .error _ => (prismaJsonNull, none)

def normalizeMetadata (value : JsValue N) : Guarded (JsValue N) :=
  match value with
  | .undefined | .null => .ok prismaJsonNull
  | value =>
    (sanitizePrismaJson rt.env none .metadata ["metadata"] value).map fun sanitized =>
      match toPrismaJsonValue sanitized with
      | .ok jsonValue => jsonValue
      | .error _ => prismaJsonNull

def normalizeText (value : JsValue N) : Guarded (Option String) :=
  match value with
  | .str s => (NullBytes.sanitizeString (isNullGuardEnabled rt.env) .contentText [] s).map some
  | _ => .ok none

/-- Nothing is left of an input without text and JSON. -/
def normalizeContextItem (input : ContextItemInput N) :
    Guarded (Option (NormalizedContextItem N)) := do
  let text ← normalizeText rt input.contentText
  let (jsonValue, canonicalJson) ← normalizeJsonValue rt input.contentJson
  let metadata ← normalizeMetadata rt input.metadata
  if text = none ∧ canonicalJson.isNone then return none
  let textBytes := (text.map String.utf8ByteSize).getD 0
  let jsonBytes := (canonicalJson.map fun json => (rt.stringify json).utf8ByteSize).getD 0
  return some ⟨coerceContextItemRole input.role, text, jsonValue, metadata, textBytes + jsonBytes⟩

def normalizeContextItems : List (ContextItemInput N) → Guarded (List (NormalizedContextItem N))
  | [] => .ok []
  | entry :: inputs => do
    let normalized ← normalizeContextItem rt entry
    let out ← normalizeContextItems inputs
    return normalized.toList ++ out

end Normalizing

end Agyn.ContextItems
