import Agyn.PrismaJson

/-!
The removal of NUL characters from values before they are stored: the sanitizer of JSON values and
the one of whole payloads. A value carries with it whether it is another value than the one it was
made from. Numbers are those of JSON, which equal themselves, and no object occurs twice in a value.
-/
namespace Agyn.NullBytes

variable {N : Type}

def NULL_CHAR : Char := '\x00'

inductive SanitizeField where
  | contentText
  | contentJson
  | metadata
  | payload
  deriving DecidableEq

def SanitizeField.name : SanitizeField → String
  | .contentText => "contentText"
  | .contentJson => "contentJson"
  | .metadata => "metadata"
  | .payload => "payload"

structure ContextItemNullByteGuardError where
  field : SanitizeField
  path : Option String
  deriving DecidableEq

def ContextItemNullByteGuardError.message (e : ContextItemNullByteGuardError) : String :=
  "context_item.null_byte_guard: " ++ e.path.getD e.field.name

/-- The two variables of the environment that switch the guard on. -/
structure NullGuardEnv where
  CONTEXT_ITEM_NULL_GUARD : Option String
  CONTEXT_ITEM_NUL_GUARD : Option String

def isNullGuardEnabled (env : NullGuardEnv) : Bool :=
  match env.CONTEXT_ITEM_NULL_GUARD.or env.CONTEXT_ITEM_NUL_GUARD with
  | none => false
  | some raw => raw = "1" || raw.toLower = "true"

abbrev Guarded (α : Type) := Except ContextItemNullByteGuardError α

def includesNull (s : String) : Bool := s.toList.contains NULL_CHAR

/-- `value.split(NULL_CHAR).join('')`. -/
def withoutNulls (s : String) : String := String.ofList (s.toList.filter (· ≠ NULL_CHAR))

def pathText (path : List String) : Option String :=
  if path = [] then none else some (".".intercalate path)

def sanitizeString (guard : Bool) (field : SanitizeField) (path : List String) (value : String) :
    Guarded String :=
  if value = "" then .ok value
  else if guard && includesNull value then .error ⟨field, pathText path⟩
  else if !includesNull value then .ok value
  else .ok (withoutNulls value)

/-- A string is another one when its characters differ. -/
def sanitizeStringValue (guard : Bool) (field : SanitizeField) (path : List String)
    (value : String) : Guarded (JsValue N × Bool) :=
  (sanitizeString guard field path value).map fun s => (.str s, s ≠ value)

mutual

/-- The recursion of `sanitizePrismaJson`. -/
def prismaJson (guard : Bool) (field : SanitizeField) (path : List String) :
    JsValue N → Guarded (JsValue N × Bool)
  | .str s => sanitizeStringValue guard field path s
  | .arr items =>
    (prismaItems guard field path 0 items).map fun next =>
      (if next.2 then .arr next.1 else .arr items, next.2)
  | .obj isPlain entries =>
    if isPlain then
      (prismaEntries guard field path (true, []) entries).map fun out =>
        (if out.2 then .obj out.1.1 out.1.2 else .obj isPlain entries, out.2)
    else .ok (.obj isPlain entries, false)
  | v => .ok (v, false)

def prismaItems (guard : Bool) (field : SanitizeField) (path : List String) (index : ℕ) :
    List (JsValue N) → Guarded (List (JsValue N) × Bool)
  | [] => .ok ([], false)
  | entry :: rest =>
    (prismaJson guard field (path ++ [toString index]) entry).bind fun sanitized =>
      (prismaItems guard field path (index + 1) rest).map fun next =>
        (sanitized.1 :: next.1, sanitized.2 || next.2)

def prismaEntries (guard : Bool) (field : SanitizeField) (path : List String) (out : JsObject N) :
    List (String × JsValue N) → Guarded (JsObject N × Bool)
  | [] => .ok (out, false)
  | (key, entry) :: rest =>
    (prismaJson guard field (path ++ [key]) entry).bind fun sanitized =>
      (prismaEntries guard field path (putProperty out key sanitized.1) rest).map fun next =>
        (next.1, sanitized.2 || next.2)

end

def sanitizePrismaJson (env : NullGuardEnv) (guardOverride : Option Bool) (field : SanitizeField)
    (path : List String) (value : JsValue N) : Guarded (JsValue N) :=
  (prismaJson (guardOverride.getD (isNullGuardEnabled env)) field path value).map (·.1)

def resolveField (path : List String) : SanitizeField :=
  match path.head? with
  | some "contentText" => .contentText
  | some "contentJson" => .contentJson
  | some "metadata" => .metadata
  | _ => .payload

mutual

/-- The JSON nulls of Prisma are objects of a class, like all that is not plain. -/
def sanitizeValue (guard : Bool) (path : List String) : JsValue N → Guarded (JsValue N × Bool)
  | .str s => sanitizeStringValue guard (resolveField path) path s
  | .arr items =>
    (sanitizeElements guard path [] false items).map fun result =>
      (if result.2 then .arr result.1 else .arr items, result.2)
  | .obj isPlain entries =>
    if isPlain then
      (sanitizeRecord guard path (true, []) false entries).map fun out =>
        (if out.2 then .obj out.1.1 out.1.2 else .obj isPlain entries, out.2)
    else .ok (.obj isPlain entries, false)
  | v => .ok (v, false)

def sanitizeElements (guard : Bool) (path : List String) (result : List (JsValue N))
    (mutated : Bool) : List (JsValue N) → Guarded (List (JsValue N) × Bool)
  | [] => .ok (result, mutated)
  | entry :: rest =>
    (sanitizeValue guard (path ++ [toString result.length]) entry).bind fun sanitized =>
      sanitizeElements guard path (result ++ [sanitized.1]) (mutated || sanitized.2) rest

def sanitizeRecord (guard : Bool) (path : List String) (out : JsObject N) (mutated : Bool) :
    List (String × JsValue N) → Guarded (JsObject N × Bool)
  | [] => .ok (out, mutated)
  | (key, entry) :: rest =>
    (sanitizeValue guard (path ++ [key]) entry).bind fun sanitized =>
      sanitizeRecord guard path (putProperty out key sanitized.1) (mutated || sanitized.2) rest

end

/-- `value ?? other`. -/
def orElse (value other : JsValue N) : JsValue N :=
  match value with
  | .null => other
  | .undefined => other
  | _ => value

def sanitizeContextItemPayload (env : NullGuardEnv) (guardOption : Option Bool)
    (payload : JsValue N) : Guarded (JsValue N) :=
  match payload with
  | .arr _ | .obj _ _ =>
    (sanitizeValue (guardOption.getD (isNullGuardEnabled env)) [] payload).map fun next =>
      orElse next.1 payload
  | _ => .ok payload

end Agyn.NullBytes
