import Mathlib.Data.Int.Notation
import Mathlib.Data.Nat.Notation
import Mathlib.Logic.Function.Basic

/-!
The resolution of vault and variable references in a JSON value. A walk visits the value in
order and replaces every reference by what its provider gives for it; a memoized walk asks the
provider only once for each cache key. Cycle detection is left out, since a JSON value is a tree.
-/
namespace Agyn.References

/-- JSON; a number is given by the text it prints as. -/
inductive Json where
  | null
  | bool (b : Bool)
  | num (text : String)
  | str (s : String)
  | arr (items : List Json)
  | obj (entries : List (String × Json))

namespace Json

def get (entries : List (String × Json)) (key : String) : Option Json :=
  (entries.find? fun e => e.1 = key).map Prod.snd

def truthy : Json → Bool
  | .null => false
  | .bool b => b
  | .num text => text ≠ "0"
  | .str s => s ≠ ""
  | .arr _ | .obj _ => true

mutual

/-- `String(value)`, as in a template. -/
def text : Json → String
  | .null => "null"
  | .bool b => if b then "true" else "false"
  | .num text => text
  | .str s => s
  | .arr items => ",".intercalate (texts items)
  | .obj _ => "[object Object]"

def texts : List Json → List String
  | [] => []
  | .null :: rest => "" :: texts rest
  | item :: rest => item.text :: texts rest

end

end Json

structure SecretRef where
  path : String
  key : String
  mount : Option Json

structure VariableRef where
  name : String
  default : Option Json

inductive ResolutionEventSource where
  | secret
  | variable
  deriving DecidableEq

inductive ResolutionErrorCode where
  | unresolvedReference
  | providerMissing
  | permissionDenied
  | invalidReference
  | typeMismatch
  | maxDepthExceeded
  | cycleDetected
  deriving DecidableEq

structure ResolveError where
  code : ResolutionErrorCode
  message : String
  path : String
  source : ResolutionEventSource

/-- What a provider does: it returns a value, returns nothing, throws a `ResolveError`, or throws
another error, which may carry the status code 403. -/
inductive ProviderResult where
  | value (text : String)
  | missing
  | resolveError (error : ResolveError)
  | error (forbidden : Bool) (message : String)

structure Providers where
  secretProvider : Option (SecretRef → ProviderResult)
  variableProvider : Option (VariableRef → ProviderResult)

inductive LenientUnresolvedValue where
  | keep
  | null
  | default
  deriving DecidableEq

structure ResolveOptions where
  strict : Bool
  memoize : Bool
  maxDepth : ℤ
  coerceToString : Bool
  report : Bool
  lenientUnresolvedValue : LenientUnresolvedValue
  basePath : Option String

structure ResolutionEvent where
  path : String
  source : ResolutionEventSource
  cacheHit : Bool
  resolved : Bool
  error : Option (ResolutionErrorCode × String)

structure ResolutionCounts where
  total : ℕ
  resolved : ℕ
  unresolved : ℕ
  cacheHits : ℕ
  errors : ℕ

/-- A cache entry; `missing` is the symbol for a reference without a value. -/
inductive Cached where
  | missing
  | value (text : String)
  deriving DecidableEq

/-- An answer from a cache, beside what the provider gives for the reference. -/
structure CacheHit where
  provided : ProviderResult
  cached : Cached

abbrev Cache := String → Option Cached

structure TraverseState where
  secretCache : Option Cache
  variableCache : Option Cache
  events : List ResolutionEvent
  counts : ResolutionCounts
  hits : List CacheHit

abbrev Walk := ExceptT ResolveError (StateM TraverseState)

/-- `isSecretRef`, with the fields of the reference. -/
def asSecretRef (entries : List (String × Json)) : Option SecretRef :=
  match Json.get entries "kind", Json.get entries "path", Json.get entries "key" with
  | some (.str kind), some (.str path), some (.str key) =>
    if kind = "vault" ∧ path ≠ "" ∧ key ≠ "" then
      some ⟨path, key, Json.get entries "mount"⟩
    else none
  | _, _, _ => none

/-- `isVariableRef`, with the fields of the reference. -/
def asVariableRef (entries : List (String × Json)) : Option VariableRef :=
  match Json.get entries "kind", Json.get entries "name" with
  | some (.str kind), some (.str name) =>
    if kind = "var" ∧ name ≠ "" then some ⟨name, Json.get entries "default"⟩ else none
  | _, _ => none

def normalizeSecretRef (ref : SecretRef) : SecretRef :=
  { ref with mount := ref.mount.filter Json.truthy }

def secretCacheKey (normalized : SecretRef) : String :=
  (normalized.mount.map Json.text).getD "" ++ ":" ++ normalized.path ++ ":" ++ normalized.key

def encodePointerSegment (segment : String) : String :=
  String.ofList (segment.toList.flatMap fun c =>
    if c = '~' then ['~', '0'] else if c = '/' then ['~', '1'] else [c])

def dropTrailingSlash (s : String) : String :=
  if s.toList.getLast? = some '/' then String.ofList s.toList.dropLast else s

def buildPointer (basePath : Option String) (segments : List String) : String :=
  let pointer := String.join (segments.map fun segment => "/" ++ encodePointerSegment segment)
  match basePath.filter (· ≠ "") with
  | none => pointer
  | some base => if pointer = "" then base else dropTrailingSlash base ++ pointer

/-- What stands in the output for a reference without a value; `ref` is the reference as it
stands in the input. -/
def lenientFallback (options : ResolveOptions) (default : Option Json) (ref : Json) : Json :=
  match options.lenientUnresolvedValue with
  | .null => .null
  | .default =>
    match default with
    | none | some .null => .null
    | some value => if options.coerceToString then .str value.text else value
  | .keep => ref

namespace TraverseState

def initial (memoize : Bool) : TraverseState :=
  let cache : Option Cache := if memoize then some fun _ => none else none
  ⟨cache, cache, [], ⟨0, 0, 0, 0, 0⟩, []⟩

def cached (s : TraverseState) : ResolutionEventSource → Cache
  | .secret => s.secretCache.getD fun _ => none
  | .variable => s.variableCache.getD fun _ => none

def setCached (s : TraverseState) (source : ResolutionEventSource) (key : String)
    (entry : Cached) : TraverseState :=
  let set := fun cache : Cache => Function.update cache key (some entry)
  match source with
  | .secret => { s with secretCache := s.secretCache.map set }
  | .variable => { s with variableCache := s.variableCache.map set }

def count (s : TraverseState) (add : ResolutionCounts → ResolutionCounts) : TraverseState :=
  { s with counts := add s.counts }

def recordEvent (s : TraverseState) (options : ResolveOptions) (event : ResolutionEvent) :
    TraverseState :=
  if options.report then { s with events := s.events ++ [event] } else s

end TraverseState

def addTotal (c : ResolutionCounts) : ResolutionCounts := { c with total := c.total + 1 }
def addResolved (c : ResolutionCounts) : ResolutionCounts := { c with resolved := c.resolved + 1 }
def addUnresolved (c : ResolutionCounts) : ResolutionCounts :=
  { c with unresolved := c.unresolved + 1 }
def addCacheHit (c : ResolutionCounts) : ResolutionCounts := { c with cacheHits := c.cacheHits + 1 }
def addError (c : ResolutionCounts) : ResolutionCounts := { c with errors := c.errors + 1 }

/-- A reference on a walk: how its kind words messages and codes errors, what its provider gives
for it when there is one, its cache key, and what stands for it when it has no value. -/
structure Lookup where
  source : ResolutionEventSource
  label : String
  errorCode : Bool → ResolutionErrorCode
  provided : Option ProviderResult
  key : String
  fallback : Json
  pointer : String

/-- The error is thrown in strict mode; else the reference counts as unresolved. -/
def giveUp (options : ResolveOptions) (l : Lookup) (error : ResolveError) (s : TraverseState) :
    Except ResolveError Json × TraverseState :=
  if options.strict then (.error error, s) else (.ok l.fallback, s.count addUnresolved)

def resolveCached (options : ResolveOptions) (l : Lookup) (cached : Cached) (s : TraverseState) :
    Except ResolveError Json × TraverseState :=
  let s := s.count addCacheHit
  match cached with
  | .missing =>
    let s := (s.count addUnresolved).recordEvent options ⟨l.pointer, l.source, true, false,
      some (.unresolvedReference, l.label ++ " reference unresolved (cached)")⟩
    if options.strict then
      (.error ⟨.unresolvedReference, l.label ++ " reference unresolved", l.pointer, l.source⟩, s)
    else (.ok l.fallback, s)
  | .value text =>
    (.ok (.str text), (s.count addResolved).recordEvent options
      ⟨l.pointer, l.source, true, true, none⟩)

def resolveProvided (options : ResolveOptions) (l : Lookup) (result : ProviderResult)
    (s : TraverseState) : Except ResolveError Json × TraverseState :=
  match result with
  | .value text =>
    (.ok (.str text), ((s.setCached l.source l.key (.value text)).count addResolved).recordEvent
      options ⟨l.pointer, l.source, false, true, none⟩)
  | .missing =>
    let s := ((s.setCached l.source l.key .missing).count addUnresolved).recordEvent options
      ⟨l.pointer, l.source, false, false,
        some (.unresolvedReference, l.label ++ " reference unresolved")⟩
    if options.strict then
      -- the error is caught and recorded once more before it leaves
      let message := l.label ++ " reference could not be resolved"
      (.error ⟨.unresolvedReference, message, l.pointer, l.source⟩,
        (s.count addError).recordEvent options ⟨l.pointer, l.source, false, false,
          some (.unresolvedReference, message)⟩)
    else (.ok l.fallback, s)
  | .resolveError error =>
    giveUp options l error ((s.count addError).recordEvent options
      ⟨l.pointer, l.source, false, false, some (error.code, error.message)⟩)
  | .error forbidden message =>
    giveUp options l ⟨l.errorCode forbidden, message, l.pointer, l.source⟩
      ((s.count addError).recordEvent options ⟨l.pointer, l.source, false, false,
        some (l.errorCode forbidden, message)⟩)

def resolveRef (options : ResolveOptions) (l : Lookup) : Walk Json := fun s =>
  let s := s.count addTotal
  match l.provided with
  | none =>
    let message := l.label ++ " provider is not configured"
    giveUp options l ⟨.providerMissing, message, l.pointer, l.source⟩
      ((s.recordEvent options ⟨l.pointer, l.source, false, false,
        some (.providerMissing, message)⟩).count addError)
  | some result =>
    match s.cached l.source l.key with
    | some cached => resolveCached options l cached { s with hits := s.hits ++ [⟨result, cached⟩] }
    | none => resolveProvided options l result s

variable (providers : Providers) (options : ResolveOptions)

/-- What `resolveSecretRef` looks up. -/
def secretLookup (ref : SecretRef) (raw : Json) (pointer : String) : Lookup :=
  let normalized := normalizeSecretRef ref
  { source := .secret
    label := "Secret"
    errorCode := fun forbidden => if forbidden then .permissionDenied else .invalidReference
    provided := providers.secretProvider.map fun provider => provider normalized
    key := secretCacheKey normalized
    fallback := lenientFallback options none raw
    pointer }

/-- What `resolveVariableRef` looks up. -/
def variableLookup (ref : VariableRef) (raw : Json) (pointer : String) : Lookup :=
  { source := .variable
    label := "Variable"
    errorCode := fun _ => .invalidReference
    provided := providers.variableProvider.map fun provider => provider ref
    key := ref.name
    fallback := lenientFallback options ref.default raw
    pointer }

def resolveSecretRef (ref : SecretRef) (raw : Json) (pointer : String) : Walk Json :=
  resolveRef options (secretLookup providers options ref raw pointer)

def resolveVariableRef (ref : VariableRef) (raw : Json) (pointer : String) : Walk Json :=
  resolveRef options (variableLookup providers options ref raw pointer)

def maxDepthError (path : List String) : ResolveError :=
  ⟨.maxDepthExceeded, "Maximum depth of " ++ toString options.maxDepth ++ " exceeded",
    buildPointer options.basePath path, .secret⟩

/-- Writing the key `__proto__` of a fresh object creates no property. -/
def assigned (entries : List (String × Json)) : List (String × Json) :=
  entries.filter fun e => e.1 ≠ "__proto__"

mutual

def traverse : Json → List String → ℕ → Walk Json
  | .arr items, path, depth =>
    if options.maxDepth < depth then throw (maxDepthError options path)
    else do return .arr (← traverseItems items path 0 depth)
  | .obj entries, path, depth =>
    if options.maxDepth < depth then throw (maxDepthError options path)
    else
      match asSecretRef entries, asVariableRef entries with
      | some ref, _ =>
        resolveSecretRef providers options ref (.obj entries) (buildPointer options.basePath path)
      | none, some ref =>
        resolveVariableRef providers options ref (.obj entries)
          (buildPointer options.basePath path)
      | none, none => do return .obj (assigned (← traverseEntries entries path depth))
  | value, path, depth =>
    if options.maxDepth < depth then throw (maxDepthError options path) else return value

def traverseItems : List Json → List String → ℕ → ℕ → Walk (List Json)
  | [], _, _, _ => return []
  | item :: rest, path, index, depth => do
    let next ← traverse item (path ++ [toString index]) (depth + 1)
    return next :: (← traverseItems rest path (index + 1) depth)

def traverseEntries : List (String × Json) → List String → ℕ → Walk (List (String × Json))
  | [], _, _ => return []
  | (key, value) :: rest, path, depth => do
    let next ← traverse value (path ++ [key]) (depth + 1)
    return (key, next) :: (← traverseEntries rest path depth)

end

structure ResolveResult where
  output : Json
  events : List ResolutionEvent
  counts : ResolutionCounts

def walk (input : Json) : Except ResolveError Json × TraverseState :=
  traverse providers options input [] 0 (.initial options.memoize)

/-- The report is lost when the walk throws. -/
def resolveReferences (input : Json) : Except ResolveError ResolveResult :=
  match walk providers options input with
  | (.ok output, s) => .ok ⟨output, s.events, s.counts⟩
  | (.error error, _) => .error error

end Agyn.References
