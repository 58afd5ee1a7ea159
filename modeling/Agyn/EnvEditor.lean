import Agyn.JsonTrees
import Agyn.PersistedGraph

/-!
The editor of environment variables: a list of entries is read into rows with a text to edit, and
rows are written back as entries. A reference is shown as one text, and parsed back with what was
there before. Clones of JSON are the values themselves.
-/
namespace Agyn.EnvEditor

open JsonTree

variable {N : Type}

inductive EnvSource where
  | static
  | vault
  | variable
  deriving DecidableEq

inductive ReferenceSourceType where
  | text
  | secret
  | variable
  deriving DecidableEq

inductive KeyField where
  | name
  | key
  deriving DecidableEq

structure EnvVarMeta (N : Type) where
  keyField : KeyField
  original : Option (JsonTree N)
  originalSource : Option EnvSource
  valueShape : Option (JsonTree N)

structure EnvVar (N : Type) where
  id : String
  name : String
  value : String
  source : EnvSource
  metadata : EnvVarMeta N

def isRecord : JsonTree N → Bool
  | .arr _ => true
  | .obj _ _ => true
  | _ => false

def asString : Option (JsonTree N) → Option String
  | some (.str s) => some s
  | _ => none

/-- `record[key] = value`; a property that is set on an array is not part of its JSON. -/
def setProperty (record : JsonTree N) (key : String) (value : JsonTree N) : JsonTree N :=
  match record with
  | .obj proto entries => .obj proto (assignKey entries key value)
  | record => record

def deleteProperty (record : JsonTree N) (key : String) : JsonTree N :=
  match record with
  | .obj proto entries => .obj proto (removeKey entries key)
  | record => record

def hasOwnProperty (record : JsonTree N) (key : String) : Bool :=
  match record with
  | .obj _ entries => key ∈ entries.map Prod.fst
  | _ => false

def joinSlash (segments : List String) : String := "/".intercalate segments

def formatVaultSegments (value : JsonTree N) : String :=
  let mount := (asString (value.get "mount")).map trim
  let path := (asString (value.get "path")).map trim
  let key := (asString (value.get "key")).map trim
  let hasPath := path.getD "" ≠ ""
  let hasKey := key.getD "" ≠ ""
  let segments :=
    (if mount.getD "" ≠ "" ∧ (hasPath ∨ hasKey) then [mount.getD ""] else []) ++
      (if hasPath then [path.getD ""] else []) ++ (if hasKey then [key.getD ""] else [])
  if segments.length = 0 ∧ (asString (value.get "value")).isSome then
    (asString (value.get "value")).getD ""
  else joinSlash segments

structure ParsedVault where
  path : String
  key : String
  mount : Option String
  deriving DecidableEq

/-- `trimmed.split('/')`, each part trimmed, without the empty parts. -/
def vaultSegments (trimmed : String) : List String :=
  ((trimmed.toList.splitOn '/').map fun segment => trim (String.ofList segment)).filter (· ≠ "")

def parseVaultString (input : String) (preferredMount : Option String) : ParsedVault :=
  let trimmed := trim input
  if trimmed.length = 0 then ⟨"", "", none⟩
  else
    let segments := vaultSegments trimmed
    if segments.length = 0 then ⟨"", "", none⟩
    else
      let key := segments.getLastD ""
      let pathSegments := segments.dropLast
      if preferredMount.getD "" ≠ "" ∧ pathSegments.head? = preferredMount then
        ⟨joinSlash (pathSegments.drop 1), key, preferredMount⟩
      else if pathSegments.length > 0 then
        ⟨joinSlash (pathSegments.drop 1), key, pathSegments.head?⟩
      else ⟨joinSlash pathSegments, key, none⟩

def isVaultReferenceValue (value : JsonTree N) : Bool :=
  isRecord value &&
    (asString (value.get "kind") = some "vault" || asString (value.get "source") = some "vault" ||
      (asString (value.get "path")).isSome && (asString (value.get "key")).isSome)

def isVariableReferenceValue (value : JsonTree N) : Bool :=
  isRecord value &&
    (asString (value.get "kind") = some "var" || asString (value.get "source") = some "variable" ||
      (asString (value.get "name")).isSome)

def extractDisplayValue (source : EnvSource) (raw : Option (JsonTree N)) : String :=
  match raw with
  | some (.str text) => text
  | some raw =>
    if isRecord raw then
      match source with
      | .vault => formatVaultSegments raw
      | .variable => (asString (raw.get "name")).getD ""
      | .static => (asString (raw.get "value")).getD ""
    else ""
  | none => ""

def cloneValueShape : Option (JsonTree N) → Option (JsonTree N)
  | some (.str text) => some (.str text)
  | some value => if isRecord value then some value else none
  | none => none

def previousRecord (previous : Option (JsonTree N)) : JsonTree N :=
  match previous with
  | some value => if isRecord value then value else .record []
  | none => .record []

def buildVaultValue (input : String) (previous : Option (JsonTree N)) : JsonTree N :=
  let prevMount := previous.bind fun value => asString (value.get "mount")
  let isEmptyInput := (trim input).length = 0
  let parsed := parseVaultString input prevMount
  let record := setProperty (setProperty (setProperty (previousRecord previous)
    "kind" (.str "vault")) "path" (.str parsed.path)) "key" (.str parsed.key)
  let record :=
    if parsed.mount.getD "" ≠ "" then setProperty record "mount" (.str (parsed.mount.getD ""))
    else if isEmptyInput ∧ prevMount.getD "" ≠ "" then
      setProperty record "mount" (.str (prevMount.getD ""))
    else deleteProperty record "mount"
  deleteProperty (deleteProperty (deleteProperty record "value") "name") "default"

def buildVariableValue (input : String) (previous : Option (JsonTree N)) : JsonTree N :=
  let record := setProperty (setProperty (previousRecord previous) "kind" (.str "var"))
    "name" (.str (trim input))
  deleteProperty (deleteProperty (deleteProperty (deleteProperty record "value") "path") "key")
    "mount"

def buildEnvValue (item : EnvVar N) : JsonTree N :=
  let previous := item.metadata.valueShape
  match item.source with
  | .vault => buildVaultValue item.value previous
  | .variable => buildVariableValue item.value previous
  | .static =>
    match previous with
    | some value =>
      if isRecord value then setProperty value "value" (.str item.value) else .str item.value
    | none => .str item.value

def resolveKeyField (raw : JsonTree N) : KeyField :=
  if (asString (raw.get "name")).isSome then .name
  else if (asString (raw.get "key")).isSome then .key else .name

/-- `createEnvVar` without overrides. -/
def createEnvVar (id : String) : EnvVar N := ⟨id, "", "", .static, ⟨.name, none, none, none⟩⟩

def inferReferenceSource (raw : Option (JsonTree N)) : ReferenceSourceType :=
  match raw with
  | some (.str _) => .text
  | some raw =>
    if isVaultReferenceValue raw then .secret
    else if isVariableReferenceValue raw then .variable else .text
  | none => .text

def fromReferenceSourceType : ReferenceSourceType → EnvSource
  | .secret => .vault
  | .variable => .variable
  | .text => .static

def EnvSource.text : EnvSource → String
  | .static => "static"
  | .vault => "vault"
  | .variable => "variable"

def asEnvSource (rawSource : Option String) : Option EnvSource :=
  if rawSource = some "vault" then some .vault
  else if rawSource = some "variable" then some .variable
  else if rawSource = some "static" then some .static else none

def readEnvVar (uuid : String) (item : JsonTree N) : EnvVar N :=
  if isRecord item then
    let rawSource := asEnvSource (asString (item.get "source"))
    let rawValue := item.get "value"
    let source := rawSource.getD (fromReferenceSourceType (inferReferenceSource rawValue))
    let keyField := resolveKeyField item
    let nameValue := if keyField = .name then item.get "name" else item.get "key"
    { id := (asString (item.get "id")).getD uuid
      name := (asString nameValue).getD ""
      value := extractDisplayValue source rawValue
      source
      metadata := ⟨keyField, some item, rawSource, cloneValueShape rawValue⟩ }
  else createEnvVar uuid

/-- `uuid` gives the id for an item that has none. -/
def readEnvList (uuid : ℕ → String) : JsonTree N → List (EnvVar N)
  | .arr items => items.zipIdx.map fun e => readEnvVar (uuid e.2) e.1
  | _ => []

def serializeEnvVar (item : EnvVar N) : JsonTree N :=
  let record := setProperty (item.metadata.original.getD (.record [])) "id" (.str item.id)
  let record :=
    match item.metadata.keyField with
    | .key =>
      let record := setProperty record "key" (.str item.name)
      if item.metadata.original.isNone then deleteProperty record "name" else record
    | .name =>
      let record := setProperty record "name" (.str item.name)
      if item.metadata.original.isNone then deleteProperty record "key" else record
  let origHasSource := item.metadata.original.any fun original => hasOwnProperty original "source"
  let record :=
    if item.source = .static then
      if item.metadata.originalSource = some .static ∨
          (item.metadata.originalSource = none ∧ origHasSource) then
        setProperty record "source" (.str "static")
      else deleteProperty record "source"
    else setProperty record "source" (.str item.source.text)
  setProperty record "value" (buildEnvValue item)

def serializeEnvVars (list : List (EnvVar N)) : List (JsonTree N) := list.map serializeEnvVar

inductive Edit where
  | add
  | remove (index : ℕ)
  | name (index : ℕ) (value : String)
  | value (index : ℕ) (value : String)
  | source (index : ℕ) (type : ReferenceSourceType)

/-- What the handlers of the editor do to the rows; a new row draws an id. -/
def Edit.apply (uuid : String) (envVars : List (EnvVar N)) : Edit → List (EnvVar N)
  | .add => envVars ++ [createEnvVar uuid]
  | .remove index => envVars.eraseIdx index
  | .name index text => envVars.modify index fun item => { item with name := text }
  | .value index text => envVars.modify index fun item => { item with value := text }
  | .source index type =>
    envVars.modify index fun item => { item with source := fromReferenceSourceType type }

/-- An edit of the configuration, which is read before it and written after it. -/
def editEnv (uuid : ℕ → String) (added : String) (env : JsonTree N) (edit : Edit) : JsonTree N :=
  .arr (serializeEnvVars (edit.apply added (readEnvList uuid env)))

end Agyn.EnvEditor
