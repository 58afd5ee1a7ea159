import Agyn.PrismaJson
import Agyn.LLMState

/-!
How a conversation is stored and read back: each message as a kind and its plain value, the
summary, and the context with the ids of its items. Here messages keep the values they were
built from and ids are strings. The cast of a stored value to its declared type is checked:
a value of another type is an error.
-/
namespace Agyn.StateCodec

open JsValue

variable {N : Type}

structure ResponseUsageSnapshot (N : Type) where
  inputTokens : N
  cachedTokens : Option N
  outputTokens : N
  reasoningTokens : Option N
  totalTokens : N

inductive LLMMessage (N : Type) where
  | human (source : JsValue N)
  | system (source : JsValue N)
  | ai (source : JsValue N)
  | response (output : List (JsValue N)) (usage : Option (ResponseUsageSnapshot N))
  | toolCallOutput (source : JsValue N)

structure LLMContextMemoryEntry where
  id : Option String
  place : MemoryPlacement

structure LLMContextSummaryState where
  id : Option String
  text : Option String

structure LLMContextSystemState where
  id : Option String

structure LLMContextState where
  messageIds : List String
  memory : List LLMContextMemoryEntry
  summary : Option LLMContextSummaryState
  system : Option LLMContextSystemState
  pendingNewContextItemIds : Option (List String)

structure LLMState (N : Type) where
  messages : List (LLMMessage N)
  summary : Option String
  context : LLMContextState
  turnMeta : LLMTurnMeta

def LLMContextState.empty : LLMContextState := ⟨[], [], none, none, some []⟩

def emptyState : LLMState N := ⟨[], none, LLMContextState.empty, LLMTurnMeta.empty⟩

section Responses

def asNumber : JsValue N → Option N
  | .num n => some n
  | _ => none

def normalizeUsage (usage : JsValue N) : Option (ResponseUsageSnapshot N) := do
  let inputTokens ← asNumber (usage.get "input_tokens")
  let outputTokens ← asNumber (usage.get "output_tokens")
  let totalTokens ← asNumber (usage.get "total_tokens")
  return {
    inputTokens, outputTokens, totalTokens
    cachedTokens := asNumber ((usage.get "input_tokens_details").get "cached_tokens")
    reasoningTokens := asNumber ((usage.get "output_tokens_details").get "reasoning_tokens") }

def tokensDetails (key inner : String) : Option N → List (String × JsValue N)
  | some n => [(key, .record [(inner, .num n)])]
  | none => []

def ResponseUsageSnapshot.toPlain (usage : ResponseUsageSnapshot N) : JsValue N :=
  .record ([("input_tokens", .num usage.inputTokens), ("output_tokens", .num usage.outputTokens),
    ("total_tokens", .num usage.totalTokens)] ++
    tokensDetails "input_tokens_details" "cached_tokens" usage.cachedTokens ++
    tokensDetails "output_tokens_details" "reasoning_tokens" usage.reasoningTokens)

def usageEntry : Option (ResponseUsageSnapshot N) → List (String × JsValue N)
  | some usage => [("usage", usage.toPlain)]
  | none => []

end Responses

def LLMMessage.toPlain : LLMMessage N → JsValue N
  | .human source => source
  | .system source => source
  | .ai source => source
  | .response output usage => .record (("output", .arr output) :: usageEntry usage)
  | .toolCallOutput source => source

section Serialize

def plainMessage (kind : String) (value : JsValue N) : JsValue N :=
  .record [("kind", .str kind), ("value", value)]

def serializeMessage (m : LLMMessage N) : Except String (JsValue N) :=
  match m with
  | .human _ => (toPrismaJsonValue m.toPlain).map (plainMessage "human")
  | .system _ => (toPrismaJsonValue m.toPlain).map (plainMessage "system")
  | .response _ _ => (toPrismaJsonValue m.toPlain).map (plainMessage "response")
  | .toolCallOutput _ => (toPrismaJsonValue m.toPlain).map (plainMessage "tool_call_output")
  | .ai _ => .error "Unsupported message type for serialization"

def idValue : Option String → JsValue N
  | some id => .str id
  | none => .null

def placeValue : MemoryPlacement → JsValue N
  | .afterSystem => .str "after_system"
  | .lastMessage => .str "last_message"

def memoryValue (entry : LLMContextMemoryEntry) : JsValue N :=
  .record [("id", idValue entry.id), ("place", placeValue entry.place)]

def summaryValue : Option LLMContextSummaryState → JsValue N
  | some summary => .record [("id", idValue summary.id), ("text", idValue summary.text)]
  | none => .undefined

def systemValue : Option LLMContextSystemState → JsValue N
  | some system => .record [("id", idValue system.id)]
  | none => .undefined

def idsValue (ids : List String) : JsValue N := .arr (ids.map .str)

def serializeContext (context : LLMContextState) : JsValue N :=
  .record [
    ("messageIds", idsValue context.messageIds),
    ("memory", .arr (context.memory.map memoryValue)),
    ("summary", summaryValue context.summary),
    ("system", systemValue context.system),
    ("pendingNewContextItemIds", (context.pendingNewContextItemIds.map idsValue).getD .undefined)]

def serializeState (state : LLMState N) : Except String (JsValue N) := do
  let messages ← state.messages.mapM serializeMessage
  return .record [
    ("messages", .arr messages),
    ("summary", (state.summary.map .str).getD .undefined),
    ("context", serializeContext state.context)]

end Serialize

section Guards

def isRecord : JsValue N → Bool
  | .arr _ => true
  | .obj _ _ => true
  | _ => false

/-- `key in obj`, for keys that no prototype has. -/
def hasKey (v : JsValue N) (key : String) : Bool :=
  match v with
  | .obj _ entries => (lookup entries key).isSome
  | _ => false

def isNumber : JsValue N → Bool
  | .num _ => true
  | _ => false

def isArray : JsValue N → Bool
  | .arr _ => true
  | _ => false

def isString (v : JsValue N) (s : String) : Bool :=
  match v with
  | .str t => t = s
  | _ => false

/-- `isMessageLike` and a role. -/
def isRoleMessage (role : String) (v : JsValue N) : Bool :=
  isRecord v && hasKey v "role" && hasKey v "content" && isString (v.get "role") role

def isUserMessage (v : JsValue N) : Bool := isRoleMessage "user" v

def isSystemMessage (v : JsValue N) : Bool := isRoleMessage "system" v

/-- The details of a usage are missing, null, or an object whose count is a number. -/
def isDetails (v : JsValue N) (key inner : String) : Bool :=
  if hasKey v key then
    match v.get key with
    | .null => true
    | details => isRecord details && (!hasKey details inner || isNumber (details.get inner))
  else true

def isUsageValue (v : JsValue N) : Bool :=
  isRecord v &&
  (hasKey v "input_tokens" && isNumber (v.get "input_tokens")) &&
  (hasKey v "output_tokens" && isNumber (v.get "output_tokens")) &&
  (hasKey v "total_tokens" && isNumber (v.get "total_tokens")) &&
  isDetails v "input_tokens_details" "cached_tokens" &&
  isDetails v "output_tokens_details" "reasoning_tokens"

def isResponseValue (v : JsValue N) : Bool :=
  isRecord v && (hasKey v "output" && isArray (v.get "output")) &&
  (if hasKey v "usage" then
    match v.get "usage" with
    | .null => true
    | usage => isUsageValue usage
  else true)

def isFunctionCallOutput (v : JsValue N) : Bool :=
  isRecord v && (hasKey v "type" && hasKey v "output")

def isPlainLLMState (v : JsValue N) : Bool :=
  match v.get "messages" with
  | .arr [] => true
  | .arr (m :: _) => isRecord m && hasKey m "kind" && hasKey m "value"
  | _ => false

end Guards

section Deserialize

def asItems : JsValue N → List (JsValue N)
  | .arr items => items
  | _ => []

/-- `new ResponseMessage(value)`. -/
def newResponse (value : JsValue N) : LLMMessage N :=
  .response (asItems (value.get "output")) (normalizeUsage (value.get "usage"))

def invalidMessage : String := "Invalid persisted message value"

def deserializeMessage (msg : JsValue N) : Except String (LLMMessage N) :=
  let val := msg.get "value"
  match msg.get "kind" with
  | .str kind =>
    if kind = "human" then
      if isUserMessage val then .ok (.human val) else .error invalidMessage
    else if kind = "system" then
      if isSystemMessage val then .ok (.system val) else .error invalidMessage
    else if kind = "response" then
      if isResponseValue val then .ok (newResponse val) else .error invalidMessage
    else if kind = "tool_call_output" then
      if isFunctionCallOutput val then .ok (.toolCallOutput val) else .error invalidMessage
    else .error invalidMessage
  | _ => .error invalidMessage

def illTyped {α : Type} : Except String α := .error "a value of another type than declared"

def readId : JsValue N → Except String (Option String)
  | .str id => .ok (some id)
  | .null => .ok none
  | .undefined => .ok none
  | _ => illTyped

def readOptionalString : JsValue N → Except String (Option String)
  | .str s => .ok (some s)
  | .undefined => .ok none
  | _ => illTyped

def readString : JsValue N → Except String String
  | .str s => .ok s
  | _ => illTyped

def readPlace : JsValue N → Except String MemoryPlacement
  | .str s =>
    if s = "after_system" then .ok .afterSystem
    else if s = "last_message" then .ok .lastMessage
    else illTyped
  | _ => illTyped

def readMemoryEntry (entry : JsValue N) : Except String LLMContextMemoryEntry := do
  return ⟨← readId (entry.get "id"), ← readPlace (entry.get "place")⟩

def readList {α : Type} (read : JsValue N → Except String α) :
    JsValue N → Except String (List α)
  | .arr items => items.mapM read
  | .null => .ok []
  | .undefined => .ok []
  | _ => illTyped

/-- A record, or a missing one as none. -/
def readRecord {α : Type} (read : JsValue N → Except String α) :
    JsValue N → Except String (Option α)
  | .null => .ok none
  | .undefined => .ok none
  | .obj isPlain entries => (read (.obj isPlain entries)).map some
  | _ => illTyped

def readSummary (v : JsValue N) : Except String LLMContextSummaryState := do
  return ⟨← readId (v.get "id"), ← readId (v.get "text")⟩

def readSystem (v : JsValue N) : Except String LLMContextSystemState := do
  return ⟨← readId (v.get "id")⟩

def deserializeContext (context : JsValue N) : Except String LLMContextState := do
  let messageIds ← readList readString (context.get "messageIds")
  let memory ← readList readMemoryEntry (context.get "memory")
  let summary ← readRecord readSummary (context.get "summary")
  let system ← readRecord readSystem (context.get "system")
  let pending ← readList readString (context.get "pendingNewContextItemIds")
  return ⟨messageIds, memory, summary, system, some pending⟩

def deserializeState (plain : JsValue N) : Except String (LLMState N) :=
  if isPlainLLMState plain then do
    let messages ← (asItems (plain.get "messages")).mapM deserializeMessage
    let summary ← readOptionalString (plain.get "summary")
    let context ← deserializeContext (plain.get "context")
    return ⟨messages, summary, context, LLMTurnMeta.empty⟩
  else .ok emptyState

end Deserialize

end Agyn.StateCodec
