import Agyn.PersistedGraph

/-!
The state of an agent's conversation: messages, the summary of what was folded away, the
ids of the context items that were recorded for them, and the counters of a turn. A
context item is named by its position in the table of items, so ids are never empty and
no two creations share one. A copy of a context is the context.
-/
namespace Agyn

structure ToolCallMessage where
  callId : String
  name : String
  args : String
  deriving DecidableEq, Repr

inductive ResponseItem where
  | message (text : String)
  | toolCall (call : ToolCallMessage)
  | reasoning (text : String)
  deriving DecidableEq, Repr

inductive LLMMessage where
  | human (text : String)
  | system (text : String)
  | ai (text : String)
  | response (output : List ResponseItem)
  | toolOutput (callId : String) (output : String)
  deriving DecidableEq, Repr

inductive MemoryPlacement where
  | afterSystem
  | lastMessage
  deriving DecidableEq, Repr

structure LLMContextMemoryEntry where
  id : Option ℕ
  place : MemoryPlacement
  deriving DecidableEq, Repr

structure LLMContextSummaryState where
  id : Option ℕ
  text : Option String
  deriving DecidableEq, Repr

structure LLMContextSystemState where
  id : Option ℕ
  deriving DecidableEq, Repr

structure LLMContextState where
  messageIds : List ℕ
  memory : List LLMContextMemoryEntry
  summary : Option LLMContextSummaryState
  system : Option LLMContextSystemState
  pendingNewContextItemIds : Option (List ℕ)
  deriving DecidableEq, Repr

/-- The `meta` of a state; a missing one has no fields. -/
structure LLMTurnMeta where
  restrictionInjectionCount : Option ℕ
  restrictionInjected : Option Bool
  lastLLMEventId : Option ℕ
  deriving DecidableEq, Repr

structure LLMState where
  messages : List LLMMessage
  summary : Option String
  context : LLMContextState
  turnMeta : LLMTurnMeta
  deriving DecidableEq, Repr

/-- What is stored for a thread and an agent node. -/
structure PlainLLMState where
  messages : List LLMMessage
  summary : Option String
  context : LLMContextState
  deriving DecidableEq, Repr

def LLMContextState.empty : LLMContextState := ⟨[], [], none, none, none⟩

def LLMTurnMeta.empty : LLMTurnMeta := ⟨none, none, none⟩

namespace ResponseItem

def toolCall? : ResponseItem → Option ToolCallMessage
  | .toolCall call => some call
  | _ => none

def text? : ResponseItem → Option String
  | .message text => some text
  | _ => none

end ResponseItem

namespace LLMMessage

/-- The tool calls inside a response; other messages have none. -/
def toolCalls : LLMMessage → List ToolCallMessage
  | .response output => output.filterMap ResponseItem.toolCall?
  | _ => []

def callIds (m : LLMMessage) : List String := m.toolCalls.map ToolCallMessage.callId

def outputId : LLMMessage → Option String
  | .toolOutput callId _ => some callId
  | _ => none

def isAI : LLMMessage → Bool
  | .ai _ => true
  | _ => false

def isBuffer : LLMMessage → Bool
  | .human _ => true
  | .system _ => true
  | .ai _ => true
  | _ => false

end LLMMessage

/-- The messages that can be passed to an agent: `AIMessage | HumanMessage | SystemMessage`. -/
abbrev BufferMessage := {m : LLMMessage // m.isBuffer = true}

def BufferMessage.human (text : String) : BufferMessage := ⟨.human text, rfl⟩

section Sanitizing

/-- Remove the null characters, which the database does not take. -/
def sanitizeString (s : String) : String :=
  String.ofList (s.toList.filter fun c => c ≠ Char.ofNat 0)

def hasNul (s : String) : Bool := s.toList.any fun c => c = Char.ofNat 0

def ToolCallMessage.sanitize (call : ToolCallMessage) : ToolCallMessage :=
  ⟨sanitizeString call.callId, sanitizeString call.name, sanitizeString call.args⟩

def ResponseItem.sanitize : ResponseItem → ResponseItem
  | .message text => .message (sanitizeString text)
  | .toolCall call => .toolCall call.sanitize
  | .reasoning text => .reasoning (sanitizeString text)

/-- Every string inside the plain form of a message, sanitized. -/
def LLMMessage.sanitize : LLMMessage → LLMMessage
  | .human text => .human (sanitizeString text)
  | .system text => .system (sanitizeString text)
  | .ai text => .ai (sanitizeString text)
  | .response output => .response (output.map ResponseItem.sanitize)
  | .toolOutput callId output => .toolOutput (sanitizeString callId) (sanitizeString output)

theorem sanitizeString_of_not_hasNul {s : String} (h : hasNul s = false) :
    sanitizeString s = s := by
  unfold hasNul at h
  unfold sanitizeString
  rw [List.filter_eq_self.mpr, String.ofList_toList]
  intro c hc
  rw [List.any_eq_false] at h
  simpa using h c hc

theorem hasNul_sanitizeString (s : String) : hasNul (sanitizeString s) = false := by
  simp [hasNul, sanitizeString]

@[simp] theorem sanitizeString_sanitizeString (s : String) :
    sanitizeString (sanitizeString s) = sanitizeString s :=
  sanitizeString_of_not_hasNul (hasNul_sanitizeString s)

end Sanitizing

section ContextItems

inductive ContextItemRole where
  | system
  | user
  | assistant
  | tool
  | memory
  | summary
  deriving DecidableEq, Repr

/-- The JSON content of an item: the plain message, or for a tool output with null characters
the output in base64. -/
inductive ContextItemJson where
  | plain (message : LLMMessage)
  | base64 (callId : String) (output : String)
  deriving DecidableEq, Repr

structure ContextItem where
  role : ContextItemRole
  contentText : Option String
  contentJson : Option ContextItemJson
  place : Option MemoryPlacement
  deriving DecidableEq, Repr

/-- `ResponseMessage.text`: that of the first text item. -/
def responseText (output : List ResponseItem) : String :=
  ((output.filterMap ResponseItem.text?).head?).getD ""

def contextItemInputFromSystem (text : String) : ContextItem :=
  ⟨.system, some text, none, none⟩

def contextItemInputFromSummary (text : String) : ContextItem :=
  ⟨.summary, some text, none, none⟩

def contextItemInputFromMemory (text : String) (place : MemoryPlacement) : ContextItem :=
  ⟨.memory, some text, none, some place⟩

def contextItemInputFromMessage : LLMMessage → ContextItem
  | .system text => contextItemInputFromSystem text
  | .human text => ⟨.user, some text, none, none⟩
  | .ai text => ⟨.assistant, some text, none, none⟩
  | .toolOutput callId output =>
    if hasNul output then ⟨.tool, none, some (.base64 callId output), none⟩
    else ⟨.tool, some output, some (.plain (.toolOutput callId output)), none⟩
  | .response output =>
    let text := responseText output
    ⟨.assistant, if trim text ≠ "" then some text else none, some (.plain (.response output)), none⟩

def ContextItemJson.sanitize : ContextItemJson → ContextItemJson
  | .plain message => .plain message.sanitize
  | .base64 callId output => .base64 (sanitizeString callId) output

def normalizeContextItem (input : ContextItem) : ContextItem :=
  { input with
    contentText := input.contentText.map sanitizeString
    contentJson := input.contentJson.map ContextItemJson.sanitize }

end ContextItems

end Agyn
