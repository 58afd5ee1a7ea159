import Agyn.LLMState
import Agyn.Loops
import Mathlib.Algebra.GroupWithZero.Nat

/-!
The reducers of an agent's loop and what they change: the stored conversation, the table
of context items, the recorded model calls, and a journal, newest event first, that no
reducer reads. Whatever comes from outside in a turn is in its environment: the looks at
the signals, the answers of models and tools, and the failures of awaited operations.
Recording of tool executions, logging and usage metrics touch none of this state.
-/
namespace Agyn

open Loops

inductive ProcessBuffer where
  | oneByOne
  | allTogether
  deriving DecidableEq, Repr

structure AgentLoopConfig where
  systemPrompt : String
  keepTokens : ℕ
  maxTokens : ℕ
  injectAfterTools : Bool
  restrictOutput : Bool
  restrictionMessage : String
  restrictionMaxInjections : ℕ
  deriving DecidableEq, Repr

/-- What the memory provider returns: a placement, and a message if there is one. -/
structure MemoryResult where
  message : Option String
  place : MemoryPlacement
  deriving DecidableEq, Repr

/-- What a turn of the loop is told from outside. A signal that is active at one look is
active at the later ones. `fault` is a failure before the main effect of the reducer,
`lateFault` one after it. -/
structure LoopEnv where
  terminateFirst : Bool
  terminateSecond : Bool
  terminateRoute : Bool
  stays_second : terminateFirst = true → terminateSecond = true
  stays_route : terminateSecond = true → terminateRoute = true
  finish : Bool
  fault : Option String
  lateFault : Option String
  summaryReply : Except String String
  memory : Option MemoryResult
  reply : Except String (List ResponseItem)
  toolOutput : ToolCallMessage → String
  drained : List BufferMessage

/-- What a message of a model call's input is there for. -/
inductive SequenceEntry where
  | system (text : String)
  | summary (text : String)
  | memory (text : String) (place : MemoryPlacement)
  | conversation (message : LLMMessage) (index : ℕ)
  deriving DecidableEq, Repr

def SequenceEntry.isConversation : SequenceEntry → Bool
  | .conversation _ _ => true
  | _ => false

def SequenceEntry.message : SequenceEntry → LLMMessage
  | .system text => .system text
  | .summary text => .human text
  | .memory text _ => .system text
  | .conversation message _ => message

/-- A model call as it was recorded, with the sequence that was prepared for it. -/
structure LLMCallRecord where
  contextItemIds : List ℕ
  newContextItemIds : List ℕ
  sequence : List SequenceEntry
  deriving DecidableEq, Repr

def LLMCallRecord.input (r : LLMCallRecord) : List LLMMessage :=
  r.sequence.map SequenceEntry.message

inductive LoopEvent where
  | summaryCalled
  | folded (tail : List LLMMessage) (summary : String)
  | modelCalled (input : List LLMMessage)
  | replied (output : List ResponseItem)
  | toolsRun (calls : List ToolCallMessage)
  | restricted
  | injected (messages : List BufferMessage)
  | saved (state : PlainLLMState)
  deriving DecidableEq, Repr

structure LLMStore where
  stored : Option PlainLLMState
  items : List ContextItem
  calls : List LLMCallRecord
  journal : List LoopEvent
  deriving DecidableEq, Repr

namespace LLMStore

def note (w : LLMStore) (e : LoopEvent) : LLMStore := { w with journal := e :: w.journal }

def itemOf (m : LLMMessage) : ContextItem := normalizeContextItem (contextItemInputFromMessage m)

def createItems (w : LLMStore) (messages : List LLMMessage) : LLMStore :=
  { w with items := w.items ++ messages.map itemOf }

def save (w : LLMStore) (plain : PlainLLMState) : LLMStore :=
  { w with stored := some plain }.note (.saved plain)

end LLMStore

/-- `appendPendingContextItems`, for ids that are not empty. -/
def appendPendingContextItems (pending : Option (List ℕ)) (ids : List ℕ) : Option (List ℕ) :=
  let existing := pending.getD []
  if ids.all fun id => id ∈ existing then pending
  else some (InsSet.ofList (existing ++ ids)).keys

namespace LoadLLMReducer

/-- The stored conversation with the messages of the run behind it. -/
def merged (persisted : PlainLLMState) (state : LLMState) : LLMState :=
  let incoming := state.context
  { summary := persisted.summary.or state.summary
    messages := persisted.messages ++ state.messages
    context :=
      { messageIds := persisted.context.messageIds ++ incoming.messageIds
        memory := if incoming.memory ≠ [] then incoming.memory else persisted.context.memory
        summary := incoming.summary.or persisted.context.summary
        system := persisted.context.system.or incoming.system
        pendingNewContextItemIds := none }
    turnMeta := state.turnMeta }

/-- A read that fails, or a stored state that cannot be decoded, is logged and the run goes
on with its own messages. -/
def invoke (env : LoopEnv) (state : LLMState) (w : LLMStore) : Result LLMStore LLMState :=
  match env.fault, w.stored with
  | some _, _ => (.ok state, w)
  | none, none => (.ok state, w)
  | none, some persisted => (.ok (merged persisted state), w)

end LoadLLMReducer

namespace SummarizationLLMReducer

variable (yamlLength : LLMMessage → ℕ)

def textLength (s : String) : ℕ := (s.toList.map fun c => if c.toNat < 65536 then 1 else 2).sum

def shouldSummarize (cfg : AgentLoopConfig) (state : LLMState) : Bool :=
  4 * cfg.maxTokens < (state.messages.map yamlLength).sum + textLength (state.summary.getD "")

/-- The length of the shortest suffix with enough tokens, from the messages in reverse; `none`
when all of them together have too few. -/
def headLength (keepTokens : ℕ) : ℕ → List LLMMessage → Option ℕ
  | _, [] => none
  | total, m :: rest =>
    if 4 * keepTokens ≤ total + yamlLength m then some 1
    else (headLength keepTokens (total + yamlLength m) rest).map (· + 1)

def splitIdx (keepTokens : ℕ) (messages : List LLMMessage) : ℕ :=
  messages.length - (headLength yamlLength keepTokens 0 messages.reverse).getD 0

/-- An output whose call is not among the given messages. -/
def isOrphan (head : List LLMMessage) (m : LLMMessage) : Bool :=
  match m.outputId with
  | some callId => callId ∉ head.flatMap LLMMessage.callIds
  | none => false

def moveOrphanToolOutputsToTail (head tail : List LLMMessage) :
    List LLMMessage × List LLMMessage :=
  (head.filter fun m => !isOrphan head m, tail ++ head.filter (isOrphan head))

def split (keepTokens : ℕ) (messages : List LLMMessage) : List LLMMessage × List LLMMessage :=
  let idx := splitIdx yamlLength keepTokens messages
  moveOrphanToolOutputsToTail (messages.drop idx) (messages.take idx)

/-- The context after a fold: the ids of the tail are cut off, and the summary has an item. -/
def foldContext (context : LLMContextState) (tailLength : ℕ) (newSummary : String)
    (items : List ContextItem) : LLMContextState × List ContextItem :=
  let context := { context with
    messageIds :=
      if tailLength ≥ context.messageIds.length then []
      else context.messageIds.drop tailLength }
  if newSummary = "" then ({ context with summary := none }, items)
  else
    match context.summary.bind fun s => if s.text = some newSummary then s.id else none with
    | some id => ({ context with summary := some ⟨some id, some newSummary⟩ }, items)
    | none =>
      ({ context with summary := some ⟨some items.length, some newSummary⟩ },
        items ++ [normalizeContextItem (contextItemInputFromSummary newSummary)])

/-- The state after a fold, which has no `meta`. -/
def foldedState (head : List LLMMessage) (newSummary : String) (context : LLMContextState) :
    LLMState := ⟨head, some newSummary, context, .empty⟩

def summarize (cfg : AgentLoopConfig) (env : LoopEnv) (state : LLMState) (w : LLMStore) :
    Result LLMStore LLMState :=
  if env.terminateSecond then (.ok state, w)
  else if state.messages = [] then (.ok state, w)
  else
    let (head, tail) := split yamlLength cfg.keepTokens state.messages
    if tail = [] then (.ok { state with messages := head }, w)
    else
      let w := w.note .summaryCalled
      match env.summaryReply, env.lateFault with
      | .error e, _ => (.error e, w)
      | .ok _, some e => (.error e, w)
      | .ok text, none =>
        let newSummary := trim text
        let folded := foldContext state.context tail.length newSummary w.items
        (.ok (foldedState head newSummary folded.1),
          { w with items := folded.2 }.note (.folded tail newSummary))

def invoke (cfg : AgentLoopConfig) (env : LoopEnv) (state : LLMState) (w : LLMStore) :
    Result LLMStore LLMState :=
  if cfg.maxTokens = 0 then (.ok state, w)
  else if env.terminateFirst then (.ok state, w)
  else if !shouldSummarize yamlLength cfg state then (.ok state, w)
  else summarize yamlLength cfg env state w

end SummarizationLLMReducer

namespace CallModelLLMReducer

/-- The memory message when it is to stand at the given place. -/
def memoryAt (memory : Option MemoryResult) (place : MemoryPlacement) : List SequenceEntry :=
  match memory with
  | some ⟨some text, p⟩ => if p = place then [.memory text p] else []
  | _ => []

def buildSequence (systemPrompt : String) (summaryText : Option String)
    (memory : Option MemoryResult) (conversation : List LLMMessage) : List SequenceEntry :=
  [.system systemPrompt] ++ (summaryText.map SequenceEntry.summary).toList ++
    memoryAt memory .afterSystem ++
    conversation.zipIdx.map (fun m => .conversation m.1 m.2) ++ memoryAt memory .lastMessage

/-- Where the id of a new item goes. -/
inductive Target where
  | system
  | summary (text : String)
  | memory (place : MemoryPlacement)
  | conversation (index : ℕ)
  deriving DecidableEq, Repr

def Target.isConversation : Target → Bool
  | .conversation _ => true
  | _ => false

structure PendingItem where
  input : ContextItem
  target : Target
  deriving DecidableEq, Repr

def memoryId (context : LLMContextState) (place : MemoryPlacement) : Option ℕ :=
  (context.memory.find? fun m => m.place = place).bind LLMContextMemoryEntry.id

def collectEntry (collected : LLMContextState × List PendingItem) (entry : SequenceEntry) :
    LLMContextState × List PendingItem :=
  let (context, pending) := collected
  match entry with
  | .system text =>
    let existing := context.system.getD ⟨none⟩
    ({ context with system := some existing },
      match existing.id with
      | some _ => pending
      | none => pending ++ [⟨contextItemInputFromSystem text, .system⟩])
  | .summary text =>
    match context.summary.bind fun s => if s.text = some text then s.id else none with
    | some id => ({ context with summary := some ⟨some id, some text⟩ }, pending)
    | none => (context, pending ++ [⟨contextItemInputFromSummary text, .summary text⟩])
  | .memory text place =>
    let memory :=
      if context.memory.any fun m => m.place = place then context.memory
      else context.memory ++ [⟨none, place⟩]
    ({ context with memory },
      match memoryId { context with memory } place with
      | some _ => pending
      | none => pending ++ [⟨contextItemInputFromMemory text place, .memory place⟩])
  | .conversation message index =>
    match context.messageIds[index]? with
    | some _ => (context, pending)
    | none => (context, pending ++ [⟨contextItemInputFromMessage message, .conversation index⟩])

def assign (context : LLMContextState) (target : Target) (id : ℕ) : LLMContextState :=
  match target with
  | .system => { context with system := some ⟨some id⟩ }
  | .summary text => { context with summary := some ⟨some id, some text⟩ }
  | .memory place => { context with
      memory := context.memory.modify (context.memory.findIdx fun m => m.place = place) fun m =>
        { m with id := some id } }
  | .conversation index => { context with
      messageIds :=
        if index < context.messageIds.length then context.messageIds.set index id
        else context.messageIds ++ [id] }

/-- `persistContextItems`: create the items in order and hand each its id. -/
def persistContextItems (pending : List PendingItem) (context : LLMContextState)
    (items : List ContextItem) : LLMContextState × List ContextItem :=
  pending.foldl (fun (context, items) p =>
    (assign context p.target items.length, items ++ [normalizeContextItem p.input]))
    (context, items)

/-- The ids of the new conversation items, when the first of all new items gets the id `first`. -/
def newConversationIds (pending : List PendingItem) (first : ℕ) : List ℕ :=
  ((pending.zipIdx first).filter fun p => p.1.target.isConversation).map Prod.snd

def entryId (context : LLMContextState) : SequenceEntry → Option ℕ
  | .system _ => context.system.bind LLMContextSystemState.id
  | .summary _ => context.summary.bind LLMContextSummaryState.id
  | .memory _ place => memoryId context place
  | .conversation _ index => context.messageIds[index]?

structure ResolvedContext where
  contextItemIds : List ℕ
  newContextItemIds : List ℕ
  context : LLMContextState
  items : List ContextItem
  deriving DecidableEq, Repr

def withSummary (context : LLMContextState) (summaryText : Option String) : LLMContextState :=
  { context with summary := if summaryText.isSome then context.summary else none }

def cutMessageIds (count : ℕ) (context : LLMContextState) : LLMContextState :=
  { context with
    messageIds :=
      if context.messageIds.length > count then context.messageIds.take count
      else context.messageIds }

def resolveContextIds (context : LLMContextState) (sequence : List SequenceEntry)
    (summaryText : Option String) (items : List ContextItem) : ResolvedContext :=
  let collected := sequence.foldl collectEntry (withSummary context summaryText, [])
  let context := cutMessageIds (sequence.countP SequenceEntry.isConversation) collected.1
  let pendingNewIds :=
    context.pendingNewContextItemIds.getD [] ++ newConversationIds collected.2 items.length
  let persisted := persistContextItems collected.2 context items
  let contextItemIds := sequence.filterMap (entryId persisted.1)
  { contextItemIds
    newContextItemIds := contextItemIds.filter fun id => id ∈ pendingNewIds
    context := { persisted.1 with pendingNewContextItemIds := some [] }
    items := persisted.2 }

/-- `state.summary?.trim()`, when it is not empty. -/
def summaryTextOf (state : LLMState) : Option String :=
  (state.summary.map trim).filter fun text => text ≠ ""

def memoryCleared (memory : Option MemoryResult) (context : LLMContextState) : LLMContextState :=
  match memory with
  | some ⟨none, place⟩ =>
    { context with memory := context.memory.filter fun entry => entry.place ≠ place }
  | _ => context

/-- The sequence of a call and the items that are recorded for it. -/
def prepare (cfg : AgentLoopConfig) (env : LoopEnv) (state : LLMState) (w : LLMStore) :
    List SequenceEntry × ResolvedContext :=
  let summaryText := summaryTextOf state
  let sequence := buildSequence cfg.systemPrompt summaryText env.memory state.messages
  (sequence, resolveContextIds (memoryCleared env.memory state.context) sequence summaryText
    w.items)

def callRecord (prepared : List SequenceEntry × ResolvedContext) : LLMCallRecord :=
  ⟨prepared.2.contextItemIds, prepared.2.newContextItemIds, prepared.1⟩

/-- The store after the call has been recorded. -/
def recorded (prepared : List SequenceEntry × ResolvedContext) (w : LLMStore) : LLMStore :=
  { w with items := prepared.2.items, calls := w.calls ++ [callRecord prepared] }

def responded (state : LLMState) (resolved : ResolvedContext) (output : List ResponseItem)
    (eventId : ℕ) : LLMState :=
  let id := resolved.items.length
  { state with
    messages := state.messages ++ [.response output]
    context := { resolved.context with
      messageIds := resolved.context.messageIds ++ [id]
      pendingNewContextItemIds :=
        appendPendingContextItems resolved.context.pendingNewContextItemIds [id] }
    turnMeta := { state.turnMeta with lastLLMEventId := some eventId } }

/-- A cancelled call returns the state it was given, if the cancellation can be recorded. -/
def cancelAndReturn (env : LoopEnv) (state : LLMState) (w : LLMStore) :
    Result LLMStore LLMState :=
  match env.lateFault with
  | some e => (.error e, w)
  | none => (.ok state, w)

def invoke (cfg : AgentLoopConfig) (env : LoopEnv) (state : LLMState) (w : LLMStore) :
    Result LLMStore LLMState :=
  if cfg.systemPrompt = "" then (.error "CallModelLLMReducer not initialized", w)
  else
    match env.fault with
    | some e => (.error e, w)
    | none =>
      let prepared := prepare cfg env state w
      let eventId := w.calls.length
      let w := recorded prepared w
      if env.terminateFirst then cancelAndReturn env state w
      else
        let w := w.note (.modelCalled (callRecord prepared).input)
        match env.reply with
        | .error e => if env.terminateSecond then cancelAndReturn env state w else (.error e, w)
        | .ok output =>
          let output := output.map ResponseItem.sanitize
          if env.terminateSecond then cancelAndReturn env state w
          else
            match env.lateFault with
            -- The catch looks at the signal once more.
            | some e => (if env.terminateRoute then .ok state else .error e, w)
            | none =>
              (.ok (responded state prepared.2 output eventId),
                (w.createItems [.response output]).note (.replied output))

end CallModelLLMReducer

namespace CallToolsLLMReducer

def filterToolCalls (messages : List LLMMessage) : List ToolCallMessage :=
  (messages.getLast?.map LLMMessage.toolCalls).getD []

/-- Every call gets an output; a tool that is missing or fails answers with an error text. -/
def outputs (env : LoopEnv) (calls : List ToolCallMessage) : List LLMMessage :=
  calls.map fun call => .toolOutput call.callId (env.toolOutput call)

/-- The state with the results and their ids. The counters of the restriction start again. -/
def answered (state : LLMState) (results : List LLMMessage) (appended : List ℕ) : LLMState :=
  { state with
    messages := state.messages ++ results
    context := { state.context with
      messageIds := state.context.messageIds ++ appended
      pendingNewContextItemIds :=
        appendPendingContextItems state.context.pendingNewContextItemIds appended }
    turnMeta := { state.turnMeta with
      restrictionInjectionCount := some 0
      restrictionInjected := some false } }

def invoke (env : LoopEnv) (state : LLMState) (w : LLMStore) : Result LLMStore LLMState :=
  if env.terminateFirst then (.ok state, w)
  else
    let toolsToCall := filterToolCalls state.messages
    if toolsToCall ≠ [] ∧ state.turnMeta.lastLLMEventId = none then
      (.error "CallToolsLLMReducer missing LLM event id for tool outputs", w)
    else
      let results := outputs env toolsToCall
      let w := w.note (.toolsRun toolsToCall)
      if env.terminateSecond then (.ok state, w)
      else
        match env.lateFault with
        | some e => (.error e, w)
        | none =>
          (.ok (answered state results (List.range' w.items.length results.length)),
            w.createItems results)

end CallToolsLLMReducer

namespace SaveLLMReducer

/-- An `AIMessage` among the messages cannot be serialized. -/
def serializeState (state : LLMState) : Except String PlainLLMState :=
  if state.messages.any LLMMessage.isAI then .error "Unsupported message type for serialization"
  else .ok ⟨state.messages, state.summary, state.context⟩

def invoke (env : LoopEnv) (state : LLMState) (w : LLMStore) : Result LLMStore LLMState :=
  match serializeState state, env.fault with
  | .error e, _ => (.error e, w)
  | .ok _, some e => (.error e, w)
  | .ok plain, none => (.ok state, w.save plain)

end SaveLLMReducer

namespace EnforceToolsLLMReducer

def lastHasToolCall (messages : List LLMMessage) : Bool :=
  (CallToolsLLMReducer.filterToolCalls messages) ≠ []

def restricted (cfg : AgentLoopConfig) (state : LLMState) : LLMState :=
  let restrictionMessage :=
    if trim cfg.restrictionMessage = "" then "Please use a tool to proceed before responding."
    else cfg.restrictionMessage
  { state with
    messages := state.messages ++ [.system restrictionMessage]
    turnMeta := { state.turnMeta with
      restrictionInjectionCount := some (state.turnMeta.restrictionInjectionCount.getD 0 + 1)
      restrictionInjected := some true } }

def quiet (state : LLMState) : LLMState :=
  { state with turnMeta := { state.turnMeta with restrictionInjected := some false } }

def invoke (cfg : AgentLoopConfig) (state : LLMState) (w : LLMStore) : Result LLMStore LLMState :=
  if !cfg.restrictOutput || lastHasToolCall state.messages then (.ok (quiet state), w)
  else
    let prevCount := state.turnMeta.restrictionInjectionCount.getD 0
    if cfg.restrictionMaxInjections > 0 ∧ prevCount ≥ cfg.restrictionMaxInjections then
      (.ok (quiet state), w)
    else (.ok (restricted cfg state), w.note .restricted)

end EnforceToolsLLMReducer

end Agyn
