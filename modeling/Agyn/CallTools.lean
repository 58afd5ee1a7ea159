import Mathlib.Algebra.Order.BigOperators.Group.List
import Mathlib.Algebra.Order.Group.Nat
import Agyn.Interleavings
import Agyn.LLMReducers
import Agyn.PrismaJson

/-!
The calls of the tools of a response. The calls run at the same time, each of them through its own
exits, and what they record is interleaved in any order. The start of a call is recorded by two
writes, and when the second one fails the event of the first is left running. A tool's schema and
code, the parser and printer of JSON, and the success of each awaited operation come from outside;
a thrown value can be shown, ids of events and items are never empty, and log lines are left out.
-/
namespace Agyn.CallTools

variable {N : Type}

inductive ToolCallErrorCode where
  | badJsonArgs
  | schemaValidationFailed
  | toolNotFound
  | toolExecutionError
  | toolOutputTooLarge
  | mcpCallError
  deriving DecidableEq

def ToolCallErrorCode.text : ToolCallErrorCode → String
  | .badJsonArgs => "BAD_JSON_ARGS"
  | .schemaValidationFailed => "SCHEMA_VALIDATION_FAILED"
  | .toolNotFound => "TOOL_NOT_FOUND"
  | .toolExecutionError => "TOOL_EXECUTION_ERROR"
  | .toolOutputTooLarge => "TOOL_OUTPUT_TOO_LARGE"
  | .mcpCallError => "MCP_CALL_ERROR"

inductive ToolCallRaw (N : Type) where
  | text (value : String)
  | items (value : List (JsValue N))

def ToolCallRaw.toJs : ToolCallRaw N → JsValue N
  | .text value => .str value
  | .items value => .arr value

/-- An argument or details that are undefined are left out. -/
structure ToolCallErrorPayload (N : Type) where
  toolName : String
  toolCallId : String
  errorCode : ToolCallErrorCode
  message : String
  originalArgs : JsValue N
  details : JsValue N
  retriable : Bool

def entry (key : String) : JsValue N → List (String × JsValue N)
  | .undefined => []
  | value => [(key, value)]

def ToolCallErrorPayload.toJs (payload : ToolCallErrorPayload N) : JsValue N :=
  .record ([("status", .str "error"), ("tool_name", .str payload.toolName),
    ("tool_call_id", .str payload.toolCallId), ("error_code", .str payload.errorCode.text),
    ("message", .str payload.message)] ++ entry "original_args" payload.originalArgs ++
    entry "details" payload.details ++ [("retriable", .bool payload.retriable)])

inductive ToolCallStructuredOutput (N : Type) where
  | raw (value : ToolCallRaw N)
  | error (payload : ToolCallErrorPayload N)

def ToolCallStructuredOutput.toJs : ToolCallStructuredOutput N → JsValue N
  | .raw value => value.toJs
  | .error payload => payload.toJs

inductive ToolExecStatus where
  | success
  | error
  deriving DecidableEq

structure ToolCallResult (N : Type) where
  status : ToolExecStatus
  raw : ToolCallRaw N
  output : ToolCallStructuredOutput N

structure ErrorInfo where
  name : String
  message : String

structure McpError where
  message : String
  exitCode : Option ℤ
  stdout : Option String
  stderr : Option String

inductive Thrown where
  | mcp (error : McpError)
  | error (info : ErrorInfo)
  | other (text : String)

def normalizeNewlines : List Char → List Char
  | [] => []
  | '\r' :: '\n' :: rest => '\n' :: normalizeNewlines rest
  | '\r' :: rest => '\n' :: normalizeNewlines rest
  | c :: rest => c :: normalizeNewlines rest

def normalizeExecOutput (output : Option String) : String :=
  match output with
  | none => ""
  | some output =>
    String.ofList ((normalizeNewlines output.toList).reverse.dropWhile isTrimmed).reverse

def firstLine : List Char → List Char
  | [] => []
  | '\r' :: '\n' :: _ => []
  | '\n' :: _ => []
  | c :: rest => c :: firstLine rest

def buildMcpFailureMessage (error : McpError) (toolName : String) : String :=
  let toolLabel := if trim toolName ≠ "" then trim toolName else "tool"
  let header := match error.exitCode with
    | some exitCode => "[exit code " ++ toString exitCode ++ "] Process exited with code " ++
        toString exitCode
    | none => "[mcp_error] " ++ toolLabel ++ " failed"
  let stderr := normalizeExecOutput error.stderr
  let stdout := normalizeExecOutput error.stdout
  let body :=
    if stderr ≠ "" ∧ stdout ≠ "" then
      if stderr = stdout then stderr else stderr ++ "\n" ++ stdout
    else if stderr ≠ "" then stderr
    else if stdout ≠ "" then stdout
    else
      let fallbackLine := trim (String.ofList (firstLine error.message.toList))
      if fallbackLine ≠ "" then fallbackLine else "MCP tool failed"
  header ++ "\n---\n" ++ body

/-- The shell tool's mark of an exit code, which is zero when all of its digits are. -/
def isNonZeroShellExitMessage (value : String) : Bool :=
  if "[exit code ".toList.isPrefixOf value.toList then
    let rest := value.toList.drop 11
    let rest := if rest.head? = some '-' then rest.drop 1 else rest
    let digits := rest.takeWhile Char.isDigit
    decide (digits ≠ []) && decide ((rest.drop digits.length).head? = some ']') &&
      digits.any fun c => c ≠ '0'
  else false

structure Runtime (N : Type) where
  parse : String → Except ErrorInfo (JsValue N)
  /-- `JSON.stringify`; `none` when it throws or has no text. -/
  stringify : JsValue N → Option String
  ofNat : ℕ → N

structure FunctionTool (N : Type) where
  name : String
  /-- It is a `ShellCommandTool`. -/
  isShell : Bool
  /-- `schema.safeParse`: the issues or the input. -/
  safeParse : JsValue N → Except (List (JsValue N)) (JsValue N)

structure ToolExecutionStartArgs (N : Type) where
  toolName : String
  toolCallId : String
  llmCallEventId : Option ℕ
  input : JsValue N

/-- How the awaited operations of one call end; the tool streams to an event if it is told one. A
write that fails has no effect. -/
structure CallEnv (N : Type) where
  errorId : String
  createEvent : Except Thrown ℕ
  createToolExecution : ToolExecutionStartArgs N → Except Thrown Unit
  execute : JsValue N → Option ℕ → Except Thrown (JsValue N)
  complete : Except Thrown Unit

structure ToolExecutionCompleteArgs (N : Type) where
  eventId : ℕ
  status : ToolExecStatus
  output : JsValue N
  raw : JsValue N
  errorMessage : Option String

/-- What a call does to the recorded events; a completion is issued whether or not it succeeds. -/
inductive Effect (N : Type) where
  /-- The event is there and running. -/
  | created (eventId : ℕ)
  | recorded (eventId : ℕ) (args : ToolExecutionStartArgs N)
  | completed (args : ToolExecutionCompleteArgs N)
  | published (eventId : ℕ) (update : Bool)

def Effect.startedId : Effect N → Option ℕ
  | .created eventId => some eventId
  | _ => none

def Effect.completedId : Effect N → Option ℕ
  | .completed args => some args.eventId
  | _ => none

section Call

variable (rt : Runtime N) (env : CallEnv N) (llmEventId : Option ℕ) (toolCall : ToolCallMessage)

def createErrorResponse (code : ToolCallErrorCode) (message : String)
    (originalArgs details : JsValue N) : ToolCallResult N :=
  ⟨.error, .text message,
    .error ⟨toolCall.name, toolCall.callId, code, message, originalArgs, details, false⟩⟩

def toJson (value : JsValue N) : JsValue N :=
  match value with
  | .null => .null
  | .undefined => .null
  | value =>
    match toPrismaJsonValue value with
    | .ok json => json
    | .error _ =>
      match (rt.stringify value).map rt.parse with
      | some (.ok parsed) =>
        match toPrismaJsonValue parsed with
        | .ok json => json
        | .error _ => .null
      | _ => .null

/-- The event first, then its tool execution, in no transaction. -/
def startToolExecution (args : ToolExecutionStartArgs N) : Except Thrown ℕ × List (Effect N) :=
  match env.createEvent with
  | .error err => (.error err, [])
  | .ok eventId =>
    match env.createToolExecution args with
    | .error err => (.error err, [.created eventId])
    | .ok _ => (.ok eventId, [.created eventId, .recorded eventId args])

def serializeInput (input : JsValue N) : Except String (JsValue N) :=
  match toPrismaJsonValue input with
  | .ok json => .ok json
  | .error _ => toPrismaJsonValue .null

/-- The event that the call goes on with, if it is told of one; a failure is only logged. -/
def recordStart (tool : FunctionTool N) (input : JsValue N) : Option ℕ × List (Effect N) :=
  match serializeInput input with
  | .error _ => (none, [])
  | .ok json =>
    match startToolExecution env ⟨tool.name, toolCall.callId, llmEventId, json⟩ with
    | (.ok eventId, writes) => (some eventId, writes ++ [.published eventId false])
    | (.error _, writes) => (none, writes)

def typeOf : JsValue N → String
  | .undefined => "undefined"
  | .nonData type => type
  | .null => "object"
  | .bool _ => "boolean"
  | .num _ => "number"
  | .str _ => "string"
  | .arr _ => "object"
  | .obj _ _ => "object"

def responseOf (tool : FunctionTool N) (input : JsValue N) (raw : JsValue N) : ToolCallResult N :=
  match raw with
  | .str text =>
    if 50000 < SummarizationLLMReducer.textLength text then
      createErrorResponse toolCall .toolOutputTooLarge
        ("Tool " ++ toolCall.name ++ " produced output longer than 50000 characters.") input
        (.record [("length", .num (rt.ofNat (SummarizationLLMReducer.textLength text)))])
    else
      ⟨if tool.isShell && isNonZeroShellExitMessage text then .error else .success, .text text,
        .raw (.text text)⟩
  | .arr items => ⟨.success, .items items, .raw (.items items)⟩
  | raw =>
    createErrorResponse toolCall .toolExecutionError
      ("Tool " ++ toolCall.name ++ " returned unsupported output type.") input
      (.record [("receivedType", .str (typeOf raw))])

def responseOfThrown (tool : FunctionTool N) (input : JsValue N) (err : Thrown) :
    ToolCallResult N :=
  match err with
  | .mcp error =>
    let formatted := buildMcpFailureMessage error tool.name
    ⟨.error, .text formatted, .raw (.text formatted)⟩
  | .error info =>
    let baseMessage := if info.message ≠ "" then info.message else "Unknown error"
    createErrorResponse toolCall .toolExecutionError
      ("Tool " ++ toolCall.name ++ " execution failed: " ++ baseMessage) input
      (.record [("errorId", .str env.errorId), ("name", .str info.name)])
  | .other _ =>
    createErrorResponse toolCall .toolExecutionError
      ("Tool " ++ toolCall.name ++ " execution failed: Unknown error") input
      (.record [("errorId", .str env.errorId), ("name", .str "UnknownError"),
        ("code", .str ToolCallErrorCode.toolExecutionError.text)])

def extractErrorMessage (response : ToolCallResult N) : Option String :=
  match response.status, response.output, response.raw with
  | .success, _, _ => none
  | .error, .raw (.text text), _ => some text
  | .error, _, .text text => some text
  | .error, _, _ => none

/-- The end of a call whose event was started; a failure here is only logged. -/
def finalizeToolExecutionEvent (eventId : ℕ) (response : ToolCallResult N) : List (Effect N) :=
  .completed ⟨eventId, response.status, toJson rt response.output.toJs,
    toJson rt response.raw.toJs,
    if response.status = .success then none else extractErrorMessage response⟩ ::
  match env.complete with
  | .ok _ => [.published eventId true]
  | .error _ => []

/-- No exit of a call throws: each of its steps that may fail is caught on its own. -/
def executeToolCall (tool : Option (FunctionTool N)) : ToolCallResult N × List (Effect N) :=
  match tool with
  | none =>
    (createErrorResponse toolCall .toolNotFound
      ("Tool " ++ toolCall.name ++ " is not registered.") (.str toolCall.args) .undefined, [])
  | some tool =>
    match rt.parse toolCall.args with
    | .error err =>
      (createErrorResponse toolCall .badJsonArgs
        ("Invalid JSON arguments for tool " ++ toolCall.name ++ ".") (.str toolCall.args)
        (.record [("message", .str err.message), ("name", .str err.name)]), [])
    | .ok parsedArgs =>
      match tool.safeParse parsedArgs with
      | .error issues =>
        (createErrorResponse toolCall .schemaValidationFailed
          ("Arguments failed validation for tool " ++ toolCall.name ++ ".") parsedArgs
          (.arr issues), [])
      | .ok input =>
        let start := recordStart env llmEventId toolCall tool input
        let response := match env.execute input (if tool.isShell then start.1 else none) with
          | .ok raw => responseOf rt toolCall tool input raw
          | .error err => responseOfThrown env toolCall tool input err
        (response, start.2 ++ match start.1 with
          | some eventId => finalizeToolExecutionEvent rt env eventId response
          | none => [])

def buildToolMessagePayload (response : ToolCallResult N) : Except String (ToolCallRaw N) :=
  match response.status, response.output with
  | .success, .raw value => .ok value
  | .success, .error _ => .error "tool_response_invalid_output"
  | .error, .raw (.text text) => .ok (.text text)
  | .error, payload => .ok (.text ((rt.stringify payload.toJs).getD "Tool execution failed"))

end Call

structure ToolCallOutputMessage (N : Type) where
  callId : String
  output : ToolCallRaw N

/-- A message of the conversation; an output of this reducer may also be a list. -/
inductive Message (N : Type) where
  | plain (message : LLMMessage)
  | output (message : ToolCallOutputMessage N)

structure State (N : Type) where
  messages : List (Message N)
  summary : Option String
  context : LLMContextState
  turnMeta : LLMTurnMeta

def filterToolCalls (messages : List (Message N)) : List ToolCallMessage :=
  match messages.getLast? with
  | some (.plain message) => message.toolCalls
  | _ => []

def findTool (tools : List (FunctionTool N)) (name : String) : Option (FunctionTool N) :=
  tools.reverse.find? fun tool => tool.name = name

structure ContextItemInput (N : Type) where
  message : ToolCallOutputMessage N
  contentText : Option String
  outputEncoding : Option String

/-- `contextItemInputFromMessage` for an output; the text of a list may have to be printed. -/
def contextItemInput (rt : Runtime N) (message : ToolCallOutputMessage N) :
    Except String (ContextItemInput N) :=
  match message.output with
  | .text text =>
    if hasNul text then .ok ⟨message, none, some "base64"⟩ else .ok ⟨message, some text, none⟩
  | .items items =>
    match rt.stringify (.arr items) with
    | some text => .ok ⟨message, some text, none⟩
    | none => .error "not serializable"

/-- How a run of the reducer is met by its surroundings. -/
structure Env (N : Type) where
  terminateFirst : Bool
  terminateSecond : Bool
  call : ℕ → CallEnv N
  createContextItems : List (ContextItemInput N) → Except String (List ℕ)

variable (rt : Runtime N) (env : Env N)

/-- The ids of the items that were created for the results, the result of `persistContextItems`. -/
def persistContextItems (results : List (ToolCallOutputMessage N)) : Except String (List ℕ) := do
  let inputs ← results.mapM (contextItemInput rt)
  let ids ← env.createContextItems inputs
  return ids.take results.length

def runCall (tools : List (FunctionTool N)) (llmEventId : Option ℕ) (i : ℕ)
    (toolCall : ToolCallMessage) :
    Except String (ToolCallOutputMessage N) × List (Effect N) :=
  let execution :=
    executeToolCall rt (env.call i) llmEventId toolCall (findTool tools toolCall.name)
  ((buildToolMessagePayload rt execution.1).map fun output => ⟨toolCall.callId, output⟩,
    execution.2)

def withResults (state : State N) (results : List (ToolCallOutputMessage N))
    (appended : List ℕ) : State N :=
  { state with
    messages := state.messages ++ results.map .output
    context :=
      if appended = [] then state.context
      else { state.context with
        messageIds := state.context.messageIds ++ appended
        pendingNewContextItemIds :=
          appendPendingContextItems state.context.pendingNewContextItemIds appended }
    turnMeta := { state.turnMeta with
      restrictionInjectionCount := some 0
      restrictionInjected := some false } }

/-- The state returned, or what is thrown, and what each call has recorded. -/
def invoke (tools : Option (List (FunctionTool N))) (state : State N) :
    Except String (State N) × List (List (Effect N)) :=
  if env.terminateFirst then (.ok state, [])
  else
    let toolsToCall := filterToolCalls state.messages
    match tools with
    | none => (.error "CallToolsLLMReducer not initialized", [])
    | some tools =>
      let llmEventId := state.turnMeta.lastLLMEventId
      if toolsToCall ≠ [] ∧ llmEventId = none then
        (.error "CallToolsLLMReducer missing LLM event id for tool outputs", [])
      else
        let runs := toolsToCall.mapIdx (runCall rt env tools llmEventId)
        (match runs.mapM (·.1) with
          | .error e => .error e
          | .ok results =>
            if env.terminateSecond then .ok state
            else if results = [] then .ok (withResults state [] [])
            else (persistContextItems rt env results).map (withResults state results),
          runs.map (·.2))

section Exits

variable {rt : Runtime N} {env : CallEnv N} {llmEventId : Option ℕ} {toolCall : ToolCallMessage}
  {tool : FunctionTool N} {input : JsValue N}

/-- A call that a tool is run for: its tool is there, its arguments are JSON and pass the schema. -/
def acceptedInput (rt : Runtime N) (toolCall : ToolCallMessage) (tool : Option (FunctionTool N)) :
    Option (FunctionTool N × JsValue N) :=
  tool.bind fun tool =>
    match rt.parse toolCall.args with
    | .error _ => none
    | .ok parsedArgs =>
      match tool.safeParse parsedArgs with
      | .error _ => none
      | .ok input => some (tool, input)

/-- What the tool of a call ends with, when it is run. -/
def returned (rt : Runtime N) (env : CallEnv N) (llmEventId : Option ℕ)
    (toolCall : ToolCallMessage) (tool : Option (FunctionTool N)) :
    Option (Except Thrown (JsValue N)) :=
  (acceptedInput rt toolCall tool).map fun (tool, input) =>
    env.execute input
      (if tool.isShell then (recordStart env llmEventId toolCall tool input).1 else none)

/-- The event of the call is created and its tool execution is not. -/
def leavesRunning (rt : Runtime N) (env : CallEnv N) (llmEventId : Option ℕ)
    (toolCall : ToolCallMessage) (tool : Option (FunctionTool N)) : Bool :=
  match acceptedInput rt toolCall tool with
  | none => false
  | some (tool, input) =>
    match serializeInput input with
    | .error _ => false
    | .ok json => env.createEvent.isOk &&
      !(env.createToolExecution ⟨tool.name, toolCall.callId, llmEventId, json⟩).isOk

def returnsUnprintable (rt : Runtime N) (env : CallEnv N) (llmEventId : Option ℕ)
    (toolCall : ToolCallMessage) (tool : Option (FunctionTool N)) : Bool :=
  match returned rt env llmEventId toolCall tool with
  | some (.ok (.arr items)) => (rt.stringify (.arr items)).isNone
  | _ => false

theorem executeToolCall_cases (rt : Runtime N) (env : CallEnv N) (llmEventId : Option ℕ)
    (toolCall : ToolCallMessage) (tool : Option (FunctionTool N)) :
    (acceptedInput rt toolCall tool = none ∧ ∃ code message originalArgs details,
      executeToolCall rt env llmEventId toolCall tool =
        (createErrorResponse toolCall code message originalArgs details, [])) ∨
    ∃ tool' input, acceptedInput rt toolCall tool = some (tool', input) ∧
      executeToolCall rt env llmEventId toolCall tool =
        (let start := recordStart env llmEventId toolCall tool' input
        let response := match env.execute input (if tool'.isShell then start.1 else none) with
          | .ok raw => responseOf rt toolCall tool' input raw
          | .error err => responseOfThrown env toolCall tool' input err
        (response, start.2 ++ match start.1 with
          | some eventId => finalizeToolExecutionEvent rt env eventId response
          | none => [])) := by
  unfold executeToolCall acceptedInput
  cases tool with
  | none => exact .inl ⟨rfl, _, _, _, _, rfl⟩
  | some tool =>
    simp only [Option.bind_some]
    cases rt.parse toolCall.args with
    | error err => exact .inl ⟨rfl, _, _, _, _, rfl⟩
    | ok parsedArgs =>
      dsimp only
      cases tool.safeParse parsedArgs with
      | error issues => exact .inl ⟨rfl, _, _, _, _, rfl⟩
      | ok input => exact .inr ⟨tool, input, rfl, rfl⟩

/-- What the message of a call is made of: a text, or the items that its tool has returned. -/
theorem payload_createErrorResponse (code : ToolCallErrorCode) (message : String)
    (originalArgs details : JsValue N) :
    ∃ text, buildToolMessagePayload rt
      (createErrorResponse toolCall code message originalArgs details) = .ok (.text text) :=
  ⟨_, rfl⟩

theorem payload_responseOf (raw : JsValue N) :
    (∃ items, raw = .arr items ∧
      buildToolMessagePayload rt (responseOf rt toolCall tool input raw) = .ok (.items items)) ∨
    (∀ items, raw ≠ .arr items) ∧ ∃ text,
      buildToolMessagePayload rt (responseOf rt toolCall tool input raw) = .ok (.text text) := by
  cases raw with
  | arr items => exact .inl ⟨items, rfl, rfl⟩
  | str text =>
    refine .inr ⟨nofun, ?_⟩
    rw [responseOf]
    split
    · exact payload_createErrorResponse _ _ _ _
    · refine ⟨text, ?_⟩
      split <;> rfl
  | _ => exact .inr ⟨nofun, payload_createErrorResponse _ _ _ _⟩

theorem payload_responseOfThrown (err : Thrown) :
    ∃ text, buildToolMessagePayload rt (responseOfThrown env toolCall tool input err) =
      .ok (.text text) := by
  cases err with
  | mcp error => exact ⟨_, rfl⟩
  | error info => exact payload_createErrorResponse _ _ _ _
  | other text => exact payload_createErrorResponse _ _ _ _

theorem contextItemInput_text (rt : Runtime N) (callId text : String) :
    ∃ item, contextItemInput rt ⟨callId, .text text⟩ = .ok item := by
  unfold contextItemInput
  dsimp only
  split <;> exact ⟨_, rfl⟩

theorem contextItemInput_items (rt : Runtime N) (callId : String) (items : List (JsValue N)) :
    (∃ item, contextItemInput rt ⟨callId, .items items⟩ = .ok item) ↔
      (rt.stringify (.arr items)).isNone = false := by
  unfold contextItemInput
  dsimp only
  cases rt.stringify (.arr items) with
  | none => simp
  | some text => simp

/-- Each call is answered, and its answer can be made an item unless it is unprintable. -/
theorem payload_executeToolCall (rt : Runtime N) (env : CallEnv N) (llmEventId : Option ℕ)
    (toolCall : ToolCallMessage) (tool : Option (FunctionTool N)) (callId : String) :
    ∃ output, buildToolMessagePayload rt
        (executeToolCall rt env llmEventId toolCall tool).1 = .ok output ∧
      ((∃ item, contextItemInput rt ⟨callId, output⟩ = .ok item) ↔
        returnsUnprintable rt env llmEventId toolCall tool = false) := by
  unfold returnsUnprintable returned
  rcases executeToolCall_cases rt env llmEventId toolCall tool with
    ⟨hnone, code, message, originalArgs, details, hexec⟩ | ⟨tool', input, haccepted, hexec⟩
  · obtain ⟨text, htext⟩ := @payload_createErrorResponse N rt toolCall code message originalArgs
      details
    refine ⟨.text text, by rw [hexec, htext], iff_of_true (contextItemInput_text rt callId text) ?_⟩
    rw [hnone]
    rfl
  · rw [hexec, haccepted]
    simp only [Option.map_some]
    cases env.execute input (if tool'.isShell then
        (recordStart env llmEventId toolCall tool' input).1 else none) with
    | error err =>
      obtain ⟨text, htext⟩ := @payload_responseOfThrown N rt env toolCall tool' input err
      exact ⟨.text text, htext, iff_of_true (contextItemInput_text rt callId text) rfl⟩
    | ok raw =>
      rcases @payload_responseOf N rt toolCall tool' input raw with
        ⟨items, rfl, hitems⟩ | ⟨hne, text, htext⟩
      · exact ⟨.items items, hitems, contextItemInput_items rt callId items⟩
      · refine ⟨.text text, htext, iff_of_true (contextItemInput_text rt callId text) ?_⟩
        cases raw with
        | arr items => exact absurd rfl (hne items)
        | _ => rfl

theorem ids_finalize (eventId : ℕ) (response : ToolCallResult N) :
    (finalizeToolExecutionEvent rt env eventId response).filterMap Effect.startedId = [] ∧
      (finalizeToolExecutionEvent rt env eventId response).filterMap Effect.completedId =
        [eventId] := by
  unfold finalizeToolExecutionEvent
  cases env.complete <;> exact ⟨rfl, rfl⟩

/-- On every exit the event that was created is completed once, unless its tool execution is not
recorded: then it is not completed at all. -/
theorem ids_executeToolCall (rt : Runtime N) (env : CallEnv N) (llmEventId : Option ℕ)
    (toolCall : ToolCallMessage) (tool : Option (FunctionTool N)) :
    let effects := (executeToolCall rt env llmEventId toolCall tool).2
    (leavesRunning rt env llmEventId toolCall tool = false ∧
      effects.filterMap Effect.completedId = effects.filterMap Effect.startedId) ∨
    leavesRunning rt env llmEventId toolCall tool = true ∧
      effects.filterMap Effect.completedId = [] ∧
      ∃ eventId, effects.filterMap Effect.startedId = [eventId] := by
  unfold leavesRunning
  rcases executeToolCall_cases rt env llmEventId toolCall tool with
    ⟨hnone, code, message, originalArgs, details, hexec⟩ | ⟨tool', input, haccepted, hexec⟩
  · rw [hexec, hnone]
    exact .inl ⟨rfl, rfl⟩
  · rw [hexec, haccepted]
    dsimp only
    unfold recordStart startToolExecution
    cases serializeInput input with
    | error err => exact .inl ⟨rfl, rfl⟩
    | ok json =>
      dsimp only
      cases env.createEvent with
      | error err => exact .inl ⟨rfl, rfl⟩
      | ok eventId =>
        dsimp only
        cases env.createToolExecution ⟨tool'.name, toolCall.callId, llmEventId, json⟩ with
        | error err => exact .inr ⟨rfl, rfl, eventId, rfl⟩
        | ok =>
          refine .inl ⟨rfl, ?_⟩
          simp only [List.filterMap_append, (ids_finalize eventId _).1,
            (ids_finalize eventId _).2]
          rfl

end Exits

section Response

variable {rt : Runtime N} {env : Env N} {tools : List (FunctionTool N)} {state : State N}

/-- When each element has a result, so has the list. -/
theorem mapM_mapIdx_ok {α β γ : Type} {f : ℕ → α → Except String β × γ} {g : ℕ → α → β}
    (h : ∀ i a, (f i a).1 = .ok (g i a)) (l : List α) :
    (l.mapIdx f).mapM (·.1) = .ok (l.mapIdx g) := by
  induction l generalizing f g with
  | nil => rfl
  | cons a l ih =>
    rw [List.mapIdx_cons, List.mapIdx_cons, List.mapM_cons, h 0 a, ih fun i => h (i + 1)]
    rfl

def runs (rt : Runtime N) (env : Env N) (tools : List (FunctionTool N)) (state : State N) :
    List (Except String (ToolCallOutputMessage N) × List (Effect N)) :=
  (filterToolCalls state.messages).mapIdx
    (runCall rt env tools state.turnMeta.lastLLMEventId)

def SomeCall (p : CallEnv N → Option ℕ → ToolCallMessage → Option (FunctionTool N) → Bool)
    (env : Env N) (tools : List (FunctionTool N)) (state : State N) : Prop :=
  true ∈ (filterToolCalls state.messages).mapIdx fun i toolCall =>
    p (env.call i) state.turnMeta.lastLLMEventId toolCall (findTool tools toolCall.name)

instance (p : CallEnv N → Option ℕ → ToolCallMessage → Option (FunctionTool N) → Bool)
    (env : Env N) (tools : List (FunctionTool N)) (state : State N) :
    Decidable (SomeCall p env tools state) :=
  inferInstanceAs (Decidable (true ∈ List.mapIdx _ _))

/-- The calls are answered in order, and their answers can be made items unless one of them is
unprintable. -/
theorem runs_ok (rt : Runtime N) (env : Env N) (tools : List (FunctionTool N)) (state : State N) :
    ∃ results, (runs rt env tools state).mapM (·.1) = .ok results ∧
      results.map ToolCallOutputMessage.callId =
        (filterToolCalls state.messages).map ToolCallMessage.callId ∧
      ((∃ inputs, results.mapM (contextItemInput rt) = .ok inputs) ↔
        ¬ SomeCall (returnsUnprintable rt) env tools state) := by
  choose output houtput hitem using fun (i : ℕ) (toolCall : ToolCallMessage) =>
    payload_executeToolCall rt (env.call i) state.turnMeta.lastLLMEventId toolCall
      (findTool tools toolCall.name) toolCall.callId
  have hcalls : ∀ i toolCall, (runCall rt env tools state.turnMeta.lastLLMEventId i toolCall).1 =
      .ok ⟨toolCall.callId, output i toolCall⟩ := by
    intro i toolCall
    unfold runCall
    dsimp only
    rw [houtput i toolCall]
    rfl
  refine ⟨_, mapM_mapIdx_ok hcalls _, ?_, ?_⟩
  · refine List.ext_getElem? fun i => ?_
    rw [List.getElem?_map, List.getElem?_mapIdx, List.getElem?_map, Option.map_map]
    rfl
  · rw [exists_mapM_ok_iff]
    constructor
    · intro hall hsome
      obtain ⟨i, hlt, hunprintable⟩ := List.mem_mapIdx.mp hsome
      have hprinted := (hitem i _).mp (hall _ (List.mem_mapIdx.mpr ⟨i, hlt, rfl⟩))
      exact Bool.noConfusion (hprinted.symm.trans hunprintable)
    · intro hnone result hresult
      obtain ⟨i, hlt, rfl⟩ := List.mem_mapIdx.mp hresult
      exact (hitem i _).mpr (Bool.eq_false_iff.mpr fun hunprintable =>
        hnone (List.mem_mapIdx.mpr ⟨i, hlt, hunprintable⟩))

/-- A reducer that goes on answers with the results of the calls once their items are created. -/
theorem invoke_eq (hfirst : env.terminateFirst = false) (hsecond : env.terminateSecond = false)
    (hevent : filterToolCalls state.messages ≠ [] → state.turnMeta.lastLLMEventId ≠ none) :
    invoke rt env (some tools) state =
      (match (runs rt env tools state).mapM (·.1) with
        | .error e => .error e
        | .ok results =>
          if results = [] then .ok (withResults state [] [])
          else (persistContextItems rt env results).map (withResults state results),
      (runs rt env tools state).map (·.2)) := by
  have hgo : ¬ (filterToolCalls state.messages ≠ [] ∧ state.turnMeta.lastLLMEventId = none) :=
    fun hbad => hevent hbad.1 hbad.2
  unfold invoke
  rw [if_neg (by simp [hfirst])]
  dsimp only
  rw [if_neg hgo, hsecond]
  rfl

/-- The items of the results are stored once they are built. -/
def Persists (rt : Runtime N) (env : Env N) (tools : List (FunctionTool N)) (state : State N) :
    Prop :=
  ∀ results inputs, (runs rt env tools state).mapM (·.1) = .ok results →
    results.mapM (contextItemInput rt) = .ok inputs →
    ∃ ids, env.createContextItems inputs = .ok ids

def Answers (rt : Runtime N) (env : Env N) (tools : List (FunctionTool N)) (state : State N) :
    Prop :=
  ∃ (next : State N) (results : List (ToolCallOutputMessage N)),
    (invoke rt env (some tools) state).1 = .ok next ∧
    next.messages = state.messages ++ results.map Message.output ∧
    results.map ToolCallOutputMessage.callId =
      (filterToolCalls state.messages).map ToolCallMessage.callId

/-- However the calls are interleaved, the events completed are those created, each once. -/
def CompletesEach (rt : Runtime N) (env : Env N) (tools : List (FunctionTool N))
    (state : State N) : Prop :=
  ∀ log, Interleaving (invoke rt env (some tools) state).2 log →
    (log.filterMap Effect.completedId).Perm (log.filterMap Effect.startedId) ∧
    ((log.filterMap Effect.startedId).Nodup → ∀ eventId ∈ log.filterMap Effect.startedId,
      (log.filterMap Effect.completedId).count eventId = 1)

theorem answers_iff (hfirst : env.terminateFirst = false) (hsecond : env.terminateSecond = false)
    (hevent : filterToolCalls state.messages ≠ [] → state.turnMeta.lastLLMEventId ≠ none)
    (hpersists : Persists rt env tools state) :
    Answers rt env tools state ↔ ¬ SomeCall (returnsUnprintable rt) env tools state := by
  obtain ⟨results, hresults, hids, hinputs⟩ := runs_ok rt env tools state
  unfold Answers
  rw [invoke_eq hfirst hsecond hevent, hresults, ← hinputs]
  dsimp only
  constructor
  · rintro ⟨next, -, hnext, -⟩
    by_cases hnone : results = []
    · exact ⟨[], by rw [hnone]; rfl⟩
    · rw [if_neg hnone] at hnext
      obtain ⟨ids, hpersist, -⟩ := ok_of_map hnext
      obtain ⟨inputs, hbuilt, -⟩ := ok_of_bind hpersist
      exact ⟨inputs, hbuilt⟩
  · rintro ⟨inputs, hbuilt⟩
    by_cases hnone : results = []
    · rw [if_pos hnone]
      exact ⟨_, results, rfl, by rw [hnone]; rfl, hids⟩
    · obtain ⟨ids, hcreated⟩ := hpersists results inputs hresults hbuilt
      have hpersist : persistContextItems rt env results = .ok (ids.take results.length) := by
        rw [persistContextItems, hbuilt]
        change (do let ids ← env.createContextItems inputs; return ids.take results.length) = _
        rw [hcreated]
        rfl
      rw [if_neg hnone, hpersist]
      exact ⟨_, results, rfl, rfl, hids⟩

/-- A call completes what it has created, or has created one event more. -/
theorem ids_runs : ∀ trace ∈ (runs rt env tools state).map (·.2),
    trace.filterMap Effect.completedId = trace.filterMap Effect.startedId ∨
      SomeCall (leavesRunning rt) env tools state ∧ trace.filterMap Effect.completedId = [] ∧
        ∃ eventId, trace.filterMap Effect.startedId = [eventId] := by
  intro trace htrace
  obtain ⟨run, hrun, rfl⟩ := List.mem_map.mp htrace
  obtain ⟨i, hi, rfl⟩ := List.mem_mapIdx.mp hrun
  rcases ids_executeToolCall rt (env.call i) state.turnMeta.lastLLMEventId _
    (findTool tools _) with ⟨-, heq⟩ | ⟨hleaves, hcompleted, hstarted⟩
  · exact .inl heq
  · exact .inr ⟨List.mem_mapIdx.mpr ⟨i, hi, hleaves⟩, hcompleted, hstarted⟩

theorem exists_short_trace (h : SomeCall (leavesRunning rt) env tools state) :
    ∃ trace ∈ (runs rt env tools state).map (·.2),
      (trace.filterMap Effect.completedId).length < (trace.filterMap Effect.startedId).length := by
  obtain ⟨i, hlt, hleaves⟩ := List.mem_mapIdx.mp h
  refine ⟨_, List.mem_map_of_mem (List.mem_mapIdx.mpr ⟨i, hlt, rfl⟩), ?_⟩
  rcases ids_executeToolCall rt (env.call i) state.turnMeta.lastLLMEventId _
    (findTool tools _) with ⟨hnot, -⟩ | ⟨-, hcompleted, eventId, hstarted⟩
  · exact Bool.noConfusion (hnot.symm.trans hleaves)
  · change (List.filterMap Effect.completedId (executeToolCall _ _ _ _ _).2).length < _
    rw [hcompleted]
    change _ < (List.filterMap Effect.startedId (executeToolCall _ _ _ _ _).2).length
    rw [hstarted]
    exact Nat.zero_lt_one

theorem completesEach_iff (hfirst : env.terminateFirst = false)
    (hsecond : env.terminateSecond = false)
    (hevent : filterToolCalls state.messages ≠ [] → state.turnMeta.lastLLMEventId ≠ none) :
    CompletesEach rt env tools state ↔ ¬ SomeCall (leavesRunning rt) env tools state := by
  unfold CompletesEach
  rw [invoke_eq hfirst hsecond hevent]
  have hlength (f : Effect N → Option ℕ) (traces : List (List (Effect N))) :
      (traces.flatten.filterMap f).length =
        (traces.map fun trace => (trace.filterMap f).length).sum := by
    rw [List.filterMap_flatten, List.length_flatten, List.map_map]
    rfl
  constructor
  · intro h hleaves
    have hsame := (h _ (Interleaving.flatten _)).1.length_eq
    rw [hlength, hlength] at hsame
    refine hsame.not_lt (List.sum_lt_sum _ _ (fun trace htrace => ?_) (exists_short_trace hleaves))
    rcases ids_runs trace htrace with heq | ⟨-, hcompleted, -⟩
    · rw [heq]
    · rw [hcompleted]
      exact Nat.zero_le _
  · intro hnone log hlog
    have hids : ((runs rt env tools state).map (·.2)).flatten.filterMap Effect.completedId =
        ((runs rt env tools state).map (·.2)).flatten.filterMap Effect.startedId := by
      rw [List.filterMap_flatten, List.filterMap_flatten]
      refine congrArg List.flatten (List.map_congr_left fun trace htrace => ?_)
      exact (ids_runs trace htrace).resolve_right fun h => hnone h.1
    have hperm : (log.filterMap Effect.completedId).Perm (log.filterMap Effect.startedId) :=
      (hlog.perm_flatten.filterMap _).trans (hids ▸ (hlog.perm_flatten.filterMap _).symm)
    refine ⟨hperm, fun hnodup eventId hstarted => ?_⟩
    rw [hperm.count_eq]
    exact List.count_eq_one_of_mem hnodup hstarted

/-- A reducer that goes on and whose items are stored answers every call in order and completes
each event it has created, unless the tool execution of an event is not recorded or a tool returns
a list that cannot be printed. -/
theorem calls_answered_iff (hfirst : env.terminateFirst = false)
    (hsecond : env.terminateSecond = false)
    (hevent : filterToolCalls state.messages ≠ [] → state.turnMeta.lastLLMEventId ≠ none)
    (hpersists : Persists rt env tools state) :
    Answers rt env tools state ∧ CompletesEach rt env tools state ↔
      ¬ SomeCall (leavesRunning rt) env tools state ∧
      ¬ SomeCall (returnsUnprintable rt) env tools state := by
  rw [answers_iff hfirst hsecond hevent hpersists, completesEach_iff hfirst hsecond hevent,
    and_comm]

/-- `JSON.parse` for two texts. -/
def sampleRuntime : Runtime ℕ where
  parse text :=
    if text = "\x7b\x7d" then .ok (.record [])
    else if text = "\x7b\"text\":\"\\u0000\"\x7d" then
      .ok (.record [("text", .str (String.singleton (Char.ofNat 0)))])
    else .error ⟨"SyntaxError", text⟩
  stringify _ := some ""
  ofNat n := n

def echo : FunctionTool ℕ := ⟨"echo", false, fun args => .ok args⟩

/-- A text in the input that the database does not take. -/
def holdsNul (input : JsValue ℕ) : Bool :=
  match input.get "text" with
  | .str text => hasNul text
  | _ => false

/-- The event of the third call is not created, and the completion of the second call fails. -/
def sampleEnv : Env ℕ where
  terminateFirst := false
  terminateSecond := false
  call i := {
    errorId := "error"
    createEvent := if i = 2 then .error (.other "no") else .ok i
    createToolExecution := fun args =>
      if holdsNul args.input then .error (.other "unsupported Unicode escape sequence") else .ok ()
    execute := fun _ _ => if i = 0 then .ok (.str "hi") else .error (.other "no")
    complete := if i = 1 then .error (.other "no") else .ok () }
  createContextItems inputs := .ok (List.range inputs.length)

def sampleState (calls : List ToolCallMessage) : State ℕ where
  messages := [.plain (.response (calls.map .toolCall))]
  summary := none
  context := ⟨[], [], none, none, none⟩
  turnMeta := ⟨none, none, some 9⟩

/-- Three calls of the tool, one of no tool, and one whose arguments are not JSON. -/
def fiveCalls : List ToolCallMessage :=
  [⟨"a", "echo", "\x7b\x7d"⟩, ⟨"b", "echo", "\x7b\x7d"⟩, ⟨"c", "echo", "\x7b\x7d"⟩,
    ⟨"d", "missing", "\x7b\x7d"⟩, ⟨"e", "echo", "oops"⟩]

def nulCall : List ToolCallMessage := [⟨"a", "echo", "\x7b\"text\":\"\\u0000\"\x7d"⟩]

theorem persists_sampleEnv (state : State ℕ) : Persists sampleRuntime sampleEnv [echo] state :=
  fun _ _ _ _ => ⟨_, rfl⟩

theorem fiveCalls_answered :
    Answers sampleRuntime sampleEnv [echo] (sampleState fiveCalls) ∧
      CompletesEach sampleRuntime sampleEnv [echo] (sampleState fiveCalls) := by
  refine (calls_answered_iff rfl rfl (fun _ => Option.some_ne_none 9) (persists_sampleEnv _)).mpr ?_
  decide +kernel

/-- The event of the call is left running. -/
theorem nulCall_left_running :
    Persists sampleRuntime sampleEnv [echo] (sampleState nulCall) ∧
      (invoke sampleRuntime sampleEnv (some [echo]) (sampleState nulCall)).2 =
        [[Effect.created 0]] ∧
      ¬ CompletesEach sampleRuntime sampleEnv [echo] (sampleState nulCall) := by
  refine ⟨persists_sampleEnv _, ?_, fun h => ?_⟩
  · rfl
  · exact (completesEach_iff rfl rfl fun _ => Option.some_ne_none 9).mp h (by decide +kernel)

end Response

end Agyn.CallTools
