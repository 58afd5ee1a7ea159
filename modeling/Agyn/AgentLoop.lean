import Agyn.LLMReducers

/-!
The loop of an agent: load, summarize, call the model, call the tools and save, and the
enforcement of tool use where the config asks for it. A run starts at `load` with the
messages it was given and an empty context, and the runs of a thread share one store.
-/
namespace Agyn

open Loops

inductive ReducerId where
  | load
  | summarize
  | callModel
  | callTools
  | toolsSave
  | save
  | enforceTools
  deriving DecidableEq, Repr

abbrev Route := LoopEnv → LLMState → LLMStore → Result LLMStore (LLMState × Option ReducerId)

def StaticLLMRouter.route (nextId : ReducerId) : Route := fun env state w =>
  (.ok (state, if env.terminateRoute then none else some nextId), w)

def ConditionalLLMRouter.route (next : LLMState → Option ReducerId) : Route := fun env state w =>
  (.ok (state, if env.terminateRoute then none else next state), w)

/-- `injectBufferedMessages`, for the messages that were drained. -/
def injectBufferedMessages (env : LoopEnv) (state : LLMState) (w : LLMStore) :
    Result LLMStore LLMState :=
  if env.drained = [] then (.ok state, w)
  else
    match env.lateFault with
    | some e => (.error e, w)
    | none =>
      (.ok { state with messages := state.messages ++ env.drained.map Subtype.val },
        w.note (.injected env.drained))

/-- This router does not look at the terminate signal. -/
def AfterToolsRouter.route (cfg : AgentLoopConfig) : Route := fun env state w =>
  if env.finish then (.ok (state, none), w)
  else if cfg.injectAfterTools then
    match injectBufferedMessages env state w with
    | (.error e, w) => (.error e, w)
    | (.ok state, w) => (.ok (state, some .summarize), w)
  else (.ok (state, some .summarize), w)

def afterCallModel (state : LLMState) : Option ReducerId :=
  if CallToolsLLMReducer.filterToolCalls state.messages ≠ [] then some .callTools else some .save

def afterSave (cfg : AgentLoopConfig) (_ : LLMState) : Option ReducerId :=
  if cfg.restrictOutput then some .enforceTools else none

def afterEnforceTools (state : LLMState) : Option ReducerId :=
  if state.turnMeta.restrictionInjected = some true ∧
      state.turnMeta.restrictionInjectionCount.getD 0 ≥ 1 then some .summarize
  else none

def prepareLoop (yamlLength : LLMMessage → ℕ) (cfg : AgentLoopConfig) :
    ReducerId → Option (Reducer ReducerId LLMState LLMStore LoopEnv)
  | .load => some ⟨LoadLLMReducer.invoke, some (StaticLLMRouter.route .summarize)⟩
  | .summarize => some
      ⟨SummarizationLLMReducer.invoke yamlLength cfg, some (StaticLLMRouter.route .callModel)⟩
  | .callModel => some
      ⟨CallModelLLMReducer.invoke cfg, some (ConditionalLLMRouter.route afterCallModel)⟩
  | .callTools => some ⟨CallToolsLLMReducer.invoke, some (StaticLLMRouter.route .toolsSave)⟩
  | .toolsSave => some ⟨SaveLLMReducer.invoke, some (AfterToolsRouter.route cfg)⟩
  | .save => some ⟨SaveLLMReducer.invoke, some (ConditionalLLMRouter.route (afterSave cfg))⟩
  | .enforceTools =>
    if cfg.restrictOutput then some
      ⟨fun _ => EnforceToolsLLMReducer.invoke cfg,
        some (ConditionalLLMRouter.route afterEnforceTools)⟩
    else none

abbrev AgentMachine := Machine ReducerId LLMState LLMStore

/-- What a run is given: its config, its messages, and what it is told in each turn. -/
structure AgentRun where
  cfg : AgentLoopConfig
  messages : List BufferMessage
  envs : List LoopEnv

def initialState (messages : List BufferMessage) : LLMState :=
  ⟨messages.map Subtype.val, none, .empty, .empty⟩

def startRun (messages : List BufferMessage) (w : LLMStore) : AgentMachine :=
  ⟨.running .load (initialState messages), w⟩

def AgentRun.loop (yamlLength : LLMMessage → ℕ) (r : AgentRun) (w : LLMStore) : AgentMachine :=
  run (prepareLoop yamlLength r.cfg) r.envs (startRun r.messages w)

/-- The store after some runs of a thread, the first one first. Each may stop anywhere. -/
def runThread (yamlLength : LLMMessage → ℕ) (rs : List AgentRun) (w : LLMStore) : LLMStore :=
  rs.foldl (fun w r => (r.loop yamlLength w).world) w

def LLMStore.empty : LLMStore := ⟨none, [], [], []⟩

def ThreadAlong (yamlLength : LLMMessage → ℕ)
    (P : AgentLoopConfig → LoopEnv → AgentMachine → Prop) : List AgentRun → LLMStore → Prop
  | [], _ => True
  | r :: rs, w =>
    Along (prepareLoop yamlLength r.cfg) (P r.cfg) r.envs (startRun r.messages w) ∧
      ThreadAlong yamlLength P rs (r.loop yamlLength w).world

theorem ThreadAlong.preserves {yamlLength : LLMMessage → ℕ}
    {P : AgentLoopConfig → LoopEnv → AgentMachine → Prop} {J : LLMStore → Prop}
    {rs : List AgentRun} {w : LLMStore} (halong : ThreadAlong yamlLength P rs w) (h : J w)
    (hrun : ∀ (r : AgentRun) w,
      Along (prepareLoop yamlLength r.cfg) (P r.cfg) r.envs (startRun r.messages w) → J w →
        J (r.loop yamlLength w).world) : J (runThread yamlLength rs w) := by
  induction rs generalizing w with
  | nil => exact h
  | cons r rs ih => exact ih halong.2 (hrun r w halong.1 h)

def AgentLoopConfig.basic : AgentLoopConfig := ⟨"You help.", 0, 0, false, false, "", 0⟩

/-- A turn in which nothing fails and no signal is active. -/
def LoopEnv.calm (reply : List ResponseItem) : LoopEnv where
  terminateFirst := false
  terminateSecond := false
  terminateRoute := false
  stays_second := by simp
  stays_route := by simp
  finish := false
  fault := none
  lateFault := none
  summaryReply := .ok "A summary."
  memory := none
  reply := .ok reply
  toolOutput := fun _ => "ok"
  drained := []

end Agyn
