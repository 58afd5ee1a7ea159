import Agyn.LLMState
import Agyn.Loops

/-!
The row of a run, from its creation to the end of `AgentNode.invoke`. Both the begin and
the completion of a run commit a transaction and then do more work that may fail. The
caller learns the id of the run only when the begin returns, and completes the run once
more when anything after that fails.
-/
namespace Agyn

open Loops

inductive RunStatus where
  | running
  | finished
  | terminated
  deriving DecidableEq, Repr

/-- The row of a run, with the statuses that completions wrote to it, the first one first. -/
structure RunRow where
  status : RunStatus
  completions : List RunStatus
  deriving DecidableEq, Repr

/-- What can fail in a completion: its transaction, or the publication of events after it. -/
structure CompleteEnv where
  commitFault : Option String
  publishFault : Option String

/-- What an invocation is told from outside, from `beginRunThread` on. -/
structure InvokeEnv where
  beginFault : Option String
  beginPublishFault : Option String
  assignFault : Option String
  modelFault : Option String
  prepareFault : Option String
  terminated : Bool
  finished : Bool
  complete : CompleteEnv
  autoSendFault : Option String
  completeError : CompleteEnv

def createdRow : RunRow := ⟨.running, []⟩

def RunRow.complete (row : RunRow) (status : RunStatus) : RunRow :=
  ⟨status, row.completions ++ [status]⟩

/-- The row is created by the transaction; the publications and the assignment of the agent
come after it. -/
def beginRunThread (env : InvokeEnv) : Result (Option RunRow) Unit :=
  match env.beginFault with
  | some e => (.error e, none)
  | none =>
    match env.beginPublishFault, env.assignFault with
    | some e, _ => (.error e, some createdRow)
    | none, some e => (.error e, some createdRow)
    | none, none => (.ok (), some createdRow)

def completeRun (env : CompleteEnv) (status : RunStatus) (row : RunRow) : Result RunRow Unit :=
  match env.commitFault with
  | some e => (.error e, row)
  | none =>
    match env.publishFault with
    | some e => (.error e, row.complete status)
    | none => (.ok (), row.complete status)

/-- A transport that throws is logged. -/
def autoSendFinalResponse (env : InvokeEnv) (row : RunRow) : Result RunRow Unit :=
  match env.autoSendFault with
  | some _ => (.ok (), row)
  | none => (.ok (), row)

/-- The message that a run may end with: a response, or a tool output after the finish signal. -/
def finalMessage (finished : Bool) (state : LLMState) : Option LLMMessage :=
  match state.messages.getLast? with
  | some (.response output) => some (.response output)
  | some (.toolOutput callId output) => if finished then some (.toolOutput callId output) else none
  | _ => none

def terminationMessage : LLMMessage := .response [.message "terminated"]

/-- The status and the message that the run is to be completed with, after its loop. -/
def completion (env : InvokeEnv) (loop : Except String LLMState) :
    Except String (RunStatus × LLMMessage) :=
  match env.modelFault, env.prepareFault, loop with
  | some e, _, _ => .error e
  | none, some e, _ => .error e
  | none, none, .error e => .error e
  | none, none, .ok state =>
    if env.terminated then .ok (.terminated, terminationMessage)
    else
      match finalMessage env.finished state with
      | some last => .ok (.finished, last)
      | none => .error "Agent did not produce a valid response message."

/-- The rest of the `try` block, once the id of the run is known. -/
def runAndComplete (env : InvokeEnv) (loop : Except String LLMState) (row : RunRow) :
    Result RunRow LLMMessage :=
  match completion env loop with
  | .error e => (.error e, row)
  | .ok (status, message) =>
    match completeRun env.complete status row with
    | (.error e, row) => (.error e, row)
    | (.ok _, row) => (.ok message, (autoSendFinalResponse env row).2)

/-- The `catch` block completes the run when its id is known; if that fails it is logged. -/
def AgentNode.invoke (env : InvokeEnv) (loop : Except String LLMState) :
    Result (Option RunRow) LLMMessage :=
  match beginRunThread env with
  | (.error e, row) => (.error e, row)
  | (.ok _, row) =>
    match runAndComplete env loop (row.getD createdRow) with
    | (.ok message, row) => (.ok message, some row)
    | (.error e, row) => (.error e, some (completeRun env.completeError .terminated row).2)

def RunRow.SettledOnce (row : RunRow) : Prop :=
  row.status ≠ .running ∧ row.completions = [row.status]

/-- The `try` block gets to its completion: the loop ends, and with a valid message if it was
not terminated. -/
def CompletesInTry (env : InvokeEnv) (loop : Except String LLMState) : Prop :=
  env.modelFault = none ∧ env.prepareFault = none ∧ ∃ state, loop = .ok state ∧
    (env.terminated = true ∨ (finalMessage env.finished state).isSome = true)

/-- The steps after the transaction of the begin succeed, and so do those after the transaction
of the completion in the `try` block, if it gets there. -/
structure StepsSucceed (env : InvokeEnv) (loop : Except String LLMState) : Prop where
  published : env.beginPublishFault = none
  assigned : env.assignFault = none
  completed : CompletesInTry env loop → env.complete.publishFault = none

section Settling

variable {env : InvokeEnv} {loop : Except String LLMState} {row : RunRow} {status : RunStatus}

theorem createdRow_not_settled : ¬ createdRow.SettledOnce := fun h => h.1 rfl

theorem completeRun_row {complete : CompleteEnv} (h : complete.commitFault = none) :
    (completeRun complete status row).2 = row.complete status := by
  unfold completeRun
  rw [h]
  cases complete.publishFault <;> rfl

theorem completion_ok {message : LLMMessage}
    (h : completion env loop = .ok (status, message)) :
    status ≠ .running ∧ CompletesInTry env loop := by
  unfold completion at h
  cases hmodel : env.modelFault with
  | some e => simp [hmodel] at h
  | none =>
    cases hprepare : env.prepareFault with
    | some e => simp [hmodel, hprepare] at h
    | none =>
      cases loop with
      | error e => simp [hmodel, hprepare] at h
      | ok state =>
        simp only [hmodel, hprepare] at h
        cases hterminated : env.terminated with
        | true =>
          rw [hterminated] at h
          cases h
          exact ⟨by decide, hmodel, hprepare, state, rfl, .inl hterminated⟩
        | false =>
          rw [hterminated] at h
          cases hfinal : finalMessage env.finished state with
          | none => simp [hfinal] at h
          | some last =>
            simp only [hfinal] at h
            cases h
            exact ⟨by decide, hmodel, hprepare, state, rfl, .inr (by rw [hfinal]; rfl)⟩

theorem completion_error {e : String} (h : completion env loop = .error e) :
    ¬ CompletesInTry env loop := by
  intro hcompletes
  obtain ⟨hmodel, hprepare, state, rfl, hvalid⟩ := hcompletes
  unfold completion at h
  simp only [hmodel, hprepare] at h
  rcases hvalid with hterminated | hfinal
  · rw [hterminated] at h
    cases h
  · obtain ⟨last, hlast⟩ := Option.isSome_iff_exists.mp hfinal
    cases hterminated : env.terminated <;> simp [hterminated, hlast] at h

theorem settledOnce_complete (h : status ≠ .running) : (createdRow.complete status).SettledOnce :=
  ⟨h, rfl⟩

/-- A second completion is one too many. -/
theorem not_settledOnce_completed_twice (first second : RunStatus) :
    ¬ ((createdRow.complete first).complete second).SettledOnce := by
  intro h
  have hlength := congrArg List.length h.2
  simp [RunRow.complete, createdRow] at hlength

theorem autoSendFinalResponse_row : (autoSendFinalResponse env row).2 = row := by
  unfold autoSendFinalResponse
  cases env.autoSendFault <;> rfl

/-- What becomes of the row once the begin has returned. -/
theorem invoke_row_of_begun (hbegin : beginRunThread env = (.ok (), some createdRow))
    (hcommit : env.complete.commitFault = none) (hcommit' : env.completeError.commitFault = none) :
    (AgentNode.invoke env loop).2 =
      match completion env loop with
      | .error _ => some (createdRow.complete .terminated)
      | .ok (status, _) =>
        if env.complete.publishFault = none then some (createdRow.complete status)
        else some ((createdRow.complete status).complete .terminated) := by
  unfold AgentNode.invoke
  rw [hbegin]
  dsimp only [Option.getD_some]
  unfold runAndComplete
  cases hcompletion : completion env loop with
  | error e =>
    dsimp only
    rw [completeRun_row hcommit']
  | ok target =>
    obtain ⟨status, message⟩ := target
    dsimp only
    unfold completeRun
    rw [hcommit, hcommit']
    cases hpublish : env.complete.publishFault with
    | none => simp [autoSendFinalResponse_row]
    | some e => cases env.completeError.publishFault <;> simp

end Settling

/-- When both completions can commit, the row of a run that was begun ends with one terminal
status, written once, exactly when the steps after the begin and those after the first
completion succeed. -/
theorem invoke_settledOnce_iff (env : InvokeEnv) (loop : Except String LLMState)
    (hbegin : env.beginFault = none) (hcommit : env.complete.commitFault = none)
    (hcommit' : env.completeError.commitFault = none) :
    (∃ row, (AgentNode.invoke env loop).2 = some row ∧ row.SettledOnce) ↔
      StepsSucceed env loop := by
  by_cases hsteps : env.beginPublishFault = none ∧ env.assignFault = none
  · have hbegun : beginRunThread env = (.ok (), some createdRow) := by
      unfold beginRunThread
      rw [hbegin, hsteps.1, hsteps.2]
    rw [invoke_row_of_begun hbegun hcommit hcommit']
    cases hcompletion : completion env loop with
    | error e =>
      constructor
      · intro _
        exact ⟨hsteps.1, hsteps.2, fun h => absurd h (completion_error hcompletion)⟩
      · intro _
        exact ⟨_, rfl, settledOnce_complete (by decide)⟩
    | ok target =>
      obtain ⟨status, message⟩ := target
      obtain ⟨hterminal, hcompletes⟩ := completion_ok hcompletion
      dsimp only
      by_cases hpublish : env.complete.publishFault = none
      · rw [if_pos hpublish]
        constructor
        · intro _
          exact ⟨hsteps.1, hsteps.2, fun _ => hpublish⟩
        · intro _
          exact ⟨_, rfl, settledOnce_complete hterminal⟩
      · rw [if_neg hpublish]
        constructor
        · intro h
          obtain ⟨row, hrow, hsettled⟩ := h
          cases hrow
          exact absurd hsettled (not_settledOnce_completed_twice status .terminated)
        · intro h
          exact absurd (h.completed hcompletes) hpublish
  · constructor
    · intro h
      obtain ⟨row, hrow, hsettled⟩ := h
      have hcreated : (AgentNode.invoke env loop).2 = some createdRow := by
        unfold AgentNode.invoke beginRunThread
        rw [hbegin]
        cases hpublish : env.beginPublishFault with
        | some e => rfl
        | none =>
          cases hassign : env.assignFault with
          | some e => rfl
          | none => exact absurd ⟨hpublish, hassign⟩ hsteps
      rw [hcreated] at hrow
      cases hrow
      exact absurd hsettled createdRow_not_settled
    · intro h
      exact absurd ⟨h.published, h.assigned⟩ hsteps

def InvokeEnv.calm : InvokeEnv :=
  ⟨none, none, none, none, none, false, false, ⟨none, none⟩, none, ⟨none, none⟩⟩

/-- The state of a loop that ends with a response. -/
def greeted : LLMState :=
  ⟨[.human "Hello.", .response [.message "Hi."]], none, .empty, .empty⟩

/-- An invocation whose model cannot be set up, and whose publication after the completion fails. -/
def InvokeEnv.modelRefused : InvokeEnv :=
  { InvokeEnv.calm with
    modelFault := some "no such model"
    autoSendFault := some "no transport"
    completeError := ⟨none, some "bus"⟩ }

theorem refused_invoke_settledOnce :
    ∃ row, (AgentNode.invoke .modelRefused (.ok greeted)).2 = some row ∧ row.SettledOnce :=
  (invoke_settledOnce_iff .modelRefused (.ok greeted) rfl rfl rfl).mpr
    ⟨rfl, rfl, fun ⟨h, _⟩ => nomatch h⟩

/-- A publication that fails after the begin leaves the row running, and one that fails after
the completion lets it be completed again with another status. -/
theorem failed_publication_not_settledOnce :
    (AgentNode.invoke { InvokeEnv.calm with beginPublishFault := some "bus" } (.ok greeted)).2 =
        some ⟨.running, []⟩ ∧
      (AgentNode.invoke { InvokeEnv.calm with complete := ⟨none, some "bus"⟩ } (.ok greeted)).2 =
        some ⟨.terminated, [.finished, .terminated]⟩ ∧
      ¬ RunRow.SettledOnce ⟨.running, []⟩ ∧
      ¬ RunRow.SettledOnce ⟨.terminated, [.finished, .terminated]⟩ := by
  refine ⟨by decide, by decide, fun h => h.1 rfl, ?_⟩
  intro h
  have hlength := congrArg List.length h.2
  simp at hlength

end Agyn
