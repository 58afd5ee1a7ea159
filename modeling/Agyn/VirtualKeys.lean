import Mathlib.Algebra.Ring.Int.Defs
import Mathlib.Data.Int.Notation
import Mathlib.Data.List.Infix
import Mathlib.Data.Nat.Notation
import Mathlib.Data.String.Basic
import Agyn.GuardedRuns

/-!
The virtual key of the LLM proxy. One refresh at a time generates a key, saves it, uses it and
revokes the one before; calls that the proxy refuses and the timer that comes before the expiry
share that refresh. What the proxy does is given by its responses.
-/
namespace Agyn.VirtualKeys

structure VirtualKeyState where
  key : String
  expiresAt : Option ℤ
  deriving DecidableEq

inductive ProvisionContext where
  | startup
  | refresh
  | authError
  deriving DecidableEq

def MIN_REFRESH_DELAY_MS : ℤ := 60000

def REFRESH_GRACE_MS : ℤ := 5 * 60000

def REFRESH_RETRY_BASE_DELAY_MS : ℤ := 15000

def REFRESH_RETRY_MAX_DELAY_MS : ℤ := 5 * 60000

def maxAttempts : ℕ := 3

/-- A response to the generation of a key: the fields of its body, a refusal, or an error. -/
inductive ProvisionResponse where
  | ok (key expires : Option String)
  | notOk (status : ℕ) (rawBody : String)
  | error

/-- What an attempt comes to. Every error of an attempt is caught by the loop. -/
inductive Outcome where
  | key (state : VirtualKeyState)
  | conflict
  | failed
  deriving DecidableEq

def isAliasConflict (rawBody : String) : Bool :=
  let normalized := rawBody.toLower.toList
  decide ("alias".toList <:+: normalized) && decide ("already exists".toList <:+: normalized)

/-- An expiry that is missing, empty or no date is none. -/
def parseExpiry (parse : String → Option ℤ) : Option String → Option ℤ
  | none => none
  | some candidate => if candidate = "" then none else parse candidate

def ProvisionResponse.outcome (parse : String → Option ℤ) : ProvisionResponse → Outcome
  | .ok key expires =>
    match key with
    | none => .failed
    | some key => if key = "" then .failed else .key ⟨key, parseExpiry parse expires⟩
  | .notOk status rawBody => if status = 400 && isAliasConflict rawBody then .conflict else .failed
  | .error => .failed

/-- What the startup or the refresh in flight waits for. -/
inductive Phase where
  | revokingPersisted
  | clearingAlias
  | generating (attempt : ℕ)
  | clearingConflict (attempt : ℕ)
  | delayed (attempt : ℕ)
  | saving (state : VirtualKeyState)
  | revoking
  deriving DecidableEq

structure Job where
  trigger : ProvisionContext
  previousKey : Option String
  phase : Phase
  deriving DecidableEq

/-- A timer that is set, with the attempt that it starts. -/
structure Timer where
  id : ℕ
  attempt : ℕ
  delay : ℤ
  deriving DecidableEq

inductive RevokeContext where
  | startup
  | rotation (trigger : ProvisionContext)
  | shutdown
  deriving DecidableEq

inductive DeleteRequest where
  | key (key : String) (context : RevokeContext)
  | alias
  deriving DecidableEq

/-- A call of the model: its attempt is out, or it waits for the refresh, or its retry is out. -/
inductive CallPhase where
  | sent (key : String)
  | waiting (key : String)
  | retried (first key : String)
  deriving DecidableEq

structure World where
  started : Bool
  ready : Bool
  /-- The row of the alias. -/
  persisted : Option VirtualKeyState
  currentKey : Option VirtualKeyState
  job : Option Job
  timers : List Timer
  refreshTimer : Option ℕ
  nextTimer : ℕ
  calls : List CallPhase
  /-- The attempts of the scheduled refreshes that wait for the one in flight. -/
  scheduled : List ℕ
  /-- The keys that the proxy gave out. -/
  issued : List String
  deletes : List DeleteRequest
  /-- The keys whose row could not be written. -/
  unsaved : List String
  shutdownHandlers : ℕ
  deriving DecidableEq

/-- Before the provisioner is initialised, with the row of an earlier process. -/
def World.start (persisted : Option VirtualKeyState) : World :=
  ⟨false, false, persisted, none, none, [], none, 0, [], [], [], [], [], 0⟩

namespace World

def clearRefreshTimer (w : World) : World :=
  match w.refreshTimer with
  | none => w
  | some id => { w with timers := w.timers.filter (·.id ≠ id), refreshTimer := none }

def setTimer (w : World) (attempt : ℕ) (delay : ℤ) : World :=
  { w with
    timers := w.timers ++ [⟨w.nextTimer, attempt, delay⟩]
    refreshTimer := some w.nextTimer
    nextTimer := w.nextTimer + 1 }

def scheduleRefresh (w : World) (now : ℤ) (expiresAt : Option ℤ) : World :=
  let w := w.clearRefreshTimer
  match expiresAt with
  | none => w
  | some expiresAt =>
    w.setTimer 0 (max MIN_REFRESH_DELAY_MS (expiresAt - now - REFRESH_GRACE_MS))

def applyKeyState (w : World) (now : ℤ) (state : VirtualKeyState) : World :=
  { w with currentKey := some state }.scheduleRefresh now state.expiresAt

def refreshKey (w : World) (trigger : ProvisionContext) : World :=
  match w.job with
  | some _ => w
  | none => { w with job := some ⟨trigger, w.currentKey.map (·.key), .generating 1⟩ }

def retryDelay (attempt : ℕ) : ℤ :=
  min REFRESH_RETRY_MAX_DELAY_MS (REFRESH_RETRY_BASE_DELAY_MS * 2 ^ attempt)

def resume (currentKey : Option VirtualKeyState) : CallPhase → CallPhase
  | .waiting first => .retried first ((currentKey.map (·.key)).getD "")
  | call => call

def isWaiting : CallPhase → Bool
  | .waiting _ => true
  | _ => false

/-- The startup ends with the handlers of two signals. -/
def resolveJob (w : World) : World :=
  { w with
    ready := true
    shutdownHandlers := if w.ready then w.shutdownHandlers else 2
    job := none
    calls := w.calls.map (resume w.currentKey)
    scheduled := [] }

/-- The waiting calls return the response that they have. -/
def rejectJob (w : World) : World :=
  w.scheduled.foldl (fun w attempt => w.setTimer (attempt + 1) (retryDelay attempt))
    { w with job := none, calls := w.calls.filter (!isWaiting ·), scheduled := [] }

/-- After an attempt without a key: the next one after a delay, or the error of the last one. -/
def attemptFailed (w : World) (job : Job) (attempt : ℕ) : World :=
  if attempt < maxAttempts then { w with job := some { job with phase := .delayed attempt } }
  else w.rejectJob

def nextAttempt (w : World) (job : Job) (attempt : ℕ) : World :=
  if attempt < maxAttempts then
    { w with job := some { job with phase := .generating (attempt + 1) } }
  else w.rejectJob

def revokeKeyByAlias (w : World) : World := { w with deletes := w.deletes ++ [.alias] }

def revokeKey (w : World) (key : String) (context : RevokeContext) : World :=
  { w with deletes := w.deletes ++ [.key key context] }

/-- The end of the save: the key is used, and the one before is revoked. -/
def saved (w : World) (now : ℤ) (job : Job) (state : VirtualKeyState) : World :=
  let w := { w with persisted := some state }.applyKeyState now state
  match job.previousKey with
  | none => w.resolveJob
  | some key =>
    if key = "" then w.resolveJob
    else { w.revokeKey key (.rotation job.trigger) with
      job := some { job with phase := .revoking } }

/-- `init` and the first request of the startup. -/
def bootstrap (w : World) : World :=
  let w := { w with started := true }
  match w.persisted with
  | none => { w.revokeKeyByAlias with job := some ⟨.startup, none, .clearingAlias⟩ }
  | some persisted =>
    if persisted.key = "" then
      { w.revokeKeyByAlias with job := some ⟨.startup, none, .clearingAlias⟩ }
    else { w.revokeKey persisted.key .startup with
      job := some ⟨.startup, none, .revokingPersisted⟩ }

end World

inductive Action where
  | init
  | provisioned (response : ProvisionResponse)
  | deleted
  | delayOver
  | saved (now : ℤ)
  | saveFailed
  | fire (i : ℕ)
  | call
  | responded (i : ℕ) (status : ℕ)
  | shutdown
  | teardown

def step (parse : String → Option ℤ) (w : World) : Action → Option World
  | .init => if w.started then some w else some w.bootstrap
  | .provisioned response =>
    match w.job with
    | some ⟨trigger, previousKey, .generating attempt⟩ =>
      match response.outcome parse with
      | .key state => some { w with
          issued := w.issued ++ [state.key]
          job := some ⟨trigger, previousKey, .saving state⟩ }
      | .conflict => some { w.revokeKeyByAlias with
          job := some ⟨trigger, previousKey, .clearingConflict attempt⟩ }
      | .failed => some (w.attemptFailed ⟨trigger, previousKey, .generating attempt⟩ attempt)
    | _ => none
  | .deleted =>
    match w.job with
    | some ⟨trigger, previousKey, .revokingPersisted⟩ =>
      some { w.revokeKeyByAlias with job := some ⟨trigger, previousKey, .clearingAlias⟩ }
    | some ⟨trigger, previousKey, .clearingAlias⟩ =>
      some { w with job := some ⟨trigger, previousKey, .generating 1⟩ }
    | some ⟨trigger, previousKey, .clearingConflict attempt⟩ =>
      some (w.nextAttempt ⟨trigger, previousKey, .clearingConflict attempt⟩ attempt)
    | some ⟨_, _, .revoking⟩ => some w.resolveJob
    | _ => none
  | .delayOver =>
    match w.job with
    | some ⟨trigger, previousKey, .delayed attempt⟩ =>
      some { w with job := some ⟨trigger, previousKey, .generating (attempt + 1)⟩ }
    | _ => none
  | .saved now =>
    match w.job with
    | some ⟨trigger, previousKey, .saving state⟩ =>
      some (w.saved now ⟨trigger, previousKey, .saving state⟩ state)
    | _ => none
  | .saveFailed =>
    match w.job with
    | some ⟨_, _, .saving state⟩ => some { w with unsaved := w.unsaved ++ [state.key] }.rejectJob
    | _ => none
  | .fire i =>
    match w.timers[i]? with
    | none => none
    | some timer =>
      let w := { w with timers := w.timers.eraseIdx i, refreshTimer := none }.refreshKey .refresh
      some { w with scheduled := w.scheduled ++ [timer.attempt] }
  | .call =>
    if w.ready then
      w.currentKey.map fun state => { w with calls := w.calls ++ [.sent state.key] }
    else none
  | .responded i status =>
    match w.calls[i]? with
    | some (.sent key) =>
      if status = 401 ∨ status = 403 then
        some { w.refreshKey .authError with calls := w.calls.set i (.waiting key) }
      else some { w with calls := w.calls.eraseIdx i }
    | some (.retried _ _) => some { w with calls := w.calls.eraseIdx i }
    | _ => none
  | .shutdown =>
    if 0 < w.shutdownHandlers then
      let w := { w with shutdownHandlers := w.shutdownHandlers - 1 }
      match w.currentKey with
      | none => some w
      | some state => some (w.revokeKey state.key .shutdown)
    else none
  | .teardown => some { w.clearRefreshTimer with shutdownHandlers := 0 }

inductive Steps (parse : String → Option ℤ) (w : World) : Action → World → Prop
  | initAgain (hstarted : w.started = true) : Steps parse w .init w
  | bootstrap (hstarted : w.started = false) : Steps parse w .init w.bootstrap
  | generated {response trigger previousKey attempt state}
    (hjob : w.job = some ⟨trigger, previousKey, .generating attempt⟩)
    (houtcome : response.outcome parse = .key state) :
    Steps parse w (.provisioned response) { w with
      issued := w.issued ++ [state.key]
      job := some ⟨trigger, previousKey, .saving state⟩ }
  | conflict {response trigger previousKey attempt}
    (hjob : w.job = some ⟨trigger, previousKey, .generating attempt⟩) :
    Steps parse w (.provisioned response) { w.revokeKeyByAlias with
      job := some ⟨trigger, previousKey, .clearingConflict attempt⟩ }
  | attemptFailed {response trigger previousKey attempt}
    (hjob : w.job = some ⟨trigger, previousKey, .generating attempt⟩) :
    Steps parse w (.provisioned response)
      (w.attemptFailed ⟨trigger, previousKey, .generating attempt⟩ attempt)
  | persistedRevoked {trigger previousKey}
    (hjob : w.job = some ⟨trigger, previousKey, .revokingPersisted⟩) :
    Steps parse w .deleted { w.revokeKeyByAlias with
      job := some ⟨trigger, previousKey, .clearingAlias⟩ }
  | aliasCleared {trigger previousKey}
    (hjob : w.job = some ⟨trigger, previousKey, .clearingAlias⟩) :
    Steps parse w .deleted { w with job := some ⟨trigger, previousKey, .generating 1⟩ }
  | conflictCleared {trigger previousKey attempt}
    (hjob : w.job = some ⟨trigger, previousKey, .clearingConflict attempt⟩) :
    Steps parse w .deleted (w.nextAttempt ⟨trigger, previousKey, .clearingConflict attempt⟩ attempt)
  | previousRevoked {trigger previousKey} (hjob : w.job = some ⟨trigger, previousKey, .revoking⟩) :
    Steps parse w .deleted w.resolveJob
  | delayOver {trigger previousKey attempt}
    (hjob : w.job = some ⟨trigger, previousKey, .delayed attempt⟩) :
    Steps parse w .delayOver { w with
      job := some ⟨trigger, previousKey, .generating (attempt + 1)⟩ }
  | saved {now trigger previousKey state}
    (hjob : w.job = some ⟨trigger, previousKey, .saving state⟩) :
    Steps parse w (.saved now) (w.saved now ⟨trigger, previousKey, .saving state⟩ state)
  | saveFailed {trigger previousKey state}
    (hjob : w.job = some ⟨trigger, previousKey, .saving state⟩) :
    Steps parse w .saveFailed { w with unsaved := w.unsaved ++ [state.key] }.rejectJob
  | fire {i timer} (hi : w.timers[i]? = some timer) :
    Steps parse w (.fire i)
      { ({ w with timers := w.timers.eraseIdx i, refreshTimer := none }.refreshKey .refresh) with
        scheduled := w.scheduled ++ [timer.attempt] }
  | call {state} (hready : w.ready = true) (hcurrent : w.currentKey = some state) :
    Steps parse w .call { w with calls := w.calls ++ [.sent state.key] }
  | refused {i status key} (hi : w.calls[i]? = some (.sent key)) :
    Steps parse w (.responded i status)
      { w.refreshKey .authError with calls := w.calls.set i (.waiting key) }
  | answered {i status call} (hi : w.calls[i]? = some call) (hcall : World.isWaiting call = false) :
    Steps parse w (.responded i status) { w with calls := w.calls.eraseIdx i }
  | shutdown {deletes}
    (hdeletes : deletes = [] ∨ ∃ s, w.currentKey = some s ∧ deletes = [.key s.key .shutdown]) :
    Steps parse w .shutdown { w with
      deletes := w.deletes ++ deletes
      shutdownHandlers := w.shutdownHandlers - 1 }
  | teardown : Steps parse w .teardown { w.clearRefreshTimer with shutdownHandlers := 0 }

variable {parse : String → Option ℤ} {w w' : World} {a : Action}

theorem refreshKey_scheduled (w : World) (trigger : ProvisionContext) :
    (w.refreshKey trigger).scheduled = w.scheduled := by
  unfold World.refreshKey
  cases w.job <;> rfl

theorem steps_of_step (h : step parse w a = some w') : Steps parse w a w' := by
  cases a <;> simp only [step] at h
  case init =>
    split_ifs at h with hstarted <;> obtain rfl := Option.some.inj h
    · exact .initAgain hstarted
    · exact .bootstrap (Bool.not_eq_true _ ▸ hstarted)
  case provisioned response =>
    split at h
    · rename_i hjob
      split at h <;> obtain rfl := Option.some.inj h
      · exact .generated hjob ‹_›
      · exact .conflict hjob
      · exact .attemptFailed hjob
    · exact absurd h.symm (Option.some_ne_none w')
  case deleted =>
    split at h
    case h_5 => exact absurd h.symm (Option.some_ne_none w')
    all_goals
      rename_i hjob
      obtain rfl := Option.some.inj h
    · exact .persistedRevoked hjob
    · exact .aliasCleared hjob
    · exact .conflictCleared hjob
    · exact .previousRevoked hjob
  case delayOver =>
    split at h
    · obtain rfl := Option.some.inj h
      exact .delayOver ‹_›
    · exact absurd h.symm (Option.some_ne_none w')
  case saved now =>
    split at h
    · obtain rfl := Option.some.inj h
      exact .saved ‹_›
    · exact absurd h.symm (Option.some_ne_none w')
  case saveFailed =>
    split at h
    · obtain rfl := Option.some.inj h
      exact .saveFailed ‹_›
    · exact absurd h.symm (Option.some_ne_none w')
  case fire i =>
    split at h
    · exact absurd h.symm (Option.some_ne_none w')
    · obtain rfl := Option.some.inj h
      rw [refreshKey_scheduled]
      exact .fire ‹_›
  case call =>
    split_ifs at h with hready
    obtain ⟨state, hcurrent, rfl⟩ := Option.map_eq_some_iff.mp h
    exact .call hready hcurrent
  case responded i status =>
    split at h
    · rename_i key hi
      split_ifs at h <;> obtain rfl := Option.some.inj h
      · exact .refused hi
      · exact .answered hi rfl
    · obtain rfl := Option.some.inj h
      exact .answered ‹_› rfl
    · exact absurd h.symm (Option.some_ne_none w')
  case shutdown =>
    split_ifs at h
    split at h <;> obtain rfl := Option.some.inj h
    · rename_i hcurrent
      have hnone : Steps parse w .shutdown _ := .shutdown (.inl rfl)
      simpa using hnone
    · rename_i state hcurrent
      exact .shutdown (.inr ⟨state, hcurrent, rfl⟩)
  case teardown =>
    obtain rfl := Option.some.inj h
    exact .teardown

end Agyn.VirtualKeys
