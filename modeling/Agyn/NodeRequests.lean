import Mathlib.Data.Nat.Notation
import Mathlib.Logic.Function.Basic
import Mathlib.Tactic.SplitIfs
import Agyn.GuardedRuns

/-!
The life cycle of a node. `provision` and `deprovision` return at once while another call is
pending; what the runtime asks for in that time is dropped. A node that is disposed of is asked to
deprovision and leaves the runtime when that call returns. Calls are numbered. The status of a node
agrees with the last request once all calls have returned, as long as no request comes while a call
of the other kind is pending. Such a request is dropped: a node that is disposed of during its first
provision ends up provisioned, and out of the runtime's reach.
-/
namespace Agyn.NodeLifecycle

section LifeCycle

inductive NodeStatusState where
  | notReady
  | provisioning
  | ready
  | deprovisioning
  | provisioningError
  | deprovisioningError
  deriving DecidableEq

inductive Request where
  | provision
  | deprovision
  deriving DecidableEq

/-- A call works while `doProvision` or `doDeprovision` runs; once that has settled, the status is
set and the pending flag is not yet cleared. -/
inductive CallPhase where
  | idle
  | working (request : Request)
  | settled (request : Request)
  | returned
  deriving DecidableEq

structure NodeState where
  status : NodeStatusState
  pending : Option Request
  calls : ℕ → CallPhase
  /-- `doProvision` may have acquired resources that no `doDeprovision` has released. -/
  provisioned : Bool
  /-- The last request, also when it was dropped. -/
  last : Option Request
  /-- The call of `deprovision` that `disposeNode` waits for. -/
  disposal : Option ℕ
  /-- The runtime knows the node. -/
  live : Bool

def NodeState.initial : NodeState :=
  ⟨.notReady, none, fun _ => .idle, false, none, none, true⟩

inductive NodeStep where
  | provision (call : ℕ)
  | deprovision (call : ℕ)
  | disposeNode (call : ℕ)
  | settle (call : ℕ) (success : Bool)
  | clearPending (call : ℕ)
  | removeNode

namespace NodeState

def setCall (s : NodeState) (call : ℕ) (phase : CallPhase) : NodeState :=
  { s with calls := Function.update s.calls call phase }

def isBusy (s : NodeState) : Bool :=
  s.pending.isSome || s.status = .provisioning || s.status = .deprovisioning

def provision (s : NodeState) (call : ℕ) : NodeState :=
  if s.isBusy then s.setCall call .returned
  else if s.status = .ready then s.setCall call .returned
  else
    { s.setCall call (.working .provision) with
      pending := some .provision
      status := .provisioning
      provisioned := true }

def deprovision (s : NodeState) (call : ℕ) : NodeState :=
  if s.isBusy then s.setCall call .returned
  else if s.status = .notReady then s.setCall call .returned
  else
    { s.setCall call (.working .deprovision) with
      pending := some .deprovision
      status := .deprovisioning }

/-- `doProvision` or `doDeprovision` settles. -/
def settle (s : NodeState) (call : ℕ) (success : Bool) : Request → NodeState
  | .provision =>
    { s.setCall call (.settled .provision) with
      status := if success then .ready else .provisioningError }
  | .deprovision =>
    { s.setCall call (.settled .deprovision) with
      status := if success then .notReady else .deprovisioningError
      provisioned := s.provisioned && !success }

def step (s : NodeState) : NodeStep → Option NodeState
  | .provision call =>
    if s.live = true ∧ s.calls call = .idle then
      some { s.provision call with last := some .provision }
    else none
  | .deprovision call =>
    if s.live = true ∧ s.calls call = .idle then
      some { s.deprovision call with last := some .deprovision }
    else none
  | .disposeNode call =>
    if s.live = true ∧ s.calls call = .idle ∧ s.disposal = none then
      some { s.deprovision call with last := some .deprovision, disposal := some call }
    else none
  | .settle call success =>
    match s.calls call with
    | .working request => some (s.settle call success request)
    | _ => none
  | .clearPending call =>
    match s.calls call with
    | .settled _ => some { s.setCall call .returned with pending := none }
    | _ => none
  | .removeNode =>
    match s.disposal with
    | some call =>
      if s.live = true ∧ s.calls call = .returned then some { s with live := false } else none
    | none => none

end NodeState

end LifeCycle

section Requests

open NodeState

variable {s s' : NodeState} {i j : ℕ} {r : Request}

namespace NodeState

def Agrees (s : NodeState) : Request → Prop
  | .provision => s.status = .ready ∨ s.status = .provisioningError
  | .deprovision => s.status = .notReady

def Quiet (s : NodeState) : Prop := ∀ i, s.calls i = .idle ∨ s.calls i = .returned

def InFlight (s : NodeState) (i : ℕ) (r : Request) : Prop :=
  s.calls i = .working r ∨ s.calls i = .settled r

def Accepts (s : NodeState) (r : Request) : Prop := s.pending = none ∨ s.pending = some r

instance (s : NodeState) (r : Request) : Decidable (s.Accepts r) :=
  inferInstanceAs (Decidable (_ ∨ _))

end NodeState

/-- `doProvision` and `doDeprovision` never overlap, the status agrees with the last request once
all calls have returned, and then a deprovisioned node and one that is disposed of holds no
resources. -/
structure FollowsRequests (s : NodeState) : Prop where
  apart : ∀ i j, s.calls i = .working .provision → s.calls j ≠ .working .deprovision
  agrees : s.Quiet → ∀ r, s.last = some r → s.Agrees r
  released : s.Quiet → s.last = some .deprovision → s.provisioned = false
  disposed : s.Quiet → s.live = false → s.status = .notReady ∧ s.provisioned = false

/-- No request comes while a call of the other kind is pending, a node is not provisioned once its
disposal has begun, and no `doDeprovision` fails. -/
def Undisturbed (s : NodeState) : NodeStep → Prop
  | .provision _ => s.Accepts .provision ∧ s.disposal = none
  | .deprovision _ | .disposeNode _ => s.Accepts .deprovision
  | .settle i success => s.calls i = .working .deprovision → success = true
  | _ => True

instance (s : NodeState) (a : NodeStep) : Decidable (Undisturbed s a) := by
  cases a <;> unfold Undisturbed <;> infer_instance

/-- What every undisturbed run keeps. -/
structure Sound (s : NodeState) : Prop where
  alone : ∀ i r, s.InFlight i r → s.pending = some r ∧ ∀ j r', s.InFlight j r' → j = i
  carried : ∀ r, s.pending = some r → ∃ i, s.InFlight i r
  settled : ∀ i r, s.calls i = .settled r → s.Agrees r
  resting : s.pending = none → s.status = .notReady ∨ ∃ r, s.last = some r ∧ s.Agrees r
  agrees : s.pending = none → ∀ r, s.last = some r → s.Agrees r
  clean : s.status = .notReady → s.provisioned = false
  last : ∀ r, s.pending = some r → s.last = some r
  disposal : s.disposal.isSome = true → s.last = some .deprovision
  removed : s.live = false → s.disposal.isSome = true

@[simp] theorem setCall_calls_self (p : CallPhase) : (s.setCall i p).calls i = p := by
  simp [setCall]

theorem setCall_calls_ne (p : CallPhase) (h : j ≠ i) : (s.setCall i p).calls j = s.calls j := by
  simp [setCall, h]

theorem not_inFlight (h : s.calls i = .idle) : ¬ s.InFlight i r := by
  simp [InFlight, h]

/-- No call is in flight when nothing is pending. -/
theorem Sound.not_inFlight (h : Sound s) (hpending : s.pending = none) : ¬ s.InFlight i r := by
  intro hi
  simp [(h.alone i r hi).1] at hpending

/-- Nothing is pending once all calls have returned. -/
theorem Sound.pending_of_quiet (h : Sound s) (hquiet : s.Quiet) : s.pending = none := by
  rw [Option.eq_none_iff_forall_ne_some]
  intro r hr
  obtain ⟨i, hi⟩ := h.carried r hr
  rcases hquiet i with hidle | hreturned
  · exact NodeLifecycle.not_inFlight hidle hi
  · simp [InFlight, hreturned] at hi

/-- A node is busy exactly while a call is pending. -/
theorem Sound.isBusy_iff (h : Sound s) : s.isBusy = true ↔ s.pending ≠ none := by
  constructor
  · intro hbusy hpending
    rcases h.resting hpending with hstatus | ⟨r, -, hagrees⟩
    · simp [isBusy, hpending, hstatus] at hbusy
    · cases r <;> simp only [Agrees] at hagrees
      · rcases hagrees with hstatus | hstatus <;> simp [isBusy, hpending, hstatus] at hbusy
      · simp [isBusy, hpending, hagrees] at hbusy
  · intro hpending
    obtain ⟨r, hr⟩ := Option.ne_none_iff_exists'.mp hpending
    simp [isBusy, hr]

/-- A request that changes nothing but the last request; the status agrees with it if nothing is
pending. -/
theorem sound_dropped (h : Sound s) (hidle : s.calls i = .idle) (haccepts : s.Accepts r)
    (hagrees : s.pending = none → s.Agrees r)
    (hcalls : s'.calls = (s.setCall i .returned).calls) (hstatus : s'.status = s.status)
    (hpending : s'.pending = s.pending) (hprovisioned : s'.provisioned = s.provisioned)
    (hlast : s'.last = some r) (hlive : s'.live = s.live)
    (hdisposal : s'.disposal.isSome = true → r = .deprovision)
    (hremoved : s.disposal.isSome = true → s'.disposal.isSome = true) : Sound s' := by
  have hflight (j : ℕ) (r' : Request) : s'.InFlight j r' ↔ s.InFlight j r' := by
    by_cases hji : j = i
    · subst hji
      simp [InFlight, hcalls, hidle]
    · simp [InFlight, hcalls, setCall_calls_ne _ hji]
  have hsame (r' : Request) : s'.Agrees r' ↔ s.Agrees r' := by
    cases r' <;> simp [Agrees, hstatus]
  constructor
  · intro j r' hj
    obtain ⟨hr, hsole⟩ := h.alone j r' ((hflight j r').mp hj)
    exact ⟨hpending.trans hr, fun k r'' hk => hsole k r'' ((hflight k r'').mp hk)⟩
  · intro r' hr
    obtain ⟨j, hj⟩ := h.carried r' (hpending ▸ hr)
    exact ⟨j, (hflight j r').mpr hj⟩
  · intro j r' hj
    rw [hcalls] at hj
    by_cases hji : j = i
    · subst hji
      simp at hj
    · exact (hsame r').mpr (h.settled j r' (by simpa [setCall_calls_ne _ hji] using hj))
  · exact fun hnone => Or.inr ⟨r, hlast, (hsame r).mpr (hagrees (hpending ▸ hnone))⟩
  · intro hnone r' hr'
    obtain rfl : r = r' := Option.some.inj (hlast.symm.trans hr')
    exact (hsame r).mpr (hagrees (hpending ▸ hnone))
  · exact fun hready => hprovisioned.trans (h.clean (hstatus ▸ hready))
  · intro r' hr'
    rcases haccepts with hnone | hsome
    · simp [hpending, hnone] at hr'
    · rw [hlast, ← hsome, ← hpending, hr']
  · exact fun hd => hlast.trans (congrArg some (hdisposal hd))
  · exact fun hlive' => hremoved (h.removed (hlive ▸ hlive'))

/-- A request that is taken up when nothing is pending. -/
theorem sound_accepted (h : Sound s) (hnone : s.pending = none)
    (hcalls : s'.calls = (s.setCall i (.working r)).calls) (hpending : s'.pending = some r)
    (hstatus : s'.status ≠ .notReady) (hlast : s'.last = some r) (hlive : s'.live = s.live)
    (hdisposal : s'.disposal.isSome = true → r = .deprovision)
    (hremoved : s.disposal.isSome = true → s'.disposal.isSome = true) : Sound s' := by
  have hsole (j : ℕ) (r' : Request) (hj : s'.InFlight j r') : j = i := by
    by_contra hji
    refine h.not_inFlight (i := j) (r := r') hnone ?_
    simpa [InFlight, hcalls, setCall_calls_ne _ hji] using hj
  have hself : s'.InFlight i r := Or.inl (by simp [hcalls])
  constructor
  · intro j r' hj
    obtain rfl := hsole j r' hj
    have hr : r' = r := by simpa [InFlight, hcalls, eq_comm] using hj
    exact ⟨hr ▸ hpending, hsole⟩
  · intro r' hr'
    obtain rfl : r = r' := Option.some.inj (hpending.symm.trans hr')
    exact ⟨i, hself⟩
  · intro j r' hj
    obtain rfl := hsole j r' (Or.inr hj)
    simp [hcalls] at hj
  · simp [hpending]
  · simp [hpending]
  · exact fun hready => absurd hready hstatus
  · intro r' hr'
    rw [hlast, ← hpending, hr']
  · exact fun hd => hlast.trans (congrArg some (hdisposal hd))
  · exact fun hlive' => hremoved (h.removed (hlive ▸ hlive'))

theorem sound_provision (h : Sound s) (hidle : s.calls i = .idle) (haccepts : s.Accepts .provision)
    (hdisposal : s.disposal = none) :
    Sound { s.provision i with last := some .provision } := by
  have hnothing : s.disposal.isSome = true → Request.provision = .deprovision := by
    simp [hdisposal]
  unfold provision
  split_ifs with hbusy hready
  · exact sound_dropped h hidle haccepts
      (fun hnone => absurd hnone (h.isBusy_iff.mp hbusy)) rfl rfl rfl rfl rfl rfl hnothing id
  · exact sound_dropped h hidle haccepts (fun _ => Or.inl hready) rfl rfl rfl rfl rfl rfl
      hnothing id
  · refine sound_accepted (i := i) h ?_ rfl rfl (by simp) rfl rfl hnothing id
    by_contra hpending
    exact hbusy (h.isBusy_iff.mpr hpending)

/-- A request to deprovision, made by `disposeNode` or not. -/
theorem sound_deprovision (h : Sound s) (hidle : s.calls i = .idle)
    (haccepts : s.Accepts .deprovision) (disposal : Option ℕ)
    (hremoved : s.disposal.isSome = true → disposal.isSome = true) :
    Sound { s.deprovision i with last := some .deprovision, disposal } := by
  unfold deprovision
  split_ifs with hbusy hready
  · exact sound_dropped h hidle haccepts
      (fun hnone => absurd hnone (h.isBusy_iff.mp hbusy)) rfl rfl rfl rfl rfl rfl
      (fun _ => rfl) hremoved
  · exact sound_dropped h hidle haccepts (fun _ => hready) rfl rfl rfl rfl rfl rfl
      (fun _ => rfl) hremoved
  · refine sound_accepted (i := i) h ?_ rfl rfl (by simp) rfl rfl (fun _ => rfl) hremoved
    by_contra hpending
    exact hbusy (h.isBusy_iff.mpr hpending)

theorem inFlight_settle (h : s.calls i = .working r) {success : Bool} (r' : Request) :
    (s.settle i success r).InFlight j r' ↔ s.InFlight j r' := by
  by_cases hji : j = i
  · subst hji
    cases r <;> simp [settle, InFlight, h, eq_comm]
  · cases r <;> simp [settle, InFlight, setCall_calls_ne _ hji]

theorem sound_settle (h : Sound s) (hworking : s.calls i = .working r) {success : Bool}
    (hok : r = .deprovision → success = true) : Sound (s.settle i success r) := by
  obtain ⟨hpending, hsole⟩ := h.alone i r (Or.inl hworking)
  have hagrees : (s.settle i success r).Agrees r := by
    cases r with
    | provision => cases success <;> simp [settle, Agrees]
    | deprovision => simp [settle, Agrees, hok rfl]
  have hsame : (s.settle i success r).pending = s.pending ∧
      (s.settle i success r).last = s.last ∧ (s.settle i success r).disposal = s.disposal ∧
        (s.settle i success r).live = s.live := by
    cases r <;> exact ⟨rfl, rfl, rfl, rfl⟩
  obtain ⟨hpend, hlast, hdisposal, hlive⟩ := hsame
  constructor
  · intro j r' hj
    obtain ⟨hr', hall⟩ := h.alone j r' ((inFlight_settle hworking r').mp hj)
    exact ⟨hpend.trans hr', fun k r'' hk => hall k r'' ((inFlight_settle hworking r'').mp hk)⟩
  · intro r' hr'
    obtain ⟨j, hj⟩ := h.carried r' (hpend ▸ hr')
    exact ⟨j, (inFlight_settle hworking r').mpr hj⟩
  · intro j r' hj
    have hflight := (inFlight_settle hworking r').mp (Or.inr hj)
    obtain rfl := hsole j r' hflight
    obtain rfl : r = r' := Option.some.inj (hpending.symm.trans (h.alone j r' hflight).1)
    exact hagrees
  · simp [hpend, hpending]
  · simp [hpend, hpending]
  · cases r with
    | provision => cases success <;> simp [settle]
    | deprovision => simp [settle, hok rfl]
  · exact fun r' hr' => hlast.trans (h.last r' (hpend ▸ hr'))
  · exact fun hd => hlast.trans (h.disposal (hdisposal ▸ hd))
  · exact fun hl => hdisposal ▸ h.removed (hlive ▸ hl)

theorem sound_clearPending (h : Sound s) (hsettled : s.calls i = .settled r) :
    Sound { s.setCall i .returned with pending := none } := by
  obtain ⟨hpending, hsole⟩ := h.alone i r (Or.inr hsettled)
  have hnone (j : ℕ) (r' : Request) :
      ¬ ({ s.setCall i .returned with pending := none } : NodeState).InFlight j r' := by
    intro hj
    have hji : j ≠ i := by
      rintro rfl
      simp [InFlight] at hj
    exact hji (hsole j r' (by simpa [InFlight, setCall_calls_ne _ hji] using hj))
  have hlast := h.last r hpending
  have hagrees := h.settled i r hsettled
  constructor
  · exact fun j r' hj => absurd hj (hnone j r')
  · simp
  · exact fun j r' hj => absurd (Or.inr hj) (hnone j r')
  · exact fun _ => Or.inr ⟨r, hlast, hagrees⟩
  · intro _ r' hr'
    obtain rfl : r = r' := Option.some.inj (hlast.symm.trans hr')
    exact hagrees
  · exact h.clean
  · simp
  · exact h.disposal
  · exact h.removed

theorem sound_initial : Sound .initial := by
  constructor <;> simp [NodeState.initial, InFlight]

theorem sound_step (h : Sound s) {a : NodeStep} (hok : Undisturbed s a)
    (hstep : s.step a = some s') : Sound s' := by
  cases a with
  | provision i =>
    obtain ⟨hcall, hs⟩ := Option.ite_none_right_eq_some.mp hstep
    exact Option.some.inj hs ▸ sound_provision h hcall.2 hok.1 hok.2
  | deprovision i =>
    obtain ⟨hcall, hs⟩ := Option.ite_none_right_eq_some.mp hstep
    obtain rfl := Option.some.inj hs
    have hsame : (s.deprovision i).disposal = s.disposal := by
      unfold deprovision
      split_ifs <;> rfl
    exact sound_deprovision h hcall.2 hok (s.deprovision i).disposal (by simp [hsame])
  | disposeNode i =>
    obtain ⟨hcall, hs⟩ := Option.ite_none_right_eq_some.mp hstep
    exact Option.some.inj hs ▸ sound_deprovision h hcall.2.1 hok _ fun _ => rfl
  | settle i success =>
    simp only [NodeState.step] at hstep
    split at hstep
    next r hworking =>
      exact Option.some.inj hstep ▸ sound_settle h hworking fun hr => hok (hr ▸ hworking)
    next => simp at hstep
  | clearPending i =>
    simp only [NodeState.step] at hstep
    split at hstep
    next r hsettled => exact Option.some.inj hstep ▸ sound_clearPending h hsettled
    next => simp at hstep
  | removeNode =>
    simp only [NodeState.step] at hstep
    split at hstep
    next i hdisposal =>
      obtain ⟨-, hs⟩ := Option.ite_none_right_eq_some.mp hstep
      obtain rfl := Option.some.inj hs
      exact { h with removed := fun _ => by simp [hdisposal] }
    next => simp at hstep

theorem Sound.followsRequests (h : Sound s) : FollowsRequests s where
  apart i j hi hj := by
    have hprovision := (h.alone i _ (Or.inl hi)).1
    have hdeprovision := (h.alone j _ (Or.inl hj)).1
    simp [hprovision] at hdeprovision
  agrees hquiet := h.agrees (h.pending_of_quiet hquiet)
  released hquiet hlast := h.clean (h.agrees (h.pending_of_quiet hquiet) _ hlast)
  disposed hquiet hremoved := by
    have hready := h.agrees (h.pending_of_quiet hquiet) _ (h.disposal (h.removed hremoved))
    exact ⟨hready, h.clean hready⟩

/-- In an undisturbed run `doProvision` and `doDeprovision` never overlap, and whenever all calls
have returned the node is as the last request wants it. -/
theorem follows_requests (h : Reached NodeState.step Undisturbed .initial s) :
    FollowsRequests s :=
  (h.invariant sound_initial fun _ _ _ hs hok hstep => sound_step hs hok hstep).followsRequests

def retriedAndDisposed : List NodeStep :=
  [.provision 0, .settle 0 false, .clearPending 0, .provision 1, .provision 2, .settle 1 true,
    .clearPending 1, .disposeNode 3, .settle 3 true, .clearPending 3, .removeNode]

theorem retriedAndDisposed_follows :
    ∃ s, runFrom NodeState.step .initial retriedAndDisposed = some s ∧ FollowsRequests s := by
  have hmeet : StepsMeet NodeState.step Undisturbed .initial retriedAndDisposed := by decide
  exact ⟨_, rfl, follows_requests (Reached.init.run hmeet rfl)⟩

/-- A node that is disposed of while its first provision is running stays provisioned. -/
theorem disposed_while_provisioning :
    ∃ s, runFrom NodeState.step .initial
      [.provision 0, .disposeNode 1, .removeNode, .settle 0 true, .clearPending 0] = some s ∧
      s.live = false ∧ s.status = .ready ∧ ¬ FollowsRequests s := by
  refine ⟨_, rfl, rfl, rfl, fun h => absurd (h.disposed (fun i => ?_) rfl).1 (by decide)⟩
  match i with
  | 0 => exact Or.inr rfl
  | 1 => exact Or.inr rfl
  | _ + 2 => exact Or.inl rfl

end Requests

end Agyn.NodeLifecycle
