import Mathlib.Data.List.Basic

/-!
Loops of reducers. A reducer transforms a state, its router names the next reducer or
ends the loop, and either of them may throw. What they see and change outside of the
state is a world, and what they are told from outside in one turn is an environment.
An invariant says what holds before each reducer, of a loop that is done, and of one that
failed. A run keeps it when every turn keeps it, where a turn may be restricted by what is
known of its environment and of the machine before it.
-/
namespace Agyn

namespace Loops

variable {Id S W E : Type}

/-- How one turn of the loop, or an awaited part of it, ends. -/
abbrev Result (W α : Type) := Except String α × W

structure Reducer (Id S W E : Type) where
  invoke : E → S → W → Result W S
  /-- The router of the reducer; without one the loop ends. -/
  router : Option (E → S → W → Result W (S × Option Id))

inductive Status (Id S : Type) where
  | running (current : Id) (state : S)
  | done (state : S)
  | failed (message : String)
  deriving DecidableEq

structure Machine (Id S W : Type) where
  status : Status Id S
  world : W

/-- What a router's answer makes of the loop. The next reducer must exist. -/
def follow (reducers : Id → Option (Reducer Id S W E)) :
    Result W (S × Option Id) → Machine Id S W
  | (.error message, world) => ⟨.failed message, world⟩
  | (.ok (state, none), world) => ⟨.done state, world⟩
  | (.ok (state, some next), world) =>
    if (reducers next).isSome then ⟨.running next state, world⟩
    else ⟨.failed "No reducer found for next id", world⟩

def turn (reducers : Id → Option (Reducer Id S W E)) (reducer : Reducer Id S W E) (env : E)
    (state : S) (world : W) : Machine Id S W :=
  match reducer.invoke env state world with
  | (.error message, world) => ⟨.failed message, world⟩
  | (.ok state, world) =>
    match reducer.router with
    | none => ⟨.done state, world⟩
    | some route => follow reducers (route env state world)

/-- One turn of the loop; nothing happens once it has ended. -/
def step (reducers : Id → Option (Reducer Id S W E)) (env : E) (m : Machine Id S W) :
    Machine Id S W :=
  match m.status with
  | .running current state =>
    match reducers current with
    | none => ⟨.failed "No reducer found for id", m.world⟩
    | some reducer => turn reducers reducer env state m.world
  | .done _ => m
  | .failed _ => m

/-- The turns of a loop in the given environments, the first one first. -/
def run (reducers : Id → Option (Reducer Id S W E)) (envs : List E) (m : Machine Id S W) :
    Machine Id S W :=
  envs.foldl (fun m env => step reducers env m) m

def Status.IsRunning (status : Status Id S) : Prop :=
  ∃ current state, status = .running current state

/-- Every turn of a run finds its environment and its machine in the given relation. -/
def Along (reducers : Id → Option (Reducer Id S W E)) (P : E → Machine Id S W → Prop) :
    List E → Machine Id S W → Prop
  | [], _ => True
  | env :: envs, m => P env m ∧ Along reducers P envs (step reducers env m)

/-- What is asked of a result: `good` of a value, `bad` of an error. -/
def Ensures {α : Type} (good : α → W → Prop) (bad : W → Prop) : Result W α → Prop
  | (.ok a, world) => good a world
  | (.error _, world) => bad world

structure Invariant (Id S W : Type) where
  inside : Id → S → W → Prop
  ended : S → W → Prop
  broken : W → Prop

namespace Invariant

def Holds (I : Invariant Id S W) (m : Machine Id S W) : Prop :=
  match m.status with
  | .running current state => I.inside current state m.world
  | .done state => I.ended state m.world
  | .failed _ => I.broken m.world

def Next (I : Invariant Id S W) (answer : S × Option Id) (world : W) : Prop :=
  match answer.2 with
  | none => I.ended answer.1 world
  | some next => I.inside next answer.1 world

def Routed (I : Invariant Id S W) (reducer : Reducer Id S W E) (env : E) (state : S)
    (world : W) : Prop :=
  match reducer.router with
  | none => I.ended state world
  | some route => Ensures I.Next I.broken (route env state world)

def Keeps (I : Invariant Id S W) (reducer : Reducer Id S W E) (env : E) (state : S)
    (world : W) : Prop :=
  Ensures (I.Routed reducer env) I.broken (reducer.invoke env state world)

def inter (I J : Invariant Id S W) : Invariant Id S W where
  inside := fun current state world => I.inside current state world ∧ J.inside current state world
  ended := fun state world => I.ended state world ∧ J.ended state world
  broken := fun world => I.broken world ∧ J.broken world

end Invariant

section Rules

variable {reducers : Id → Option (Reducer Id S W E)} {env : E} {m : Machine Id S W}

theorem step_running {current : Id} {state : S} {world : W} {reducer : Reducer Id S W E}
    (h : reducers current = some reducer) :
    step reducers env ⟨.running current state, world⟩ = turn reducers reducer env state world := by
  unfold step
  dsimp only
  rw [h]

theorem step_of_not_running (h : ¬ m.status.IsRunning) : step reducers env m = m := by
  unfold step
  cases hstatus : m.status with
  | running current state => exact absurd ⟨current, state, hstatus⟩ h
  | done state => rfl
  | failed message => rfl

theorem run_concat (envs : List E) (env : E) (m : Machine Id S W) :
    run reducers (envs ++ [env]) m = step reducers env (run reducers envs m) := by
  simp [run]

theorem run_of_not_running {envs : List E} (h : ¬ m.status.IsRunning) :
    run reducers envs m = m := by
  induction envs with
  | nil => rfl
  | cons env envs ih =>
    change run reducers envs (step reducers env m) = m
    rw [step_of_not_running h, ih]

theorem Along.of_forall {P : E → Machine Id S W → Prop} {envs : List E} {m : Machine Id S W}
    (h : ∀ env ∈ envs, ∀ m, P env m) : Along reducers P envs m := by
  induction envs generalizing m with
  | nil => trivial
  | cons env envs ih =>
    exact ⟨h env List.mem_cons_self m, ih fun env' henv' => h env' (List.mem_cons_of_mem _ henv')⟩

theorem Along.concat {P : E → Machine Id S W → Prop} {envs : List E} {m : Machine Id S W}
    (h : Along reducers P (envs ++ [env]) m) :
    Along reducers P envs m ∧ P env (run reducers envs m) := by
  induction envs generalizing m with
  | nil => exact ⟨trivial, h.1⟩
  | cons env' envs ih => exact ⟨⟨h.1, (ih h.2).1⟩, (ih h.2).2⟩

/-- What every turn of a run keeps holds after the run. -/
theorem Along.preserves {P : E → Machine Id S W → Prop} {I : Machine Id S W → Prop}
    {envs : List E} {m : Machine Id S W} (halong : Along reducers P envs m) (h : I m)
    (hstep : ∀ env ∈ envs, ∀ m, P env m → I m → I (step reducers env m)) :
    I (run reducers envs m) := by
  induction envs generalizing m with
  | nil => exact h
  | cons env envs ih =>
    refine ih halong.2 (hstep env List.mem_cons_self m halong.1 h) ?_
    exact fun env' henv' => hstep env' (List.mem_cons_of_mem _ henv')

section Ensuring

variable {α : Type} {good : α → W → Prop} {bad : W → Prop}

@[simp] theorem ensures_ok {a : α} {world : W} :
    Ensures good bad (.ok a, world) ↔ good a world := Iff.rfl

@[simp] theorem ensures_error {message : String} {world : W} :
    Ensures good bad ((.error message, world) : Result W α) ↔ bad world := Iff.rfl

theorem Ensures.and {good' : α → W → Prop} {bad' : W → Prop} {result : Result W α}
    (h : Ensures good bad result) (h' : Ensures good' bad' result) :
    Ensures (fun a world => good a world ∧ good' a world) (fun world => bad world ∧ bad' world)
      result := by
  obtain ⟨result, world⟩ := result
  cases result with
  | error message => exact ⟨h, h'⟩
  | ok a => exact ⟨h, h'⟩

theorem Ensures.imp {good' : α → W → Prop} {bad' : W → Prop} {result : Result W α}
    (h : Ensures good bad result) (hgood : ∀ a world, good a world → good' a world)
    (hbad : ∀ world, bad world → bad' world) : Ensures good' bad' result := by
  obtain ⟨result, world⟩ := result
  cases result with
  | error message => exact hbad world h
  | ok a => exact hgood a world h

end Ensuring

namespace Invariant

variable {I : Invariant Id S W}

/-- What each part of an invariant says of the world. -/
theorem Holds.world {O : W → Prop} (h : I.Holds m)
    (hinside : ∀ current state world, I.inside current state world → O world)
    (hended : ∀ state world, I.ended state world → O world)
    (hbroken : ∀ world, I.broken world → O world) : O m.world := by
  obtain ⟨status, world⟩ := m
  cases status with
  | running current state => exact hinside current state world h
  | done state => exact hended state world h
  | failed message => exact hbroken world h

theorem holds_follow {answer : Result W (S × Option Id)}
    (hbroken : ∀ current state world, I.inside current state world → I.broken world)
    (h : Ensures I.Next I.broken answer) : I.Holds (follow reducers answer) := by
  obtain ⟨result, world⟩ := answer
  cases result with
  | error message => exact h
  | ok target =>
    obtain ⟨state, next⟩ := target
    cases next with
    | none => exact h
    | some next =>
      unfold follow
      dsimp only
      by_cases hnext : (reducers next).isSome
      · rw [if_pos hnext]
        exact h
      · rw [if_neg hnext]
        exact hbroken next state world h

/-- After a turn there holds what the reducer and its router ensure. -/
theorem holds_turn {reducer : Reducer Id S W E} {state : S} {world : W}
    (hbroken : ∀ current state world, I.inside current state world → I.broken world)
    (h : I.Keeps reducer env state world) : I.Holds (turn reducers reducer env state world) := by
  unfold Keeps at h
  unfold turn
  cases hinvoke : reducer.invoke env state world with
  | mk result world' =>
    rw [hinvoke] at h
    cases result with
    | error message => exact h
    | ok state' =>
      rw [ensures_ok] at h
      unfold Routed at h
      dsimp only
      cases hrouter : reducer.router with
      | none =>
        rw [hrouter] at h
        exact h
      | some route =>
        rw [hrouter] at h
        exact holds_follow hbroken h

/-- A reducer that keeps each of two invariants keeps both. -/
theorem Keeps.inter {I J : Invariant Id S W} {reducer : Reducer Id S W E} {state : S} {world : W}
    (hI : I.Keeps reducer env state world) (hJ : J.Keeps reducer env state world) :
    (I.inter J).Keeps reducer env state world := by
  refine (Ensures.and hI hJ).imp ?_ fun world h => h
  intro state' world' h
  unfold Routed at h ⊢
  cases hrouter : reducer.router with
  | none =>
    rw [hrouter] at h
    exact h
  | some route =>
    rw [hrouter] at h
    refine (Ensures.and h.1 h.2).imp ?_ fun world h => h
    intro answer world'' hnext
    unfold Next at hnext ⊢
    cases hanswer : answer.2 with
    | none =>
      rw [hanswer] at hnext
      exact hnext
    | some next =>
      rw [hanswer] at hnext
      exact hnext

/-- A turn keeps the invariant when the reducer that is about to run does. -/
theorem step (hbroken : ∀ current state world, I.inside current state world → I.broken world)
    (hkeeps : ∀ current state reducer, m.status = .running current state →
      reducers current = some reducer → I.inside current state m.world →
        I.Keeps reducer env state m.world)
    (h : I.Holds m) : I.Holds (Loops.step reducers env m) := by
  obtain ⟨status, world⟩ := m
  cases status with
  | done state => exact h
  | failed message => exact h
  | running current state =>
    cases hreducer : reducers current with
    | none =>
      unfold Loops.step
      dsimp only
      rw [hreducer]
      exact hbroken current state world h
    | some reducer =>
      rw [step_running hreducer]
      exact holds_turn hbroken (hkeeps current state reducer rfl hreducer h)

/-- An invariant that holds at the start of a run holds after it, when each turn keeps it. -/
theorem run {P : E → Machine Id S W → Prop} {envs : List E} {m : Machine Id S W}
    (hbroken : ∀ current state world, I.inside current state world → I.broken world)
    (halong : Along reducers P envs m)
    (hkeeps : ∀ env ∈ envs, ∀ current state world reducer,
      P env ⟨.running current state, world⟩ → reducers current = some reducer →
        I.inside current state world → I.Keeps reducer env state world)
    (h : I.Holds m) : I.Holds (Loops.run reducers envs m) := by
  refine halong.preserves h ?_
  intro env henv m hP hm
  refine step hbroken ?_ hm
  intro current state reducer hstatus hreducer hinside
  obtain ⟨status, world⟩ := m
  subst hstatus
  exact hkeeps env henv current state world reducer hP hreducer hinside

end Invariant

end Rules

end Loops

end Agyn
