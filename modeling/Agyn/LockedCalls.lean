import Agyn.Programs
import Mathlib.Logic.Function.Basic

/-!
Calls that take turns on a store by a lock. A call polls for the lock until it gets
it or runs out of time, runs its body one operation at a time, and removes the lock.
Any number of calls are interleaved in any order. Whatever the bodies are, every run
is serial: the store is that of the bodies run one after the other, except for the
part that the current holder has already done.
-/
namespace Agyn

open Prog

inductive Call (L : Type) (Op : Type → Type) (α : Type) : Type 1
  | waiting
  | holding (p : Prog L Op α)
  | settled (r : α)
  | timedOut

/-- A store, the creator of the lock if it is there, and the calls. -/
structure Locked (ι L : Type) (Op : Type → Type) (α D : Type) : Type 1 where
  store : D
  lock : Option ι
  calls : ι → Call L Op α

variable {ι L : Type} {Op : Type → Type} {α D : Type}

section

variable [DecidableEq ι]

def Locked.setCall (c : Locked ι L Op α D) (i : ι) (s : Call L Op α) : Locked ι L Op α D :=
  { c with calls := Function.update c.calls i s }

theorem Locked.setCall_self (c : Locked ι L Op α D) (i : ι) (s : Call L Op α) :
    (c.setCall i s).calls i = s := by
  change Function.update c.calls i s i = s
  rw [Function.update_self]

theorem Locked.setCall_ne (c : Locked ι L Op α D) {i j : ι} (hj : j ≠ i) (s : Call L Op α) :
    (c.setCall i s).calls j = c.calls j := by
  change Function.update c.calls i s j = c.calls j
  rw [Function.update_of_ne hj]

end

section System

variable (h : Handler L Op D) (body : ι → Prog L Op α)

/-- One step of call `i`. Removing the lock removes it whoever created it. -/
inductive Locked.Step [DecidableEq ι] (c : Locked ι L Op α D) (i : ι) : Locked ι L Op α D → Prop
  | acquire (hcall : c.calls i = .waiting) (hfree : c.lock = none) :
      Step c i ({ c with lock := some i }.setCall i (.holding (body i)))
  | retry (hcall : c.calls i = .waiting) {j : ι} (hheld : c.lock = some j) : Step c i c
  | timeout (hcall : c.calls i = .waiting) {j : ι} (hheld : c.lock = some j) :
      Step c i (c.setCall i .timedOut)
  | act {β : Type} {l : L} {o : Op β} {k : β → Prog L Op α}
      (hcall : c.calls i = .holding (op l o k)) :
      Step c i ({ c with store := (h β l o c.store).2 }.setCall i
        (.holding (k (h β l o c.store).1)))
  | release {r : α} (hcall : c.calls i = .holding (ret r)) :
      Step c i ({ c with lock := none }.setCall i (.settled r))

/-- A step that was taken. -/
structure Locked.Event (ι L : Type) (Op : Type → Type) (α D : Type) : Type 1 where
  caller : ι
  before : Locked ι L Op α D
  after : Locked ι L Op α D

/-- A run from `c₀` with its steps, newest first. -/
inductive Locked.Run [DecidableEq ι] (c₀ : Locked ι L Op α D) :
    List (Locked.Event ι L Op α D) → Locked ι L Op α D → Prop
  | start : Run c₀ [] c₀
  | step {es : List (Locked.Event ι L Op α D)} {c c' : Locked ι L Op α D} {i : ι}
      (hrun : Run c₀ es c) (hstep : Locked.Step h body c i c') : Run c₀ (⟨i, c, c'⟩ :: es) c'

/-- The bodies of some calls run one after the other, with their results. -/
inductive Serial (d₀ : D) : List (ι × α) → D → Prop
  | nil : Serial d₀ [] d₀
  | snoc {log : List (ι × α)} {d : D} (hlog : Serial d₀ log d) (i : ι) :
      Serial d₀ (log ++ [(i, ((body i).run h d).1)]) ((body i).run h d).2

/-- Nobody holds the lock, and every call still has to begin or has been refused. -/
structure Locked.Starting (c : Locked ι L Op α D) : Prop where
  unlocked : c.lock = none
  calls : ∀ i, c.calls i = .waiting ∨ ∃ r, c.calls i = .settled r

/-- What the state of call `i` says about the run: the log has its result, or it is the
holder and has got from the store `d` to the current one. -/
def Locked.Accounted (c₀ : Locked ι L Op α D) (log : List (ι × α)) (d : D)
    (c : Locked ι L Op α D) (i : ι) : Call L Op α → Prop
  | .waiting => c₀.calls i = .waiting
  | .holding p => c₀.calls i = .waiting ∧ c.lock = some i ∧ Reaches h (body i) d p c.store
  | .settled r => (c₀.calls i = .waiting ∧ (i, r) ∈ log) ∨ c₀.calls i = .settled r
  | .timedOut => c₀.calls i = .waiting

/-- The calls of `log` ran one after the other from `c₀` to the store `d`; the holder of the
lock started on `d`, and without a holder `d` is the store. -/
structure Locked.Serialized (c₀ : Locked ι L Op α D) (log : List (ι × α)) (d : D)
    (c : Locked ι L Op α D) : Prop where
  serial : Serial h body c₀.store log d
  nodup : (log.map Prod.fst).Nodup
  logged : ∀ e ∈ log, c.calls e.1 = .settled e.2
  calls : ∀ i, Locked.Accounted h body c₀ log d c i (c.calls i)
  idle : c.lock = none → c.store = d
  owner : ∀ i, c.lock = some i → ∃ p, c.calls i = .holding p

variable {h body}

theorem Locked.Starting.serialized {c₀ : Locked ι L Op α D} (hstart : c₀.Starting) :
    Locked.Serialized h body c₀ [] c₀.store c₀ where
  serial := .nil
  nodup := List.nodup_nil
  logged e hmem := absurd hmem List.not_mem_nil
  calls i := by
    rcases hstart.calls i with hwait | ⟨r, hsettled⟩
    · rw [hwait]
      exact hwait
    · rw [hsettled]
      exact Or.inr hsettled
  idle _ := rfl
  owner i hlock := by
    rw [hstart.unlocked] at hlock
    cases hlock

namespace Locked.Serialized

variable {c₀ c c' : Locked ι L Op α D} {log : List (ι × α)} {d : D}

theorem holding (hc : Locked.Serialized h body c₀ log d c) {i : ι} {p : Prog L Op α}
    (hi : c.calls i = .holding p) :
    c₀.calls i = .waiting ∧ c.lock = some i ∧ Reaches h (body i) d p c.store := by
  have hcall := hc.calls i
  rw [hi] at hcall
  exact hcall

/-- Only one call holds the lock. -/
theorem holder_unique (hc : Locked.Serialized h body c₀ log d c) {i j : ι} {p q : Prog L Op α}
    (hi : c.calls i = .holding p) (hj : c.calls j = .holding q) : j = i := by
  have hown := (hc.holding hi).2.1
  rw [(hc.holding hj).2.1] at hown
  exact Option.some.inj hown

/-- A call that does not hold the lock is accounted for as before, whatever the holder does. -/
theorem others (hc : Locked.Serialized h body c₀ log d c) {log' : List (ι × α)} {d' : D}
    {c' : Locked ι L Op α D} (hlog : log ⊆ log') {j : ι} (hj : ∀ p, c.calls j ≠ .holding p) :
    Locked.Accounted h body c₀ log' d' c' j (c.calls j) := by
  have hcall := hc.calls j
  cases hstate : c.calls j with
  | waiting =>
    rw [hstate] at hcall
    exact hcall
  | holding p => exact absurd hstate (hj p)
  | settled r =>
    rw [hstate] at hcall
    rcases hcall with ⟨hwait, hmem⟩ | hrefused
    · exact Or.inl ⟨hwait, hlog hmem⟩
    · exact Or.inr hrefused
  | timedOut =>
    rw [hstate] at hcall
    exact hcall

variable [DecidableEq ι]

/-- The log stays right when a call that is not settled changes. -/
theorem logged_setCall (hc : Locked.Serialized h body c₀ log d c) {i : ι}
    (hopen : ∀ r, c.calls i ≠ .settled r) (s : Call L Op α) :
    ∀ e ∈ log, e.1 ≠ i ∧ (c.setCall i s).calls e.1 = .settled e.2 := by
  intro e hmem
  have hne : e.1 ≠ i := by
    intro hei
    have hsettled := hc.logged e hmem
    rw [hei] at hsettled
    exact hopen _ hsettled
  exact ⟨hne, (Locked.setCall_ne _ hne _).trans (hc.logged e hmem)⟩

theorem acquire (hc : Locked.Serialized h body c₀ log d c) {i : ι}
    (hcall : c.calls i = .waiting) (hfree : c.lock = none) :
    Locked.Serialized h body c₀ log d
      ({ c with lock := some i }.setCall i (.holding (body i))) where
  serial := hc.serial
  nodup := hc.nodup
  logged e hmem := (hc.logged_setCall (by rw [hcall]; simp) _ e hmem).2
  calls j := by
    by_cases hj : j = i
    · subst hj
      rw [Locked.setCall_self]
      have hwait := hc.calls j
      rw [hcall] at hwait
      refine ⟨hwait, rfl, ?_⟩
      change Reaches h (body j) d (body j) c.store
      rw [hc.idle hfree]
      exact .start
    · rw [Locked.setCall_ne _ hj]
      refine hc.others (List.Subset.refl log) fun p hp => ?_
      have hown := (hc.holding hp).2.1
      rw [hfree] at hown
      cases hown
  idle hnone := by cases hnone
  owner j hlock := by
    cases hlock
    exact ⟨body i, Locked.setCall_self _ i _⟩

theorem timeout (hc : Locked.Serialized h body c₀ log d c) {i : ι}
    (hcall : c.calls i = .waiting) :
    Locked.Serialized h body c₀ log d (c.setCall i .timedOut) where
  serial := hc.serial
  nodup := hc.nodup
  logged e hmem := (hc.logged_setCall (by rw [hcall]; simp) _ e hmem).2
  calls j := by
    by_cases hj : j = i
    · subst hj
      rw [Locked.setCall_self]
      have hwait := hc.calls j
      rw [hcall] at hwait
      exact hwait
    · rw [Locked.setCall_ne _ hj]
      exact hc.calls j
  idle := hc.idle
  owner j hlock := by
    obtain ⟨p, hp⟩ := hc.owner j hlock
    have hj : j ≠ i := by
      intro hj
      rw [hj, hcall] at hp
      cases hp
    exact ⟨p, (Locked.setCall_ne _ hj _).trans hp⟩

theorem act (hc : Locked.Serialized h body c₀ log d c) {i : ι} {β : Type} {l : L} {o : Op β}
    {k : β → Prog L Op α} (hcall : c.calls i = .holding (op l o k)) :
    Locked.Serialized h body c₀ log d ({ c with store := (h β l o c.store).2 }.setCall i
      (.holding (k (h β l o c.store).1))) := by
  obtain ⟨hwait, hlock, hreach⟩ := hc.holding hcall
  refine ⟨hc.serial, hc.nodup, ?_, ?_, ?_, ?_⟩
  · exact fun e hmem => (hc.logged_setCall (by rw [hcall]; simp) _ e hmem).2
  · intro j
    by_cases hj : j = i
    · subst hj
      rw [Locked.setCall_self]
      exact ⟨hwait, hlock, .step hreach⟩
    · rw [Locked.setCall_ne _ hj]
      exact hc.others (List.Subset.refl log) fun p hp => hj (hc.holder_unique hcall hp)
  · intro hnone
    rw [show c.lock = none from hnone] at hlock
    cases hlock
  · intro j hown
    rw [show c.lock = some j from hown] at hlock
    cases hlock
    exact ⟨_, Locked.setCall_self _ i _⟩

theorem release (hc : Locked.Serialized h body c₀ log d c) {i : ι} {r : α}
    (hcall : c.calls i = .holding (ret r)) :
    Locked.Serialized h body c₀ (log ++ [(i, r)]) c.store
      ({ c with lock := none }.setCall i (.settled r)) := by
  obtain ⟨hwait, hlock, hreach⟩ := hc.holding hcall
  have hlogged := hc.logged_setCall (i := i) (by rw [hcall]; simp) (.settled r)
  -- the holder is at its end: what it has done is its whole body
  have hrun : (body i).run h d = (r, c.store) := hreach.run.symm
  refine ⟨?_, ?_, ?_, ?_, fun _ => rfl, ?_⟩
  · have hserial := Serial.snoc hc.serial i
    rw [hrun] at hserial
    exact hserial
  · rw [List.map_append, List.nodup_append]
    refine ⟨hc.nodup, List.pairwise_singleton _ i, ?_⟩
    intro j hj k hk
    obtain ⟨e, hmem, rfl⟩ := List.mem_map.mp hj
    rw [List.mem_singleton.mp hk]
    exact (hlogged e hmem).1
  · intro e hmem
    rcases List.mem_append.mp hmem with hmem | hmem
    · exact (hlogged e hmem).2
    · rw [List.mem_singleton.mp hmem]
      exact Locked.setCall_self _ i _
  · intro j
    by_cases hj : j = i
    · subst hj
      rw [Locked.setCall_self]
      exact Or.inl ⟨hwait, List.mem_append_right log List.mem_cons_self⟩
    · rw [Locked.setCall_ne _ hj]
      exact hc.others (List.subset_append_left log _) fun p hp => hj (hc.holder_unique hcall hp)
  · intro j hown
    cases hown

theorem step (hc : Locked.Serialized h body c₀ log d c) {i : ι}
    (hstep : Locked.Step h body c i c') :
    ∃ log' d', Locked.Serialized h body c₀ log' d' c' := by
  cases hstep with
  | acquire hcall hfree => exact ⟨log, d, hc.acquire hcall hfree⟩
  | retry hcall hheld => exact ⟨log, d, hc⟩
  | timeout hcall hheld => exact ⟨log, d, hc.timeout hcall⟩
  | act hcall => exact ⟨log, d, hc.act hcall⟩
  | @release r hcall => exact ⟨log ++ [(i, r)], c.store, hc.release hcall⟩

/-- Every run is serial. -/
theorem run (hstart : c₀.Starting) {es : List (Locked.Event ι L Op α D)}
    (hrun : Locked.Run h body c₀ es c) : ∃ log d, Locked.Serialized h body c₀ log d c := by
  induction hrun with
  | start => exact ⟨[], c₀.store, hstart.serialized⟩
  | step _ hstep ih =>
    obtain ⟨log, d, hc⟩ := ih
    exact hc.step hstep

end Locked.Serialized

section Progress

variable [DecidableEq ι] {c₀ c : Locked ι L Op α D} {es : List (Locked.Event ι L Op α D)} {i : ι}

/-- The holder of the lock can go on. -/
theorem Locked.Run.reaches (hrun : Locked.Run h body c₀ es c) {p q : Prog L Op α} {d : D}
    (hcall : c.calls i = .holding p) (hreach : Reaches h p c.store q d) :
    ∃ es' c', Locked.Run h body c₀ es' c' ∧ c'.store = d ∧ c'.lock = c.lock ∧
      c'.calls = Function.update c.calls i (.holding q) := by
  induction hreach with
  | start => exact ⟨es, c, hrun, rfl, rfl, by rw [← hcall, Function.update_eq_self]⟩
  | step _ ih =>
    obtain ⟨es', c', hrun', rfl, hlock, hcalls⟩ := ih
    have hcall' := congrFun hcalls i
    rw [Function.update_self] at hcall'
    refine ⟨_, _, hrun'.step (.act hcall'), rfl, hlock, ?_⟩
    change Function.update c'.calls i _ = _
    rw [hcalls, Function.update_idem]

theorem Locked.Run.finishes (hrun : Locked.Run h body c₀ es c) {p : Prog L Op α}
    (hcall : c.calls i = .holding p) :
    ∃ es' c', Locked.Run h body c₀ es' c' ∧ c'.store = (p.run h c.store).2 ∧ c'.lock = none ∧
      c'.calls = Function.update c.calls i (.settled (p.run h c.store).1) := by
  obtain ⟨es', c', hheld, hstore, -, hcalls⟩ :=
    hrun.reaches hcall (reaches_end h p c.store)
  have hend := congrFun hcalls i
  rw [Function.update_self] at hend
  refine ⟨_, _, hheld.step (.release hend), hstore, rfl, ?_⟩
  change Function.update c'.calls i _ = _
  rw [hcalls, Function.update_idem]

/-- A call that finds the lock free can run to its end. -/
theorem Locked.Run.settles (hrun : Locked.Run h body c₀ es c) (hwait : c.calls i = .waiting)
    (hfree : c.lock = none) :
    ∃ es' c', Locked.Run h body c₀ es' c' ∧ c'.store = ((body i).run h c.store).2 ∧
      c'.lock = none ∧
      c'.calls = Function.update c.calls i (.settled ((body i).run h c.store).1) := by
  obtain ⟨es', c', hrun', hstore, hlock, hcalls⟩ :=
    (hrun.step (.acquire hwait hfree)).finishes (Locked.setCall_self _ i _)
  refine ⟨es', c', hrun', hstore, hlock, ?_⟩
  rw [hcalls]
  exact Function.update_idem _ _ _

end Progress

end System

end Agyn
