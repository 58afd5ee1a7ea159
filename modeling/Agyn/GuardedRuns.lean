import Mathlib.Logic.Basic

/-!
Runs of a system in which every step meets a condition. A step is a partial function of the
state and an action; an action that cannot happen in a state has no result there.
-/
namespace Agyn

variable {σ α : Type} {step : σ → α → Option σ} {ok ok' : σ → α → Prop} {init s s' : σ}

/-- The states reached from `init` by steps that meet `ok` in the state they are taken in. -/
inductive Reached (step : σ → α → Option σ) (ok : σ → α → Prop) (init : σ) : σ → Prop where
  | init : Reached step ok init init
  | step {s s' : σ} (a : α) : Reached step ok init s → ok s a → step s a = some s' →
      Reached step ok init s'

/-- What holds at first and is kept by every step that meets the condition holds throughout. -/
theorem Reached.invariant {inv : σ → Prop} (h : Reached step ok init s) (hinit : inv init)
    (hstep : ∀ s a s', inv s → ok s a → step s a = some s' → inv s') : inv s := by
  induction h with
  | init => exact hinit
  | step a _ hok hs ih => exact hstep _ a _ ih hok hs

/-- The state after a list of actions. -/
def runFrom (step : σ → α → Option σ) : σ → List α → Option σ
  | s, [] => some s
  | s, a :: as => (step s a).bind fun s' => runFrom step s' as

theorem runFrom_append {as : List α} (h : runFrom step s as = some s') (bs : List α) :
    runFrom step s (as ++ bs) = runFrom step s' bs := by
  induction as generalizing s with
  | nil => rw [List.nil_append, ← Option.some.inj h]
  | cons a as ih =>
    obtain ⟨t, ht, hrest⟩ := Option.bind_eq_some_iff.mp h
    rw [List.cons_append, runFrom, ht, Option.bind_some, ih hrest]

/-- Every action of a list meets the condition where it is taken. -/
def StepsMeet (step : σ → α → Option σ) (ok : σ → α → Prop) : σ → List α → Prop
  | _, [] => True
  | s, a :: as => ok s a ∧ ∀ s', step s a = some s' → StepsMeet step ok s' as

theorem StepsMeet.cons {a : α} {as : List α} (hok : ok s a) (hstep : step s a = some s')
    (h : StepsMeet step ok s' as) : StepsMeet step ok s (a :: as) :=
  ⟨hok, fun _ ht => Option.some.inj (hstep.symm.trans ht) ▸ h⟩

/-- Two conditions that agree in the states of an invariant are met by the same runs from them. -/
theorem stepsMeet_congr {inv : σ → Prop} (hok : ∀ s a, inv s → (ok s a ↔ ok' s a))
    (hinv : ∀ s a s', inv s → ok' s a → step s a = some s' → inv s') (as : List α) (hs : inv s) :
    StepsMeet step ok s as ↔ StepsMeet step ok' s as := by
  induction as generalizing s with
  | nil => exact Iff.rfl
  | cons a as ih =>
    refine (and_congr_left fun _ => hok s a hs).trans (and_congr_right fun hmeets => ?_)
    exact forall_congr' fun s' => forall_congr' fun hstep => ih (hinv s a s' hs hmeets hstep)

/-- Two conditions that agree on the steps that happen are met by the same complete runs. -/
theorem stepsMeet_congr_of_run {inv : σ → Prop} {t : σ} {as : List α}
    (hok : ∀ s a s', inv s → step s a = some s' → (ok s a ↔ ok' s a))
    (hinv : ∀ s a s', inv s → ok' s a → step s a = some s' → inv s') (hs : inv s)
    (hrun : runFrom step s as = some t) : StepsMeet step ok s as ↔ StepsMeet step ok' s as := by
  induction as generalizing s with
  | nil => exact Iff.rfl
  | cons a as ih =>
    obtain ⟨s', hstep, hrun⟩ := Option.bind_eq_some_iff.mp hrun
    refine (and_congr_left fun _ => hok s a s' hs hstep).trans (and_congr_right fun hmeets => ?_)
    refine forall_congr' fun u => forall_congr' fun hu => ?_
    obtain rfl := Option.some.inj (hstep.symm.trans hu)
    exact ih (hinv s a s' hs hmeets hstep) hrun

/-- Where a step of a run keeps what is wanted exactly when it meets the condition, a run has it in
every state that it goes through exactly when all its steps meet the condition. -/
theorem throughout_iff_stepsMeet (inv good : σ → Prop) {t : σ} {as : List α}
    (hinv : ∀ s a s', inv s → step s a = some s' → inv s')
    (hgood : ∀ s a s', inv s → good s → step s a = some s' → (good s' ↔ ok s a))
    (hs : inv s) (hfirst : good s) (hrun : runFrom step s as = some t) :
    (∀ pre u, pre <+: as → runFrom step s pre = some u → good u) ↔ StepsMeet step ok s as := by
  induction as generalizing s with
  | nil =>
    refine iff_of_true ?_ trivial
    intro pre u hpre hu
    obtain rfl : pre = [] := List.prefix_nil.mp hpre
    exact Option.some.inj hu ▸ hfirst
  | cons a as ih =>
    obtain ⟨s', hstep, hafter⟩ := Option.bind_eq_some_iff.mp hrun
    have hnext := hinv s a s' hs hstep
    constructor
    · intro h
      have hgood' : good s' := by
        refine h [a] s' ⟨as, rfl⟩ ?_
        simp [runFrom, hstep]
      refine .cons ((hgood s a s' hs hfirst hstep).mp hgood') hstep ?_
      refine (ih hnext hgood' hafter).mp fun pre u hpre hu => h (a :: pre) u ?_ ?_
      · exact (List.prefix_cons_inj a).mpr hpre
      · rw [runFrom, hstep]
        exact hu
    · rintro ⟨hok, hrest⟩ pre u hpre hu
      have hgood' := (hgood s a s' hs hfirst hstep).mpr hok
      cases pre with
      | nil => exact Option.some.inj hu ▸ hfirst
      | cons b pre =>
        obtain ⟨rfl, htail⟩ := List.cons_prefix_cons.mp hpre
        rw [runFrom, hstep] at hu
        exact (ih hnext hgood' hafter).mpr (hrest s' hstep) pre u htail hu

instance StepsMeet.decidable [∀ s a, Decidable (ok s a)] :
    ∀ s as, Decidable (StepsMeet step ok s as)
  | _, [] => isTrue trivial
  | s, a :: as =>
    match hstep : step s a with
    | none => decidable_of_iff (ok s a) (by simp [StepsMeet, hstep])
    | some s' =>
      have := StepsMeet.decidable s' as
      decidable_of_iff (ok s a ∧ StepsMeet step ok s' as) (by simp [StepsMeet, hstep])

theorem Reached.run {as : List α} (h : Reached step ok init s) (hok : StepsMeet step ok s as)
    (hrun : runFrom step s as = some s') : Reached step ok init s' := by
  induction as generalizing s with
  | nil =>
    obtain rfl : s = s' := Option.some.inj hrun
    exact h
  | cons a as ih =>
    obtain ⟨t, ht, hrun⟩ := Option.bind_eq_some_iff.mp hrun
    exact ih (.step a h hok.1 ht) (hok.2 t ht) hrun

/-- A run of any steps. -/
theorem Reached.of_run {as : List α} (hrun : runFrom step init as = some s) :
    Reached step (fun _ _ => True) init s := by
  refine Reached.init.run ?_ hrun
  clear hrun
  induction as generalizing init with
  | nil => trivial
  | cons a as ih => exact ⟨trivial, fun s' _ => ih⟩

end Agyn
