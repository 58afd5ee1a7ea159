import Agyn.LockedCalls

/-!
What a call under the lock cannot do: remove the lock of another call, or change the
store when it ends with a result that its body reaches only by reading.
-/
namespace Agyn

open Prog

variable {ι L : Type} {Op : Type → Type} {α D : Type} {h : Handler L Op D} {body : ι → Prog L Op α}
  {c₀ c c' : Locked ι L Op α D} {es : List (Locked.Event ι L Op α D)}

/-- No step of a run removes or replaces the lock of another call. -/
theorem Locked.Run.keeps_lock [DecidableEq ι] (hstart : c₀.Starting)
    (hrun : Locked.Run h body c₀ es c) {e : Locked.Event ι L Op α D} (he : e ∈ es) {j : ι}
    (hlock : e.before.lock = some j) (hj : j ≠ e.caller) : e.after.lock = some j := by
  induction hrun with
  | start => cases he
  | @step es c c' i hrun hstep ih =>
    rcases List.mem_cons.mp he with rfl | he
    · obtain ⟨log, d, hc⟩ := Locked.Serialized.run hstart hrun
      cases hstep with
      | acquire hcall hfree =>
        rw [show c.lock = some j from hlock] at hfree
        cases hfree
      | retry hcall hheld => exact hlock
      | timeout hcall hheld => exact hlock
      | act hcall => exact hlock
      | release hcall =>
        have hown := (hc.holding hcall).2.1
        rw [show c.lock = some j from hlock] at hown
        exact absurd (Option.some.inj hown) hj
    · exact ih he

/-- A program that has changed the store does not end with a result in `Q`. -/
inductive Quiet (h : Handler L Op D) (Q : α → Prop) : Prog L Op α → Prop
  | ret (a : α) : Quiet h Q (ret a)
  | look {β : Type} {l : L} {o : Op β} {k : β → Prog L Op α} (ho : ∀ d, (h β l o d).2 = d)
      (hk : ∀ r, Quiet h Q (k r)) : Quiet h Q (op l o k)
  | change {β : Type} {l : L} {o : Op β} {k : β → Prog L Op α}
      (hk : ∀ r, (k r).Leaves fun a => ¬ Q a) : Quiet h Q (op l o k)

theorem Leaves.quiet {Q : α → Prop} {p : Prog L Op α} (hp : p.Leaves fun a => ¬ Q a) :
    Quiet h Q p := by
  cases hp with
  | ret _ => exact .ret _
  | op hk => exact .change hk

theorem Quiet.bind {Q : α → Prop} {β : Type} {p : Prog L Op β}
    (hp : p.Every fun β l o => ∀ d, (h β l o d).2 = d) {f : β → Prog L Op α}
    (hf : ∀ b, Quiet h Q (f b)) : Quiet h Q (p.bind f) := by
  induction hp with
  | ret b => exact hf b
  | op ho _ ih => exact .look ho ih

/-- No step of call `i` changed the store. -/
def Locked.Unchanged (i : ι) (es : List (Locked.Event ι L Op α D)) : Prop :=
  ∀ e ∈ es, e.caller = i → e.after.store = e.before.store

theorem Locked.Unchanged.cons {i : ι} (hes : Locked.Unchanged i es)
    {e : Locked.Event ι L Op α D} (he : e.caller = i → e.after.store = e.before.store) :
    Locked.Unchanged i (e :: es) := by
  intro e' hmem hcaller
  rcases List.mem_cons.mp hmem with rfl | hmem
  · exact he hcaller
  · exact hes e' hmem hcaller

/-- The effects of a call so far: none, unless its result is not in `Q`. -/
def Locked.Blameless (h : Handler L Op D) (Q : α → Prop) (es : List (Locked.Event ι L Op α D))
    (i : ι) : Call L Op α → Prop
  | .waiting => Locked.Unchanged i es
  | .holding p => (Locked.Unchanged i es ∧ Quiet h Q p) ∨ p.Leaves fun a => ¬ Q a
  | .settled r => Q r → Locked.Unchanged i es
  | .timedOut => Locked.Unchanged i es

theorem Locked.Blameless.other {Q : α → Prop} {i j : ι} (hj : j ≠ i) {s : Call L Op α}
    (hs : Locked.Blameless h Q es j s) (c c' : Locked ι L Op α D) :
    Locked.Blameless h Q (⟨i, c, c'⟩ :: es) j s := by
  have hcons : Locked.Unchanged j es → Locked.Unchanged j (⟨i, c, c'⟩ :: es) := fun hes =>
    hes.cons fun hcaller => absurd hcaller.symm hj
  cases s with
  | waiting => exact hcons hs
  | holding p =>
    rcases hs with ⟨hes, hquiet⟩ | hleaves
    · exact Or.inl ⟨hcons hes, hquiet⟩
    · exact Or.inr hleaves
  | settled r => exact fun hr => hcons (hs hr)
  | timedOut => exact hcons hs

variable [DecidableEq ι]

theorem Locked.Blameless.step {Q : α → Prop} (hbody : ∀ i, Quiet h Q (body i)) {i : ι}
    (hes : ∀ j, Locked.Blameless h Q es j (c.calls j)) (hstep : Locked.Step h body c i c') (j : ι) :
    Locked.Blameless h Q (⟨i, c, c'⟩ :: es) j (c'.calls j) := by
  have hi := hes i
  cases hstep with
  | acquire hcall hfree =>
    by_cases hj : j = i
    · subst hj
      rw [Locked.setCall_self]
      rw [hcall] at hi
      exact Or.inl ⟨hi.cons fun _ => rfl, hbody j⟩
    · rw [Locked.setCall_ne _ hj]
      exact (hes j).other hj c _
  | retry hcall hheld =>
    by_cases hj : j = i
    · subst hj
      rw [hcall] at hi ⊢
      exact hi.cons fun _ => rfl
    · exact (hes j).other hj c c
  | timeout hcall hheld =>
    by_cases hj : j = i
    · subst hj
      rw [Locked.setCall_self]
      rw [hcall] at hi
      exact hi.cons fun _ => rfl
    · rw [Locked.setCall_ne _ hj]
      exact (hes j).other hj c _
  | act hcall =>
    by_cases hj : j = i
    · subst hj
      rw [Locked.setCall_self]
      rw [hcall] at hi
      rcases hi with ⟨hunchanged, hquiet⟩ | hleaves
      · cases hquiet with
        | look ho hk => exact Or.inl ⟨hunchanged.cons fun _ => ho c.store, hk _⟩
        | change hk => exact Or.inr (hk _)
      · cases hleaves with
        | op hk => exact Or.inr (hk _)
    · rw [Locked.setCall_ne _ hj]
      exact (hes j).other hj c _
  | @release r hcall =>
    by_cases hj : j = i
    · subst hj
      rw [Locked.setCall_self]
      rw [hcall] at hi
      intro hr
      rcases hi with ⟨hunchanged, -⟩ | hleaves
      · exact hunchanged.cons fun _ => rfl
      · cases hleaves with
        | ret hnot => exact absurd hr hnot
    · rw [Locked.setCall_ne _ hj]
      exact (hes j).other hj c _

theorem Locked.Run.blameless {Q : α → Prop} (hbody : ∀ i, Quiet h Q (body i))
    (hstart : c₀.Starting) (hrun : Locked.Run h body c₀ es c) (i : ι) :
    Locked.Blameless h Q es i (c.calls i) := by
  induction hrun generalizing i with
  | start =>
    have hnil : Locked.Unchanged i ([] : List (Locked.Event ι L Op α D)) :=
      fun e hmem => absurd hmem List.not_mem_nil
    rcases hstart.calls i with hwait | ⟨r, hsettled⟩
    · rw [hwait]
      exact hnil
    · rw [hsettled]
      exact fun _ => hnil
  | step _ hstep ih => exact Locked.Blameless.step hbody ih hstep i

end Agyn
