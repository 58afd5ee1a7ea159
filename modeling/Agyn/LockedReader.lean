import Agyn.LockedCalls

/-!
A program that runs without the lock, between the steps of calls that hold it. What it
returns need not belong to any one store; but when no step of a call changes what the
program looks at while it runs, it returns what it would have returned at once.
-/
namespace Agyn

open Prog

/-- Where the reading program stands: it has not begun, has begun and has `p` to run, or is
at its end. -/
inductive Reader (L : Type) (Op : Type → Type) (β : Type) : Type 1
  | idle
  | reading (p : Prog L Op β)
  | finished (b : β)

/-- What a reader that runs `query` still has to run. -/
def Reader.program {L : Type} {Op : Type → Type} {β : Type} (query : Prog L Op β) :
    Reader L Op β → Option (Prog L Op β)
  | .idle => some query
  | .reading p => some p
  | .finished _ => none

structure Watched (ι L : Type) (Op : Type → Type) (α β D : Type) : Type 1 where
  locked : Locked ι L Op α D
  reader : Reader L Op β

variable {ι L : Type} {Op : Type → Type} {α β D V : Type}

/-- An operation that only looks at the store, and only at one view of it. -/
def Sees (h : Handler L Op D) (view : D → V) (γ : Type) (l : L) (o : Op γ) : Prop :=
  (∀ d, (h γ l o d).2 = d) ∧ ∀ d d', view d = view d' → (h γ l o d).1 = (h γ l o d').1

theorem Prog.Every.sees_run {h : Handler L Op D} {view : D → V} {p : Prog L Op β}
    (hp : p.Every (Sees h view)) {d d' : D} (hview : view d = view d') :
    (p.run h d).1 = (p.run h d').1 := by
  induction hp with
  | ret b => rfl
  | @op γ l o k ho _ ih =>
    change ((k (h γ l o d).1).run h (h γ l o d).2).1 = ((k (h γ l o d').1).run h (h γ l o d').2).1
    rw [ho.1 d, ho.1 d', ho.2 d d' hview]
    exact ih _

section System

variable [DecidableEq ι] (h : Handler L Op D) (body : ι → Prog L Op α) (query : Prog L Op β)

/-- One step of a call, or of the reader for `none`. -/
inductive Watched.Step (s : Watched ι L Op α β D) : Option ι → Watched ι L Op α β D → Prop
  | call {i : ι} {c : Locked ι L Op α D} (hstep : Locked.Step h body s.locked i c) :
      Step s (some i) { s with locked := c }
  | look {γ : Type} {l : L} {o : Op γ} {k : γ → Prog L Op β}
      (hprogram : s.reader.program query = some (op l o k)) :
      Step s none
        { locked := { s.locked with store := (h γ l o s.locked.store).2 }
          reader := .reading (k (h γ l o s.locked.store).1) }
  | finish {b : β} (hprogram : s.reader.program query = some (ret b)) :
      Step s none { s with reader := .finished b }

/-- A run whose steps all meet a condition on the state before them and on who takes them. -/
inductive Watched.Run (ok : Watched ι L Op α β D → Option ι → Prop) (s₀ : Watched ι L Op α β D) :
    Watched ι L Op α β D → Prop
  | start : Run ok s₀ s₀
  | step {s s' : Watched ι L Op α β D} {who : Option ι} (hrun : Run ok s₀ s) (hok : ok s who)
      (hstep : Watched.Step h body query s who s') : Run ok s₀ s'

variable {h body query} {ok : Watched ι L Op α β D → Option ι → Prop}
  {s₀ s : Watched ι L Op α β D} {view : D → V}

/-- A reader that only looks takes part in no step of the calls. -/
theorem Watched.Run.calls (hquery : query.Every (Sees h view)) (hstart : s₀.reader = .idle)
    (hrun : Watched.Run h body query ok s₀ s) :
    (∃ es, Locked.Run h body s₀.locked es s.locked) ∧
      ∀ p, s.reader.program query = some p → p.Every (Sees h view) := by
  induction hrun with
  | start =>
    refine ⟨⟨[], .start⟩, fun p hp => ?_⟩
    rw [hstart] at hp
    cases hp
    exact hquery
  | step hrun hok hstep ih =>
    obtain ⟨⟨es, hes⟩, hreader⟩ := ih
    cases hstep with
    | call hstep => exact ⟨⟨_, .step hes hstep⟩, hreader⟩
    | look hprogram =>
      cases hreader _ hprogram with
      | op ho hk =>
        refine ⟨⟨es, ?_⟩, fun p hp => ?_⟩
        · rw [ho.1]
          exact hes
        · cases hp
          exact hk _
    | finish hprogram => exact ⟨⟨es, hes⟩, fun p hp => by cases hp⟩

/-- The result that a reader is bound to return, once it has begun. -/
def Watched.Answers (h : Handler L Op D) (s : Watched ι L Op α β D) (b : β) : Prop :=
  match s.reader with
  | .idle => False
  | .reading p => (p.run h s.locked.store).1 = b
  | .finished b' => b' = b

omit [DecidableEq ι] in
/-- A reader with `p` to run is bound to the result of `p`. -/
theorem Watched.Answers.of_program {p : Prog L Op β} (hp : s.reader.program query = some p)
    {b : β} (hs : s.reader ≠ .idle → Watched.Answers h s b)
    (hidle : s.reader = .idle → (query.run h s.locked.store).1 = b) :
    (p.run h s.locked.store).1 = b := by
  cases hr : s.reader with
  | idle =>
    rw [hr] at hp
    cases hp
    exact hidle hr
  | reading q =>
    have hanswers := hs (by rw [hr]; simp)
    unfold Watched.Answers at hanswers
    rw [hr] at hp hanswers
    cases hp
    exact hanswers
  | finished b' =>
    rw [hr] at hp
    cases hp

/-- While the steps of the calls leave the view alone from its first to its last operation, a
reader returns what its program returns on the store on which it began. -/
theorem Watched.Run.steady (hquery : query.Every (Sees h view)) (hstart : s₀.reader = .idle)
    (hsteady : ∀ {s i p c}, Watched.Run h body query ok s₀ s → ok s (some i) →
      s.reader = .reading p → p.next ≠ none → Locked.Step h body s.locked i c →
        view c.store = view s.locked.store)
    (hrun : Watched.Run h body query ok s₀ s) (hbegun : s.reader ≠ .idle) :
    ∃ s₁, Watched.Run h body query ok s₀ s₁ ∧ Watched.Run h body query ok s₁ s ∧
      s₁.reader = .idle ∧ ok s₁ none ∧
        Watched.Answers h s (query.run h s₁.locked.store).1 := by
  induction hrun with
  | start => exact absurd hstart hbegun
  | @step s s' who hrun hok hstep ih =>
    have hreader := (hrun.calls hquery hstart).2
    have hcopy := hstep
    -- the reader began in `s`, or before it
    have hfirst : s.reader = .idle ∨ s.reader ≠ .idle := by
      cases s.reader <;> simp
    cases hstep with
    | @call i c hcall =>
      obtain ⟨s₁, hrun₁, hrest, hidle, hok₁, hanswers⟩ := ih hbegun
      refine ⟨s₁, hrun₁, .step hrest hok hcopy, hidle, hok₁, ?_⟩
      unfold Watched.Answers at hanswers ⊢
      cases hr : s.reader with
      | idle => exact absurd hr hbegun
      | reading p =>
        rw [hr] at hanswers
        rw [← hanswers]
        cases p with
        | ret b => rfl
        | op l o k =>
          exact (hreader _ (by rw [hr]; rfl)).sees_run
            (hsteady hrun hok hr (by simp [next]) hcall)
      | finished b =>
        rw [hr] at hanswers
        exact hanswers
    | look hprogram =>
      rcases hfirst with hidle | hbegun'
      · refine ⟨s, hrun, .step .start hok hcopy, hidle, hok, ?_⟩
        exact Watched.Answers.of_program hprogram (fun hne => absurd hidle hne) fun _ => rfl
      · obtain ⟨s₁, hrun₁, hrest, hidle, hok₁, hanswers⟩ := ih hbegun'
        refine ⟨s₁, hrun₁, .step hrest hok hcopy, hidle, hok₁, ?_⟩
        exact Watched.Answers.of_program hprogram (fun _ => hanswers) fun h => absurd h hbegun'
    | finish hprogram =>
      rcases hfirst with hidle | hbegun'
      · refine ⟨s, hrun, .step .start hok hcopy, hidle, hok, ?_⟩
        exact Watched.Answers.of_program hprogram (fun hne => absurd hidle hne) fun _ => rfl
      · obtain ⟨s₁, hrun₁, hrest, hidle, hok₁, hanswers⟩ := ih hbegun'
        refine ⟨s₁, hrun₁, .step hrest hok hcopy, hidle, hok₁, ?_⟩
        exact Watched.Answers.of_program hprogram (fun _ => hanswers) fun h => absurd h hbegun'

/-- While the reader stands still, the calls can go on in any way. -/
theorem Watched.Run.calls_go_on (hrun : Watched.Run h body query ok s₀ s)
    {es : List (Locked.Event ι L Op α D)} {c : Locked ι L Op α D}
    (hcalls : Locked.Run h body s.locked es c)
    (hok : ∀ (s' : Watched ι L Op α β D) i, s'.reader = s.reader → ok s' (some i)) :
    Watched.Run h body query ok s₀ { s with locked := c } := by
  induction hcalls with
  | start => exact hrun
  | step _ hstep ih => exact ih.step (hok _ _ rfl) (.call hstep)

/-- The holder of the lock can go on while the reader stands still. -/
theorem Watched.Run.holder_advances (n : ℕ) {i : ι} {p : Prog L Op α}
    (hrun : Watched.Run h body query ok s₀ s) (hcall : s.locked.calls i = .holding p)
    (hok : ∀ m < n, ∀ s' : Watched ι L Op α β D, s'.reader = s.reader →
      s'.locked.calls i = .holding (after h m p s.locked.store).1 → ok s' (some i)) :
    ∃ s', Watched.Run h body query ok s₀ s' ∧
      s'.locked.calls i = .holding (after h n p s.locked.store).1 ∧
      s'.locked.store = (after h n p s.locked.store).2 ∧ s'.reader = s.reader ∧
      ∀ j, j ≠ i → s'.locked.calls j = s.locked.calls j := by
  induction n generalizing p s with
  | zero => exact ⟨s, hrun, hcall, rfl, rfl, fun _ _ => rfl⟩
  | succ n ih =>
    cases p with
    | ret a => exact ⟨s, hrun, hcall, rfl, rfl, fun _ _ => rfl⟩
    | op l o k =>
      have hact := hrun.step (hok 0 (Nat.succ_pos n) s rfl hcall) (.call (.act hcall))
      obtain ⟨s', hrun', hcall', hstore, hreader, hothers⟩ := ih hact (Locked.setCall_self _ i _)
        fun m hm s' hs' hc => hok (m + 1) (Nat.succ_lt_succ hm) s' hs' hc
      exact ⟨s', hrun', hcall', hstore, hreader,
        fun j hj => (hothers j hj).trans (Locked.setCall_ne _ hj _)⟩

/-- A reader can go on to its end. -/
theorem Watched.Run.reader_finishes {p : Prog L Op β} (hp : p.Every (Sees h view))
    (hok : ∀ s' : Watched ι L Op α β D, s'.locked = s.locked → ok s' none)
    (hrun : Watched.Run h body query ok s₀ s) (hprogram : s.reader.program query = some p) :
    ∃ s', Watched.Run h body query ok s₀ s' ∧ s'.locked = s.locked ∧
      s'.reader = .finished (p.run h s.locked.store).1 := by
  induction hp generalizing s with
  | ret b => exact ⟨_, .step hrun (hok s rfl) (.finish hprogram), rfl, rfl⟩
  | @op γ l o k ho _ ih =>
    have hlook := Watched.Run.step hrun (hok s rfl) (.look hprogram)
    have hsame : { s.locked with store := (h γ l o s.locked.store).2 } = s.locked := by
      rw [ho.1]
    obtain ⟨s', hrun', hlocked, hr⟩ := ih _ (fun s' hs' => hok s' (hs'.trans hsame)) hlook rfl
    exact ⟨s', hrun', hlocked.trans hsame, hr⟩

end System

end Agyn
