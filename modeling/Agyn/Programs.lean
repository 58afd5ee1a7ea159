import Mathlib.Data.List.Basic

/-!
Programs as trees of operations. Each operation is tagged with the place in the
code that runs it and the rest of the program depends on its reply, so one
program has many semantics: run to the end under a handler, stopped in front of
any of its operations as by a crash, or taken one step at a time between the steps
of other programs. `Every` and `Leaves` speak about all operations and all results
of a program, whatever the replies are.
-/
namespace Agyn

/-- A program over the operations `Op`, which answer with a value of their index. -/
inductive Prog (L : Type) (Op : Type → Type) (α : Type) : Type 1
  | ret (a : α)
  | op {β : Type} (l : L) (o : Op β) (k : β → Prog L Op α)

/-- What an operation answers and does to a store of type `D`. -/
abbrev Handler (L : Type) (Op : Type → Type) (D : Type) := ∀ β : Type, L → Op β → D → β × D

namespace Prog

variable {L : Type} {Op : Type → Type} {α β γ D : Type}

def bind : Prog L Op α → (α → Prog L Op β) → Prog L Op β
  | ret a, f => f a
  | op l o k, f => op l o fun r => (k r).bind f

def ask (l : L) (o : Op α) : Prog L Op α := op l o ret

/-- `await p` where `p` may throw: an error ends the rest of the program. -/
def andThen {ε : Type} (p : Prog L Op (Except ε α)) (f : α → Prog L Op (Except ε β)) :
    Prog L Op (Except ε β) :=
  p.bind fun
    | .error e => ret (.error e)
    | .ok a => f a

section Running

variable (h : Handler L Op D)

def run : Prog L Op α → D → α × D
  | ret a, d => (a, d)
  | op l o k, d => run (k (h _ l o d).1) (h _ l o d).2

/-- What is left to run after some operations, and the store. -/
def after : ℕ → Prog L Op α → D → Prog L Op α × D
  | 0, p, d => (p, d)
  | _ + 1, ret a, d => (ret a, d)
  | n + 1, op l o k, d => after n (k (h _ l o d).1) (h _ l o d).2

/-- The tag of the operation a program is about to run, if it is not at its end. -/
def next : Prog L Op α → Option L
  | ret _ => none
  | op l _ _ => some l

/-- Running the program from a store comes to stand in front of the operation tagged `l`, or
at the end for `none`, with the store that is given last. -/
inductive Stops : Prog L Op α → D → Option L → D → Prop
  | here (p : Prog L Op α) (d : D) : Stops p d p.next d
  | later {β : Type} {l : L} {o : Op β} {k : β → Prog L Op α} {d d' : D} {l' : Option L}
      (hk : Stops (k (h β l o d).1) (h β l o d).2 l' d') : Stops (op l o k) d l' d'

/-- Running the program from a store leaves the program `q` to run, with the store given last. -/
inductive Reaches (p : Prog L Op α) (d : D) : Prog L Op α → D → Prop
  | start : Reaches p d p d
  | step {β : Type} {l : L} {o : Op β} {k : β → Prog L Op α} {d' : D}
      (hp : Reaches p d (op l o k) d') : Reaches p d (k (h β l o d').1) (h β l o d').2

@[simp] theorem run_ret (a : α) (d : D) : (ret a : Prog L Op α).run h d = (a, d) := rfl

@[simp] theorem run_ask (l : L) (o : Op α) (d : D) : (ask l o).run h d = h α l o d := rfl

@[simp] theorem run_bind (p : Prog L Op α) (f : α → Prog L Op β) (d : D) :
    (p.bind f).run h d = (f (p.run h d).1).run h (p.run h d).2 := by
  induction p generalizing d with
  | ret a => rfl
  | op l o k ih => exact ih _ _

theorem run_andThen {ε : Type} (p : Prog L Op (Except ε α)) (f : α → Prog L Op (Except ε β))
    (d : D) : (p.andThen f).run h d =
      match p.run h d with
      | (.error e, d') => (.error e, d')
      | (.ok a, d') => (f a).run h d' := by
  rw [andThen, run_bind]
  rcases hp : p.run h d with ⟨_ | _, d'⟩ <;> rfl

theorem run_andThen_ok {ε : Type} {p : Prog L Op (Except ε α)} {f : α → Prog L Op (Except ε β)}
    {d d' : D} {a : α} (hp : p.run h d = (.ok a, d')) :
    (p.andThen f).run h d = (f a).run h d' := by
  rw [run_andThen, hp]

theorem run_andThen_error {ε : Type} {p : Prog L Op (Except ε α)}
    {f : α → Prog L Op (Except ε β)} {d d' : D} {e : ε} (hp : p.run h d = (.error e, d')) :
    (p.andThen f).run h d = (.error e, d') := by
  rw [run_andThen, hp]

theorem stops_ret {a : α} {d d' : D} {l : Option L} (hs : Stops h (ret a : Prog L Op α) d l d') :
    l = none ∧ d' = d := by
  cases hs with
  | here => exact ⟨rfl, rfl⟩

/-- A program that is stopped stands in its first part or in the rest. -/
theorem stops_bind {p : Prog L Op α} {f : α → Prog L Op β} {d d' : D} {l : Option L}
    (hs : Stops h (p.bind f) d l d') :
    (∃ l₀, l = some l₀ ∧ Stops h p d l d') ∨
      Stops h (f (p.run h d).1) (p.run h d).2 l d' := by
  induction p generalizing d with
  | ret a => exact Or.inr hs
  | op l₁ o k ih =>
    cases hs with
    | here => exact Or.inl ⟨l₁, rfl, .here (op l₁ o k) _⟩
    | later hk =>
      rcases ih _ hk with ⟨l₀, hl, hfirst⟩ | hrest
      · exact Or.inl ⟨l₀, hl, .later hfirst⟩
      · exact Or.inr hrest

/-- A program is stopped in front of its first operation or behind it. -/
theorem stops_ask_bind {l₀ : L} {o : Op α} {f : α → Prog L Op β} {d d' : D} {l : Option L}
    (hs : Stops h ((ask l₀ o).bind f) d l d') :
    (l = some l₀ ∧ d' = d) ∨ Stops h (f (h α l₀ o d).1) (h α l₀ o d).2 l d' := by
  cases hs with
  | here => exact Or.inl ⟨rfl, rfl⟩
  | later hk => exact Or.inr hk

theorem stops_bind_first {p : Prog L Op α} {d d' : D} {l : L}
    (hs : Stops h p d (some l) d') (f : α → Prog L Op β) :
    Stops h (p.bind f) d (some l) d' := by
  generalize hl : some l = l' at hs
  induction hs with
  | here p d =>
    cases p with
    | ret a => cases hl
    | op l₁ o k => exact .here ((op l₁ o k).bind f) d
  | later _ ih => exact .later (ih hl)

theorem stops_bind_rest {p : Prog L Op α} {f : α → Prog L Op β} {d d' : D} {l : Option L}
    (hs : Stops h (f (p.run h d).1) (p.run h d).2 l d') : Stops h (p.bind f) d l d' := by
  induction p generalizing d with
  | ret a => exact hs
  | op l₁ o k ih => exact .later (ih _ hs)

/-- What is left to run has the same end as the whole program. -/
theorem Reaches.run {p q : Prog L Op α} {d d' : D} (hr : Reaches h p d q d') :
    q.run h d' = p.run h d := by
  induction hr with
  | start => rfl
  | step _ ih => exact ih

theorem Reaches.trans {p q r : Prog L Op α} {d d' d'' : D} (hr : Reaches h p d q d')
    (hr' : Reaches h q d' r d'') : Reaches h p d r d'' := by
  induction hr' with
  | start => exact hr
  | step _ ih => exact .step ih

/-- A program can be run to its end. -/
theorem reaches_end (p : Prog L Op α) (d : D) :
    Reaches h p d (ret (p.run h d).1) (p.run h d).2 := by
  induction p generalizing d with
  | ret a => exact .start
  | op l o k ih => exact Reaches.trans h (.step .start) (ih _ _)

theorem Stops.reaches {p : Prog L Op α} {d d' : D} {l : Option L} (hs : Stops h p d l d') :
    ∃ q, Reaches h p d q d' ∧ q.next = l := by
  induction hs with
  | here p d => exact ⟨p, .start, rfl⟩
  | later _ ih =>
    obtain ⟨q, hr, hnext⟩ := ih
    exact ⟨q, Reaches.trans h (.step .start) hr, hnext⟩

theorem Reaches.stops {p q : Prog L Op α} {d d' : D} (hr : Reaches h p d q d') :
    Stops h p d q.next d' := by
  suffices hall : ∀ l d'', Stops h q d' l d'' → Stops h p d l d'' from hall _ _ (.here q d')
  induction hr with
  | start => exact fun _ _ hs => hs
  | step _ ih => exact fun l d'' hs => ih l d'' (.later hs)

end Running

section Shape

/-- Every operation of the program satisfies `P`, whatever the replies are. -/
inductive Every (P : ∀ β : Type, L → Op β → Prop) : Prog L Op α → Prop
  | ret (a : α) : Every P (ret a)
  | op {β : Type} {l : L} {o : Op β} {k : β → Prog L Op α} (ho : P β l o)
      (hk : ∀ r, Every P (k r)) : Every P (op l o k)

/-- Every result of the program satisfies `Q`, whatever the replies are. -/
inductive Leaves (Q : α → Prop) : Prog L Op α → Prop
  | ret {a : α} (ha : Q a) : Leaves Q (ret a)
  | op {β : Type} {l : L} {o : Op β} {k : β → Prog L Op α} (hk : ∀ r, Leaves Q (k r)) :
      Leaves Q (op l o k)

variable {P : ∀ β : Type, L → Op β → Prop}

theorem every_ask {l : L} {o : Op α} (h : P α l o) : (ask l o).Every P := .op h fun r => .ret r

theorem Every.bind {p : Prog L Op α} (hp : p.Every P) {f : α → Prog L Op β}
    (hf : ∀ a, (f a).Every P) : (p.bind f).Every P := by
  induction hp with
  | ret a => exact hf a
  | op ho _ ih => exact .op ho ih

theorem Every.andThen {ε : Type} {p : Prog L Op (Except ε α)} (hp : p.Every P)
    {f : α → Prog L Op (Except ε β)} (hf : ∀ a, (f a).Every P) : (p.andThen f).Every P := by
  apply hp.bind
  intro r
  cases r with
  | error e => exact Every.ret (Except.error e)
  | ok a => exact hf a

theorem Leaves.bind {Q : α → Prop} {R : β → Prop} {p : Prog L Op α} (hp : p.Leaves Q)
    {f : α → Prog L Op β} (hf : ∀ a, Q a → (f a).Leaves R) : (p.bind f).Leaves R := by
  induction hp with
  | ret ha => exact hf _ ha
  | op _ ih => exact .op ih

theorem leaves_true (p : Prog L Op α) : p.Leaves fun _ => True := by
  induction p with
  | ret a => exact .ret trivial
  | op l o k ih => exact .op ih

theorem Every.mono {P' : ∀ β : Type, L → Op β → Prop} (hP : ∀ β l o, P β l o → P' β l o)
    {p : Prog L Op α} (hp : p.Every P) : p.Every P' := by
  induction hp with
  | ret a => exact .ret a
  | op ho _ ih => exact .op (hP _ _ _ ho) ih

/-- What every operation of a program preserves holds wherever the program is stopped. -/
theorem Every.stops_preserves {h : Handler L Op D} {I : D → Prop}
    (hop : ∀ β l (o : Op β) d, P β l o → I d → I (h β l o d).2) {p : Prog L Op α}
    (hp : p.Every P) {d d' : D} {l : Option L} (hd : I d) (hs : Stops h p d l d') : I d' := by
  induction hp generalizing d with
  | ret a =>
    rw [(stops_ret h hs).2]
    exact hd
  | op ho _ ih =>
    cases hs with
    | here => exact hd
    | later hk => exact ih _ (hop _ _ _ d ho hd) hk

/-- What is left of a program has only operations of the program. -/
theorem Every.reaches {h : Handler L Op D} {p q : Prog L Op α} (hp : p.Every P) {d d' : D}
    (hr : Reaches h p d q d') : q.Every P := by
  induction hr with
  | start => exact hp
  | step _ ih =>
    cases ih with
    | op _ hk => exact hk _

/-- A program that is stopped in front of an operation stands in front of one of its own. -/
theorem Every.stops_tag {h : Handler L Op D} {T : L → Prop} {p : Prog L Op α}
    (hp : p.Every fun _ l _ => T l) {d d' : D} {l : L} (hs : Stops h p d (some l) d') : T l := by
  induction hp generalizing d with
  | ret a => cases (stops_ret h hs).1
  | op ho _ ih =>
    cases hs with
    | here => exact ho
    | later hk => exact ih _ hk

end Shape

end Prog

end Agyn
