import Mathlib.Logic.Basic

/-!
Calls that change a state, may throw, and may run out of fuel. What a call did to the state before
it threw stays done. `Ensures` says what holds of the outcome of a call; its first argument is what
running out of fuel counts as, so that one set of rules serves total and partial correctness.
-/
namespace Agyn.FuelledCalls

/-- The outcome of a call, with the state it leaves, or nothing when the fuel ran out. -/
def Call (σ ε α : Type) : Type := σ → Option (Except ε α × σ)

variable {σ ε α β : Type} {lim : Prop} {s : σ} {Q Q' : Except ε α → σ → Prop}

namespace Call

def bind (m : Call σ ε α) (f : α → Call σ ε β) : Call σ ε β := fun s =>
  match m s with
  | none => none
  | some (.error e, s) => some (.error e, s)
  | some (.ok a, s) => f a s

instance : Monad (Call σ ε) where
  pure a := fun s => some (.ok a, s)
  bind := bind

def get : Call σ ε σ := fun s => some (.ok s, s)

def modify (f : σ → σ) : Call σ ε Unit := fun s => some (.ok (), f s)

def ofExcept (r : Except ε α) : Call σ ε α := fun s => some (r, s)

/-- Runs a call and then, whatever its outcome is, a change of the state. -/
def andFinally (m : Call σ ε α) (f : σ → σ) : Call σ ε α := fun s =>
  (m s).map fun (r, s) => (r, f s)

/-- The value of a call, or nothing when it threw. -/
def attempt (m : Call σ ε α) : Call σ ε (Option α) := fun s =>
  (m s).map fun (r, s) => (.ok r.toOption, s)

/-- A call for every element of a list, up to the first one that throws. -/
def traverse (f : α → Call σ ε β) : List α → Call σ ε (List β)
  | [] => pure []
  | a :: as => do
    let b ← f a
    let bs ← traverse f as
    pure (b :: bs)

end Call

def Ensures (lim : Prop) (m : Call σ ε α) (s : σ) (Q : Except ε α → σ → Prop) : Prop :=
  match m s with
  | none => lim
  | some (r, s') => Q r s'

theorem Ensures.mono {m : Call σ ε α} (h : Ensures lim m s Q) (hQ : ∀ r s', Q r s' → Q' r s') :
    Ensures lim m s Q' := by
  unfold Ensures at h ⊢
  split <;> rename_i hm <;> rw [hm] at h
  · exact h
  · exact hQ _ _ h

theorem Ensures.and {m : Call σ ε α} (h : Ensures lim m s Q) (h' : Ensures True m s Q') :
    Ensures lim m s fun r s' => Q r s' ∧ Q' r s' := by
  unfold Ensures at h h' ⊢
  split <;> rename_i hm <;> rw [hm] at h h'
  · exact h
  · exact ⟨h, h'⟩

theorem ensures_of_some {m : Call σ ε α} {r : Except ε α} {s' : σ} (hm : m s = some (r, s')) :
    Ensures lim m s Q ↔ Q r s' := by
  rw [Ensures, hm]

/-- A call that ensures something without running out of fuel has an outcome. -/
theorem Ensures.exists {m : Call σ ε α} (h : Ensures False m s Q) :
    ∃ r s', m s = some (r, s') ∧ Q r s' := by
  unfold Ensures at h
  split at h
  · exact h.elim
  · exact ⟨_, _, ‹_›, h⟩

theorem Ensures.of_some {m : Call σ ε α} (h : Ensures lim m s Q) {r : Except ε α} {s' : σ}
    (hm : m s = some (r, s')) : Q r s' :=
  (ensures_of_some hm).mp h

theorem ensures_ofExcept {r : Except ε α} : Ensures lim (Call.ofExcept r) s Q ↔ Q r s := Iff.rfl

/-- What is ensured of a sequence: of its second call, from where the first one left the state,
or of the error of the first one. -/
def Followed (lim : Prop) (f : α → Call σ ε β) (Q : Except ε β → σ → Prop) :
    Except ε α → σ → Prop
  | .ok a, s => Ensures lim (f a) s Q
  | .error e, s => Q (.error e) s

theorem ensures_bind {m : Call σ ε α} {f : α → Call σ ε β} {Q : Except ε β → σ → Prop} :
    Ensures lim (m >>= f) s Q ↔ Ensures lim m s (Followed lim f Q) := by
  change Ensures lim (Call.bind m f) s Q ↔ _
  unfold Ensures Call.bind
  rcases m s with _ | ⟨_ | a, s'⟩ <;> rfl

theorem ensures_get_bind {f : σ → Call σ ε β} {Q : Except ε β → σ → Prop} :
    Ensures lim (Call.get >>= f) s Q ↔ Ensures lim (f s) s Q := Iff.rfl

theorem ensures_modify_bind {g : σ → σ} {f : Unit → Call σ ε β} {Q : Except ε β → σ → Prop} :
    Ensures lim (Call.modify g >>= f) s Q ↔ Ensures lim (f ()) (g s) Q := Iff.rfl

theorem ensures_andFinally {m : Call σ ε α} {f : σ → σ} :
    Ensures lim (m.andFinally f) s Q ↔ Ensures lim m s fun r s' => Q r (f s') := by
  unfold Ensures Call.andFinally
  rcases m s with _ | ⟨r, s'⟩ <;> rfl

theorem ensures_attempt {m : Call σ ε α} {Q : Except ε (Option α) → σ → Prop} :
    Ensures lim m.attempt s Q ↔ Ensures lim m s fun r s' => Q (.ok r.toOption) s' := by
  unfold Ensures Call.attempt
  rcases m s with _ | ⟨r, s'⟩ <;> rfl

/-- What a call ensures of the state, of its value when it returns one, and else. -/
def Settles (I : σ → Prop) (P E : Prop) (r : Except ε α) (s : σ) : Prop :=
  I s ∧ match r with
    | .ok _ => P
    | .error _ => E

theorem Ensures.attempt {m : Call σ ε α} {I : σ → Prop} {P E E' : Prop}
    (h : Ensures lim m s (Settles I P E)) : Ensures lim m.attempt s (Settles I True E') :=
  ensures_attempt.mpr (h.mono fun _ _ hr => ⟨hr.1, trivial⟩)

/-- What every call of a list keeps is kept, and the values of all are there unless one throws. -/
theorem ensures_traverse {f : α → Call σ ε β} {as : List α} {I : σ → Prop} {P : α → Prop}
    {E : Prop} (h : ∀ a ∈ as, ∀ s, I s → Ensures lim (f a) s (Settles I (P a) E)) (hs : I s) :
    Ensures lim (Call.traverse f as) s (Settles I (∀ a ∈ as, P a) E) := by
  induction as generalizing s with
  | nil => exact ⟨hs, fun a ha => absurd ha List.not_mem_nil⟩
  | cons a as ih =>
    refine ensures_bind.mpr ((h a List.mem_cons_self s hs).mono fun r s' hr => ?_)
    cases r with
    | error e => exact hr
    | ok b =>
      have hrest := ih (fun a' ha' => h a' (List.mem_cons_of_mem a ha')) hr.1
      refine ensures_bind.mpr (hrest.mono fun r s'' hall => ?_)
      cases r with
      | error e => exact hall
      | ok bs => exact ⟨hall.1, List.forall_mem_cons.mpr ⟨hr.2, hall.2⟩⟩

/-- The outcome of the calls is that of their values, where these are known. -/
theorem ensures_traverse_mapM {f : α → Call σ ε β} {as : List α} {I : σ → Prop}
    {P : α → Except ε β → Prop}
    (h : ∀ a ∈ as, ∀ s, I s → Ensures lim (f a) s fun r s' => I s' ∧ P a r) (hs : I s) :
    Ensures lim (Call.traverse f as) s fun r s' => I s' ∧
      ∀ v : α → Except ε β, (∀ a ∈ as, ∀ r, P a r → r = v a) → r = as.mapM v := by
  induction as generalizing s with
  | nil => exact ⟨hs, fun _ _ => rfl⟩
  | cons a as ih =>
    refine ensures_bind.mpr ((h a List.mem_cons_self s hs).mono fun r s' hr => ?_)
    cases r with
    | error e =>
      refine ⟨hr.1, fun v hv => ?_⟩
      rw [List.mapM_cons, ← hv a List.mem_cons_self _ hr.2]
      rfl
    | ok b =>
      have hrest := ih (fun a' ha' => h a' (List.mem_cons_of_mem a ha')) hr.1
      refine ensures_bind.mpr (hrest.mono fun r s'' hall => ?_)
      have hmapM : ∀ v : α → Except ε β, (∀ a' ∈ a :: as, ∀ r, P a' r → r = v a') →
          (a :: as).mapM v = r.map (b :: ·) := by
        intro v hv
        rw [List.mapM_cons, ← hv a List.mem_cons_self _ hr.2,
          ← hall.2 v fun a' ha' => hv a' (List.mem_cons_of_mem a ha')]
        cases r <;> rfl
      cases r with
      | error e => exact ⟨hall.1, fun v hv => (hmapM v hv).symm⟩
      | ok bs => exact ⟨hall.1, fun v hv => (hmapM v hv).symm⟩

theorem bind_assoc {γ : Type} (m : Call σ ε α) (f : α → Call σ ε β) (g : β → Call σ ε γ) :
    m >>= f >>= g = m >>= fun a => f a >>= g := by
  funext s
  change Call.bind (Call.bind m f) g s = Call.bind m (fun a => Call.bind (f a) g) s
  unfold Call.bind
  rcases m s with _ | ⟨_ | a, s'⟩ <;> rfl

theorem pure_bind (a : α) (f : α → Call σ ε β) : (pure a : Call σ ε α) >>= f = f a := rfl

theorem get_bind (f : σ → Call σ ε β) (s : σ) : (Call.get >>= f : Call σ ε β) s = f s s := rfl

theorem ofExcept_map_bind {γ : Type} (r : Except ε α) (f : α → β) (g : β → Call σ ε γ) :
    Call.ofExcept (r.map f) >>= g = Call.ofExcept r >>= fun a => g (f a) := by
  cases r with
  | error e => rfl
  | ok a => rfl

theorem traverse_map {γ : Type} (f : α → Call σ ε β) (g : γ → α) (l : List γ) :
    Call.traverse f (l.map g) = Call.traverse (fun c => f (g c)) l := by
  induction l with
  | nil => rfl
  | cons c l ih => rw [List.map_cons, Call.traverse, Call.traverse, ih]

theorem traverse_congr {f g : α → Call σ ε β} {as : List α} (h : ∀ a ∈ as, f a = g a) :
    Call.traverse f as = Call.traverse g as := by
  induction as with
  | nil => rfl
  | cons a as ih =>
    rw [Call.traverse, Call.traverse, h a List.mem_cons_self,
      ih fun a' ha' => h a' (List.mem_cons_of_mem a ha')]

/-- What is built of elements that are looked at first, each with the value of its call. -/
def gather {γ δ : Type} (look : α → Except ε γ) (build : α → γ → β → δ) :
    List α → List β → Except ε (List δ)
  | [], _ => .ok []
  | a :: as, bs =>
    match look a with
    | .error e => .error e
    | .ok c =>
      match bs with
      | [] => .ok []
      | b :: bs => (gather look build as bs).map (build a c b :: ·)

/-- Calls that look at their element first: those up to the first one that throws are made. -/
theorem traverse_gather {γ δ : Type} (look : α → Except ε γ) (build : α → γ → β → δ)
    (f : α → Call σ ε β) (as : List α) :
    Call.traverse (fun a => Call.ofExcept (look a) >>= fun c => f a >>= fun b =>
        (pure (build a c b) : Call σ ε δ)) as =
      Call.traverse f (as.takeWhile fun a => (look a).isOk) >>= fun bs =>
        Call.ofExcept (gather look build as bs) := by
  induction as with
  | nil => rfl
  | cons a as ih =>
    rw [Call.traverse, ih, List.takeWhile_cons]
    cases hlook : look a with
    | error e =>
      have hgather : gather look build (a :: as) [] = .error e := by
        simp only [gather, hlook]
      change Call.ofExcept (.error e) = Call.ofExcept (gather look build (a :: as) [])
      rw [hgather]
    | ok c =>
      have hgather : ∀ b bs, gather look build (a :: as) (b :: bs) =
          (gather look build as bs).map (build a c b :: ·) := by
        intro b bs
        simp only [gather, hlook]
      simp only [Except.isOk, Except.toBool, reduceIte, Call.traverse, bind_assoc, pure_bind,
        hgather]
      change f a >>= _ = f a >>= _
      refine congrArg (f a >>= ·) (funext fun b => congrArg (_ >>= ·) (funext fun bs => ?_))
      cases gather look build as bs <;> rfl

/-- Two calls that both end have the same outcome and leave related states. -/
def Agrees (R : σ → σ → Prop) (m : Call σ ε α) (s : σ) (m' : Call σ ε α) (t : σ) : Prop :=
  Ensures True m s fun r s' => Ensures True m' t fun r' t' => r = r' ∧ R s' t'

section Agrees

variable {R T : σ → σ → Prop} {t : σ} {m m' : Call σ ε α} {f f' : α → Call σ ε β}

theorem agrees_ofExcept {r : Except ε α} :
    Agrees R (.ofExcept r) s (.ofExcept r) t ↔ R s t := by
  simp [Agrees, ensures_ofExcept]

theorem agrees_pure {a : α} :
    Agrees R (pure a : Call σ ε α) s (pure a : Call σ ε α) t ↔ R s t :=
  agrees_ofExcept (r := .ok a)

theorem agrees_get_bind {g g' : σ → Call σ ε β} :
    Agrees R (Call.get >>= g) s (Call.get >>= g') t ↔ Agrees R (g s) s (g' t) t := Iff.rfl

theorem agrees_modify_bind {g : σ → σ} {k k' : Unit → Call σ ε β} :
    Agrees R (Call.modify g >>= k) s (Call.modify g >>= k') t ↔
      Agrees R (k ()) (g s) (k' ()) (g t) := Iff.rfl

theorem agrees_andFinally {g : σ → σ} :
    Agrees R (m.andFinally g) s (m'.andFinally g) t ↔
      Agrees (fun s t => R (g s) (g t)) m s m' t := by
  simp only [Agrees, ensures_andFinally]

theorem Agrees.bind (h : Agrees T m s m' t)
    (hf : ∀ a s' t', T s' t' → Agrees R (f a) s' (f' a) t') (he : ∀ s' t', T s' t' → R s' t') :
    Agrees R (m >>= f) s (m' >>= f') t := by
  refine ensures_bind.mpr (h.mono fun r s' hr => ?_)
  cases r with
  | error e =>
    refine ensures_bind.mpr (hr.mono fun r' t' hr' => ?_)
    obtain ⟨rfl, hst⟩ := hr'
    exact ⟨rfl, he s' t' hst⟩
  | ok a =>
    cases hm : m' t with
    | none =>
      have hends : ∀ Q, Ensures True (m' >>= f') t Q := fun Q => by
        refine ensures_bind.mpr ?_
        rw [Ensures, hm]
        trivial
      show Ensures True (f a) s' _
      unfold Ensures
      split
      · trivial
      · exact hends _
    | some out =>
      obtain ⟨r', t'⟩ := out
      obtain ⟨rfl, hst⟩ := hr.of_some hm
      refine (hf a s' t' hst).mono fun r s'' hr' => ?_
      exact ensures_bind.mpr ((ensures_of_some hm).mpr hr')

theorem Agrees.traverse {f : α → Call σ ε β} {as : List α}
    (h : ∀ a ∈ as, ∀ s t, R s t → Agrees R (f a) s (f a) t) (hst : R s t) :
    Agrees R (Call.traverse f as) s (Call.traverse f as) t := by
  induction as generalizing s t with
  | nil => exact agrees_pure.mpr hst
  | cons a as ih =>
    refine (h a List.mem_cons_self s t hst).bind (fun b s' t' hst' => ?_) fun _ _ hst' => hst'
    have hrest := ih (fun a' ha' => h a' (List.mem_cons_of_mem a ha')) hst'
    exact hrest.bind (fun _ _ _ hst'' => agrees_pure.mpr hst'') fun _ _ hst'' => hst''

end Agrees

end Agyn.FuelledCalls
