import Mathlib.Data.Finset.Card
import Mathlib.Data.Set.Function
import Mathlib.Logic.Relation
import Agyn.FuelledCalls

/-!
Nodes whose value is computed from the values of other nodes, with a cache and with a stack of what
is being computed. A node that is met again while it is computed has its fallback, which goes into
the cache too. The computation ends, leaves the stack as it was, and touches the keys of what the
node reaches only. A node that reaches no cycle has one value, which does not depend on the state.
-/
namespace Agyn.MemoGraphs

open FuelledCalls Relation

/-- A state with a cache and a stack of keys. -/
structure MemoState (σ κ β : Type) [DecidableEq κ] where
  cached : σ → κ → Option β
  stack : σ → Finset κ
  cache : κ → β → σ → σ
  push : κ → σ → σ
  pop : κ → σ → σ
  cached_cache : ∀ k b s j, cached (cache k b s) j = if j = k then some b else cached s j
  cached_push : ∀ k s, cached (push k s) = cached s
  cached_pop : ∀ k s, cached (pop k s) = cached s
  stack_cache : ∀ k b s, stack (cache k b s) = stack s
  stack_push : ∀ k s, stack (push k s) = insert k (stack s)
  stack_pop : ∀ k s, stack (pop k s) = (stack s).erase k

/-- Nodes with what their values are computed from; two nodes may have one key. -/
structure MemoGraph (ν κ β ε : Type) where
  deps : ν → List ν
  key : ν → κ
  eval : ν → List β → Except ε β
  fallback : ν → β
  nodes : Finset ν
  deps_mem : ∀ n, ∀ d ∈ deps n, d ∈ nodes

variable {σ ν κ β ε : Type}

/-- The value of a node, to the depth of the fuel. -/
def resolve [DecidableEq κ] (I : MemoState σ κ β) (G : MemoGraph ν κ β ε) : ℕ → ν → Call σ ε β
  | 0, _ => fun _ => none
  | fuel + 1, n => do
    let s ← Call.get
    match I.cached s (G.key n) with
    | some b => pure b
    | none =>
      if G.key n ∈ I.stack s then
        Call.modify (I.cache (G.key n) (G.fallback n))
        pure (G.fallback n)
      else
        Call.modify (I.push (G.key n))
        Call.andFinally (do
          let bs ← Call.traverse (resolve I G fuel) (G.deps n)
          let b ← Call.ofExcept (G.eval n bs)
          Call.modify (I.cache (G.key n) b)
          pure b) (I.pop (G.key n))

section Steps

variable [DecidableEq κ] {I : MemoState σ κ β} {G : MemoGraph ν κ β ε} {s : σ} {n : ν}
  (fuel : ℕ)

theorem resolve_cached {b : β} (h : I.cached s (G.key n) = some b) :
    resolve I G (fuel + 1) n s = some (.ok b, s) := by
  change (match I.cached s (G.key n) with
    | some b => (pure b : Call σ ε β)
    | none => _) s = _
  rw [h]
  rfl

theorem resolve_stacked (h : I.cached s (G.key n) = none) (hstack : G.key n ∈ I.stack s) :
    resolve I G (fuel + 1) n s =
      some (.ok (G.fallback n), I.cache (G.key n) (G.fallback n) s) := by
  change (match I.cached s (G.key n) with
    | some b => (pure b : Call σ ε β)
    | none => if G.key n ∈ I.stack s then _ else _) s = _
  rw [h]
  simp only [if_pos hstack]
  rfl

theorem resolve_expanded (h : I.cached s (G.key n) = none) (hstack : G.key n ∉ I.stack s) :
    resolve I G (fuel + 1) n s = Call.andFinally (do
      let bs ← Call.traverse (resolve I G fuel) (G.deps n)
      let b ← Call.ofExcept (G.eval n bs)
      Call.modify (I.cache (G.key n) b)
      pure b) (I.pop (G.key n)) (I.push (G.key n) s) := by
  change (match I.cached s (G.key n) with
    | some b => (pure b : Call σ ε β)
    | none => if G.key n ∈ I.stack s then _ else _) s = _
  rw [h]
  simp only [if_neg hstack]
  rfl

/-- A node without dependencies. -/
theorem resolve_leaf (h : I.cached s (G.key n) = none) (hstack : G.key n ∉ I.stack s)
    (hdeps : G.deps n = []) {b : β} (hb : G.eval n [] = .ok b) :
    resolve I G (fuel + 1) n s =
      some (.ok b, I.pop (G.key n) (I.cache (G.key n) b (I.push (G.key n) s))) := by
  rw [resolve_expanded fuel h hstack, hdeps]
  change Call.andFinally (Call.ofExcept (G.eval n []) >>= _) _ _ = _
  rw [hb]
  rfl

end Steps

namespace MemoGraph

variable (G : MemoGraph ν κ β ε)

def Dep (n d : ν) : Prop := d ∈ G.deps n

abbrev Reaches : ν → ν → Prop := ReflTransGen G.Dep

def Acyclic (n : ν) : Prop := ∀ m, G.Reaches n m → ¬TransGen G.Dep m m

inductive Value : ν → Except ε β → Prop
  | intro (n : ν) (v : ν → Except ε β) (h : ∀ d ∈ G.deps n, Value d (v d)) :
    Value n ((G.deps n).mapM v >>= G.eval n)

variable {G} {n d : ν}

theorem Acyclic.of_reaches (h : G.Acyclic n) (hd : G.Reaches n d) : G.Acyclic d :=
  fun m hm => h m (hd.trans hm)

theorem mapM_congr {as : List ν} {v v' : ν → Except ε β} (h : ∀ a ∈ as, v a = v' a) :
    as.mapM v = as.mapM v' := by
  induction as with
  | nil => rfl
  | cons a as ih =>
    rw [List.mapM_cons, List.mapM_cons, h a List.mem_cons_self,
      ih fun a' ha' => h a' (List.mem_cons_of_mem a ha')]

theorem Value.unique {r r' : Except ε β} (h : G.Value n r) (h' : G.Value n r') : r = r' := by
  induction h generalizing r' with
  | intro n v hv ih =>
    obtain ⟨_, v', hv'⟩ := h'
    have heq : (G.deps n).mapM v = (G.deps n).mapM v' :=
      mapM_congr fun d hd => ih d hd (hv' d hd)
    rw [heq]

/-- What a node reaches by one or more steps gets smaller with every step. -/
theorem Acyclic.exists_value (h : G.Acyclic n) : ∃ r, G.Value n r := by
  classical
  obtain ⟨c, hc⟩ : ∃ c, (G.nodes.filter (TransGen G.Dep n)).card = c := ⟨_, rfl⟩
  induction c using Nat.strong_induction_on generalizing n with
  | _ c ih =>
    have hdeps : ∀ d, d ∈ G.deps n → ∃ r, G.Value d r := by
      intro d hd
      refine ih _ ?_ (h.of_reaches (.single hd)) rfl
      rw [← hc]
      refine Finset.card_lt_card ((Finset.ssubset_iff_of_subset fun m hm => ?_).mpr ⟨d, ?_, ?_⟩)
      · rw [Finset.mem_filter] at hm ⊢
        exact ⟨hm.1, .head hd hm.2⟩
      · exact Finset.mem_filter.mpr ⟨G.deps_mem n d hd, .single hd⟩
      · exact fun hm => h d (.single hd) (Finset.mem_filter.mp hm).2
    choose v hv using hdeps
    refine ⟨_, .intro n (fun d => if hd : d ∈ G.deps n then v d hd else G.eval n []) fun d hd => ?_⟩
    rw [dif_pos hd]
    exact hv d hd

end MemoGraph

section Frame

variable [DecidableEq κ] {I : MemoState σ κ β} {G : MemoGraph ν κ β ε} {lim : Prop} {fuel : ℕ}
  {n d : ν} {s s' s'' : σ}

/-- The stack is the same, and so is the cache apart from what the nodes reach. -/
structure Keeps (I : MemoState σ κ β) (G : MemoGraph ν κ β ε) (roots : Set ν) (s s' : σ) :
    Prop where
  stack : I.stack s' = I.stack s
  cached : ∀ k, (∀ n ∈ roots, ∀ m, G.Reaches n m → G.key m ≠ k) → I.cached s' k = I.cached s k

variable {roots roots' : Set ν}

theorem Keeps.refl (s : σ) : Keeps I G roots s s := ⟨rfl, fun _ _ => rfl⟩

theorem Keeps.trans (h : Keeps I G roots s s') (h' : Keeps I G roots s' s'') :
    Keeps I G roots s s'' :=
  ⟨h'.stack.trans h.stack, fun k hk => (h'.cached k hk).trans (h.cached k hk)⟩

theorem Keeps.mono (h : Keeps I G roots s s')
    (hroots : ∀ n ∈ roots, ∃ m ∈ roots', G.Reaches m n) : Keeps I G roots' s s' := by
  refine ⟨h.stack, fun k hk => h.cached k fun n hn m hm => ?_⟩
  obtain ⟨n', hn', hreach⟩ := hroots n hn
  exact hk n' hn' m (hreach.trans hm)

theorem keeps_cache (b : β) (s : σ) : Keeps I G {n} s (I.cache (G.key n) b s) := by
  refine ⟨I.stack_cache _ _ _, fun k hk => ?_⟩
  rw [I.cached_cache, if_neg (Ne.symm (hk n rfl n .refl))]

theorem Keeps.pop (hstack : G.key n ∉ I.stack s)
    (h : Keeps I G roots (I.push (G.key n) s) s') : Keeps I G roots s (I.pop (G.key n) s') := by
  refine ⟨?_, fun k hk => ?_⟩
  · rw [I.stack_pop, h.stack, I.stack_push, Finset.erase_insert hstack]
  · rw [I.cached_pop, h.cached k hk, I.cached_push]

theorem ensures_traverse_keeps {as : List ν}
    (h : ∀ d ∈ as, ∀ t, I.stack t = I.stack s →
      Ensures lim (resolve I G fuel d) t fun _ t' => Keeps I G {d} t t') :
    Ensures lim (Call.traverse (resolve I G fuel) as) s
      fun _ s' => Keeps I G {d | d ∈ as} s s' := by
  refine (ensures_traverse (I := fun t => Keeps I G {d | d ∈ as} s t) (P := fun _ => True)
    (E := True) (fun d hd t ht => ?_) (Keeps.refl s)).mono fun _ _ hr => hr.1
  refine (h d hd t ht.stack).mono fun r t' ht' => ⟨ht.trans (ht'.mono ?_), ?_⟩
  · rintro n rfl
    exact ⟨n, hd, .refl⟩
  · cases r <;> trivial

/-- The computation of a node keeps what those of its dependencies keep. -/
theorem ensures_resolve_succ
    (h : ∀ d ∈ G.deps n, ∀ t, G.key n ∉ I.stack s → I.stack t = insert (G.key n) (I.stack s) →
      Ensures lim (resolve I G fuel d) t fun _ t' => Keeps I G {d} t t') :
    Ensures lim (resolve I G (fuel + 1) n) s fun _ s' => Keeps I G {n} s s' := by
  refine ensures_get_bind.mpr ?_
  cases hcached : I.cached s (G.key n) with
  | some b => exact Keeps.refl s
  | none =>
    simp only
    split_ifs with hstack
    · exact keeps_cache _ s
    · refine ensures_modify_bind.mpr (ensures_andFinally.mpr (ensures_bind.mpr ?_))
      have hdeps := ensures_traverse_keeps (s := I.push (G.key n) s) fun d hd t ht =>
        h d hd t hstack (ht.trans (I.stack_push _ _))
      refine hdeps.mono fun r t ht => ?_
      have hn : Keeps I G {n} (I.push (G.key n) s) t :=
        ht.mono fun d hd => ⟨n, rfl, .single hd⟩
      cases r with
      | error e => exact hn.pop hstack
      | ok bs =>
        refine ensures_bind.mpr (ensures_ofExcept.mpr ?_)
        cases G.eval n bs with
        | error e => exact hn.pop hstack
        | ok b => exact (hn.trans (keeps_cache b t)).pop hstack

theorem resolve_keeps (fuel : ℕ) (n : ν) (s : σ) :
    Ensures True (resolve I G fuel n) s fun _ s' => Keeps I G {n} s s' := by
  induction fuel generalizing n s with
  | zero => trivial
  | succ fuel ih => exact ensures_resolve_succ fun d _ t _ _ => ih d t

/-- There is fuel enough when there is more than nodes that are not on the stack. -/
theorem resolve_ends [DecidableEq ν] (hn : n ∈ G.nodes)
    (hfuel : ((G.nodes.image G.key) \ I.stack s).card < fuel) :
    Ensures False (resolve I G fuel n) s fun _ s' => Keeps I G {n} s s' := by
  induction fuel generalizing n s with
  | zero => exact absurd hfuel (Nat.not_lt_zero _)
  | succ fuel ih =>
    refine ensures_resolve_succ fun d hd t hstack ht => ih (G.deps_mem n d hd) ?_
    have hlt : ((G.nodes.image G.key) \ I.stack t).card <
        ((G.nodes.image G.key) \ I.stack s).card := by
      refine Finset.card_lt_card ((Finset.ssubset_iff_of_subset fun k hk => ?_).mpr
        ⟨G.key n, ?_, ?_⟩)
      · simp only [Finset.mem_sdiff, ht, Finset.mem_insert, not_or] at hk ⊢
        exact ⟨hk.1, hk.2.2⟩
      · exact Finset.mem_sdiff.mpr ⟨Finset.mem_image_of_mem _ hn, hstack⟩
      · simp [ht]
    omega

/-- A node that is no dependency takes one step more. -/
theorem resolve_ends_of_card (hfuel : G.nodes.card + 1 < fuel) (n : ν) (s : σ) :
    Ensures False (resolve I G fuel n) s fun _ s' => Keeps I G {n} s s' := by
  classical
  obtain ⟨fuel, rfl⟩ : ∃ f, fuel = f + 1 := ⟨fuel - 1, by omega⟩
  refine ensures_resolve_succ fun d hd t _ _ => resolve_ends (G.deps_mem n d hd) ?_
  have himage : (G.nodes.image G.key).card ≤ G.nodes.card := Finset.card_image_le
  have hsdiff : ((G.nodes.image G.key) \ I.stack t).card ≤ (G.nodes.image G.key).card :=
    Finset.card_le_card Finset.sdiff_subset
  omega

end Frame

end Agyn.MemoGraphs
