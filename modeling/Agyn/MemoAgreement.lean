import Agyn.MemoGraphs

/-!
What a cache may hold without a change of later answers. A node that reaches no cycle is cached with
its own value only, whatever was computed before, when no two nodes share a key. Two states that
agree on the nodes that reach a cycle give every node one value. Of queries that are asked one after
another of one state, each resolves some roots from the state that the ones before left. All end and
leave the stack empty, and a query is independent of the earlier ones when no node that it has in
common with them reaches a cycle, and no two nodes share a key: then its values are those of a state
that nothing was asked of.
-/
namespace Agyn.MemoGraphs

open FuelledCalls Relation

section Agreement

variable {σ ν κ β ε : Type} {G : MemoGraph ν κ β ε}
  {fuel : ℕ} {n d : ν} {s s' t t' : σ} {S R : Set ν}

/-- Nodes with what they are computed from, each with a key of its own. -/
structure Closed (G : MemoGraph ν κ β ε) (S : Set ν) : Prop where
  deps : ∀ n ∈ S, ∀ d ∈ G.deps n, d ∈ S
  inj : Set.InjOn G.key S

theorem Closed.reaches (hS : Closed G S) (hn : n ∈ S) (h : G.Reaches n d) : d ∈ S := by
  induction h with
  | refl => exact hn
  | tail _ hd ih => exact hS.deps _ ih _ hd

section Sound

variable [DecidableEq κ] {I : MemoState σ κ β}

/-- Nodes that reach no cycle are cached with their value. -/
def Sound (I : MemoState σ κ β) (G : MemoGraph ν κ β ε) (S : Set ν) (s : σ) : Prop :=
  ∀ n ∈ S, G.Acyclic n → ∀ b, I.cached s (G.key n) = some b → G.Value n (.ok b)

def Leads (I : MemoState σ κ β) (G : MemoGraph ν κ β ε) (S : Set ν) (n : ν) (s : σ) : Prop :=
  ∀ k ∈ I.stack s, ∃ m ∈ S, G.key m = k ∧ TransGen G.Dep m n

theorem Sound.cache (hS : Closed G S) (hn : n ∈ S) {b : β} (h : Sound I G S s)
    (hb : G.Acyclic n → G.Value n (.ok b)) : Sound I G S (I.cache (G.key n) b s) := by
  intro m hm hacyclic c hc
  rw [I.cached_cache] at hc
  split_ifs at hc with hkey
  · obtain rfl := hS.inj hm hn hkey
    obtain rfl := Option.some.inj hc
    exact hb hacyclic
  · exact h m hm hacyclic c hc

theorem Sound.push (h : Sound I G S s) (k : κ) : Sound I G S (I.push k s) := by
  unfold Sound
  rwa [I.cached_push]

theorem Sound.pop (h : Sound I G S s) (k : κ) : Sound I G S (I.pop k s) := by
  unfold Sound
  rwa [I.cached_pop]

theorem Leads.dep (hn : n ∈ S) (h : Leads I G S n s) (hd : d ∈ G.deps n)
    (ht : I.stack t = insert (G.key n) (I.stack s)) : Leads I G S d t := by
  intro k hk
  rw [ht] at hk
  obtain rfl | hk := Finset.mem_insert.mp hk
  · exact ⟨n, hn, rfl, .single hd⟩
  · obtain ⟨m, hm, hkey, hreach⟩ := h k hk
    exact ⟨m, hm, hkey, .tail hreach hd⟩

/-- A node that is met while it is computed reaches a cycle. -/
theorem Leads.not_acyclic (hS : Closed G S) (hn : n ∈ S) (h : Leads I G S n s)
    (hstack : G.key n ∈ I.stack s) : ¬G.Acyclic n := by
  obtain ⟨m, hm, hkey, hreach⟩ := h _ hstack
  obtain rfl := hS.inj hm hn hkey
  exact fun hacyclic => hacyclic m .refl hreach

/-- The value of a node that reaches no cycle is its own, and the cache stays sound. -/
theorem resolve_sound (fuel : ℕ) (hS : Closed G S) (hn : n ∈ S) (hs : Sound I G S s)
    (hleads : Leads I G S n s) :
    Ensures True (resolve I G fuel n) s
      fun r s' => Sound I G S s' ∧ (G.Acyclic n → G.Value n r) := by
  induction fuel generalizing n s with
  | zero => trivial
  | succ fuel ih =>
    refine ensures_get_bind.mpr ?_
    cases hcached : I.cached s (G.key n) with
    | some b => exact ⟨hs, fun hacyclic => hs n hn hacyclic b hcached⟩
    | none =>
      simp only
      split_ifs with hstack
      · have hcycle := hleads.not_acyclic hS hn hstack
        exact ⟨hs.cache hS hn fun h => absurd h hcycle, fun h => absurd h hcycle⟩
      · refine ensures_modify_bind.mpr (ensures_andFinally.mpr (ensures_bind.mpr ?_))
        refine (ensures_traverse_mapM
          (I := fun t => Sound I G S t ∧ I.stack t = I.stack (I.push (G.key n) s))
          (P := fun d r => G.Acyclic d → G.Value d r) (fun d hd t ht => ?_)
          ⟨hs.push (G.key n), rfl⟩).mono fun r t hr => ?_
        · have hd' := ih (hS.deps n hn d hd) ht.1
            (hleads.dep hn hd (ht.2.trans (I.stack_push _ _)))
          refine (hd'.and (resolve_keeps fuel d t)).mono fun r t' ht' => ?_
          exact ⟨⟨ht'.1.1, ht'.2.stack.trans ht.2⟩, ht'.1.2⟩
        · obtain ⟨⟨hsound, -⟩, hr⟩ := hr
          -- the outcome is that of the values, so that it makes the value of the node
          have hvalue : G.Acyclic n → G.Value n (r >>= G.eval n) := by
            intro hacyclic
            obtain ⟨_, hv⟩ := hacyclic.exists_value
            obtain ⟨_, v, hv⟩ := hv
            rw [hr v fun d hd r' hr' => (hr' (hacyclic.of_reaches (.single hd))).unique (hv d hd)]
            exact .intro n v hv
          cases r with
          | error e => exact ⟨hsound.pop _, hvalue⟩
          | ok bs =>
            refine ensures_bind.mpr (ensures_ofExcept.mpr ?_)
            change G.Acyclic n → G.Value n (G.eval n bs) at hvalue
            cases heval : G.eval n bs with
            | error e => exact ⟨hsound.pop _, heval ▸ hvalue⟩
            | ok b =>
              rw [heval] at hvalue
              exact ⟨(hsound.cache hS hn hvalue).pop _, hvalue⟩

/-- States with one stack that agree on the nodes of `R` that reach a cycle. -/
structure Linked (I : MemoState σ κ β) (G : MemoGraph ν κ β ε) (S R : Set ν) (s t : σ) : Prop where
  stack : I.stack s = I.stack t
  left : Sound I G S s
  right : Sound I G S t
  cached : ∀ m ∈ R, ¬G.Acyclic m → I.cached s (G.key m) = I.cached t (G.key m)

theorem Linked.cache (hS : Closed G S) (hn : n ∈ S) (h : Linked I G S R s t) {b : β}
    (hcycle : ¬G.Acyclic n) :
    Linked I G S R (I.cache (G.key n) b s) (I.cache (G.key n) b t) where
  stack := by rw [I.stack_cache, I.stack_cache, h.stack]
  left := h.left.cache hS hn fun hacyclic => absurd hacyclic hcycle
  right := h.right.cache hS hn fun hacyclic => absurd hacyclic hcycle
  cached m hm hm' := by rw [I.cached_cache, I.cached_cache, h.cached m hm hm']

theorem Linked.push (h : Linked I G S R s t) (k : κ) :
    Linked I G S R (I.push k s) (I.push k t) where
  stack := by rw [I.stack_push, I.stack_push, h.stack]
  left := h.left.push k
  right := h.right.push k
  cached m hm hm' := by rw [I.cached_push, I.cached_push, h.cached m hm hm']

theorem Linked.pop (h : Linked I G S R s t) (k : κ) :
    Linked I G S R (I.pop k s) (I.pop k t) where
  stack := by rw [I.stack_pop, I.stack_pop, h.stack]
  left := h.left.pop k
  right := h.right.pop k
  cached m hm hm' := by rw [I.cached_pop, I.cached_pop, h.cached m hm hm']

/-- A node that reaches no cycle touches no key of a node that does. -/
theorem Keeps.cached_cyclic (hS : Closed G S) (hn : n ∈ S) (h : Keeps I G {n} s s')
    (hacyclic : G.Acyclic n) {m : ν} (hm : m ∈ S) (hcycle : ¬G.Acyclic m) :
    I.cached s' (G.key m) = I.cached s (G.key m) := by
  refine h.cached _ ?_
  rintro _ rfl d hd hkey
  obtain rfl := hS.inj (hS.reaches hn hd) hm hkey
  exact hcycle (hacyclic.of_reaches hd)

theorem resolve_agrees_of_acyclic (hS : Closed G S) (hR : R ⊆ S) (hn : n ∈ S)
    (hacyclic : G.Acyclic n) (h : Linked I G S R s t) (hs : Leads I G S n s)
    (ht : Leads I G S n t) :
    Agrees (Linked I G S R) (resolve I G fuel n) s (resolve I G fuel n) t := by
  have hleft := (resolve_sound fuel hS hn h.left hs).and (resolve_keeps fuel n s)
  have hright := (resolve_sound fuel hS hn h.right ht).and (resolve_keeps fuel n t)
  refine hleft.mono fun r s' ⟨⟨hsound, hvalue⟩, hkeeps⟩ =>
    hright.mono fun r' t' ⟨⟨hsound', hvalue'⟩, hkeeps'⟩ => ?_
  refine ⟨(hvalue hacyclic).unique (hvalue' hacyclic), ?_, hsound, hsound', fun m hm hcycle => ?_⟩
  · rw [hkeeps.stack, hkeeps'.stack, h.stack]
  · rw [hkeeps.cached_cyclic hS hn hacyclic (hR hm) hcycle,
      hkeeps'.cached_cyclic hS hn hacyclic (hR hm) hcycle, h.cached m hm hcycle]

/-- From linked states a node has one value. -/
theorem resolve_agrees (fuel : ℕ) (hS : Closed G S) (hR : R ⊆ S)
    (hdeps : ∀ n ∈ R, ∀ d ∈ G.deps n, d ∈ R)
    (hn : n ∈ R) (h : Linked I G S R s t) (hleads : Leads I G S n s) :
    Agrees (Linked I G S R) (resolve I G fuel n) s (resolve I G fuel n) t := by
  induction fuel generalizing n s t with
  | zero => trivial
  | succ fuel ih =>
    by_cases hacyclic : G.Acyclic n
    · have hleads' : Leads I G S n t := by
        unfold Leads
        rwa [← h.stack]
      exact resolve_agrees_of_acyclic hS hR (hR hn) hacyclic h hleads hleads'
    · refine agrees_get_bind.mpr ?_
      rw [← h.cached n hn hacyclic, ← h.stack]
      cases hcached : I.cached s (G.key n) with
      | some b => exact agrees_pure.mpr h
      | none =>
        simp only
        split_ifs with hstack
        · exact agrees_modify_bind.mpr (agrees_pure.mpr (h.cache hS (hR hn) hacyclic))
        · refine agrees_modify_bind.mpr (agrees_andFinally.mpr ?_)
          -- while the dependencies are computed, the stack is that of the node
          refine Agrees.bind (T := fun u w => Linked I G S R u w ∧
            I.stack u = I.stack (I.push (G.key n) s)) ?_ ?_ fun u w hu => hu.1.pop _
          · refine Agrees.traverse (fun d hd u w hu => ?_) ⟨h.push _, rfl⟩
            have hd' := ih (hdeps n hn d hd) hu.1
              (hleads.dep (hR hn) hd (hu.2.trans (I.stack_push _ _)))
            refine (Ensures.and hd' (resolve_keeps fuel d u)).mono fun r u' hu' => ?_
            refine hu'.1.mono fun r' w' hw' => ⟨hw'.1, hw'.2, hu'.2.stack.trans hu.2⟩
          · intro bs u w hu
            cases G.eval n bs with
            | error e => exact ⟨rfl, hu.1.pop _⟩
            | ok b => exact ⟨rfl, (hu.1.cache hS (hR hn) hacyclic).pop _⟩

end Sound

end Agreement

section QueryRuns

variable {σ ν κ β ε : Type} [DecidableEq κ]

def resolveAll (I : MemoState σ κ β) (G : MemoGraph ν κ β ε) (fuel : ℕ) (roots : List ν) :
    Call σ ε (List β) :=
  Call.traverse (resolve I G fuel) roots

/-- The state after some queries, which are over also when they throw. -/
def after (I : MemoState σ κ β) (G : MemoGraph ν κ β ε) (fuel : ℕ) : List (List ν) → σ → Option σ
  | [], s => some s
  | roots :: rest, s => (resolveAll I G fuel roots s).bind fun out => after I G fuel rest out.2

def reached (G : MemoGraph ν κ β ε) (roots : List ν) : Set ν :=
  {m | ∃ n ∈ roots, G.Reaches n m}

/-- No node that both reach reaches a cycle, and no two of their nodes share a key. -/
structure Independent (G : MemoGraph ν κ β ε) (earlier roots : List ν) : Prop where
  inj : Set.InjOn G.key (reached G (earlier ++ roots))
  acyclic : ∀ m ∈ reached G roots, m ∈ reached G earlier → G.Acyclic m

variable {I : MemoState σ κ β} {G : MemoGraph ν κ β ε} {fuel : ℕ} {s s' t : σ} {S R : Set ν}
  {roots : List ν} {queries : List (List ν)}

theorem resolveAll_ends (hfuel : G.nodes.card + 1 < fuel) (roots : List ν) (s : σ) :
    ∃ r s', resolveAll I G fuel roots s = some (r, s') ∧ Keeps I G {n | n ∈ roots} s s' :=
  (ensures_traverse_keeps fun d _ t _ => resolve_ends_of_card hfuel d t).exists

theorem leads_of_empty {n : ν} (h : I.stack s = ∅) : Leads I G S n s := by
  intro k hk
  rw [h] at hk
  exact absurd hk (Finset.notMem_empty k)

theorem resolveAll_sound (fuel : ℕ) (hS : Closed G S) (hroots : ∀ n ∈ roots, n ∈ S)
    (hs : Sound I G S s)
    (hstack : I.stack s = ∅) :
    Ensures True (resolveAll I G fuel roots) s fun _ s' => Sound I G S s' := by
  refine (ensures_traverse_mapM (I := fun t => Sound I G S t ∧ I.stack t = ∅)
    (P := fun _ _ => True) (fun d hd t ht => ?_) ⟨hs, hstack⟩).mono fun _ _ hr => hr.1.1
  have hd' := resolve_sound fuel hS (hroots d hd) ht.1 (leads_of_empty ht.2)
  refine (hd'.and (resolve_keeps fuel d t)).mono fun r t' ht' => ?_
  exact ⟨⟨ht'.1.1, ht'.2.stack.trans ht.2⟩, trivial⟩

theorem resolveAll_agrees (fuel : ℕ) (hS : Closed G S) (hR : R ⊆ S)
    (hdeps : ∀ n ∈ R, ∀ d ∈ G.deps n, d ∈ R) (hroots : ∀ n ∈ roots, n ∈ R)
    (h : Linked I G S R s t) (hstack : I.stack s = ∅) :
    Agrees (Linked I G S R) (resolveAll I G fuel roots) s (resolveAll I G fuel roots) t := by
  have hall : Agrees (fun u w => Linked I G S R u w ∧ I.stack u = ∅)
      (resolveAll I G fuel roots) s (resolveAll I G fuel roots) t := by
    refine Agrees.traverse (fun d hd u w hu => ?_) ⟨h, hstack⟩
    have hd' := resolve_agrees fuel hS hR hdeps (hroots d hd) hu.1 (leads_of_empty hu.2)
    refine (Ensures.and hd' (resolve_keeps fuel d u)).mono fun r u' hu' => ?_
    exact hu'.1.mono fun r' w' hw' => ⟨hw'.1, hw'.2, hu'.2.stack.trans hu.2⟩
  exact hall.mono fun r s' hr => hr.mono fun r' t' hr' => ⟨hr'.1, hr'.2.1⟩

/-- The queries end, and touch what they reach only. -/
theorem after_ends (hfuel : G.nodes.card + 1 < fuel) (queries : List (List ν)) (s : σ) :
    ∃ s', after I G fuel queries s = some s' ∧ Keeps I G {n | n ∈ queries.flatten} s s' := by
  induction queries generalizing s with
  | nil => exact ⟨s, rfl, Keeps.refl s⟩
  | cons roots rest ih =>
    obtain ⟨r, t, hroots, hkeeps⟩ := resolveAll_ends hfuel roots s
    obtain ⟨s', hrest, hkeeps'⟩ := ih t
    refine ⟨s', by rw [after, hroots, Option.bind_some, hrest], ?_⟩
    refine (hkeeps.mono fun n hn => ⟨n, ?_, .refl⟩).trans (hkeeps'.mono fun n hn => ⟨n, ?_, .refl⟩)
    · exact List.mem_flatten.mpr ⟨roots, List.mem_cons_self, hn⟩
    · rw [List.flatten_cons]
      exact List.mem_append_right roots hn

theorem after_sound (hS : Closed G S) (hqueries : ∀ n ∈ queries.flatten, n ∈ S)
    (hs : Sound I G S s) (hstack : I.stack s = ∅) (h : after I G fuel queries s = some s') :
    Sound I G S s' := by
  induction queries generalizing s with
  | nil =>
    obtain rfl := Option.some.inj h
    exact hs
  | cons roots rest ih =>
    obtain ⟨⟨r, t⟩, hroots, hrest⟩ := Option.bind_eq_some_iff.mp h
    rw [List.flatten_cons] at hqueries
    have hsound := resolveAll_sound fuel hS
      (fun n hn => hqueries n (List.mem_append_left _ hn)) hs hstack
    have hkeeps : Ensures True (resolveAll I G fuel roots) s
        fun _ s' => Keeps I G {n | n ∈ roots} s s' :=
      ensures_traverse_keeps fun d _ t _ => resolve_keeps fuel d t
    exact ih (fun n hn => hqueries n (List.mem_append_right _ hn)) (hsound.of_some hroots)
      ((hkeeps.of_some hroots).stack.trans hstack) hrest

omit [DecidableEq κ] in
theorem closed_reached (hinj : Set.InjOn G.key (reached G roots)) : Closed G (reached G roots) :=
  ⟨fun _ ⟨n, hn, hm⟩ _ hd => ⟨n, hn, hm.tail hd⟩, hinj⟩

/-- Every query ends from where the earlier ones left the state, with an empty stack; an independent
one has the values that it has by itself. -/
theorem resolveAll_independent (hstack : I.stack s = ∅) (hcache : ∀ k, I.cached s k = none)
    (hfuel : G.nodes.card + 1 < fuel) (queries : List (List ν)) (roots : List ν) :
    ∃ t, after I G fuel queries s = some t ∧ I.stack t = ∅ ∧
      ∃ r t', resolveAll I G fuel roots t = some (r, t') ∧ I.stack t' = ∅ ∧
        (Independent G queries.flatten roots →
          ∃ s', resolveAll I G fuel roots s = some (r, s')) := by
  obtain ⟨t, hafter, hkeeps⟩ := after_ends (I := I) hfuel queries s
  obtain ⟨r, t', hr, hkeeps'⟩ := resolveAll_ends (I := I) hfuel roots t
  have ht : I.stack t = ∅ := hkeeps.stack.trans hstack
  refine ⟨t, hafter, ht, r, t', hr, hkeeps'.stack.trans ht, fun hindependent => ?_⟩
  obtain ⟨r', s', hr', -⟩ := resolveAll_ends (I := I) hfuel roots s
  have hS := closed_reached hindependent.inj
  have hsound : Sound I G (reached G (queries.flatten ++ roots)) s := fun m _ _ b hb => by
    rw [hcache] at hb
    cases hb
  have hroots : ∀ n ∈ reached G roots, n ∈ reached G (queries.flatten ++ roots) :=
    fun m ⟨n, hn, hm⟩ => ⟨n, List.mem_append_right _ hn, hm⟩
  have hlinked : Linked I G (reached G (queries.flatten ++ roots)) (reached G roots) t s := by
    refine ⟨hkeeps.stack, ?_, hsound, fun m hm hcycle => hkeeps.cached _ fun n hn d hd hkey => ?_⟩
    · exact after_sound hS (fun n hn => ⟨n, List.mem_append_left _ hn, .refl⟩) hsound hstack hafter
    · have hd' : d ∈ reached G (queries.flatten ++ roots) := ⟨n, List.mem_append_left _ hn, hd⟩
      obtain rfl := hindependent.inj hd' (hroots m hm) hkey
      exact hcycle (hindependent.acyclic d hm ⟨n, hn, hd⟩)
  have hagrees := resolveAll_agrees fuel hS hroots
    (fun m ⟨n, hn, hm⟩ d hd => ⟨n, hn, hm.tail hd⟩) (fun n hn => ⟨n, hn, .refl⟩) hlinked ht
  obtain ⟨rfl, -⟩ := (hagrees.of_some hr).of_some hr'
  exact ⟨s', hr'⟩

omit [DecidableEq κ] in
/-- Queries of nodes with a key of their own, which are computed from nodes of lower rank. -/
theorem independent_of_rank {earlier : List ν} (rank : ν → ℕ) (hinj : Set.InjOn G.key S)
    (hdeps : ∀ n ∈ S, ∀ d ∈ G.deps n, d ∈ S ∧ rank d < rank n)
    (hroots : ∀ n ∈ earlier ++ roots, n ∈ S) : Independent G earlier roots := by
  have hclosed : Closed G S := ⟨fun n hn d hd => (hdeps n hn d hd).1, hinj⟩
  have hrank : ∀ n ∈ S, ∀ m, TransGen G.Dep n m → rank m < rank n := by
    intro n hn m h
    induction h with
    | single hd => exact (hdeps n hn _ hd).2
    | tail hreach hd ih =>
      exact (hdeps _ (hclosed.reaches hn hreach.to_reflTransGen) _ hd).2.trans ih
  constructor
  · exact hinj.mono fun m ⟨n, hn, hm⟩ => hclosed.reaches (hroots n hn) hm
  · rintro m ⟨n, hn, hm⟩ - m' hm' hcycle
    have hmem := hclosed.reaches (hroots n (List.mem_append_right _ hn)) (hm.trans hm')
    exact Nat.lt_irrefl _ (hrank m' hmem m' hcycle)

end QueryRuns

end Agyn.MemoGraphs
