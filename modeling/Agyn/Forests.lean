import Mathlib.Data.Finset.Card
import Mathlib.Data.List.Nodup
import Mathlib.Data.List.Perm.Basic
import Mathlib.Logic.Relation

/-!
Forests given by the children of each node. The nodes below a node are listed with each child
before its parent; a search that marks the nodes it has visited finds the same list.
-/
namespace Agyn

variable {α β : Type} {kids : α → List α}

def Child (kids : α → List α) (a b : α) : Prop := b ∈ kids a

abbrev Below (kids : α → List α) : α → α → Prop := Relation.ReflTransGen (Child kids)

structure Forest (kids : α → List α) (rank : α → ℕ) (bound : ℕ) : Prop where
  nodup : ∀ a, (kids a).Nodup
  parent : ∀ {a b c}, c ∈ kids a → c ∈ kids b → a = b
  rank_lt : ∀ {a c}, c ∈ kids a → rank a < rank c
  rank_le : ∀ a, rank a ≤ bound

/-- The nodes below `a` down to `n` levels, each after its children. -/
def postOrder (kids : α → List α) : ℕ → α → List α
  | 0, _ => []
  | n + 1, a => (kids a).flatMap (postOrder kids n) ++ [a]

/-- A search that marks the nodes it comes to, and puts out the value of a node after those of its
children; it has no result when it goes too deep. -/
def visit [DecidableEq α] (kids : α → List α) (out : α → Option β) :
    ℕ → α → List α × List β → Option (List α × List β)
  | 0, _, _ => none
  | n + 1, a, (visited, order) =>
    if a ∈ visited then some (visited, order)
    else ((kids a).foldlM (fun s c => visit kids out n c s) (a :: visited, order)).map fun s =>
      (s.1, s.2 ++ (out a).toList)

/-- A search over a list of nodes to come to, which stops after `n` of them. -/
def sweep [DecidableEq α] (kids : α → List α) : ℕ → List α → List α → List α
  | 0, _, seen => seen
  | _, [], seen => seen
  | n + 1, a :: queue, seen =>
    if a ∈ seen then sweep kids n queue seen
    else sweep kids n ((kids a).reverse ++ queue) (a :: seen)

/-- A node is below another one when it is that one or below a child of it. -/
theorem below_iff {a x : α} : Below kids a x ↔ x = a ∨ ∃ c ∈ kids a, Below kids c x := by
  rw [Below, Relation.ReflTransGen.cases_head_iff, eq_comm]
  rfl

open Classical in
/-- In a finite forest without cycles the number of the ancestors of a node is a rank. -/
theorem exists_forest {nodes : List α}
    (hnodes : ∀ a, ∀ c ∈ kids a, a ∈ nodes ∧ c ∈ nodes) (hnodup : ∀ a, (kids a).Nodup)
    (hparent : ∀ a b c, c ∈ kids a → c ∈ kids b → a = b)
    (hacyclic : ∀ a, ¬Relation.TransGen (Child kids) a a) :
    ∃ rank, Forest kids rank nodes.length := by
  let ancestors (c : α) := nodes.toFinset.filter fun a => Relation.TransGen (Child kids) a c
  refine ⟨fun c => (ancestors c).card, hnodup, hparent _ _ _, fun {a c} hc => ?_, fun a => ?_⟩
  · refine Finset.card_lt_card ⟨fun b hb => ?_, fun hsub => ?_⟩
    · obtain ⟨hmem, hba⟩ := Finset.mem_filter.mp hb
      exact Finset.mem_filter.mpr ⟨hmem, hba.tail hc⟩
    · have ha : a ∈ ancestors c :=
        Finset.mem_filter.mpr ⟨List.mem_toFinset.mpr (hnodes a c hc).1, .single hc⟩
      exact hacyclic a (Finset.mem_filter.mp (hsub ha)).2
  · exact (Finset.card_filter_le _ _).trans (List.toFinset_card_le nodes)

namespace Forest

variable {rank : α → ℕ} {bound n : ℕ} {a b c x : α}

theorem rank_le_of_below (h : Forest kids rank bound) (hbelow : Below kids a x) :
    rank a ≤ rank x := by
  induction hbelow with
  | refl => exact Nat.le_refl _
  | tail _ hchild ih => exact Nat.le_trans ih (Nat.le_of_lt (h.rank_lt hchild))

/-- No node is below two children of one parent. -/
theorem not_below_both (h : Forest kids rank bound) (hb : b ∈ kids a) (hc : c ∈ kids a)
    (hne : b ≠ c) (hbx : Below kids b x) : ¬Below kids c x := by
  intro hcx
  have hsibling : ∀ {b c}, b ∈ kids a → c ∈ kids a → b ≠ c → ¬Below kids b c := by
    intro b c hb hc hne hbelow
    rcases hbelow.cases_tail with rfl | ⟨d, hbd, hdc⟩
    · exact hne rfl
    · have hd : d = a := h.parent hdc hc
      have hle := h.rank_le_of_below hbd
      have hlt := h.rank_lt hb
      subst hd
      omega
  have hunique : Relator.RightUnique (Function.swap (Child kids)) := fun _ _ _ hd he =>
    h.parent hd he
  rcases Relation.ReflTransGen.total_of_right_unique hunique
    (Relation.reflTransGen_swap.mpr hbx) (Relation.reflTransGen_swap.mpr hcx) with hbc | hcb
  · exact hsibling hc hb (Ne.symm hne) (Relation.reflTransGen_swap.mp hbc)
  · exact hsibling hb hc hne (Relation.reflTransGen_swap.mp hcb)

theorem mem_postOrder (h : Forest kids rank bound)
    (hn : bound < n + rank a) : x ∈ postOrder kids n a ↔ Below kids a x := by
  induction n generalizing a with
  | zero =>
    have hle := h.rank_le a
    omega
  | succ n ih =>
    have hkid : ∀ c ∈ kids a, (x ∈ postOrder kids n c ↔ Below kids c x) := by
      intro c hc
      have hlt := h.rank_lt hc
      exact ih (by omega)
    rw [postOrder, List.mem_append, List.mem_flatMap, List.mem_singleton, below_iff, or_comm]
    exact or_congr_right (exists_congr fun c => and_congr_right (hkid c))

theorem not_mem_kids_of_below (h : Forest kids rank bound) (hbelow : Below kids a x) :
    a ∉ kids x := by
  intro hchild
  have hle := h.rank_le_of_below hbelow
  have hlt := h.rank_lt hchild
  omega

theorem nodup_postOrder (h : Forest kids rank bound)
    (hn : bound < n + rank a) : (postOrder kids n a).Nodup := by
  induction n generalizing a with
  | zero => exact List.nodup_nil
  | succ n ih =>
    have hdeep : ∀ c ∈ kids a, bound < n + rank c := fun c hc => by
      have hlt := h.rank_lt hc
      omega
    rw [postOrder, List.nodup_append]
    refine ⟨List.nodup_flatMap.mpr ⟨fun c hc => ih (hdeep c hc), ?_⟩,
      List.nodup_singleton a, fun x hx y hy hxy => ?_⟩
    · refine (h.nodup a).imp_of_mem fun {b c} hb hc hne x hxb hxc => ?_
      rw [h.mem_postOrder (hdeep b hb)] at hxb
      rw [h.mem_postOrder (hdeep c hc)] at hxc
      exact h.not_below_both hb hc hne hxb hxc
    · obtain ⟨c, hc, hx⟩ := List.mem_flatMap.mp hx
      rw [h.mem_postOrder (hdeep c hc), hxy, List.mem_singleton.mp hy] at hx
      exact h.not_mem_kids_of_below hx hc

/-- No node stands before one of its children. -/
theorem pairwise_postOrder (h : Forest kids rank bound)
    (hn : bound < n + rank a) : (postOrder kids n a).Pairwise fun x y => y ∉ kids x := by
  induction n generalizing a with
  | zero => exact List.Pairwise.nil
  | succ n ih =>
    have hdeep : ∀ c ∈ kids a, bound < n + rank c := fun c hc => by
      have hlt := h.rank_lt hc
      omega
    have hmem : ∀ c ∈ kids a, ∀ x, x ∈ postOrder kids n c ↔ Below kids c x := fun c hc x =>
      h.mem_postOrder (hdeep c hc)
    rw [postOrder, List.pairwise_append]
    refine ⟨List.pairwise_flatMap.mpr ⟨fun c hc => ih (hdeep c hc), ?_⟩,
      List.pairwise_singleton _ a, fun x hx y hy => ?_⟩
    · refine (h.nodup a).imp_of_mem fun {b c} hb hc hne x hxb y hyc hchild => ?_
      exact h.not_below_both hb hc hne (((hmem b hb x).mp hxb).tail hchild) ((hmem c hc y).mp hyc)
    · obtain ⟨c, hc, hx⟩ := List.mem_flatMap.mp hx
      rw [List.mem_singleton.mp hy]
      exact h.not_mem_kids_of_below (((hmem c hc x).mp hx).head hc)

variable [DecidableEq α]

/-- The search finds the nodes below `a` in post-order when none of them has been visited. -/
theorem visit_eq (h : Forest kids rank bound) (hn : bound < n + rank a) (out : α → Option β)
    (visited : List α) (order : List β) (hfresh : ∀ x, Below kids a x → x ∉ visited) :
    ∃ visited', visit kids out n a (visited, order) =
        some (visited', order ++ (postOrder kids n a).filterMap out) ∧
      ∀ x, x ∈ visited' ↔ x ∈ visited ∨ Below kids a x := by
  induction n generalizing a visited order with
  | zero =>
    have hle := h.rank_le a
    omega
  | succ n ih =>
    have hdeep : ∀ c ∈ kids a, bound < n + rank c := fun c hc => by
      have hlt := h.rank_lt hc
      omega
    -- The search below some of the children, one after the other.
    have hkids : ∀ (cs : List α), cs.Nodup → (∀ c ∈ cs, c ∈ kids a) →
        ∀ (visited : List α) (order : List β),
          (∀ c ∈ cs, ∀ x, Below kids c x → x ∉ visited) →
          ∃ visited', cs.foldlM (fun s c => visit kids out n c s) (visited, order) =
              some (visited', order ++ (cs.flatMap (postOrder kids n)).filterMap out) ∧
            ∀ x, x ∈ visited' ↔ x ∈ visited ∨ ∃ c ∈ cs, Below kids c x := by
      intro cs
      induction cs with
      | nil => exact fun _ _ visited order _ => ⟨visited, by simp, by simp⟩
      | cons c cs ihcs =>
        intro hnodup hsub visited order hfresh
        obtain ⟨hc, hnodup⟩ := List.nodup_cons.mp hnodup
        obtain ⟨hkid, hsub⟩ := List.forall_mem_cons.mp hsub
        obtain ⟨hfirst, hrest⟩ := List.forall_mem_cons.mp hfresh
        obtain ⟨visited₁, hvisit, hmem₁⟩ :=
          ih (hdeep c hkid) visited order hfirst
        obtain ⟨visited₂, hfold, hmem₂⟩ := ihcs hnodup hsub visited₁
          (order ++ (postOrder kids n c).filterMap out) (by
            intro d hd x hdx hx
            rcases (hmem₁ x).mp hx with hx | hcx
            · exact hrest d hd x hdx hx
            · exact h.not_below_both hkid (hsub d hd) (fun heq => hc (heq ▸ hd)) hcx hdx)
        refine ⟨visited₂, ?_, fun x => ?_⟩
        · rw [List.foldlM_cons, hvisit]
          simpa [List.filterMap_append, List.append_assoc] using hfold
        · rw [hmem₂, hmem₁, List.exists_mem_cons_iff, or_assoc]
    obtain ⟨visited', hfold, hmem⟩ := hkids (kids a) (h.nodup a) (fun c hc => hc) (a :: visited)
      order (by
        intro c hc x hcx hx
        rcases List.mem_cons.mp hx with rfl | hx
        · exact h.not_mem_kids_of_below hcx hc
        · exact hfresh x (hcx.head hc) hx)
    refine ⟨visited', ?_, fun x => ?_⟩
    · rw [visit, if_neg (hfresh a .refl), hfold, postOrder]
      cases hout : out a <;> simp [hout]
    · rw [hmem, List.mem_cons, below_iff (a := a), or_comm (a := x = a), or_assoc]

end Forest

/-- What a search below `root` has seen and has in its queue: every node once, each child with its
parent seen, and the children of every node seen. -/
structure Sweeping (kids : α → List α) (nodes : List α) (root : α) (queue seen : List α) :
    Prop where
  nodup : (queue ++ seen).Nodup
  nodes : ∀ x ∈ queue ++ seen, x ∈ nodes
  below : ∀ x ∈ queue ++ seen, Below kids root x
  parent : ∀ x ∈ queue ++ seen, x = root ∨ ∃ a ∈ seen, x ∈ kids a
  closed : ∀ a ∈ seen, ∀ c ∈ kids a, c ∈ queue ++ seen
  root : root ∈ queue ++ seen

namespace Sweeping

variable {rank : α → ℕ} {bound n : ℕ} {nodes queue seen : List α} {root a x : α}

theorem start (hroot : root ∈ nodes) : Sweeping kids nodes root [root] [] where
  nodup := List.nodup_singleton root
  nodes := by simpa using hroot
  below := by simp [Relation.ReflTransGen.refl]
  parent := by simp
  closed := by simp
  root := List.mem_singleton_self root

/-- A node that has been come to is no child of a node in the queue. -/
theorem not_mem_kids (h : Sweeping kids nodes root queue seen) (hforest : Forest kids rank bound)
    (ha : a ∈ queue) (hx : x ∈ queue ++ seen) : x ∉ kids a := by
  intro hchild
  rcases h.parent x hx with rfl | ⟨b, hb, hxb⟩
  · have hbelow := h.below a (List.mem_append_left seen ha)
    have hle := hforest.rank_le_of_below hbelow
    have hlt := hforest.rank_lt hchild
    omega
  · have hab : a = b := hforest.parent hchild hxb
    exact List.disjoint_of_nodup_append h.nodup ha (hab ▸ hb)

/-- The first node of the queue is seen, and its children are put before the rest. -/
theorem next (h : Sweeping kids nodes root (a :: queue) seen) (hforest : Forest kids rank bound)
    (hnodes : ∀ c ∈ kids a, c ∈ nodes) :
    Sweeping kids nodes root ((kids a).reverse ++ queue) (a :: seen) := by
  have hmem : ∀ x, x ∈ (kids a).reverse ++ queue ++ a :: seen ↔
      x ∈ kids a ∨ x ∈ a :: queue ++ seen := by
    intro x
    simp only [List.mem_append, List.mem_reverse, List.mem_cons]
    tauto
  have hold : ∀ x ∈ a :: queue ++ seen, x ∉ kids a := fun x =>
    h.not_mem_kids hforest List.mem_cons_self
  refine ⟨?_, fun x hx => ?_, fun x hx => ?_, fun x hx => ?_, fun b hb c hc => ?_, ?_⟩
  · rw [List.append_assoc, List.nodup_append]
    refine ⟨List.nodup_reverse.mpr (hforest.nodup a), ?_, fun x hx y hy hxy => ?_⟩
    · exact List.perm_middle.nodup_iff.mpr h.nodup
    · rw [List.mem_reverse, hxy] at hx
      exact hold y (List.perm_middle.mem_iff.mp hy) hx
  · rcases (hmem x).mp hx with hx | hx
    · exact hnodes x hx
    · exact h.nodes x hx
  · rcases (hmem x).mp hx with hx | hx
    · exact (h.below a List.mem_cons_self).tail hx
    · exact h.below x hx
  · rcases (hmem x).mp hx with hx | hx
    · exact .inr ⟨a, List.mem_cons_self, hx⟩
    · refine (h.parent x hx).imp_right fun ⟨b, hb, hxb⟩ => ?_
      exact ⟨b, List.mem_cons_of_mem a hb, hxb⟩
  · rcases List.mem_cons.mp hb with rfl | hb
    · exact (hmem c).mpr (.inl hc)
    · exact (hmem c).mpr (.inr (h.closed b hb c hc))
  · exact (hmem root).mpr (.inr h.root)

/-- With an empty queue everything below the root has been seen. -/
theorem mem_iff (h : Sweeping kids nodes root [] seen) : x ∈ seen ↔ Below kids root x := by
  refine ⟨h.below x, fun hbelow => ?_⟩
  induction hbelow with
  | refl => exact h.root
  | tail _ hchild ih => exact h.closed _ ih _ hchild

variable [DecidableEq α]

theorem mem_sweep (h : Sweeping kids nodes root queue seen) (hforest : Forest kids rank bound)
    (hnodes : ∀ a ∈ nodes, ∀ c ∈ kids a, c ∈ nodes) (hn : nodes.length ≤ n + seen.length) :
    x ∈ sweep kids n queue seen ↔ Below kids root x := by
  induction n generalizing queue seen with
  | zero =>
    have hlength : (queue ++ seen).length ≤ nodes.length :=
      (h.nodup.subperm h.nodes).length_le
    rw [List.length_append] at hlength
    have hqueue : queue = [] := List.length_eq_zero_iff.mp (by omega)
    subst hqueue
    exact h.mem_iff
  | succ n ih =>
    cases queue with
    | nil => exact h.mem_iff
    | cons a queue =>
      have ha : a ∉ seen := List.disjoint_of_nodup_append h.nodup List.mem_cons_self
      have hnext := h.next hforest (hnodes a (h.nodes a List.mem_cons_self))
      rw [sweep, if_neg ha]
      exact ih hnext (by rw [List.length_cons]; omega)

end Sweeping

end Agyn
