import Mathlib.Data.List.Nodup
import Mathlib.Data.List.Induction

/-!
Bounded caches as lists of entries, the most recently used one first. A get or a set moves its key
to the front, and a key that is one too many takes the place of the last one. Both the order and
the values are those of the operations made, so that a cache can be told from its history.
-/
namespace Agyn.Recency

variable {κ ν : Type*} [DecidableEq κ]

inductive Op (κ ν : Type*) where
  | get (key : κ)
  | set (key : κ) (value : ν)
  | has (key : κ)
  | delete (key : κ)
  | clear

inductive Answer (ν : Type*) where
  | value (value : Option ν)
  | flag (flag : Bool)
  | done
  deriving DecidableEq

abbrev Entries (κ ν : Type*) := List (κ × ν)

def Entries.keys (xs : Entries κ ν) : List κ := xs.map Prod.fst

def Entries.erase (xs : Entries κ ν) (k : κ) : Entries κ ν := xs.filter fun e => e.1 ≠ k

variable {cap : ℕ} {xs : Entries κ ν} {k : κ} {v : ν} {op : Op κ ν} {ops : List (Op κ ν)}

def step (cap : ℕ) (xs : Entries κ ν) : Op κ ν → Entries κ ν × Answer ν
  | .get k =>
    match xs.lookup k with
    | some v => ((k, v) :: xs.erase k, .value (some v))
    | none => (xs, .value none)
  | .set k v =>
    if k ∈ xs.keys then ((k, v) :: xs.erase k, .done)
    else (((k, v) :: xs).take cap, .done)
  | .has k => (xs, .flag (k ∈ xs.keys))
  | .delete k => (xs.erase k, .flag (k ∈ xs.keys))
  | .clear => ([], .done)

/-- The entries after some operations, and the answer of each. -/
def execute (cap : ℕ) : Entries κ ν → List (Op κ ν) → Entries κ ν × List (Answer ν)
  | xs, [] => (xs, [])
  | xs, op :: ops =>
    let next := step cap xs op
    let rest := execute cap next.1 ops
    (rest.1, next.2 :: rest.2)

theorem execute_append (ops ops' : List (Op κ ν)) :
    (execute cap xs (ops ++ ops')).1 = (execute cap (execute cap xs ops).1 ops').1 := by
  induction ops generalizing xs with
  | nil => rfl
  | cons op ops ih => exact ih

theorem execute_snoc : (execute cap xs (ops ++ [op])).1 = (step cap (execute cap xs ops).1 op).1 :=
  execute_append ops [op]

theorem erase_sublist (xs : Entries κ ν) (k : κ) : (xs.erase k).Sublist xs := List.filter_sublist

theorem not_mem_keys_erase (xs : Entries κ ν) (k : κ) : k ∉ (xs.erase k).keys := by
  simp [Entries.keys, Entries.erase]

theorem erase_eq_self (h : k ∉ xs.keys) : xs.erase k = xs := by
  refine List.filter_eq_self.mpr fun e he => ?_
  have hne : e.1 ≠ k := fun heq => h (heq ▸ List.mem_map_of_mem he)
  simpa using hne

/-- A key is looked up and erased where it stands. -/
theorem lookup_erase_of_split {pre post : Entries κ ν}
    (hnodup : (Entries.keys (pre ++ (k, v) :: post)).Nodup) :
    (pre ++ (k, v) :: post).lookup k = some v ∧
      Entries.erase (pre ++ (k, v) :: post) k = pre ++ post := by
  have hkeys : (pre.map Prod.fst ++ k :: post.map Prod.fst).Nodup := by
    simpa [Entries.keys] using hnodup
  obtain ⟨-, hpost, hapart⟩ := List.nodup_append.mp hkeys
  have hpre : k ∉ Entries.keys pre := fun hmem => hapart k hmem k List.mem_cons_self rfl
  have hpost : k ∉ Entries.keys post := (List.nodup_cons.mp hpost).1
  refine ⟨List.lookup_eq_some_iff.mpr ⟨pre, post, rfl, fun e he => ?_⟩, ?_⟩
  · have hne : e.1 ≠ k := fun heq => hpre (heq ▸ List.mem_map_of_mem he)
    simpa using hne.symm
  · have heq : Entries.erase (pre ++ (k, v) :: post) k =
        Entries.erase pre k ++ Entries.erase post k := by
      simp [Entries.erase]
    rw [heq, erase_eq_self hpre, erase_eq_self hpost]

theorem split_of_mem (hnodup : xs.keys.Nodup) (hk : k ∈ xs.keys) :
    ∃ pre v post, xs = pre ++ (k, v) :: post ∧ xs.lookup k = some v ∧
      xs.erase k = pre ++ post := by
  obtain ⟨⟨k', v⟩, he, rfl⟩ := List.mem_map.mp hk
  obtain ⟨pre, post, rfl⟩ := List.append_of_mem he
  exact ⟨pre, v, post, rfl, lookup_erase_of_split hnodup⟩

theorem lookup_of_not_mem (h : k ∉ xs.keys) : xs.lookup k = none := by
  refine List.lookup_eq_none_iff.mpr fun e he => ?_
  have hne : e.1 ≠ k := fun heq => h (heq ▸ List.mem_map_of_mem he)
  simpa using hne.symm

theorem length_step (hnodup : xs.keys.Nodup) (h : xs.length ≤ cap) (op : Op κ ν) :
    (step cap xs op).1.length ≤ cap := by
  have hmoved : ∀ {k}, k ∈ xs.keys → ∀ v, ((k, v) :: xs.erase k).length ≤ cap := by
    intro k hk v
    obtain ⟨pre, v', post, hxs, -, herase⟩ := split_of_mem hnodup hk
    have hlength : xs.length = pre.length + post.length + 1 := by
      rw [hxs, List.length_append, List.length_cons, Nat.add_assoc]
    rw [herase, List.length_cons, List.length_append]
    omega
  cases op with
  | get k =>
    by_cases hk : k ∈ xs.keys
    · obtain ⟨-, v, -, -, hlookup, -⟩ := split_of_mem hnodup hk
      simpa only [step, hlookup] using hmoved hk v
    · simpa only [step, lookup_of_not_mem hk] using h
  | set k v =>
    by_cases hk : k ∈ xs.keys
    · simpa only [step, if_pos hk] using hmoved hk v
    · simpa only [step, if_neg hk] using List.length_take_le _ _
  | has k => exact h
  | delete k => exact Nat.le_trans (erase_sublist xs k).length_le h
  | clear => exact Nat.zero_le _

namespace Op

def uses (k : κ) : Op κ ν → Bool
  | .get k' => k' = k
  | .set k' _ => k' = k
  | _ => false

def assigns (k : κ) : Op κ ν → Option ν
  | .set k' v => if k' = k then some v else none
  | _ => none

theorem assigns_of_not_uses (h : op.uses k = false) : op.assigns k = none := by
  cases op <;> simp_all [uses, assigns]

end Op

/-- The entries agree with the operations made, the last one first: keys in the order of their last
uses, each with the value set last. -/
structure Follows (history : List (Op κ ν)) (xs : Entries κ ν) : Prop where
  order : xs.keys.Pairwise fun k k' =>
    history.findIdx (Op.uses k) < history.findIdx (Op.uses k')
  values : ∀ e ∈ xs, history.findSome? (Op.assigns e.1) = some e.2

namespace Follows

variable {history : List (Op κ ν)} {xs' : Entries κ ν}

theorem nodup (h : Follows history xs) : xs.keys.Nodup :=
  h.order.imp fun hlt heq => by simp [heq] at hlt

theorem sublist (h : Follows history xs) (hsub : xs'.Sublist xs) : Follows history xs' :=
  ⟨h.order.sublist (hsub.map Prod.fst), fun e he => h.values e (hsub.subset he)⟩

theorem findIdx_of_other (h : op.uses k = false) :
    (op :: history).findIdx (Op.uses k) = history.findIdx (Op.uses k) + 1 := by
  rw [List.findIdx_cons, h]
  rfl

/-- An operation that uses none of the keys changes nothing. -/
theorem other (h : Follows history xs) (hop : ∀ k ∈ xs.keys, op.uses k = false) :
    Follows (op :: history) xs := by
  refine ⟨h.order.imp_of_mem fun hk hk' hlt => ?_, fun e he => ?_⟩
  · rw [findIdx_of_other (hop _ hk), findIdx_of_other (hop _ hk')]
    omega
  · rw [List.findSome?_cons, Op.assigns_of_not_uses (hop e.1 (List.mem_map_of_mem he))]
    exact h.values e he

/-- A key that is used comes before all others. -/
theorem front (h : Follows history xs) (hk : k ∉ xs.keys) (huses : op.uses k = true)
    (hother : ∀ k', k' ≠ k → op.uses k' = false)
    (hvalue : (op :: history).findSome? (Op.assigns k) = some v) :
    Follows (op :: history) ((k, v) :: xs) := by
  have hothers : ∀ k' ∈ xs.keys, op.uses k' = false := fun k' hk' =>
    hother k' fun heq => hk (heq ▸ hk')
  have hrest : Follows (op :: history) xs := h.other hothers
  refine ⟨List.pairwise_cons.mpr ⟨fun k' hk' => ?_, hrest.order⟩,
    List.forall_mem_cons.mpr ⟨hvalue, hrest.values⟩⟩
  rw [findIdx_of_other (hothers k' hk'), List.findIdx_cons, huses]
  exact Nat.succ_pos _

theorem step (h : Follows history xs) (cap : ℕ) (op : Op κ ν) :
    Follows (op :: history) (step cap xs op).1 := by
  have herase : ∀ k, Follows history (xs.erase k) := fun k => h.sublist (erase_sublist xs k)
  cases op with
  | get k =>
    by_cases hk : k ∈ xs.keys
    · obtain ⟨pre, v, post, hxs, hlookup, -⟩ := split_of_mem h.nodup hk
      have hvalue := h.values (k, v) (hxs ▸ by simp)
      simp only [Recency.step, hlookup]
      exact (herase k).front (not_mem_keys_erase xs k) (by simp [Op.uses])
        (fun k' hne => by simpa [Op.uses] using hne.symm) hvalue
    · simp only [Recency.step, lookup_of_not_mem hk]
      refine h.other fun k' hk' => ?_
      have hne : k ≠ k' := fun heq => hk (heq ▸ hk')
      simpa [Op.uses] using hne
  | set k v =>
    have hother : ∀ k', k' ≠ k → (Op.set k v).uses k' = false := fun k' hne => by
      simpa [Op.uses] using hne.symm
    have hvalue : (Op.set k v :: history).findSome? (Op.assigns k) = some v := by
      simp [Op.assigns]
    by_cases hk : k ∈ xs.keys
    · simp only [Recency.step, if_pos hk]
      exact (herase k).front (not_mem_keys_erase xs k) (by simp [Op.uses]) hother hvalue
    · simp only [Recency.step, if_neg hk]
      exact (h.front hk (by simp [Op.uses]) hother hvalue).sublist (List.take_sublist _ _)
  | has k => exact h.other fun _ _ => rfl
  | delete k => exact (herase k).other fun _ _ => rfl
  | clear => exact ⟨List.Pairwise.nil, fun _ he => absurd he List.not_mem_nil⟩

end Follows

/-- Entries follow the operations that they come from. -/
theorem follows_execute (cap : ℕ) (ops : List (Op κ ν)) :
    Follows ops.reverse (execute cap [] ops).1 := by
  induction ops using List.reverseRecOn with
  | nil => exact ⟨List.Pairwise.nil, fun _ he => absurd he List.not_mem_nil⟩
  | append_singleton ops op ih =>
    rw [execute_snoc, List.reverse_append]
    exact ih.step cap op

/-- A key that is one too many takes the place of the key used least recently. -/
theorem step_set_of_not_mem (hk : k ∉ xs.keys) (hcap : 1 ≤ cap) (h : xs.length ≤ cap) (v : ν) :
    (step cap xs (.set k v)).1 = (k, v) :: if xs.length < cap then xs else xs.dropLast := by
  have hset : (step cap xs (.set k v)).1 = ((k, v) :: xs).take cap := by
    rw [step, if_neg hk]
  obtain ⟨cap, rfl⟩ := Nat.exists_eq_add_of_le' hcap
  rw [hset, List.take_succ_cons]
  split_ifs with hlt
  · rw [List.take_of_length_le (by omega)]
  · rw [List.dropLast_eq_take, show xs.length = cap + 1 by omega]
    rfl

end Agyn.Recency
