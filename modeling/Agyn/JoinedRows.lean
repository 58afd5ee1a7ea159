import Mathlib.Algebra.Order.BigOperators.Group.List
import Mathlib.Algebra.Order.Ring.Nat
import Agyn.Forests

/-!
Queries over rows. A left join keeps each row at least once and repeats it for every match, so that
counts over joined rows are sums of products. A recursive query with `union all` collects what is
below its first rows, level by level.
-/
namespace Agyn.JoinedRows

variable {α β κ : Type}

/-- Two sums of which one is above the other term by term. -/
theorem sum_eq_iff_of_le {f g : α → ℕ} {xs : List α} (h : ∀ a ∈ xs, f a ≤ g a) :
    (xs.map f).sum = (xs.map g).sum ↔ ∀ a ∈ xs, f a = g a := by
  induction xs with
  | nil => simp
  | cons a xs ih =>
    obtain ⟨ha, hrest⟩ := List.forall_mem_cons.mp h
    have hsum : (xs.map f).sum ≤ (xs.map g).sum := List.sum_le_sum hrest
    rw [List.forall_mem_cons, ← ih hrest]
    simp only [List.map_cons, List.sum_cons]
    omega

/-- The rows whose key is in a list, counted key by key. -/
theorem sum_matching [DecidableEq κ] {keys : List κ} (h : keys.Nodup) (ys : List β)
    (key : β → Option κ) :
    (keys.map fun k => ys.countP fun b => key b = some k).sum =
      ys.countP fun b => (key b).any (· ∈ keys) := by
  induction keys with
  | nil => simp
  | cons k keys ih =>
    obtain ⟨hk, hrest⟩ := List.nodup_cons.mp h
    rw [List.map_cons, List.sum_cons, ih hrest]
    clear ih
    induction ys with
    | nil => rfl
    | cons b ys ihys =>
      simp only [List.countP_cons]
      have hcase : (if decide (key b = some k) = true then 1 else 0) +
          (if (key b).any (· ∈ keys) = true then 1 else 0) =
          if (key b).any (· ∈ k :: keys) = true then 1 else 0 := by
        cases hkey : key b with
        | none => simp
        | some k' =>
          by_cases heq : k' = k
          · simp [heq, hk]
          · simp [heq]
      omega

def leftJoin (xs : List α) (ys : List β) (on : α → β → Bool) : List (α × Option β) :=
  xs.flatMap fun a =>
    match ys.filter (on a) with
    | [] => [(a, none)]
    | b :: matching => (b :: matching).map fun b => (a, some b)

variable {xs : List α} {ys : List β} {on : α → β → Bool}

theorem leftJoin_cons (a : α) (xs : List α) : leftJoin (a :: xs) ys on =
    leftJoin [a] ys on ++ leftJoin xs ys on := by
  simp [leftJoin]

theorem leftJoin_singleton (a : α) : leftJoin [a] ys on =
    if ys.filter (on a) = [] then [(a, none)]
    else (ys.filter (on a)).map fun b => (a, some b) := by
  unfold leftJoin
  cases hmatching : ys.filter (on a) <;> simp [hmatching]

/-- What is asked of the first rows may be asked before the join. -/
theorem filter_leftJoin (p : α → Bool) :
    (leftJoin xs ys on).filter (fun r => p r.1) = leftJoin (xs.filter p) ys on := by
  induction xs with
  | nil => rfl
  | cons a xs ih =>
    rw [leftJoin_cons, List.filter_append, ih, leftJoin_singleton]
    by_cases hp : p a = true
    · rw [List.filter_cons_of_pos hp, leftJoin_cons a (xs.filter p), leftJoin_singleton]
      split_ifs <;> simp [hp, List.filter_map, Function.comp_def]
    · rw [List.filter_cons_of_neg hp]
      split_ifs <;> simp [hp, List.filter_map, Function.comp_def]

/-- A row is repeated for each match, and stays once without any. -/
theorem sum_leftJoin (f : α → ℕ) : ((leftJoin xs ys on).map fun r => f r.1).sum =
    (xs.map fun a => max 1 (ys.countP (on a)) * f a).sum := by
  induction xs with
  | nil => rfl
  | cons a xs ih =>
    rw [leftJoin_cons, List.map_append, List.sum_append, ih, List.map_cons, List.sum_cons,
      leftJoin_singleton, List.countP_eq_length_filter]
    congr 1
    split_ifs with hnone
    · simp [hnone]
    · have hpos := List.length_pos_iff.mpr hnone
      simp only [List.map_map, Function.comp_def, List.map_const',
        List.sum_replicate_nat]
      rw [max_eq_right hpos]

/-- The rows with a match. -/
theorem sum_leftJoin_some (f : α → ℕ) :
    (((leftJoin xs ys on).filter fun r => r.2.isSome).map fun r => f r.1).sum =
      (xs.map fun a => ys.countP (on a) * f a).sum := by
  induction xs with
  | nil => rfl
  | cons a xs ih =>
    rw [leftJoin_cons, List.filter_append, List.map_append, List.sum_append, ih, List.map_cons,
      List.sum_cons, leftJoin_singleton, List.countP_eq_length_filter]
    congr 1
    split_ifs with hnone
    · simp [hnone]
    · simp [List.filter_map, Function.comp_def]

theorem length_leftJoin : (leftJoin xs ys on).length =
    (xs.map fun a => max 1 (ys.countP (on a))).sum := by
  have hsum : ((leftJoin xs ys on).map fun _ => 1).sum = _ := sum_leftJoin fun _ => 1
  simpa using hsum

theorem length_leftJoin_some : ((leftJoin xs ys on).filter fun r => r.2.isSome).length =
    (xs.map fun a => ys.countP (on a)).sum := by
  have hsum : (((leftJoin xs ys on).filter fun r => r.2.isSome).map fun _ => 1).sum = _ :=
    sum_leftJoin_some fun _ => 1
  simpa using hsum

theorem exists_leftJoin (p : α → Prop) :
    (∃ r ∈ leftJoin xs ys on, p r.1) ↔ ∃ a ∈ xs, p a := by
  induction xs with
  | nil => simp [leftJoin]
  | cons a xs ih =>
    have hfirst : (∃ r ∈ leftJoin [a] ys on, p r.1) ↔ p a := by
      rw [leftJoin_singleton]
      split_ifs with hnone
      · simp
      · obtain ⟨b, hb⟩ := List.exists_mem_of_ne_nil _ hnone
        constructor
        · rintro ⟨r, hr, hp⟩
          obtain ⟨b, -, rfl⟩ := List.mem_map.mp hr
          exact hp
        · exact fun hp => ⟨(a, some b), List.mem_map_of_mem hb, hp⟩
    rw [leftJoin_cons, List.exists_mem_cons_iff, ← ih, ← hfirst]
    simp only [List.mem_append, or_and_right, exists_or]

theorem exists_leftJoin_some {p : α → Prop} :
    (∃ r ∈ leftJoin xs ys on, p r.1 ∧ r.2.isSome) ↔ ∃ a ∈ xs, p a ∧ ∃ b ∈ ys, on a b := by
  simp only [leftJoin, List.mem_flatMap]
  constructor
  · rintro ⟨r, ⟨a, ha, hr⟩, hp, hsome⟩
    cases hmatching : ys.filter (on a) with
    | nil =>
      rw [hmatching] at hr
      rw [List.mem_singleton.mp hr] at hsome
      exact absurd hsome nofun
    | cons b matching =>
      obtain ⟨hb, hon⟩ := List.mem_filter.mp (hmatching.symm ▸ List.mem_cons_self)
      rw [hmatching] at hr
      obtain ⟨b', -, rfl⟩ := List.mem_map.mp hr
      exact ⟨a, ha, hp, b, hb, hon⟩
  · rintro ⟨a, ha, hp, b, hb, hon⟩
    have hmem : b ∈ ys.filter (on a) := List.mem_filter.mpr ⟨hb, hon⟩
    refine ⟨(a, some b), ⟨a, ha, ?_⟩, hp, rfl⟩
    cases hmatching : ys.filter (on a) with
    | nil =>
      rw [hmatching] at hmem
      exact absurd hmem List.not_mem_nil
    | cons b' matching =>
      rw [hmatching] at hmem
      exact List.mem_map_of_mem hmem

/-- An inner join may run over either side first. -/
theorem join_perm {γ : Type} (xs : List α) (ys : List β) (p : α → β → Bool) (g : α → β → γ) :
    (xs.flatMap fun a => (ys.filter (p a)).map (g a)).Perm
      (ys.flatMap fun b => (xs.filter fun a => p a b).map fun a => g a b) := by
  induction xs with
  | nil => simp
  | cons a xs ih =>
    have hfirst : (ys.filter (p a)).map (g a) =
        ys.flatMap fun b => if p a b then [g a b] else [] := by
      clear ih
      induction ys with
      | nil => rfl
      | cons b ys ih =>
        rw [List.flatMap_cons, ← ih]
        by_cases hp : p a b <;> simp [hp]
    rw [List.flatMap_cons, hfirst]
    refine (ih.append_left _).trans ((List.flatMap_append_perm ys _ _).trans ?_)
    refine List.Perm.of_eq (List.flatMap_congr fun b _ => ?_)
    by_cases hp : p a b <;> simp [hp]

/-- A recursive query with `union all`, from the rows of its first part; it has no result when it
does not end with the fuel. -/
def unionAll (step : List α → List α) : ℕ → List α → Option (List α)
  | _, [] => some []
  | 0, _ :: _ => none
  | n + 1, a :: work => (unionAll step n (step (a :: work))).map (a :: work ++ ·)

variable {step : List α → List α} {kids : α → List α} {work rows : List α} {n : ℕ}

/-- The query collects what is below its first rows. -/
theorem perm_of_unionAll (hstep : ∀ work, (step work).Perm (work.flatMap kids))
    (h : unionAll step n work = some rows) : rows.Perm (work.flatMap (postOrder kids n)) := by
  induction n generalizing work rows with
  | zero =>
    cases work with
    | nil => exact Option.some.inj h ▸ List.Perm.refl _
    | cons a work => exact absurd h nofun
  | succ n ih =>
    cases work with
    | nil => exact Option.some.inj h ▸ List.Perm.refl _
    | cons a work =>
      obtain ⟨rest, hrest, rfl⟩ := Option.map_eq_some_iff.mp h
      have hbelow : rest.Perm (((a :: work).flatMap kids).flatMap (postOrder kids n)) :=
        (ih hrest).trans ((hstep _).flatMap_right _)
      rw [List.flatMap_assoc] at hbelow
      refine (hbelow.append_left (a :: work)).trans (List.perm_append_comm.trans ?_)
      have hlevels := List.flatMap_append_perm (a :: work)
        (fun a => (kids a).flatMap (postOrder kids n)) fun a => [a]
      rwa [List.flatMap_singleton'] at hlevels

/-- The result of the query has the first rows, and with each row the rows joined with it. -/
theorem closed_of_unionAll (hstep : ∀ work, (step work).Perm (work.flatMap kids))
    (h : unionAll step n work = some rows) :
    (∀ a ∈ work, a ∈ rows) ∧ ∀ a ∈ rows, ∀ c ∈ kids a, c ∈ rows := by
  induction n generalizing work rows with
  | zero =>
    cases work with
    | nil =>
      rw [← Option.some.inj h]
      exact ⟨fun _ ha => ha, fun _ ha => absurd ha List.not_mem_nil⟩
    | cons a work => exact absurd h.symm (Option.some_ne_none rows)
  | succ n ih =>
    cases work with
    | nil =>
      rw [← Option.some.inj h]
      exact ⟨fun _ ha => ha, fun _ ha => absurd ha List.not_mem_nil⟩
    | cons a work =>
      obtain ⟨rest, hrest, rfl⟩ := Option.map_eq_some_iff.mp h
      obtain ⟨hfirst, hclosed⟩ := ih hrest
      refine ⟨fun b hb => List.mem_append_left _ hb, fun b hb c hc => List.mem_append_right _ ?_⟩
      obtain hb | hb := List.mem_append.mp hb
      · exact hfirst c ((hstep _).mem_iff.mpr (List.mem_flatMap.mpr ⟨b, hb, hc⟩))
      · exact hclosed b hb c hc

/-- The result of the query has no row but the first rows and what is joined with them. -/
theorem forall_of_unionAll {P : α → Prop} (hstep : ∀ work, (step work).Perm (work.flatMap kids))
    (h : unionAll step n work = some rows) (hwork : ∀ a ∈ work, P a)
    (hkids : ∀ a, P a → ∀ c ∈ kids a, P c) : ∀ a ∈ rows, P a := by
  induction n generalizing work rows with
  | zero =>
    cases work with
    | nil => exact Option.some.inj h ▸ hwork
    | cons a work => exact absurd h.symm (Option.some_ne_none rows)
  | succ n ih =>
    cases work with
    | nil => exact Option.some.inj h ▸ hwork
    | cons a work =>
      obtain ⟨rest, hrest, rfl⟩ := Option.map_eq_some_iff.mp h
      have hnext : ∀ c ∈ step (a :: work), P c := by
        intro c hc
        obtain ⟨b, hb, hc⟩ := List.mem_flatMap.mp ((hstep _).mem_iff.mp hc)
        exact hkids b (hwork b hb) c hc
      intro b hb
      obtain hb | hb := List.mem_append.mp hb
      · exact hwork b hb
      · exact ih hrest hnext b hb

/-- The query ends when the rows have ranks. -/
theorem exists_unionAll (rank : α → ℕ) {bound : ℕ}
    (hstep : ∀ work, (step work).Perm (work.flatMap kids))
    (hrank : ∀ a, ∀ c ∈ kids a, rank a < rank c) (hbound : ∀ a, rank a ≤ bound)
    (h : ∀ a ∈ work, bound < n + rank a) : ∃ rows, unionAll step n work = some rows := by
  induction n generalizing work with
  | zero =>
    cases work with
    | nil => exact ⟨[], rfl⟩
    | cons a work =>
      have hdeep := h a List.mem_cons_self
      have hle := hbound a
      omega
  | succ n ih =>
    cases work with
    | nil => exact ⟨[], rfl⟩
    | cons a work =>
      have hdeep : ∀ c ∈ step (a :: work), bound < n + rank c := by
        intro c hc
        obtain ⟨b, hb, hc⟩ := List.mem_flatMap.mp ((hstep _).mem_iff.mp hc)
        have hlt := hrank b c hc
        have hdeep := h b hb
        omega
      obtain ⟨rows, hrows⟩ := ih hdeep
      rw [unionAll, hrows]
      exact ⟨_, rfl⟩

end Agyn.JoinedRows
