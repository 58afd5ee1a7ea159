import Mathlib.Algebra.Order.BigOperators.Group.List
import Mathlib.Algebra.Order.Group.Nat
import Agyn.Forests
import Agyn.MemoryTree

/-!
Subtrees of a memory table in which a row has its parent before it and in its scope: deleting a
subtree removes the rows below one row of a scope, or all rows of the scope, and no others.
-/
namespace Agyn.Memory

open EntityTable

/-- Ids are different, and a parent stands before its children in the same scope. -/
structure Rooted (rows : List MemoryEntity) : Prop where
  ids : rows.Pairwise (·.id ≠ ·.id)
  order : rows.Pairwise fun a b => a.parentId ≠ some b.id
  parents : ∀ row ∈ rows, ∀ p, row.parentId = some p →
    ∃ parent ∈ rows, parent.id = p ∧ p < row.id ∧ parent.scope = row.scope

section Rows

variable {rows xs ys : List MemoryEntity} {row new : MemoryEntity}

/-- The columns of a row that no write changes. -/
def shape (row : MemoryEntity) : ℕ × Option ℕ × RepoFilter := (row.id, row.parentId, row.scope)

theorem rooted_nil : Rooted [] := ⟨.nil, .nil, by simp⟩

theorem Rooted.of_shape (h : Rooted xs) (hshape : ys.map shape = xs.map shape) : Rooted ys := by
  have hpairs : ∀ {R : ℕ × Option ℕ × RepoFilter → ℕ × Option ℕ × RepoFilter → Prop},
      xs.Pairwise (fun a b => R (shape a) (shape b)) →
        ys.Pairwise fun a b => R (shape a) (shape b) := by
    intro R hR
    rw [← List.pairwise_map (f := shape)] at hR ⊢
    rwa [hshape]
  have hmem : ∀ {a}, a ∈ ys → ∃ b ∈ xs, shape b = shape a := fun ha =>
    List.mem_map.mp (hshape ▸ List.mem_map_of_mem ha)
  have hmem' : ∀ {a}, a ∈ xs → ∃ b ∈ ys, shape b = shape a := fun ha =>
    List.mem_map.mp (hshape ▸ List.mem_map_of_mem ha)
  refine ⟨hpairs (R := fun a b => a.1 ≠ b.1) h.ids,
    hpairs (R := fun a b => a.2.1 ≠ some b.1) h.order, fun row hrow p hp => ?_⟩
  obtain ⟨old, hold, heq⟩ := hmem hrow
  simp only [shape, Prod.mk.injEq] at heq
  obtain ⟨hid, hparent, hscope⟩ := heq
  obtain ⟨parent, hpmem, rfl, hlt, hsame⟩ := h.parents old hold p (hparent.trans hp)
  obtain ⟨parent', hpmem', heq⟩ := hmem' hpmem
  simp only [shape, Prod.mk.injEq] at heq
  exact ⟨parent', hpmem', heq.1, hid ▸ hlt, heq.2.2.trans (hsame.trans hscope)⟩

/-- A new row below a row that is there. -/
theorem Rooted.concat (h : Rooted rows) (hnew : ∀ row ∈ rows, row.id < new.id)
    (hparent : ∀ p, new.parentId = some p →
      ∃ parent ∈ rows, parent.id = p ∧ parent.scope = new.scope) :
    Rooted (rows ++ [new]) := by
  refine ⟨?_, ?_, fun row hrow p hp => ?_⟩
  · rw [List.pairwise_append]
    refine ⟨h.ids, List.pairwise_singleton _ _, fun row hrow b hb => ?_⟩
    rw [List.mem_singleton.mp hb]
    exact Nat.ne_of_lt (hnew row hrow)
  · rw [List.pairwise_append]
    refine ⟨h.order, List.pairwise_singleton _ _, fun row hrow b hb hp => ?_⟩
    rw [List.mem_singleton.mp hb] at hp
    obtain ⟨-, -, -, hlt, -⟩ := h.parents row hrow _ hp
    exact absurd hlt (Nat.lt_asymm (hnew row hrow))
  · obtain hrow | hrow := List.mem_append.mp hrow
    · obtain ⟨parent, hmem, hrest⟩ := h.parents row hrow p hp
      exact ⟨parent, List.mem_append_left _ hmem, hrest⟩
    · rw [List.mem_singleton.mp hrow] at hp ⊢
      obtain ⟨parent, hmem, rfl, hscope⟩ := hparent p hp
      exact ⟨parent, List.mem_append_left _ hmem, rfl, hnew parent hmem, hscope⟩

/-- Two transactions that are rooted in the same rows are so one after the other. -/
theorem Rooted.join (hxs : Rooted (rows ++ xs)) (hys : Rooted (rows ++ ys))
    (hids : (rows ++ xs ++ ys).Pairwise (·.id ≠ ·.id)) : Rooted (rows ++ xs ++ ys) := by
  refine ⟨hids, ?_, fun row hrow p hp => ?_⟩
  · have horder := List.pairwise_append.mp hys.order
    rw [List.pairwise_append]
    refine ⟨hxs.order, horder.2.1, fun a ha b hb hp => ?_⟩
    obtain ⟨parent, hmem, hid, -⟩ := hxs.parents a ha _ hp
    exact (List.pairwise_append.mp hids).2.2 parent hmem b hb hid
  · obtain hrow | hrow := List.mem_append.mp hrow
    · obtain ⟨parent, hmem, hrest⟩ := hxs.parents row hrow p hp
      exact ⟨parent, List.mem_append_left _ hmem, hrest⟩
    · obtain ⟨parent, hmem, hrest⟩ := hys.parents row (List.mem_append_right _ hrow) p hp
      refine ⟨parent, ?_, hrest⟩
      obtain hmem | hmem := List.mem_append.mp hmem
      · exact List.mem_append_left _ (List.mem_append_left _ hmem)
      · exact List.mem_append_right _ hmem

/-- Rows that stay are rooted, with the rows of a transaction that stand below none deleted. -/
theorem Rooted.cascade (h : Rooted (rows ++ xs)) {ids : List ℕ} (hrooted : Rooted rows)
    (hxs : ∀ row ∈ xs, ∀ gone ∈ rows, gone ∉ EntityTable.cascade ids rows →
      row.parentId ≠ some gone.id) :
    Rooted (EntityTable.cascade ids rows ++ xs) := by
  have hsub : (EntityTable.cascade ids rows ++ xs).Sublist (rows ++ xs) :=
    (cascade_sublist ids rows).append_right xs
  refine ⟨h.ids.sublist hsub, h.order.sublist hsub, fun row hrow p hp => ?_⟩
  obtain hrow | hrow := List.mem_append.mp hrow
  · obtain ⟨parent, hmem, rfl, hrest⟩ :=
      hrooted.parents row ((cascade_sublist ids rows).subset hrow) p hp
    exact ⟨parent, List.mem_append_left _ (parent_mem_cascade hrooted.order hrow hmem hp), rfl,
      hrest⟩
  · obtain ⟨parent, hmem, rfl, hrest⟩ := h.parents row (List.mem_append_right _ hrow) p hp
    refine ⟨parent, ?_, rfl, hrest⟩
    obtain hmem | hmem := List.mem_append.mp hmem
    · by_cases hkept : parent ∈ EntityTable.cascade ids rows
      · exact List.mem_append_left _ hkept
      · exact absurd hp (hxs row hrow parent hmem hkept)
    · exact List.mem_append_right _ hmem

end Rows

/-- The rows that a call on a path is about: all rows of the scope, or those below a row of it. -/
def InSubtree (t : EntityTable) (filter : RepoFilter) (top : Option ℕ) (row : MemoryEntity) :
    Prop :=
  row.scope = filter ∧
    ∀ id, top = some id → Below (childrenByParent (t.listAll filter)) id row.id

/-- `n` rows are removed, those of one kind; the others are left as they are. -/
structure Removes (t t' : EntityTable) (n : ℕ) (gone : MemoryEntity → Prop) : Prop where
  kept : t'.rows.Sublist t.rows
  mem : ∀ row ∈ t.rows, row ∈ t'.rows ↔ ¬gone row
  count : t'.rows.length + n = t.rows.length
  nextId : t'.nextId = t.nextId

section Subtrees

variable {rows nodes : List MemoryEntity} {row row' : MemoryEntity} {filter : RepoFilter}
  {t : EntityTable} {id : ℕ}

theorem Rooted.nodup_ids (h : Rooted rows) : (rows.map (·.id)).Nodup := List.pairwise_map.mpr h.ids

theorem Rooted.row_eq (h : Rooted rows) (hrow : row ∈ rows) (hrow' : row' ∈ rows)
    (hid : row.id = row'.id) : row = row' :=
  List.inj_on_of_nodup_map h.nodup_ids hrow hrow' hid

theorem mem_childrenByParent {c : ℕ} :
    c ∈ childrenByParent nodes id ↔ ∃ row ∈ nodes, row.parentId = some id ∧ row.id = c := by
  simp [childrenByParent, and_assoc]

/-- The rows of a scope are a forest, ranked by their ids. -/
theorem Rooted.forest (h : Rooted rows) (hsub : nodes.Sublist rows) :
    ∃ rank bound, Forest (childrenByParent nodes) rank bound := by
  obtain ⟨bound, hbound⟩ : ∃ bound, ∀ row ∈ rows, row.id ≤ bound :=
    ⟨(rows.map (·.id)).sum, fun row hrow => List.le_sum_of_mem (List.mem_map_of_mem hrow)⟩
  refine ⟨fun a => min a bound, bound, ⟨fun a => ?_, fun {a b c} ha hb => ?_, fun {a c} hc => ?_,
    fun a => Nat.min_le_right a bound⟩⟩
  · have hsublist : (nodes.filter (·.parentId = some a)).Sublist rows :=
      List.filter_sublist.trans hsub
    exact h.nodup_ids.sublist (hsublist.map _)
  · obtain ⟨row, hrow, hparent, hid⟩ := mem_childrenByParent.mp ha
    obtain ⟨row', hrow', hparent', hid'⟩ := mem_childrenByParent.mp hb
    have heq := h.row_eq (hsub.subset hrow) (hsub.subset hrow') (hid.trans hid'.symm)
    rw [heq, hparent'] at hparent
    exact (Option.some.inj hparent).symm
  · obtain ⟨row, hrow, hparent, rfl⟩ := mem_childrenByParent.mp hc
    obtain ⟨-, -, -, hlt, -⟩ := h.parents row (hsub.subset hrow) a hparent
    have hle := hbound row (hsub.subset hrow)
    show min a bound < min row.id bound
    omega

/-- The loop of `deleteSubtree` is a search of the children of each row. -/
theorem collect_eq_sweep (fuel : ℕ) (queue seen : List ℕ) :
    collect nodes fuel queue seen = sweep (childrenByParent nodes) fuel queue seen := by
  induction fuel generalizing queue seen with
  | zero => cases queue <;> rfl
  | succ fuel ih =>
    cases queue with
    | nil => rfl
    | cons a queue => rw [collect, sweep, ih, ih]

theorem Rooted.mem_collect (h : Rooted rows) (hsub : nodes.Sublist rows) (hrow : row ∈ nodes)
    {x : ℕ} :
    x ∈ collect nodes (nodes.length + 1) [row.id] [] ↔
      Below (childrenByParent nodes) row.id x := by
  obtain ⟨rank, bound, hforest⟩ := h.forest hsub
  have hstart : Sweeping (childrenByParent nodes) (nodes.map (·.id)) row.id [row.id] [] :=
    .start (List.mem_map_of_mem hrow)
  rw [collect_eq_sweep]
  refine hstart.mem_sweep hforest (fun a _ c hc => ?_) (by simp)
  obtain ⟨child, hchild, -, rfl⟩ := mem_childrenByParent.mp hc
  exact List.mem_map_of_mem hchild

/-- Nothing goes with its parent where the children of the rows to delete are among them. -/
theorem cascade_eq_filter {gone : List ℕ}
    (hclosed : ∀ row ∈ rows, ∀ p ∈ gone, row.parentId = some p → row.id ∈ gone) :
    cascade gone rows = rows.filter (·.id ∉ gone) := by
  suffices hgone : ∀ gone', (∀ x, x ∈ gone' ↔ x ∈ gone) →
      cascade gone' rows = rows.filter (·.id ∉ gone) from hgone gone fun _ => Iff.rfl
  induction rows with
  | nil => exact fun _ _ => rfl
  | cons row rows ih =>
    intro gone' hsame
    have ih := ih fun row hrow => hclosed row (List.mem_cons_of_mem _ hrow)
    have hiff : (row.id ∈ gone' ∨ row.parentId ∈ gone'.map some) ↔ row.id ∈ gone := by
      rw [hsame, or_iff_left_iff_imp, List.mem_map]
      rintro ⟨p, hp, hparent⟩
      exact hclosed row List.mem_cons_self p ((hsame p).mp hp) hparent.symm
    rw [cascade, if_congr hiff rfl rfl]
    by_cases hid : row.id ∈ gone
    · rw [if_pos hid, List.filter_cons_of_neg (by simpa using hid)]
      refine ih _ fun x => ?_
      rw [List.mem_cons, hsame, or_iff_right_iff_imp]
      exact fun hx => hx ▸ hid
    · rw [if_neg hid, List.filter_cons_of_pos (by simpa using hid), ih gone' hsame]

/-- What is left when the rows of some ids are deleted that have all their children among them. -/
theorem removes_deleteMany {ids : List ℕ} {gone : MemoryEntity → Prop}
    (hids : ∀ row ∈ t.rows, row.id ∈ ids ↔ gone row)
    (hclosed : ∀ row ∈ t.rows, ∀ p ∈ ids, row.parentId = some p → row.id ∈ ids) :
    Removes t (t.deleteMany ids).2 (t.deleteMany ids).1 gone := by
  have hrows : (t.deleteMany ids).2.rows = t.rows.filter (·.id ∉ ids) := cascade_eq_filter hclosed
  refine ⟨hrows ▸ List.filter_sublist, fun row hrow => ?_, ?_, rfl⟩
  · rw [hrows, List.mem_filter, ← hids row hrow, decide_eq_true_eq]
    exact and_iff_right hrow
  · rw [hrows, deleteMany, Nat.add_comm, ← List.countP_eq_length_filter,
      ← List.countP_eq_length_filter, List.length_eq_countP_add_countP (·.id ∈ ids)]
    simp

theorem listAll_sublist : (t.listAll filter).Sublist t.rows := List.filter_sublist

theorem Rooted.scope_of_below (h : Rooted t.rows) {entity : MemoryEntity}
    (hentity : entity ∈ t.listAll filter) (hrow : row ∈ t.rows)
    (hbelow : Below (childrenByParent (t.listAll filter)) entity.id row.id) :
    row.scope = filter := by
  have hlisted : ∀ row' ∈ t.listAll filter, row'.id = row.id → row.scope = filter := by
    intro row' hrow' hid
    obtain ⟨hmem, hscope⟩ : row' ∈ t.rows ∧ row'.scope = filter := by
      simpa [listAll] using hrow'
    rwa [← h.row_eq hmem hrow hid]
  rcases hbelow.cases_tail with hid | ⟨_, -, hchild⟩
  · exact hlisted entity hentity hid.symm
  · obtain ⟨row', hrow', -, hid⟩ := mem_childrenByParent.mp hchild
    exact hlisted row' hrow' hid

/-- A subtree is removed as a whole, and nothing else. -/
theorem Rooted.removes_deleteSubtree (h : Rooted t.rows) {top : Option ℕ}
    (htop : ∀ id, top = some id → ∃ row ∈ t.listAll filter, row.id = id) :
    Removes t (t.deleteSubtree filter top).2 (t.deleteSubtree filter top).1
      (InSubtree t filter top) := by
  cases top with
  | none =>
    have hids : ∀ row ∈ t.rows,
        row.id ∈ (t.listAll filter).map (·.id) ↔ row.scope = filter := by
      intro row hrow
      rw [List.mem_map]
      refine ⟨?_, fun hscope => ⟨row, by simpa [listAll] using ⟨hrow, hscope⟩, rfl⟩⟩
      rintro ⟨row', hrow', hid⟩
      obtain ⟨hmem, hscope⟩ : row' ∈ t.rows ∧ row'.scope = filter := by
        simpa [listAll] using hrow'
      rwa [← h.row_eq hmem hrow hid]
    refine removes_deleteMany (fun row hrow => ?_) fun row hrow p hp hparent => ?_
    · rw [hids row hrow]
      simp [InSubtree]
    · obtain ⟨parent, hmem, rfl, -, hscope⟩ := h.parents row hrow p hparent
      exact (hids row hrow).mpr (hscope ▸ (hids parent hmem).mp hp)
  | some id =>
    obtain ⟨entity, hentity, rfl⟩ := htop id rfl
    have hlength : (t.listAll filter).length ≠ 0 :=
      Nat.ne_of_gt (List.length_pos_of_mem hentity)
    unfold deleteSubtree
    dsimp only
    rw [if_neg hlength]
    have hcollect : ∀ {x}, x ∈ collect (t.listAll filter) ((t.listAll filter).length + 1)
        [entity.id] [] ↔ Below (childrenByParent (t.listAll filter)) entity.id x :=
      h.mem_collect listAll_sublist hentity
    have hscope : ∀ row ∈ t.rows,
        Below (childrenByParent (t.listAll filter)) entity.id row.id → row.scope = filter :=
      fun row hrow => h.scope_of_below hentity hrow
    refine removes_deleteMany (fun row hrow => ?_) fun row hrow p hp hparent => ?_
    · rw [hcollect, InSubtree]
      simpa using hscope row hrow
    · obtain ⟨parent, hmem, rfl, -, hsame⟩ := h.parents row hrow p hparent
      have hbelow := hcollect.mp hp
      have hlisted : row ∈ t.listAll filter := by
        simpa [listAll] using ⟨hrow, hsame ▸ hscope parent hmem hbelow⟩
      exact hcollect.mpr (hbelow.tail (mem_childrenByParent.mpr ⟨row, hlisted, hparent, rfl⟩))

end Subtrees

end Agyn.Memory
