import Agyn.MemoryEntities

/-!
What the repository keeps of the table of entities: ids go up, parents stand before their children
in the same scope, and siblings have different names.
-/
namespace Agyn.Memory

namespace EntityTable

structure Wf (t : EntityTable) : Prop where
  ids : t.rows.Pairwise (·.id < ·.id)
  fresh : ∀ row ∈ t.rows, row.id < t.nextId
  parents : ∀ row ∈ t.rows, ∀ p, row.parentId = some p →
    ∃ parent ∈ t.rows, parent.id = p ∧ p < row.id ∧ parent.scope = row.scope
  siblings : ∀ row ∈ t.rows, ∀ row' ∈ t.rows, row.key = row'.key → row = row'

variable {t t' : EntityTable} {rows : List MemoryEntity} {row : MemoryEntity}
  {filter : RepoFilter} {parentId : Option ℕ} {segment : List Char} {segments : List (List Char)}

theorem wf_empty : Wf empty where
  ids := .nil
  fresh := by simp [empty]
  parents := by simp [empty]
  siblings := by simp [empty]

theorem findFirst_eq_some (h : findFirst rows filter parentId segment = some row) :
    row ∈ rows ∧ row.key = (filter, parentId, segment) :=
  ⟨List.mem_of_find?_eq_some h, by simpa using List.find?_some h⟩

theorem findFirst_eq_none :
    findFirst rows filter parentId segment = none ↔
      ∀ row ∈ rows, row.key ≠ (filter, parentId, segment) := by
  simp [findFirst]

/-- The only row with its key is the one found. -/
theorem Wf.find_row (h : t.Wf) (hrow : row ∈ t.rows) :
    findFirst t.rows row.scope row.parentId row.name = some row := by
  cases hfind : findFirst t.rows row.scope row.parentId row.name with
  | none => exact absurd rfl (findFirst_eq_none.mp hfind row hrow)
  | some row' =>
    obtain ⟨hmem, hkey⟩ := findFirst_eq_some hfind
    rw [h.siblings row' hmem row hrow hkey]

theorem traverse_concat (parentId : Option ℕ) (current : Option MemoryEntity)
    (segments : List (List Char)) (name : List Char) :
    traverse rows filter parentId current (segments ++ [name]) =
      if segments = [] then findFirst rows filter parentId name
      else (traverse rows filter parentId current segments).bind fun row =>
        findFirst rows filter (some row.id) name := by
  induction segments generalizing parentId current with
  | nil =>
    simp only [List.nil_append, traverse, if_pos]
    cases findFirst rows filter parentId name <;> rfl
  | cons segment segments ih =>
    rw [List.cons_append, traverse, traverse, if_neg (List.cons_ne_nil _ _)]
    cases findFirst rows filter parentId segment with
    | none => rfl
    | some row =>
      simp only [ih]
      split_ifs with hnil
      · simp [hnil, traverse]
      · rfl

theorem mem_of_traverse {current : Option MemoryEntity} (hne : segments ≠ [])
    (h : traverse rows filter parentId current segments = some row) :
    row ∈ rows ∧ row.scope = filter := by
  obtain ⟨init, name, rfl⟩ := List.eq_nil_or_concat' segments |>.resolve_left hne
  rw [traverse_concat] at h
  split_ifs at h with hnil
  · obtain ⟨hmem, hkey⟩ := findFirst_eq_some h
    exact ⟨hmem, congrArg Prod.fst hkey⟩
  · obtain ⟨parent, -, h⟩ := Option.bind_eq_some_iff.mp h
    obtain ⟨hmem, hkey⟩ := findFirst_eq_some h
    exact ⟨hmem, congrArg Prod.fst hkey⟩

theorem Wf.id_inj (h : t.Wf) {row' : MemoryEntity} (hrow : row ∈ t.rows) (hrow' : row' ∈ t.rows)
    (hid : row.id = row'.id) : row = row' := by
  have hnodup : (t.rows.map (·.id)).Nodup := List.pairwise_map.mpr (h.ids.imp Nat.ne_of_lt)
  exact List.inj_on_of_nodup_map hnodup hrow hrow' hid

@[simp] theorem scope_newRow : (t.newRow filter parentId segment).scope = filter := rfl

@[simp] theorem key_newRow :
    (t.newRow filter parentId segment).key = (filter, parentId, segment) := rfl

def HasParent (t : EntityTable) (filter : RepoFilter) (parentId : Option ℕ) : Prop :=
  ∀ p, parentId = some p → ∃ parent ∈ t.rows, parent.id = p ∧ parent.scope = filter

theorem Wf.create (h : t.Wf) (hparent : t.HasParent filter parentId)
    (hmiss : findFirst t.rows filter parentId segment = none) :
    (t.create filter parentId segment).Wf where
  ids := by
    rw [EntityTable.create, List.pairwise_append]
    refine ⟨h.ids, List.pairwise_singleton _ _, fun row hrow new hnew => ?_⟩
    rw [List.mem_singleton.mp hnew]
    exact h.fresh row hrow
  fresh := by
    intro row hrow
    obtain hrow | hrow := List.mem_append.mp hrow
    · exact Nat.lt_succ_of_lt (h.fresh row hrow)
    · rw [List.mem_singleton.mp hrow]
      exact Nat.lt_succ_self t.nextId
  parents := by
    intro row hrow p hp
    obtain hrow | hrow := List.mem_append.mp hrow
    · obtain ⟨parent, hmem, hparent⟩ := h.parents row hrow p hp
      exact ⟨parent, List.mem_append_left _ hmem, hparent⟩
    · rw [List.mem_singleton.mp hrow] at hp ⊢
      obtain ⟨parent, hmem, rfl, hscope⟩ := hparent p hp
      exact ⟨parent, List.mem_append_left _ hmem, rfl, h.fresh parent hmem, hscope⟩
  siblings := by
    have hnew := findFirst_eq_none.mp hmiss
    intro row hrow row' hrow' hkey
    obtain hrow | hrow := List.mem_append.mp hrow <;>
      obtain hrow' | hrow' := List.mem_append.mp hrow'
    · exact h.siblings row hrow row' hrow' hkey
    · rw [List.mem_singleton.mp hrow'] at hkey
      exact absurd hkey (hnew row hrow)
    · rw [List.mem_singleton.mp hrow] at hkey
      exact absurd hkey.symm (hnew row' hrow')
    · rw [List.mem_singleton.mp hrow, List.mem_singleton.mp hrow']

/-- What a traversal that creates the missing segments leaves behind: the rows of before, rows
without content for the segments that were missing, and the whole path. -/
structure Created (t : EntityTable) (filter : RepoFilter) (parentId : Option ℕ)
    (current : Option MemoryEntity) (segments : List (List Char))
    (result : Option MemoryEntity × EntityTable) : Prop where
  wf : result.2.Wf
  rows : ∃ added, result.2.rows = t.rows ++ added ∧
    ∀ row ∈ added, row.name ∈ segments ∧ row.content = none ∧ row.scope = filter
  found : traverse result.2.rows filter parentId current segments = result.1

theorem Wf.find_of_subset (h : t'.Wf) (hrows : ∀ row ∈ t.rows, row ∈ t'.rows)
    (hfind : findFirst t.rows filter parentId segment = some row) :
    findFirst t'.rows filter parentId segment = some row := by
  obtain ⟨hmem, hkey⟩ := findFirst_eq_some hfind
  have hfound := h.find_row (hrows row hmem)
  obtain ⟨rfl, rfl, rfl⟩ : row.scope = filter ∧ row.parentId = parentId ∧ row.name = segment := by
    simpa [MemoryEntity.key] using hkey
  exact hfound

theorem Wf.traverse_created (h : t.Wf) (current : Option MemoryEntity)
    (hparent : t.HasParent filter parentId) :
    t.Created filter parentId current segments
      (traverseCreating filter t parentId current segments) := by
  induction segments generalizing t parentId current with
  | nil => exact ⟨h, ⟨[], by simp [EntityTable.traverseCreating], by simp⟩, rfl⟩
  | cons segment segments ih =>
    rw [EntityTable.traverseCreating]
    cases hfind : findFirst t.rows filter parentId segment with
    | some row =>
      obtain ⟨hmem, hkey⟩ := findFirst_eq_some hfind
      have hrow : t.HasParent filter (some row.id) := fun p hp =>
        ⟨row, hmem, Option.some.inj hp, congrArg Prod.fst hkey⟩
      obtain ⟨hwf, ⟨added, hrows, hadded⟩, hfound⟩ := ih h (some row) hrow
      refine ⟨hwf, ⟨added, hrows, fun new hnew => ?_⟩, ?_⟩
      · exact ⟨List.mem_cons_of_mem _ (hadded new hnew).1, (hadded new hnew).2⟩
      · have hsub : ∀ row ∈ t.rows, row ∈ _ := fun row hrow => hrows ▸ List.mem_append_left _ hrow
        rw [traverse, hwf.find_of_subset hsub hfind]
        exact hfound
    | none =>
      dsimp only
      have hmem : t.newRow filter parentId segment ∈ (t.create filter parentId segment).rows :=
        List.mem_append_right _ (List.mem_singleton_self _)
      have hwf' := h.create hparent hfind
      have hrow : (t.create filter parentId segment).HasParent filter (some t.nextId) := fun p hp =>
        ⟨t.newRow filter parentId segment, hmem, Option.some.inj hp, rfl⟩
      obtain ⟨hwf, ⟨added, hrows, hadded⟩, hfound⟩ :=
        ih hwf' (some (t.newRow filter parentId segment)) hrow
      refine ⟨hwf, ⟨t.newRow filter parentId segment :: added, ?_, fun new hnew => ?_⟩, ?_⟩
      · rw [hrows, EntityTable.create, List.append_assoc, List.singleton_append]
      · obtain rfl | hnew := List.mem_cons.mp hnew
        · exact ⟨List.mem_cons_self, rfl, rfl⟩
        · exact ⟨List.mem_cons_of_mem _ (hadded new hnew).1, (hadded new hnew).2⟩
      · have hsub : ∀ row ∈ (t.create filter parentId segment).rows, row ∈ _ :=
          fun row hrow => hrows ▸ List.mem_append_left _ hrow
        have hnew : findFirst _ filter parentId segment = some (t.newRow filter parentId segment) :=
          hwf.find_of_subset hsub (hwf'.find_row hmem)
        rw [traverse, hnew]
        exact hfound

theorem Wf.ensurePath_created (h : t.Wf) :
    t.Created filter none none segments (t.ensurePath filter segments) :=
  h.traverse_created none fun p hp => by simp at hp

def setContent (entityId : ℕ) (content : List Char) (row : MemoryEntity) : MemoryEntity :=
  if row.id = entityId then { row with content := some content } else row

section SetContent

variable {entityId : ℕ} {content : List Char}

@[simp] theorem id_setContent : (setContent entityId content row).id = row.id := by
  unfold setContent
  split_ifs <;> rfl

@[simp] theorem parentId_setContent :
    (setContent entityId content row).parentId = row.parentId := by
  unfold setContent
  split_ifs <;> rfl

@[simp] theorem name_setContent : (setContent entityId content row).name = row.name := by
  unfold setContent
  split_ifs <;> rfl

@[simp] theorem scope_setContent : (setContent entityId content row).scope = row.scope := by
  unfold setContent
  split_ifs <;> rfl

@[simp] theorem key_setContent : (setContent entityId content row).key = row.key := by
  unfold setContent
  split_ifs <;> rfl

theorem updateContent_of_mem (h : row ∈ t.rows) :
    t.updateContent row.id content =
      some { t with rows := t.rows.map (setContent row.id content) } := by
  have hany : t.rows.any (·.id = row.id) := List.any_eq_true.mpr ⟨row, h, by simp⟩
  rw [updateContent, if_pos hany]
  rfl

theorem Wf.map_setContent (h : t.Wf) :
    Wf { t with rows := t.rows.map (setContent entityId content) } where
  ids := by
    refine h.ids.map _ fun a b hab => ?_
    simpa using hab
  fresh := by
    intro row hrow
    obtain ⟨old, hold, rfl⟩ := List.mem_map.mp hrow
    simpa using h.fresh old hold
  parents := by
    intro row hrow p hp
    obtain ⟨old, hold, rfl⟩ := List.mem_map.mp hrow
    rw [parentId_setContent] at hp
    obtain ⟨parent, hmem, rfl, hlt, hscope⟩ := h.parents old hold p hp
    exact ⟨_, List.mem_map_of_mem hmem, by simp, by simpa using hlt, by simpa using hscope⟩
  siblings := by
    intro row hrow row' hrow' hkey
    obtain ⟨old, hold, rfl⟩ := List.mem_map.mp hrow
    obtain ⟨old', hold', rfl⟩ := List.mem_map.mp hrow'
    rw [key_setContent, key_setContent] at hkey
    rw [h.siblings old hold old' hold' hkey]

end SetContent

theorem cascade_sublist (gone : List ℕ) (rows : List MemoryEntity) :
    (cascade gone rows).Sublist rows := by
  induction rows generalizing gone with
  | nil => exact .slnil
  | cons row rows ih =>
    rw [cascade]
    split_ifs
    · exact (ih _).cons row
    · exact (ih gone).cons_cons row

theorem not_mem_of_mem_cascade {gone : List ℕ} (h : row ∈ cascade gone rows) :
    row.id ∉ gone ∧ ∀ p, row.parentId = some p → p ∉ gone := by
  induction rows generalizing gone with
  | nil => simp [cascade] at h
  | cons first rows ih =>
    rw [cascade] at h
    split_ifs at h with hgone
    · obtain ⟨hid, hparent⟩ := ih h
      exact ⟨fun hmem => hid (List.mem_cons_of_mem _ hmem),
        fun p hp hmem => hparent p hp (List.mem_cons_of_mem _ hmem)⟩
    · obtain rfl | h := List.mem_cons.mp h
      · rw [not_or] at hgone
        exact ⟨hgone.1, fun p hp hmem => hgone.2 (hp ▸ List.mem_map_of_mem hmem)⟩
      · exact ih h

/-- A row that stays keeps its parent, where no row stands before its parent. -/
theorem parent_mem_cascade {gone : List ℕ} {parent : MemoryEntity}
    (horder : rows.Pairwise fun a b => a.parentId ≠ some b.id) (h : row ∈ cascade gone rows)
    (hparent : parent ∈ rows) (hid : row.parentId = some parent.id) :
    parent ∈ cascade gone rows := by
  induction rows generalizing gone with
  | nil => simp at hparent
  | cons first rows ih =>
    obtain ⟨hfirst, horder⟩ := List.pairwise_cons.mp horder
    rw [cascade] at h ⊢
    split_ifs at h ⊢ with hgone
    · obtain rfl | hparent := List.mem_cons.mp hparent
      · exact absurd List.mem_cons_self ((not_mem_of_mem_cascade h).2 _ hid)
      · exact ih horder h hparent
    · obtain rfl | hmem := List.mem_cons.mp hparent
      · exact List.mem_cons_self
      · obtain rfl | h := List.mem_cons.mp h
        · exact absurd hid (hfirst parent hmem)
        · exact List.mem_cons_of_mem _ (ih horder h hmem)

/-- A row has a higher id than its parent, so it stands behind it. -/
theorem Wf.order (h : t.Wf) : t.rows.Pairwise fun a b => a.parentId ≠ some b.id := by
  refine h.ids.imp_of_mem fun {a b} ha _ hlt hparent => ?_
  obtain ⟨-, -, -, hgt, -⟩ := h.parents a ha b.id hparent
  exact absurd hlt (Nat.lt_asymm hgt)

theorem Wf.deleteMany (h : t.Wf) (ids : List ℕ) : (t.deleteMany ids).2.Wf where
  ids := h.ids.sublist (cascade_sublist ids t.rows)
  fresh := fun row hrow => h.fresh row ((cascade_sublist ids t.rows).subset hrow)
  parents := by
    intro row hrow p hp
    obtain ⟨parent, hmem, rfl, hlt, hscope⟩ :=
      h.parents row ((cascade_sublist ids t.rows).subset hrow) p hp
    exact ⟨parent, parent_mem_cascade h.order hrow hmem hp, rfl, hlt, hscope⟩
  siblings := fun row hrow row' hrow' => h.siblings row ((cascade_sublist ids t.rows).subset hrow)
    row' ((cascade_sublist ids t.rows).subset hrow')

end EntityTable

end Agyn.Memory
