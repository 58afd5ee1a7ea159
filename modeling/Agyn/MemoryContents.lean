import Agyn.MemoryService
import Agyn.MemoryTree

/-!
The contents of the documents of a scope, by their segments: which of them a new path, a new
content or nothing at all leaves as they are.
-/
namespace Agyn.Memory

open EntityTable

variable {t t' : EntityTable} {rows : List MemoryEntity} {row row' : MemoryEntity}
  {filter : RepoFilter} {segments segments' : List (List Char)} {name : List Char}

/-- What is read under a path, with nothing for a document that is not there. -/
def contentAt (rows : List MemoryEntity) (filter : RepoFilter) (segments : List (List Char)) :
    List Char :=
  ((resolvePath rows filter segments).bind (·.content)).getD []

theorem resolvePath_concat :
    resolvePath rows filter (segments ++ [name]) =
      if segments = [] then findFirst rows filter none name
      else (resolvePath rows filter segments).bind fun parent =>
        findFirst rows filter (some parent.id) name :=
  traverse_concat none none segments name

/-- A row is found at a path by its name, below the row of the path before. -/
theorem resolvePath_concat_eq_some :
    resolvePath rows filter (segments ++ [name]) = some row ↔
      ∃ parentId, findFirst rows filter parentId name = some row ∧
        (segments = [] ∧ parentId = none ∨
          segments ≠ [] ∧ ∃ parent, resolvePath rows filter segments = some parent ∧
            parentId = some parent.id) := by
  rw [resolvePath_concat]
  by_cases hnil : segments = []
  · simp [hnil]
  · rw [if_neg hnil, Option.bind_eq_some_iff]
    constructor
    · rintro ⟨parent, hparent, hfind⟩
      exact ⟨some parent.id, hfind, .inr ⟨hnil, parent, hparent, rfl⟩⟩
    · rintro ⟨parentId, hfind, ⟨hnil', -⟩ | ⟨-, parent, hparent, rfl⟩⟩
      · exact absurd hnil' hnil
      · exact ⟨parent, hparent, hfind⟩

theorem resolvePath_mem (hne : segments ≠ []) (h : resolvePath rows filter segments = some row) :
    row ∈ rows :=
  (mem_of_traverse hne h).1

theorem findFirst_of_key (h : t.Wf) (hrow : row ∈ t.rows) {parentId : Option ℕ}
    (hkey : row.key = (filter, parentId, name)) :
    findFirst t.rows filter parentId name = some row := by
  have hfound := h.find_row hrow
  obtain ⟨rfl, rfl, rfl⟩ : row.scope = filter ∧ row.parentId = parentId ∧ row.name = name := by
    simpa [MemoryEntity.key] using hkey
  exact hfound

/-- A row has one path. -/
theorem resolvePath_inj (h : t.Wf) (hne : segments ≠ []) (hne' : segments' ≠ [])
    (hrow : resolvePath t.rows filter segments = some row)
    (hrow' : resolvePath t.rows filter segments' = some row) : segments = segments' := by
  induction segments using List.reverseRecOn generalizing row segments' with
  | nil => exact absurd rfl hne
  | append_singleton init name ih =>
    obtain ⟨init', name', rfl⟩ := (List.eq_nil_or_concat' segments').resolve_left hne'
    obtain ⟨parentId, hfind, hplace⟩ := resolvePath_concat_eq_some.mp hrow
    obtain ⟨parentId', hfind', hplace'⟩ := resolvePath_concat_eq_some.mp hrow'
    have hkey := (findFirst_eq_some hfind).2.symm.trans (findFirst_eq_some hfind').2
    obtain ⟨rfl, rfl⟩ : parentId = parentId' ∧ name = name' := by simpa using hkey
    obtain ⟨rfl, rfl⟩ | ⟨hinit, parent, hparent, rfl⟩ := hplace
    · obtain ⟨rfl, -⟩ | ⟨-, parent, -, hparent⟩ := hplace'
      · rfl
      · simp at hparent
    · obtain ⟨-, hparent'⟩ | ⟨hinit', parent', hparent', hid⟩ := hplace'
      · simp at hparent'
      · obtain rfl := h.id_inj (resolvePath_mem hinit hparent) (resolvePath_mem hinit' hparent')
          (Option.some.inj hid)
        rw [ih hinit hinit' hparent hparent']

/-- The rows of before are found where they were, and nowhere else. -/
theorem resolvePath_iff_of_subset (h : t.Wf) (h' : t'.Wf) (hsub : ∀ row ∈ t.rows, row ∈ t'.rows)
    (hne : segments ≠ []) (hrow : row ∈ t.rows) :
    resolvePath t'.rows filter segments = some row ↔
      resolvePath t.rows filter segments = some row := by
  induction segments using List.reverseRecOn generalizing row with
  | nil => exact absurd rfl hne
  | append_singleton init name ih =>
    simp only [resolvePath_concat_eq_some]
    constructor
    · rintro ⟨parentId, hfind, hplace⟩
      have hkey := (findFirst_eq_some hfind).2
      refine ⟨parentId, findFirst_of_key h hrow hkey, hplace.imp_right ?_⟩
      rintro ⟨hinit, parent, hparent, rfl⟩
      have hparentId : row.parentId = some parent.id := congrArg (fun k => k.2.1) hkey
      obtain ⟨old, hold, hid, -⟩ := h.parents row hrow parent.id hparentId
      obtain rfl := h'.id_inj (hsub old hold) (resolvePath_mem hinit hparent) hid
      exact ⟨hinit, old, (ih hinit hold).mp hparent, rfl⟩
    · rintro ⟨parentId, hfind, hplace⟩
      refine ⟨parentId, h'.find_of_subset hsub hfind, hplace.imp_right ?_⟩
      rintro ⟨hinit, parent, hparent, rfl⟩
      exact ⟨hinit, parent, (ih hinit (resolvePath_mem hinit hparent)).mpr hparent, rfl⟩

/-- Rows without content change no content. -/
theorem contentAt_of_created (h : t.Wf) (h' : t'.Wf) {added : List MemoryEntity}
    (hrows : t'.rows = t.rows ++ added) (hadded : ∀ row ∈ added, row.content = none)
    (hne : segments ≠ []) :
    contentAt t'.rows filter segments = contentAt t.rows filter segments := by
  have hsub : ∀ row ∈ t.rows, row ∈ t'.rows := fun row hrow =>
    hrows ▸ List.mem_append_left added hrow
  cases hres : resolvePath t'.rows filter segments with
  | none =>
    cases hres' : resolvePath t.rows filter segments with
    | none => simp [contentAt, hres, hres']
    | some row =>
      have hfound := (resolvePath_iff_of_subset h h' hsub hne (resolvePath_mem hne hres')).mpr hres'
      simp [hres] at hfound
  | some row =>
    obtain hrow | hrow := List.mem_append.mp (hrows ▸ resolvePath_mem hne hres)
    · have hfound := (resolvePath_iff_of_subset h h' hsub hne hrow).mp hres
      rw [contentAt, contentAt, hres, hfound]
    · cases hres' : resolvePath t.rows filter segments with
      | none => simp [contentAt, hres, hres', hadded row hrow]
      | some old =>
        have hfound := (resolvePath_iff_of_subset h h' hsub hne (resolvePath_mem hne hres')).mpr
          hres'
        obtain rfl : row = old := Option.some.inj (hres.symm.trans hfound)
        simp [contentAt, hres, hres']

theorem findFirst_map_setContent {entityId : ℕ} {content : List Char} {parentId : Option ℕ} :
    findFirst (rows.map (setContent entityId content)) filter parentId name =
      (findFirst rows filter parentId name).map (setContent entityId content) := by
  rw [findFirst, findFirst, List.find?_map]
  refine congrArg (Option.map _) (congrArg (rows.find? ·) (funext fun row => ?_))
  rw [Function.comp_apply, key_setContent]

theorem traverse_map_setContent {entityId : ℕ} {content : List Char} (parentId : Option ℕ)
    (current : Option MemoryEntity) :
    traverse (rows.map (setContent entityId content)) filter parentId
        (current.map (setContent entityId content)) segments =
      (traverse rows filter parentId current segments).map (setContent entityId content) := by
  induction segments generalizing parentId current with
  | nil => rfl
  | cons segment segments ih =>
    rw [traverse, traverse, findFirst_map_setContent]
    cases findFirst rows filter parentId segment with
    | none => rfl
    | some row => simpa using ih (some row.id) (some row)

theorem resolvePath_map_setContent {entityId : ℕ} {content : List Char} :
    resolvePath (rows.map (setContent entityId content)) filter segments =
      (resolvePath rows filter segments).map (setContent entityId content) :=
  traverse_map_setContent none none

/-- A content that is written stands at the one path of its row. -/
theorem contentAt_setContent (h : t.Wf) {content : List Char} (hne : segments ≠ [])
    (hne' : segments' ≠ []) (hrow : resolvePath t.rows filter segments = some row) :
    contentAt (t.rows.map (setContent row.id content)) filter segments' =
      if segments' = segments then content else contentAt t.rows filter segments' := by
  rw [contentAt, resolvePath_map_setContent]
  split_ifs with heq
  · simp [heq, hrow, setContent]
  · cases hrow' : resolvePath t.rows filter segments' with
    | none => simp [contentAt, hrow']
    | some row' =>
      have hid : row'.id ≠ row.id := by
        intro hid
        obtain rfl := h.id_inj (resolvePath_mem hne' hrow') (resolvePath_mem hne hrow) hid
        exact heq (resolvePath_inj h hne' hne hrow' hrow)
      simp [contentAt, hrow', setContent, hid]

/-- A path that is ensured leads to a row. -/
theorem traverseCreating_isSome (parentId : Option ℕ) (current : Option MemoryEntity)
    (h : current.isSome ∨ segments ≠ []) :
    (traverseCreating filter t parentId current segments).1.isSome := by
  induction segments generalizing t parentId current with
  | nil => simpa [traverseCreating] using h
  | cons segment segments ih =>
    rw [traverseCreating]
    cases findFirst t.rows filter parentId segment with
    | none => exact ih _ _ (.inl rfl)
    | some row => exact ih _ _ (.inl rfl)

end Agyn.Memory
