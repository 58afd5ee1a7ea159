import Agyn.MemoryCalls

/-!
Memory paths as addresses: over every run of calls that leave no blank at the end of a directory's
name, what is dumped can be read under the path it is dumped with, and what is listed can be
reached below the path it is listed for.
-/
namespace Agyn.Memory

open EntityTable

/-- Within the path, without the white space around it, a blank stands before a slash. -/
def BlankBeforeSlash (path : List Char) : Prop :=
  [' ', '/'] <:+: trimPath (replaceRuns '\\' '/' false path)

instance : DecidablePred BlankBeforeSlash := fun _ => inferInstanceAs (Decidable (_ <:+: _))

/-- The path is refused or has no blank before a slash. -/
def KeepsBlanks (path : List Char) : Prop :=
  BlankBeforeSlash path → (normalizePath path true).toOption = none

/-- A call that may create documents and directories does so by a path that keeps its blanks. -/
def MemoryCall.KeepsBlanks : MemoryCall → Prop
  | .append path _ => Memory.KeepsBlanks path
  | .ensureDir path => Memory.KeepsBlanks path
  | .update _ _ _ => True
  | .delete _ => True

theorem KeepsBlanks.keptName {m : MemoryBinding} {path : List Char} {root : Bool}
    {filter : RepoFilter} {segments : List (List Char)} (hkeeps : KeepsBlanks path)
    (h : located m path root = .ok (filter, segments)) : ∀ s ∈ segments, KeptName s := by
  obtain ⟨-, rfl, hvalid, -⟩ := located_eq_ok.mp h
  obtain ⟨p, hp⟩ := exists_normalizePath.mpr ⟨hvalid, fun _ => rfl⟩
  have hblank : ¬BlankBeforeSlash path := fun hblank => by
    have hnone := hkeeps hblank
    simp [hp, Except.toOption] at hnone
  intro s hs
  refine ⟨hvalid s hs, fun hlast => ?_⟩
  obtain ⟨init, rfl⟩ := List.getLast?_eq_some_iff.mp hlast
  obtain hin | hend := piece_infix hs
  · exact hblank (List.IsInfix.trans ⟨init, [], by simp⟩ hin)
  · exact not_isTrimmed_of_suffix hend (by decide)

theorem MemoryCall.KeepsBlanks.createsBy {c : MemoryBinding × MemoryCall}
    (h : c.2.KeepsBlanks) : CreatesBy KeptName c := by
  obtain ⟨m, call⟩ := c
  intro path hpath root filter segments hlocated
  cases call with
  | append path' data =>
    obtain rfl := Option.some.inj hpath
    exact Memory.KeepsBlanks.keptName h hlocated
  | ensureDir path' =>
    obtain rfl := Option.some.inj hpath
    exact Memory.KeepsBlanks.keptName h hlocated
  | update => simp [createdPath] at hpath
  | delete => simp [createdPath] at hpath

/-- The table is well formed and no name in it is cut off when it ends a path. -/
abbrev Addressable (t : EntityTable) : Prop := Named KeptName t

section Paths

variable {t : EntityTable} {filter : RepoFilter} {entities : List MemoryEntity}
  {row : MemoryEntity}

theorem mem_listAll : row ∈ t.listAll filter ↔ row ∈ t.rows ∧ row.scope = filter := by
  simp [listAll]

/-- Listed entities are found by their ids. -/
theorem find_id (h : t.Wf) (hperm : entities.Perm (t.listAll filter)) (hrow : row ∈ entities) :
    entities.find? (·.id = row.id) = some row := by
  cases hfind : entities.find? (·.id = row.id) with
  | none => simpa using List.find?_eq_none.mp hfind row hrow
  | some row' =>
    have hmem := mem_listAll.mp (hperm.mem_iff.mp (List.mem_of_find?_eq_some hfind))
    have hid : row'.id = row.id := by simpa using List.find?_some hfind
    rw [h.id_inj hmem.1 (mem_listAll.mp (hperm.mem_iff.mp hrow)).1 hid]

/-- Every listed row is found by the names of the rows above it and its own, and its path is made
of them. -/
theorem exists_segments (h : t.Wf) (hperm : entities.Perm (t.listAll filter))
    (hrow : row ∈ entities) :
    ∃ segments, segments ≠ [] ∧ resolvePath t.rows filter segments = some row ∧
      (∀ s ∈ segments, ∃ row' ∈ t.rows, row'.name = s) ∧
      ∀ fuel, row.id < fuel → pathOf entities fuel row = some (joinPieces '/' segments) := by
  induction hid : row.id using Nat.strong_induction_on generalizing row with
  | _ n ih =>
  subst hid
  obtain ⟨hmem, hscope⟩ := mem_listAll.mp (hperm.mem_iff.mp hrow)
  have hfound := h.find_row hmem
  rw [hscope] at hfound
  cases hparent : row.parentId with
  | none =>
    rw [hparent] at hfound
    refine ⟨[row.name], List.cons_ne_nil _ _, ?_, ?_, fun fuel hfuel => ?_⟩
    · simp [resolvePath, traverse, hfound]
    · exact fun s hs => ⟨row, hmem, (List.mem_singleton.mp hs).symm⟩
    · obtain ⟨fuel, rfl⟩ := Nat.exists_eq_add_of_lt hfuel
      simp [pathOf, hparent, joinPieces]
  | some p =>
    rw [hparent] at hfound
    obtain ⟨parent, hpmem, rfl, hlt, hpscope⟩ := h.parents row hmem p hparent
    have hplisted : parent ∈ entities :=
      hperm.mem_iff.mpr (mem_listAll.mpr ⟨hpmem, hpscope.trans hscope⟩)
    obtain ⟨segments, hne, hresolve, hnames, hpath⟩ := ih parent.id hlt hplisted rfl
    refine ⟨segments ++ [row.name], by simp, ?_, ?_, fun fuel hfuel => ?_⟩
    · rw [resolvePath, traverse_concat, if_neg hne, ← resolvePath, hresolve]
      exact hfound
    · intro s hs
      obtain hs | hs := List.mem_append.mp hs
      · exact hnames s hs
      · exact ⟨row, hmem, (List.mem_singleton.mp hs).symm⟩
    · cases fuel with
      | zero => exact absurd hfuel (Nat.not_lt_zero _)
      | succ fuel =>
        have hfind := find_id h hperm hplisted
        rw [pathOf, hparent, Option.bind_some, hfind]
        simp [hpath fuel (by omega), joinPieces]

variable {m : MemoryBinding} {path : List Char} {segments : List (List Char)}

theorem read_of_resolve (hlocated : located m path true = .ok (filter, segments))
    (hne : segments ≠ []) (hrow : resolvePath t.rows filter segments = some row) :
    t.read m path = .ok (row.content.getD []) := by
  cases segments with
  | nil => exact absurd rfl hne
  | cons segment segments => simp [EntityTable.read, hlocated, hrow]

theorem stat_of_resolve (hlocated : located m path true = .ok (filter, segments))
    (hne : segments ≠ []) (hrow : resolvePath t.rows filter segments = some row) :
    ∃ contentLength,
      t.stat m path = .ok ⟨true, t.entityHasChildren row.id, contentLength⟩ := by
  cases segments with
  | nil => exact absurd rfl hne
  | cons segment segments =>
    simp only [EntityTable.stat, hlocated, hrow]
    exact ⟨_, rfl⟩

theorem list_of_resolve (hpath : path ≠ [])
    (hlocated : located m path true = .ok (filter, segments))
    (hne : segments ≠ []) (hrow : resolvePath t.rows filter segments = some row) :
    t.list m path = .ok (t.listEntries filter (some row.id)) := by
  cases segments with
  | nil => exact absurd rfl hne
  | cons segment segments => simp [EntityTable.list, hpath, hlocated, hrow]

def IsPlace (rows : List MemoryEntity) (filter : RepoFilter) (segments : List (List Char))
    (parentId : Option ℕ) : Prop :=
  ∀ name, resolvePath rows filter (segments ++ [name]) = findFirst rows filter parentId name

/-- What is listed are the children of what the path leads to. -/
theorem list_eq_ok {entries : List ListEntry} (h : t.list m path = .ok entries) :
    ∃ filter, located m path true = .ok (filter, segmentsOf path) ∧
      (entries = [] ∨ ∃ parentId, IsPlace t.rows filter (segmentsOf path) parentId ∧
        entries = t.listEntries filter parentId) := by
  have hsame : located m (if path = [] then ['/'] else path) true = located m path true := by
    split_ifs with hnil
    · subst hnil
      rfl
    · rfl
  rw [EntityTable.list, hsame] at h
  cases hlocated : located m path true with
  | error e => simp [hlocated] at h
  | ok place =>
    obtain ⟨filter, segments⟩ := place
    have hsegs := (located_eq_ok.mp hlocated).2.1
    subst hsegs
    refine ⟨filter, rfl, ?_⟩
    rw [hlocated] at h
    cases hsegs : segmentsOf path with
    | nil =>
      rw [hsegs] at h
      refine .inr ⟨none, fun name => ?_, (Except.ok.inj h).symm⟩
      rw [resolvePath, traverse_concat, if_pos rfl]
    | cons segment segments =>
      rw [hsegs] at h
      dsimp only at h
      cases hrow : resolvePath t.rows filter (segment :: segments) with
      | none =>
        rw [hrow] at h
        exact .inl (Except.ok.inj h).symm
      | some parent =>
        rw [hrow] at h
        refine .inr ⟨some parent.id, fun name => ?_, (Except.ok.inj h).symm⟩
        rw [resolvePath, traverse_concat, if_neg (List.cons_ne_nil _ _), ← resolvePath, hrow,
          Option.bind_some]

end Paths

def Reaches (t : EntityTable) (m : MemoryBinding) (path : List Char) (entry : ListEntry) : Prop :=
  (∃ contentLength, t.stat m path = .ok ⟨true, entry.hasSubdocs, contentLength⟩) ∧
    (∃ content, t.read m path = .ok content) ∧
    ∃ entries, t.list m path = .ok entries ∧ (entry.hasSubdocs ↔ entries ≠ [])

/-- What a memory reports can be found where it is reported. -/
structure PathsResolve (t : EntityTable) (m : MemoryBinding) : Prop where
  /-- Each document has a path of its own, and is read under it. -/
  dumped : ∀ filter, buildFilter m = .ok filter → ∀ entities, entities.Perm (t.listAll filter) →
    ∃ d, dump m entities = some d ∧ getAll entities = some d.data ∧
      d.data.values = entities.filterMap (·.content) ∧
      ∀ path content, d.data.get path = some content → t.read m path = .ok content
  listed : ∀ path entries, t.list m path = .ok entries → ∀ entry ∈ entries, Joinable path →
    Reaches t m (path ++ '/' :: entry.name) entry

namespace Addressable

variable {t : EntityTable} {m : MemoryBinding} {filter : RepoFilter}
  {entities : List MemoryEntity} {row : MemoryEntity} {path : List Char}

theorem mem_listEntries {parentId : Option ℕ} {entry : ListEntry} :
    entry ∈ t.listEntries filter parentId ↔ ∃ row ∈ t.rows, row.scope = filter ∧
      row.parentId = parentId ∧ ⟨row.name, t.entityHasChildren row.id⟩ = entry := by
  simp only [listEntries, listChildren, List.map_map, List.mem_map, List.mem_filter, mem_listAll,
    decide_eq_true_eq, Function.comp_apply, and_assoc]

theorem hasChildren_iff (h : t.Wf) (hrow : row ∈ t.rows) :
    t.entityHasChildren row.id ↔ t.listEntries row.scope (some row.id) ≠ [] := by
  rw [entityHasChildren, List.any_eq_true, ← List.isEmpty_eq_false_iff,
    List.isEmpty_eq_false_iff_exists_mem]
  constructor
  · rintro ⟨child, hchild, hparent⟩
    have hparent : child.parentId = some row.id := by simpa using hparent
    obtain ⟨parent, hmem, hid, -, hscope⟩ := h.parents child hchild _ hparent
    obtain rfl := h.id_inj hmem hrow hid
    exact ⟨_, mem_listEntries.mpr ⟨child, hchild, hscope.symm, hparent, rfl⟩⟩
  · rintro ⟨entry, hentry⟩
    obtain ⟨child, hchild, -, hparent, -⟩ := mem_listEntries.mp hentry
    exact ⟨child, hchild, by simpa using hparent⟩

theorem reaches_child (h : Addressable t) {segments : List (List Char)}
    (hlocated : located m path true = .ok (filter, segments)) (hpath : path ≠ [])
    (hne : segments ≠ []) (hrow : resolvePath t.rows filter segments = some row) :
    Reaches t m path ⟨row.name, t.entityHasChildren row.id⟩ := by
  obtain ⟨hmem, hscope⟩ := mem_of_traverse hne hrow
  refine ⟨stat_of_resolve hlocated hne hrow, ⟨_, read_of_resolve hlocated hne hrow⟩, _,
    list_of_resolve hpath hlocated hne hrow, ?_⟩
  rw [← hscope]
  exact hasChildren_iff h.wf hmem

theorem listed (h : Addressable t) {entries : List ListEntry} (hlist : t.list m path = .ok entries)
    {entry : ListEntry} (hentry : entry ∈ entries) (hpath : Joinable path) :
    Reaches t m (path ++ '/' :: entry.name) entry := by
  obtain ⟨filter, hlocated, rfl | ⟨parentId, hplace, rfl⟩⟩ := list_eq_ok hlist
  · simp at hentry
  obtain ⟨row, hrow, rfl, rfl, rfl⟩ := mem_listEntries.mp hentry
  have hname := h.names row hrow
  have hsegs := segmentsOf_append_name hpath hname
  obtain ⟨hfilter, -, hvalid, -⟩ := located_eq_ok.mp hlocated
  have hlocated' : located m (path ++ '/' :: row.name) true =
      .ok (row.scope, segmentsOf path ++ [row.name]) := by
    rw [located_eq_ok]
    refine ⟨hfilter, hsegs.symm, fun s hs => ?_, fun _ => rfl⟩
    obtain hs | hs := List.mem_append.mp hs
    · exact hvalid s hs
    · exact List.mem_singleton.mp hs ▸ hname.1
  have hresolve : resolvePath t.rows row.scope (segmentsOf path ++ [row.name]) = some row := by
    rw [hplace, h.wf.find_row hrow]
  exact h.reaches_child hlocated' (by simp) (by simp) hresolve

def LeadsTo (t : EntityTable) (filter : RepoFilter) (e : MemoryEntity × List Char) : Prop :=
  segmentsOf e.2 ≠ [] ∧ (∀ s ∈ segmentsOf e.2, KeptName s) ∧
    resolvePath t.rows filter (segmentsOf e.2) = some e.1

theorem leadsTo (h : Addressable t) (hperm : entities.Perm (t.listAll filter))
    (hrow : row ∈ entities) :
    ∃ path, pathOf entities (row.id + 1) row = some path ∧ LeadsTo t filter (row, path) := by
  obtain ⟨segments, hne, hresolve, hnames, hpath⟩ := exists_segments h.wf hperm hrow
  have hkept : ∀ s ∈ segments, KeptName s := by
    intro s hs
    obtain ⟨row', hmem, rfl⟩ := hnames s hs
    exact h.names row' hmem
  refine ⟨_, hpath _ (Nat.lt_succ_self row.id), ?_⟩
  rw [LeadsTo, segmentsOf_joinPieces hkept]
  exact ⟨hne, hkept, hresolve⟩

theorem exists_mapM {α β : Type} {f : α → Option β} {g : β → α} {Q : β → Prop} {as : List α}
    (h : ∀ a ∈ as, ∃ b, f a = some b ∧ g b = a ∧ Q b) :
    ∃ bs, as.mapM f = some bs ∧ bs.map g = as ∧ ∀ b ∈ bs, Q b := by
  induction as with
  | nil => exact ⟨[], rfl, rfl, by simp⟩
  | cons a as ih =>
    obtain ⟨b, hb, hg, hQ⟩ := h a List.mem_cons_self
    obtain ⟨bs, hbs, hgs, hQs⟩ := ih fun a' ha' => h a' (List.mem_cons_of_mem a ha')
    exact ⟨b :: bs, by simp [hb, hbs], by rw [List.map_cons, hg, hgs],
      List.forall_mem_cons.mpr ⟨hQ, hQs⟩⟩

/-- Every listed entity has a path that leads to it. -/
theorem exists_pathsOf (h : Addressable t) (hperm : entities.Perm (t.listAll filter)) :
    ∃ paths, pathsOf entities = some paths ∧ paths.map (·.1) = entities ∧
      ∀ e ∈ paths, LeadsTo t filter e := by
  have hpath : ∀ row ∈ entities, ∃ e, ((pathOf entities (row.id + 1) row).map fun path =>
      (row, path)) = some e ∧ e.1 = row ∧ LeadsTo t filter e := by
    intro row hrow
    obtain ⟨path, hpath, hleads⟩ := h.leadsTo hperm hrow
    exact ⟨(row, path), by rw [hpath, Option.map_some], rfl, hleads⟩
  exact exists_mapM hpath

theorem nodup_entities (h : t.Wf) (hperm : entities.Perm (t.listAll filter)) :
    entities.Nodup := by
  have hrows : t.rows.Nodup := h.ids.imp fun hlt heq => by simp [heq] at hlt
  exact hperm.nodup_iff.mpr (hrows.filter _)

theorem dumped (h : Addressable t) (hfilter : buildFilter m = .ok filter)
    (hperm : entities.Perm (t.listAll filter)) :
    ∃ d, dump m entities = some d ∧ getAll entities = some d.data ∧
      d.data.values = entities.filterMap (·.content) ∧
      ∀ path content, d.data.get path = some content → t.read m path = .ok content := by
  obtain ⟨paths, hpaths, rfl, hleads⟩ := h.exists_pathsOf hperm
  have hnodup : (paths.map (·.2)).Nodup := by
    refine List.Nodup.map_on (fun e he e' he' heq => ?_) (List.Nodup.of_map (·.1) ?_)
    · have hresolve := (hleads e he).2.2
      rw [heq, (hleads e' he').2.2] at hresolve
      exact Prod.ext (Option.some.inj hresolve).symm heq
    · exact nodup_entities h.wf hperm
  have hkeys : ((paths.filterMap fun e => e.1.content.map fun content => (e.2, content)).map
      Prod.fst).Nodup := by
    rw [List.Nodup, List.pairwise_map, List.pairwise_filterMap]
    refine (List.pairwise_map.mp hnodup).imp fun hne b hb b' hb' => ?_
    obtain ⟨c, -, rfl⟩ := Option.map_eq_some_iff.mp hb
    obtain ⟨c', -, rfl⟩ := Option.map_eq_some_iff.mp hb'
    exact hne
  have hentries := InsMap.ofEntries_entries _ hkeys
  refine ⟨⟨m, dataOf paths, dirsOf _ paths⟩, by rw [dump, hpaths]; rfl,
    by rw [getAll, hpaths]; rfl, ?_, fun path content hget => ?_⟩
  · rw [InsMap.values, dataOf, hentries, List.map_filterMap, List.filterMap_map]
    refine List.filterMap_congr fun e _ => ?_
    cases hcontent : e.1.content <;> simp [hcontent]
  · have hmem := InsMap.mem_of_get_ofEntries _ _ _ hget
    obtain ⟨e, he, hcontent⟩ := List.mem_filterMap.mp hmem
    obtain ⟨c, hc, heq⟩ := Option.map_eq_some_iff.mp hcontent
    obtain ⟨rfl, rfl⟩ := Prod.ext_iff.mp heq
    obtain ⟨hne, hkept, hresolve⟩ := hleads e he
    have hlocated : located m e.2 true = .ok (filter, segmentsOf e.2) :=
      located_eq_ok.mpr ⟨hfilter, rfl, fun s hs => (hkept s hs).1, fun _ => rfl⟩
    rw [read_of_resolve hlocated hne hresolve, hc, Option.getD_some]

end Addressable

/-- After calls that keep their blanks, a memory is found where it is reported. -/
theorem paths_resolve {t : EntityTable}
    (h : Reached callStep (fun _ c => c.2.KeepsBlanks) EntityTable.empty t) (m : MemoryBinding) :
    PathsResolve t m := by
  have haddr : Addressable t := Named.of_reached (fun _ _ hkeeps => hkeeps.createsBy) h
  exact ⟨fun _ hfilter _ hperm => haddr.dumped hfilter hperm,
    fun _ _ hlist _ hentry hpath => haddr.listed hlist hentry hpath⟩

def globalMemory : MemoryBinding := ⟨"memory", .global, none⟩

/-- A document in a directory whose name has a blank in it. -/
def notedTable : EntityTable :=
  EntityTable.empty.after globalMemory (.append "/my notes/a.md".toList "x".toList)

theorem paths_resolve_noted : PathsResolve notedTable globalMemory :=
  paths_resolve
    (.step (globalMemory, .append "/my notes/a.md".toList "x".toList) .init
      (fun h => absurd h (by decide +kernel)) rfl) globalMemory

/-- Cut at the slash, the name keeps a blank at its end, and its path loses it. -/
theorem blank_name_lost :
    runFrom callStep EntityTable.empty
        [(globalMemory, .append "/a /".toList "x".toList)] =
      some ⟨[⟨0, "memory", none, none, "a ".toList, some "x".toList⟩], 1⟩ ∧
    ((dump globalMemory [⟨0, "memory", none, none, "a ".toList, some "x".toList⟩]).map
        (·.data.entries)) = some [("/a ".toList, "x".toList)] ∧
    EntityTable.read ⟨[⟨0, "memory", none, none, "a ".toList, some "x".toList⟩], 1⟩ globalMemory
        "/a ".toList = .error "ENOENT: document not found" := by
  decide +kernel

end Agyn.Memory
