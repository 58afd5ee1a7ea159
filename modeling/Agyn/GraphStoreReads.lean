import Agyn.FsGraphRepository

/-!
What a read of the graph root finds. Every file-system semantics reads alike, and
the result is a function of the tree at the root: `readTree`. A canonical tree
keeps each entity in the file named after its id, as the repository writes it;
reading such a tree returns the stored entities.
-/
namespace Agyn

open Prog FsGraphRepository

variable {J G : Type}

/-- An operation that only looks at the disk. -/
def FsOp.IsRead {β : Type} (o : FsOp J β) : Prop := ∀ e, o.failed e = none

theorem FsOp.IsRead.exec_disk {β : Type} {o : FsOp J β} (h : o.IsRead) (d : Disk J G) :
    (o.exec d).2 = d := by
  have hnone := h ""
  cases o <;> first | rfl | exact absurd hnone (Option.some_ne_none _)

theorem faulty_read {β : Type} (fails : Label → Option String) {o : FsOp J β} (h : o.IsRead)
    (l : Label) (d : Disk J G) : faulty fails β l o d = o.exec d := by
  unfold faulty
  cases fails l with
  | none => rfl
  | some e =>
    rw [Option.bind_some, h e]

/-- A working file system is one on which nothing fails. -/
theorem working_eq_faulty : (working : Handler Label (FsOp J) (Disk J G)) =
    faulty fun _ => none := rfl

section PureReads

def collect {dir : EntityDir} (files : EntityFiles J dir) :
    List String → List (Entity J dir) × Bool
  | [] => ([], false)
  | file :: rest =>
    if isYaml file then
      match (files.get file).join.bind (identify file) with
      | none => ((collect files rest).1, true)
      | some item => (item :: (collect files rest).1, (collect files rest).2)
    else collect files rest

def readDir (t : GraphTree J G) (dir : EntityDir) : List (Entity J dir) × Bool :=
  match t.dirs dir with
  | none => ([], false)
  | some files => collect files files.keys

/-- What reading a tree, if there is one, as the graph `name` returns. -/
def readTree (t : Option (GraphTree J G)) (name nowIso : String) :
    Except String (Option (PersistedGraph J)) :=
  match t with
  | none => .ok none
  | some t =>
    match t.metaFile.join with
    | none => .ok none
    | some doc =>
      if (readDir t .nodes).2 || (readDir t .edges).2 then .error "Working tree read error"
      else
        .ok (some
          { name := (normalizeMeta doc name nowIso).name
            version := (normalizeMeta doc name nowIso).version
            updatedAt := (normalizeMeta doc name nowIso).updatedAt
            nodes := (readDir t .nodes).1
            edges := (readDir t .edges).1
            vars := t.vars.bind normalizeVariables })

theorem readFiles_run (fails : Label → Option String) (p : Place) (dir : EntityDir)
    {t : GraphTree J G} {files : EntityFiles J dir} {d : Disk J G} (ht : d.tree p = some t)
    (hfiles : t.dirs dir = some files) (names : List String) :
    (readFiles p dir names).run (faulty fails) d = (collect files names, d) := by
  induction names with
  | nil => rfl
  | cons file rest ih =>
    unfold readFiles collect
    split
    · have hread : faulty fails _ ⟨.reading, 1⟩ (FsOp.readFile p dir file) d =
          ((files.get file).join, d) := by
        rw [faulty_read fails (fun _ => rfl)]
        simp only [FsOp.exec, ht, Option.bind_some, hfiles]
      rw [run_bind, run_ask, hread, run_bind, ih]
      dsimp only
      cases (files.get file).join.bind (identify file) with
      | none => rfl
      | some item => rfl
    · exact ih

theorem readEntitiesFromDir_run (fails : Label → Option String) (p : Place) (dir : EntityDir)
    {t : GraphTree J G} {d : Disk J G} (ht : d.tree p = some t) :
    (readEntitiesFromDir p dir).run (faulty fails) d = (readDir t dir, d) := by
  have hread : faulty fails _ ⟨.reading, 2⟩ (FsOp.readdir p dir) d =
      ((t.dirs dir).map InsMap.keys, d) := by
    rw [faulty_read fails (fun _ => rfl)]
    simp only [FsOp.exec, ht, Option.bind_some]
  unfold readEntitiesFromDir readDir
  rw [run_bind, run_ask, hread]
  cases hfiles : t.dirs dir with
  | none => rfl
  | some files => exact readFiles_run fails p dir ht hfiles files.keys

/-- A read returns what `readTree` finds at the root and changes nothing. -/
theorem get_run (fails : Label → Option String) (name nowIso : String) (d : Disk J G) :
    (FsGraphRepository.get name nowIso).run (faulty fails) d =
      (readTree (d.tree .root) name nowIso, d) := by
  have hmeta : faulty fails _ ⟨.reading, 0⟩ (FsOp.readMeta .root) d =
      (((d.tree .root).bind GraphTree.metaFile).join, d) := faulty_read fails (fun _ => rfl) _ d
  unfold FsGraphRepository.get readFromWorkingTree readMetaAt readTree
  rw [run_bind, run_bind, run_ask, hmeta]
  cases ht : d.tree .root with
  | none => rfl
  | some t =>
    rw [Option.bind_some]
    dsimp only
    cases hdoc : t.metaFile.join with
    | none => rfl
    | some doc =>
      dsimp only [Option.map_some, run_ret]
      rw [run_bind, readEntitiesFromDir_run fails .root .nodes ht, run_bind,
        readEntitiesFromDir_run fails .root .edges ht]
      split
      · rfl
      · have hvars : faulty fails _ ⟨.reading, 3⟩ (FsOp.readVars .root) d = (t.vars, d) := by
          rw [faulty_read fails (fun _ => rfl)]
          simp only [FsOp.exec, ht, Option.bind_some]
        unfold readVariablesFromBase
        rw [run_bind, run_bind, run_ask, hvars]
        rfl

/-- The tree without its `.git` entry. -/
def GraphTree.docs (t : GraphTree J G) : GraphTree J G := { t with git := none }

/-- A `.git` entry is not read. -/
theorem readTree_docs (t : GraphTree J G) (name nowIso : String) :
    readTree (some t.docs) name nowIso = readTree (some t) name nowIso := rfl

end PureReads

section Canonical

theorem isYaml_append (s : String) : isYaml (s ++ ".yaml") = true := by
  unfold isYaml
  rw [String.toList_append, List.isSuffixOf_iff_suffix]
  exact List.suffix_append _ _

theorem stem_append (s : String) : stem (s ++ ".yaml") = s := by
  unfold stem
  rw [String.toList_append]
  have hlen : ".yaml".toList.length = 5 := by decide
  rw [List.length_append, hlen, Nat.add_sub_cancel, List.take_left, String.ofList_toList]

theorem setId_id {dir : EntityDir} (e : Entity J dir) (h : e.id ≠ "") : e.setId e.id = e := by
  cases dir with
  | nodes => rfl
  | edges =>
    obtain ⟨id, source, sourceHandle, target, targetHandle⟩ := e
    cases id with
    | none => exact absurd rfl h
    | some id => rfl

/-- The record in the file named after it is read back as it is. -/
theorem identify_fileName {dir : EntityDir} (e : Entity J dir) (h : e.id ≠ "") :
    identify e.fileName e = some e := by
  unfold identify
  rw [Entity.fileName, stem_append, decodeURIComponent_encodeURIComponent, Option.map_some,
    if_pos h, setId_id e h]

/-- Each file holds a record with an id and is named after it. -/
def CanonicalFiles {dir : EntityDir} (files : EntityFiles J dir) : Prop :=
  ∀ file content, files.get file = some content →
    ∃ e : Entity J dir, content = some e ∧ e.id ≠ "" ∧ file = e.fileName

def Canonical (t : GraphTree J G) : Prop :=
  ∀ dir files, t.dirs dir = some files → CanonicalFiles files

def stored {dir : EntityDir} (files : EntityFiles J dir) : List (Entity J dir) :=
  files.values.filterMap id

theorem collect_cons {dir : EntityDir} {files : EntityFiles J dir} {file : String}
    {item : Entity J dir} (hyaml : isYaml file = true)
    (hitem : (files.get file).join.bind (identify file) = some item) (rest : List String) :
    collect files (file :: rest) = (item :: (collect files rest).1, (collect files rest).2) := by
  rw [collect, if_pos hyaml, hitem]

theorem collect_canonical {dir : EntityDir} {files : EntityFiles J dir} (h : CanonicalFiles files) :
    collect files files.keys = (stored files, false) := by
  have hall : ∀ es : List (String × Option (Entity J dir)), (∀ e ∈ es, e ∈ files.entries) →
      collect files (es.map Prod.fst) = ((es.map Prod.snd).filterMap id, false) := by
    intro es hes
    induction es with
    | nil => rfl
    | cons entry rest ih =>
      have hget := (InsMap.get_eq_some_iff files entry.1 entry.2).mpr (hes entry List.mem_cons_self)
      obtain ⟨e, hcontent, hid, hfile⟩ := h entry.1 entry.2 hget
      have hrest := ih fun x hx => hes x (List.mem_cons_of_mem _ hx)
      have hyaml : isYaml entry.1 = true := by
        rw [hfile, Entity.fileName]
        exact isYaml_append _
      have hitem : (files.get entry.1).join.bind (identify entry.1) = some e := by
        rw [hget, hcontent, hfile, Option.join_some, Option.bind_some,
          identify_fileName e hid]
      rw [List.map_cons, List.map_cons, collect_cons hyaml hitem, hrest, hcontent]
      rfl
  exact hall files.entries fun e he => he

theorem readDir_canonical {t : GraphTree J G} (h : Canonical t) (dir : EntityDir) :
    readDir t dir = (((t.dirs dir).map stored).getD [], false) := by
  unfold readDir
  cases hfiles : t.dirs dir with
  | none => rfl
  | some files => exact collect_canonical (h dir files hfiles)

/-- Reading a canonical tree that has a meta file succeeds. -/
theorem readTree_canonical {t : GraphTree J G} (h : Canonical t) {doc : MetaDoc}
    (hdoc : t.metaFile = some (some doc)) (name nowIso : String) :
    readTree (some t) name nowIso = .ok (some
      { name := doc.name.getD name
        version := doc.version.getD 0
        updatedAt := doc.updatedAt.getD nowIso
        nodes := ((t.dirs .nodes).map stored).getD []
        edges := ((t.dirs .edges).map stored).getD []
        vars := t.vars.bind normalizeVariables }) := by
  simp only [readTree, hdoc, Option.join_some, readDir_canonical h, Bool.or_self,
    Bool.false_eq_true, if_false, normalizeMeta]

end Canonical

end Agyn
