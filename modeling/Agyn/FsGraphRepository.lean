import Mathlib.Logic.Function.Basic
import Agyn.PersistedGraph
import Agyn.Programs

/-!
The part of the file system that the graph store uses: the graph root and the staging
and backup directories beside it, each a tree with a meta file, a variables file, one
directory for each kind of entity and possibly a `.git` entry. A file holds its parsed
document, since YAML is assumed to read back what was written. A temporary file has a
name that no reader looks at, so writing it changes nothing until it is renamed. An
operation that fails has no effect. The file-system graph repository, as programs over
the disk. Syncing a directory changes nothing and its errors are ignored, so it is left
out. The lock file is not here: `upsertLocked` is what runs while it is held. The times
and the random parts of the temporary names that a call draws are its context.
-/
namespace Agyn

section FileSystem

/-- A directory of the parent: the graph root, or a temporary one under its unique id. -/
inductive Place where
  | root
  | staging (id : String)
  | backup (id : String)
  deriving DecidableEq, Repr

/-- The document of `graph.meta.yaml`. -/
structure MetaDoc where
  name : Option String
  version : Option ℕ
  updatedAt : Option String
  deriving DecidableEq, Repr

/-- File names with their parsed records; `none` is a file that does not parse. -/
abbrev EntityFiles (J : Type) (dir : EntityDir) := InsMap String (Option (Entity J dir))

/-- A tree; an absent file or directory is `none`. A variables file that is not a list
reads like an absent one, a meta file that does not parse is there all the same. -/
structure GraphTree (J G : Type) where
  metaFile : Option (Option MetaDoc)
  vars : Option (List GraphVariable)
  dirs : (dir : EntityDir) → Option (EntityFiles J dir)
  git : Option G

/-- The trees on disk. `mtime` is whatever `stat` reports, and `installs` lists the staged
trees that were renamed to the root, newest first; no operation reads it. -/
structure Disk (J G : Type) where
  trees : InsMap Place (GraphTree J G)
  mtime : Place → ℕ
  installs : List (String × GraphTree J G)

inductive FileWrite (J : Type) where
  | metaFile (doc : MetaDoc)
  | vars (vs : List GraphVariable)
  | entity (dir : EntityDir) (e : Entity J dir)

/-- The parts of the code that touch the file system. -/
inductive Site where
  | initialising
  | reading
  | staging
  | swap
  | auxiliary
  | undo
  | discard
  | rollback
  deriving DecidableEq, Repr

/-- Where an operation stands in the code: a part and its number there. -/
structure Label where
  site : Site
  step : ℕ
  deriving DecidableEq, Repr

inductive FsOp (J : Type) : Type → Type
  | mkdirParent : FsOp J (Except String Unit)
  | mkdir (p : Place) : FsOp J (Except String Unit)
  | mkdirIn (p : Place) (dir : EntityDir) : FsOp J (Except String Unit)
  /-- `mkdir` of the directory a file is written to. -/
  | mkdirFor (p : Place) (w : FileWrite J) : FsOp J (Except String Unit)
  | writeTemp (p : Place) (w : FileWrite J) : FsOp J (Except String Unit)
  /-- Rename the temporary file to its final name. -/
  | commitTemp (p : Place) (w : FileWrite J) : FsOp J (Except String Unit)
  | rmIn (p : Place) (dir : EntityDir) : FsOp J (Except String Unit)
  | rm (p : Place) : FsOp J (Except String Unit)
  | rename (src dst : Place) : FsOp J (Except String Unit)
  | rmGit (p : Place) : FsOp J (Except String Unit)
  | renameGit (src dst : Place) : FsOp J (Except String Unit)
  | pathExists (p : Place) : FsOp J Bool
  | gitExists (p : Place) : FsOp J Bool
  | metaExists (p : Place) : FsOp J Bool
  | readdirParent : FsOp J (List Place)
  | stat (p : Place) : FsOp J (Option ℕ)
  /-- `none` when the file is absent or does not parse. -/
  | readMeta (p : Place) : FsOp J (Option MetaDoc)
  | readVars (p : Place) : FsOp J (Option (List GraphVariable))
  /-- `none` when the directory is absent. -/
  | readdir (p : Place) (dir : EntityDir) : FsOp J (Option (List String))
  | readFile (p : Place) (dir : EntityDir) (file : String) : FsOp J (Option (Entity J dir))

variable {J G : Type}

namespace GraphTree

def empty : GraphTree J G := ⟨none, none, fun _ => none, none⟩

def isEmpty (t : GraphTree J G) : Bool :=
  t.metaFile.isNone && t.vars.isNone && (t.dirs .nodes).isNone && (t.dirs .edges).isNone &&
    t.git.isNone

def mkdirIn (t : GraphTree J G) (dir : EntityDir) : GraphTree J G :=
  { t with dirs := Function.update t.dirs dir (some ((t.dirs dir).getD .empty)) }

def rmIn (t : GraphTree J G) (dir : EntityDir) : GraphTree J G :=
  { t with dirs := Function.update t.dirs dir none }

def mkdirFor (t : GraphTree J G) : FileWrite J → GraphTree J G
  | .metaFile _ => t
  | .vars _ => t
  | .entity dir _ => t.mkdirIn dir

/-- Write a file; `none` when its directory is not there. -/
def put (t : GraphTree J G) : FileWrite J → Option (GraphTree J G)
  | .metaFile doc => some { t with metaFile := some (some doc) }
  | .vars vs => some { t with vars := some vs }
  | .entity dir e => (t.dirs dir).map fun files =>
      { t with dirs := Function.update t.dirs dir (some (files.set e.fileName (some e))) }

end GraphTree

namespace Disk

def tree (d : Disk J G) (p : Place) : Option (GraphTree J G) := d.trees.get p

def setTree (d : Disk J G) (p : Place) (t : GraphTree J G) : Disk J G :=
  { d with trees := d.trees.set p t }

def rm (d : Disk J G) (p : Place) : Disk J G := { d with trees := d.trees.delete p }

/-- `mkdir` with `recursive`, then a change inside the tree. -/
def mkdir (d : Disk J G) (p : Place) (f : GraphTree J G → GraphTree J G) : Disk J G :=
  d.setTree p (f ((d.tree p).getD .empty))

def inside (d : Disk J G) (p : Place) (f : GraphTree J G → GraphTree J G) : Disk J G :=
  match d.tree p with
  | none => d
  | some t => d.setTree p (f t)

def noteInstall (d : Disk J G) : Place → Place → GraphTree J G → Disk J G
  | .staging id, .root, t => { d with installs := (id, t) :: d.installs }
  | _, _, _ => d

/-- A directory replaces another one only when that is empty. -/
def rename (d : Disk J G) (src dst : Place) : Except String Unit × Disk J G :=
  match d.tree src, d.tree dst with
  | none, _ => (.error "ENOENT", d)
  | some t, none => (.ok (), ((d.rm src).setTree dst t).noteInstall src dst t)
  | some t, some old =>
    if old.isEmpty then (.ok (), ((d.rm src).setTree dst t).noteInstall src dst t)
    else (.error "ENOTEMPTY", d)

def renameGit (d : Disk J G) (src dst : Place) : Except String Unit × Disk J G :=
  match (d.tree src).bind GraphTree.git, d.tree dst with
  | some git, some t =>
    if t.git.isSome then (.error "ENOTEMPTY", d)
    else (.ok (), (d.inside src fun s => { s with git := none }).inside dst fun t =>
      { t with git := some git })
  | _, _ => (.error "ENOENT", d)

def commitTemp (d : Disk J G) (p : Place) (w : FileWrite J) : Except String Unit × Disk J G :=
  match (d.tree p).bind fun t => t.put w with
  | none => (.error "ENOENT", d)
  | some t => (.ok (), d.setTree p t)

@[simp] theorem tree_setTree_self (d : Disk J G) (p : Place) (t : GraphTree J G) :
    (d.setTree p t).tree p = some t := InsMap.get_set_self _ _ _

theorem tree_setTree (d : Disk J G) (p q : Place) (t : GraphTree J G) :
    (d.setTree p t).tree q = if q = p then some t else d.tree q := InsMap.get_set _ _ _ _

@[simp] theorem tree_rm_self (d : Disk J G) (p : Place) : (d.rm p).tree p = none :=
  InsMap.get_delete_self _ _

theorem tree_rm (d : Disk J G) (p q : Place) :
    (d.rm p).tree q = if q = p then none else d.tree q := InsMap.get_delete _ _ _

@[simp] theorem tree_noteInstall (d : Disk J G) (p q r : Place) (t : GraphTree J G) :
    (d.noteInstall p q t).tree r = d.tree r := by
  unfold noteInstall
  split <;> rfl

theorem tree_inside (d : Disk J G) (p q : Place) (f : GraphTree J G → GraphTree J G) :
    (d.inside p f).tree q = if q = p then (d.tree p).map f else d.tree q := by
  unfold inside
  split
  · rename_i hnone
    by_cases hq : q = p
    · rw [if_pos hq, hq, hnone]
      rfl
    · rw [if_neg hq]
  · rename_i t ht
    rw [tree_setTree, ht]
    rfl

end Disk

namespace FsOp

def failed : {β : Type} → FsOp J β → String → Option β
  | _, mkdirParent, e => some (.error e)
  | _, mkdir _, e => some (.error e)
  | _, mkdirIn _ _, e => some (.error e)
  | _, mkdirFor _ _, e => some (.error e)
  | _, writeTemp _ _, e => some (.error e)
  | _, commitTemp _ _, e => some (.error e)
  | _, rmIn _ _, e => some (.error e)
  | _, rm _, e => some (.error e)
  | _, rename _ _, e => some (.error e)
  | _, rmGit _, e => some (.error e)
  | _, renameGit _ _, e => some (.error e)
  | _, _, _ => none

/-- The effect of an operation that does not fail of itself. Removals are forced: there
may be nothing to remove. -/
def exec : {β : Type} → FsOp J β → Disk J G → β × Disk J G
  | _, mkdirParent, d => (.ok (), d)
  | _, mkdir p, d => (.ok (), d.mkdir p id)
  | _, mkdirIn p dir, d => (.ok (), d.mkdir p fun t => t.mkdirIn dir)
  | _, mkdirFor p w, d => (.ok (), d.mkdir p fun t => t.mkdirFor w)
  | _, writeTemp _ _, d => (.ok (), d)
  | _, commitTemp p w, d => d.commitTemp p w
  | _, rmIn p dir, d => (.ok (), d.inside p fun t => t.rmIn dir)
  | _, rm p, d => (.ok (), d.rm p)
  | _, rename src dst, d => d.rename src dst
  | _, rmGit p, d => (.ok (), d.inside p fun t => { t with git := none })
  | _, renameGit src dst, d => d.renameGit src dst
  | _, pathExists p, d => ((d.tree p).isSome, d)
  | _, gitExists p, d => (((d.tree p).bind GraphTree.git).isSome, d)
  | _, metaExists p, d => (((d.tree p).bind GraphTree.metaFile).isSome, d)
  | _, readdirParent, d => (d.trees.keys.filter (· ≠ .root), d)
  | _, stat p, d => ((d.tree p).map fun _ => d.mtime p, d)
  | _, readMeta p, d => (((d.tree p).bind GraphTree.metaFile).join, d)
  | _, readVars p, d => ((d.tree p).bind GraphTree.vars, d)
  | _, readdir p dir, d => (((d.tree p).bind fun t => t.dirs dir).map InsMap.keys, d)
  | _, readFile p dir file, d =>
    ((((d.tree p).bind fun t => t.dirs dir).bind fun files => files.get file).join, d)

end FsOp

def working : Handler Label (FsOp J) (Disk J G) := fun _ _ o d => o.exec d

def faulty (fails : Label → Option String) : Handler Label (FsOp J) (Disk J G) := fun _ l o d =>
  match (fails l).bind o.failed with
  | some r => (r, d)
  | none => o.exec d

theorem faulty_none {β : Type} {fails : Label → Option String} {l : Label} (h : fails l = none)
    (o : FsOp J β) (d : Disk J G) : faulty fails β l o d = o.exec d := by
  unfold faulty
  rw [h]
  rfl

theorem faulty_some {β : Type} {fails : Label → Option String} {l : Label} {e : String}
    (h : fails l = some e) {o : FsOp J β} {r : β} (ho : o.failed e = some r) (d : Disk J G) :
    faulty fails β l o d = (r, d) := by
  unfold faulty
  rw [h]
  simp only [Option.bind_some, ho]

end FileSystem

section Repository

abbrev Fs (J α : Type) := Prog Label (FsOp J) α

/-- What a call draws from the clock and the random generator. -/
structure CallContext where
  nowIso : String
  stagingId : String
  backupId : String
  deriving DecidableEq, Repr

structure GraphMeta where
  name : String
  version : ℕ
  updatedAt : String
  deriving DecidableEq, Repr

namespace FsGraphRepository

open Prog

variable {J : Type}

section Reading

def normalizeMeta (parsed : MetaDoc) (fallbackName nowIso : String) : GraphMeta where
  name := parsed.name.getD fallbackName
  version := parsed.version.getD 0
  updatedAt := parsed.updatedAt.getD nowIso

def readMetaAt (p : Place) (fallbackName nowIso : String) : Fs J (Option GraphMeta) :=
  (ask ⟨.reading, 0⟩ (.readMeta p)).bind fun parsed =>
    ret (parsed.map fun doc => normalizeMeta doc fallbackName nowIso)

/-- `file.endsWith('.yaml')`. -/
def isYaml (file : String) : Bool := ".yaml".toList.isSuffixOf file.toList

/-- `file.replace(/\.yaml$/i, '')` for a YAML file. -/
def stem (file : String) : String := String.ofList (file.toList.take (file.toList.length - 5))

/-- A record takes its id from the file name when it has none; `none` when that does not
decode, which counts as an error in any case. -/
def identify {dir : EntityDir} (file : String) (record : Entity J dir) : Option (Entity J dir) :=
  (decodeURIComponent (stem file)).map fun fallbackId =>
    record.setId (if record.id ≠ "" then record.id else fallbackId)

def readFiles (p : Place) (dir : EntityDir) : List String → Fs J (List (Entity J dir) × Bool)
  | [] => ret ([], false)
  | file :: rest =>
    if isYaml file then
      (ask ⟨.reading, 1⟩ (.readFile p dir file)).bind fun record =>
        (readFiles p dir rest).bind fun result =>
          match record.bind (identify file) with
          | none => ret (result.1, true)
          | some item => ret (item :: result.1, result.2)
    else readFiles p dir rest

def readEntitiesFromDir (p : Place) (dir : EntityDir) : Fs J (List (Entity J dir) × Bool) :=
  (ask ⟨.reading, 2⟩ (.readdir p dir)).bind fun files =>
    match files with
    | none => ret ([], false)
    | some files => readFiles p dir files

def normalizeVariables (raw : List GraphVariable) : Option (List GraphVariable) :=
  let out := raw.filter fun v => v.key ≠ ""
  if out = [] then none else some out

def readVariablesFromBase (p : Place) : Fs J (Option (List GraphVariable)) :=
  (ask ⟨.reading, 3⟩ (.readVars p)).bind fun raw => ret (raw.bind normalizeVariables)

def readFromWorkingTree (name nowIso : String) : Fs J (Except String (Option (PersistedGraph J))) :=
  (readMetaAt .root name nowIso).bind fun meta? =>
    match meta? with
    | none => ret (.ok none)
    | some graphMeta =>
      (readEntitiesFromDir .root .nodes).bind fun nodesRes =>
        (readEntitiesFromDir .root .edges).bind fun edgesRes =>
          if nodesRes.2 || edgesRes.2 then ret (.error "Working tree read error")
          else
            (readVariablesFromBase .root).bind fun vars =>
              ret (.ok (some
                { name := graphMeta.name
                  version := graphMeta.version
                  updatedAt := graphMeta.updatedAt
                  nodes := nodesRes.1
                  edges := edgesRes.1
                  vars := vars }))

/-- The clone through JSON that `get` returns is the graph itself. -/
def get (name nowIso : String) : Fs J (Except String (Option (PersistedGraph J))) :=
  readFromWorkingTree name nowIso

end Reading

section Writing

def mutate (site : Site) (step : ℕ) (o : FsOp J (Except String Unit)) :
    Fs J (Except String Unit) := ask ⟨site, step⟩ o

/-- `atomicWriteFile` of a YAML document, numbered from `step`. -/
def writeYamlAtBase (site : Site) (p : Place) (step : ℕ) (w : FileWrite J) :
    Fs J (Except String Unit) :=
  (mutate site step (.mkdirFor p w)).andThen fun _ =>
    (mutate site (step + 1) (.writeTemp p w)).andThen fun _ =>
      mutate site (step + 2) (.commitTemp p w)

def writeAll (site : Site) (p : Place) : ℕ → List (FileWrite J) → Fs J (Except String Unit)
  | _, [] => ret (.ok ())
  | step, w :: rest =>
    (writeYamlAtBase site p step w).andThen fun _ => writeAll site p (step + 3) rest

def metaDoc (graph : PersistedGraph J) : MetaDoc :=
  ⟨some graph.name, some graph.version, some graph.updatedAt⟩

def entityWrites (graph : PersistedGraph J) : List (FileWrite J) :=
  (graph.entities .nodes).map (.entity .nodes) ++ (graph.entities .edges).map (.entity .edges)

/-- The files of a graph in the order they are written: nodes, edges, variables, meta. -/
def graphWrites (graph : PersistedGraph J) : List (FileWrite J) :=
  entityWrites graph ++ [.vars (graph.vars.getD []), .metaFile (metaDoc graph)]

def createStagingTree (stagingId : String) (graph : PersistedGraph J) :
    Fs J (Except String Unit) :=
  (mutate .staging 0 .mkdirParent).andThen fun _ =>
    (mutate .staging 1 (.mkdir (.staging stagingId))).andThen fun _ =>
      (mutate .staging 2 (.mkdirIn (.staging stagingId) .nodes)).andThen fun _ =>
        (mutate .staging 3 (.mkdirIn (.staging stagingId) .edges)).andThen fun _ =>
          writeAll .staging (.staging stagingId) 4 (graphWrites graph)

/-- Errors of this step are all ignored. -/
def restoreAuxiliaryEntries (backup : Place) : Fs J Unit :=
  (ask ⟨.auxiliary, 0⟩ (.gitExists backup)).bind fun found =>
    if found then
      (mutate .auxiliary 1 (.rmGit .root)).bind fun _ =>
        (mutate .auxiliary 2 (.renameGit backup .root)).bind fun _ => ret ()
    else ret ()

def discardTempDir (step : ℕ) (p : Place) : Fs J Unit :=
  (mutate .discard step (.rm p)).bind fun _ => ret ()

/-- How far the swap got. -/
structure SwapProgress where
  result : Except String Unit
  rootRenamed : Bool
  newTreeActive : Bool

/-- The `try` block of the swap. -/
def swapSteps (staging backup : Place) : Fs J SwapProgress :=
  (mutate .swap 0 .mkdirParent).bind fun parent =>
    match parent with
    | .error e => ret ⟨.error e, false, false⟩
    | .ok _ =>
      (mutate .swap 1 (.rename .root backup)).bind fun away =>
        match away with
        | .error e => ret ⟨.error e, false, false⟩
        | .ok _ =>
          (mutate .swap 2 (.rename staging .root)).bind fun active =>
            match active with
            | .error e => ret ⟨.error e, true, false⟩
            | .ok _ => (restoreAuxiliaryEntries backup).bind fun _ => ret ⟨.ok (), true, true⟩

/-- The `catch` block of the swap; its own errors are ignored. -/
def undoSwap (backup : Place) (progress : SwapProgress) : Fs J Unit :=
  (if progress.newTreeActive then (mutate .undo 0 (.rm .root)).bind fun _ => ret ()
    else ret ()).bind fun _ =>
      if progress.rootRenamed then (mutate .undo 1 (.rename backup .root)).bind fun _ => ret ()
      else ret ()

def swapWorkingTree (staging backup : Place) : Fs J (Except String Unit) :=
  (swapSteps staging backup).bind fun progress =>
    (match progress.result with
      | .error _ => undoSwap backup progress
      | .ok _ => ret ()).bind fun _ =>
        (discardTempDir 0 staging).bind fun _ =>
          (discardTempDir 1 backup).bind fun _ => ret progress.result

def persistGraph (ctx : CallContext) (target : PersistedGraph J) : Fs J (Except String Unit) :=
  (createStagingTree ctx.stagingId target).andThen fun _ =>
    (swapWorkingTree (.staging ctx.stagingId) (.backup ctx.backupId)).bind fun swapped =>
      match swapped with
      | .error e => (discardTempDir 2 (.staging ctx.stagingId)).bind fun _ => ret (.error e)
      | .ok _ => ret (.ok ())

/-- `clearDirectory` of both directories of the root. -/
def clearDirectories : Fs J (Except String Unit) :=
  (mutate .rollback 0 (.rmIn .root .nodes)).andThen fun _ =>
    (mutate .rollback 1 (.mkdirIn .root .nodes)).andThen fun _ =>
      (mutate .rollback 2 (.rmIn .root .edges)).andThen fun _ =>
        mutate .rollback 3 (.mkdirIn .root .edges)

/-- The writes of a rollback: those of the graph, or an empty graph when there was none. -/
def restoredWrites (graph : Option (PersistedGraph J)) (nowIso : String) : List (FileWrite J) :=
  match graph with
  | none => [.vars [], .metaFile ⟨some "main", some 0, some nowIso⟩]
  | some g => graphWrites g

def restoreWorkingTree (graph : Option (PersistedGraph J)) (nowIso : String) : Fs J Unit :=
  (clearDirectories.andThen fun _ =>
    writeAll .rollback .root 4 (restoredWrites graph nowIso)).bind fun _ => ret ()

end Writing

section Upsert

def upsertLocked (ctx : CallContext) (req : PersistedGraphUpsertRequest J) :
    Fs J (Except (UpsertError J) (PersistedGraph J)) :=
  (get req.name ctx.nowIso).bind fun existing =>
    match existing with
    | .error e => ret (.error (.readError e))
    | .ok existing =>
      match planUpsert ctx.nowIso req existing with
      | .error e => ret (.error e)
      | .ok target =>
        (persistGraph ctx target).bind fun persisted =>
          match persisted with
          | .ok _ => ret (.ok target)
          | .error msg =>
            (restoreWorkingTree existing ctx.nowIso).bind fun _ =>
              ret (.error (.persistFailed msg))

def upsert (schema : List TemplateNodeSchema) (ctx : CallContext)
    (req : PersistedGraphUpsertRequest J) : Fs J (Except (UpsertError J) (PersistedGraph J)) :=
  match validatePersistedGraph req schema with
  | .error message => ret (.error (.invalid message))
  | .ok _ => upsertLocked ctx req

end Upsert

section Initialisation

def selectNewest : Option (Place × ℕ) → List Place → Fs J (Option Place)
  | newest, [] => ret (newest.map Prod.fst)
  | newest, entry :: rest =>
    (ask ⟨.initialising, 0⟩ (.stat entry)).bind fun mtime =>
      match mtime, newest with
      | none, _ => selectNewest newest rest
      | some t, none => selectNewest (some (entry, t)) rest
      | some t, some (best, tbest) =>
        if t > tbest then selectNewest (some (entry, t)) rest
        else selectNewest (some (best, tbest)) rest

/-- The newest directory; the first of several, and none when no `stat` succeeds. -/
def selectNewestDir (entries : List Place) : Fs J (Option Place) := selectNewest none entries

def discardAll : List Place → Fs J Unit
  | [] => ret ()
  | p :: rest => (mutate .initialising 1 (.rm p)).bind fun _ => discardAll rest

def isStaging : Place → Bool
  | .staging _ => true
  | _ => false

def isBackup : Place → Bool
  | .backup _ => true
  | _ => false

/-- The branch of the clean-up for a missing root: the newest backup becomes the root. The
other backups remain to be discarded. -/
def restoreNewestBackup (backupDirs : List Place) : Fs J (List Place) :=
  (selectNewestDir backupDirs).bind fun candidate =>
    match candidate with
    | none => ret backupDirs
    | some c =>
      (mutate .initialising 5 (.rename c .root)).bind fun _ => ret (backupDirs.erase c)

def cleanupSwapArtifacts : Fs J (Except String Unit) :=
  (mutate .initialising 2 .mkdirParent).andThen fun _ =>
    (ask ⟨.initialising, 3⟩ .readdirParent).bind fun entries =>
      (ask ⟨.initialising, 4⟩ (.pathExists .root)).bind fun rootExists =>
        (if !rootExists && !(entries.filter isBackup).isEmpty then
          restoreNewestBackup (entries.filter isBackup)
        else ret (entries.filter isBackup)).bind fun backupDirs =>
          (discardAll (entries.filter isStaging)).bind fun _ =>
            (discardAll backupDirs).bind fun _ => ret (.ok ())

def initIfNeeded (nowIso : String) : Fs J (Except String Unit) :=
  cleanupSwapArtifacts.andThen fun _ =>
    (mutate .initialising 6 (.mkdir .root)).andThen fun _ =>
      (mutate .initialising 7 (.mkdirIn .root .nodes)).andThen fun _ =>
        (mutate .initialising 8 (.mkdirIn .root .edges)).andThen fun _ =>
          (ask ⟨.initialising, 9⟩ (.metaExists .root)).bind fun found =>
            if found then ret (.ok ())
            else writeYamlAtBase .initialising .root 10
              (.metaFile ⟨some "main", some 0, some nowIso⟩)

end Initialisation

end FsGraphRepository

end Repository

end Agyn
