import Agyn.InsertionMap
import Agyn.MemoryEntities
import Agyn.MemoryPaths

/-!
The memory service: documents are appended to, updated, listed, read, deleted and dumped by path.
-/
namespace Agyn.Memory

open EntityTable

inductive MemoryScope where
  | global
  | perThread
  deriving DecidableEq

structure MemoryBinding where
  nodeId : String
  scope : MemoryScope
  threadId : Option String
  deriving DecidableEq

def buildFilter (m : MemoryBinding) : Except String RepoFilter :=
  match m.scope with
  | .global => .ok ⟨m.nodeId, none⟩
  | .perThread =>
    let threadId := trim (m.threadId.getD "")
    if threadId = "" then .error "threadId required for perThread scope"
    else .ok ⟨m.nodeId, some threadId⟩

def located (m : MemoryBinding) (path : List Char) (allowRoot : Bool) :
    Except String (RepoFilter × List (List Char)) :=
  match buildFilter m, normalizePath path allowRoot with
  | .error e, _ => .error e
  | .ok _, .error e => .error e
  | .ok filter, .ok norm => .ok (filter, getSegments norm)

/-- The content after `data` is appended to `base`, on a line of its own. -/
def appended (base data : List Char) : List Char :=
  let needsSeparator := 0 < base.length ∧ base.getLast? ≠ some '\n' ∧ data.head? ≠ some '\n'
  if base.length = 0 then data else base ++ (if needsSeparator then ['\n'] else []) ++ data

/-- `value.split(sep)` for a separator that is not empty; `skip` characters of a separator found are
passed over. -/
def splitText (sep : List Char) : ℕ → List Char → List (List Char)
  | _, [] => [[]]
  | skip + 1, _ :: cs => splitText sep skip cs
  | 0, c :: cs =>
    if sep <+: c :: cs then [] :: splitText sep (sep.length - 1) cs
    else (splitText sep 0 cs).modifyHead (c :: ·)

structure StatResult where
  exists_ : Bool
  hasSubdocs : Bool
  contentLength : ℕ
  deriving DecidableEq

structure ListEntry where
  name : List Char
  hasSubdocs : Bool
  deriving DecidableEq

namespace EntityTable

/-- What a rejected database call leaves to the caller. -/
def written (t : EntityTable) : Option EntityTable → Except String Unit × EntityTable
  | some t' => (.ok (), t')
  | none => (.error "Record to update not found.", t)

def ensureDir (t : EntityTable) (m : MemoryBinding) (path : List Char) :
    Except String Unit × EntityTable :=
  match located m path true with
  | .error e => (.error e, t)
  | .ok (_, []) => (.ok (), t)
  | .ok (filter, segments) => (.ok (), (t.ensurePath filter segments).2)

def append (t : EntityTable) (m : MemoryBinding) (path data : List Char) :
    Except String Unit × EntityTable :=
  match located m path false with
  | .error e => (.error e, t)
  | .ok (_, []) => (.error "append requires document path", t)
  | .ok (filter, segments) =>
    match t.ensurePath filter segments with
    | (none, t) => (.error "append requires document path", t)
    | (some entity, t) =>
      t.written (t.updateContent entity.id (appended (entity.content.getD []) data))

def update (t : EntityTable) (m : MemoryBinding) (path oldStr newStr : List Char) :
    Except String ℕ × EntityTable :=
  match located m path false with
  | .error e => (.error e, t)
  | .ok (filter, segments) =>
    match resolvePath t.rows filter segments with
    | none => (.error "ENOENT: document not found", t)
    | some entity =>
      if oldStr.length = 0 then (.ok 0, t)
      else
        let parts := splitText oldStr 0 (entity.content.getD [])
        let count := parts.length - 1
        if count = 0 then (.ok 0, t)
        else
          let (res, t) := t.written (t.updateContent entity.id (newStr.intercalate parts))
          (res.map fun _ => count, t)

def delete (t : EntityTable) (m : MemoryBinding) (rawPath : Option (List Char)) :
    Except String ℕ × EntityTable :=
  match located m (rawPath.getD ['/']) true with
  | .error e => (.error e, t)
  | .ok (filter, []) =>
    let (removed, t) := t.deleteSubtree filter none
    (.ok removed, t)
  | .ok (filter, segments) =>
    match resolvePath t.rows filter segments with
    | none => (.ok 0, t)
    | some entity =>
      let (removed, t) := t.deleteSubtree filter (some entity.id)
      (.ok removed, t)

def stat (t : EntityTable) (m : MemoryBinding) (path : List Char) : Except String StatResult :=
  match located m path true with
  | .error e => .error e
  | .ok (filter, []) => .ok ⟨true, 0 < (t.listChildren filter none).length, 0⟩
  | .ok (filter, segments) =>
    match resolvePath t.rows filter segments with
    | none => .ok ⟨false, false, 0⟩
    | some entity =>
      .ok ⟨true, t.entityHasChildren entity.id,
        (entity.content.map fun c => (String.ofList c).utf8ByteSize).getD 0⟩

def listEntries (t : EntityTable) (filter : RepoFilter) (parentId : Option ℕ) : List ListEntry :=
  (t.listChildren filter parentId).map fun e => ⟨e.1.name, e.2⟩

def list (t : EntityTable) (m : MemoryBinding) (rawPath : List Char) :
    Except String (List ListEntry) :=
  match located m (if rawPath = [] then ['/'] else rawPath) true with
  | .error e => .error e
  | .ok (filter, []) => .ok (t.listEntries filter none)
  | .ok (filter, segments) =>
    match resolvePath t.rows filter segments with
    | none => .ok []
    | some parent => .ok (t.listEntries filter (some parent.id))

def read (t : EntityTable) (m : MemoryBinding) (path : List Char) : Except String (List Char) :=
  match located m path true with
  | .error e => .error e
  | .ok (_, []) => .ok []
  | .ok (filter, segments) =>
    match resolvePath t.rows filter segments with
    | none => .error "ENOENT: document not found"
    | some entity => .ok (entity.content.getD [])

end EntityTable

/-- The path of an entity over its parents; it has none when the parents go on for too long. -/
def pathOf (entities : List MemoryEntity) : ℕ → MemoryEntity → Option (List Char)
  | 0, _ => none
  | fuel + 1, entity =>
    match entity.parentId.bind fun id => entities.find? (·.id = id) with
    | none => some ('/' :: entity.name)
    | some parent =>
      (pathOf entities fuel parent).map fun parentPath => parentPath ++ '/' :: entity.name

/-- `buildPathMap`. -/
def pathsOf (entities : List MemoryEntity) : Option (List (MemoryEntity × List Char)) :=
  entities.mapM fun entity =>
    (pathOf entities (entity.id + 1) entity).map fun path => (entity, path)

def dataOf (paths : List (MemoryEntity × List Char)) : InsMap (List Char) (List Char) :=
  .ofEntries (paths.filterMap fun e => e.1.content.map fun content => (e.2, content))

def dirsOf (entities : List MemoryEntity) (paths : List (MemoryEntity × List Char)) :
    InsSet (List Char) :=
  .ofList ((paths.filter fun e => entities.any (·.parentId = some e.1.id)).map (·.2))

structure Dump where
  binding : MemoryBinding
  data : InsMap (List Char) (List Char)
  dirs : InsSet (List Char)

/-- `getAll` of the entities that the database lists, in whatever order. -/
def getAll (entities : List MemoryEntity) : Option (InsMap (List Char) (List Char)) :=
  (pathsOf entities).map dataOf

def dump (m : MemoryBinding) (entities : List MemoryEntity) : Option Dump :=
  (pathsOf entities).map fun paths => ⟨m, dataOf paths, dirsOf entities paths⟩

end Agyn.Memory
