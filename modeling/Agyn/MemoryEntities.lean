import Mathlib.Data.List.Basic
import Mathlib.Data.List.Nodup

/-!
The table of memory entities and the repository over it: each row is a segment of a path below its
parent, in one scope.
-/
namespace Agyn.Memory

/-- A row of `memory_entities`. An id is the number of rows created before it: a fresh uuid. -/
structure MemoryEntity where
  id : ℕ
  nodeId : String
  threadId : Option String
  parentId : Option ℕ
  name : List Char
  content : Option (List Char)
  deriving DecidableEq

structure RepoFilter where
  nodeId : String
  threadId : Option String
  deriving DecidableEq

structure EntityTable where
  rows : List MemoryEntity
  nextId : ℕ
  deriving DecidableEq

namespace MemoryEntity

def scope (row : MemoryEntity) : RepoFilter := ⟨row.nodeId, row.threadId⟩

/-- The columns of `uniq_memory_entity_path`. -/
def key (row : MemoryEntity) : RepoFilter × Option ℕ × List Char :=
  (row.scope, row.parentId, row.name)

end MemoryEntity

def findFirst (rows : List MemoryEntity) (filter : RepoFilter) (parentId : Option ℕ)
    (segment : List Char) : Option MemoryEntity :=
  rows.find? fun row => row.key = (filter, parentId, segment)

/-- `traverse` without `createMissing`, below `parentId` with the row found last. -/
def traverse (rows : List MemoryEntity) (filter : RepoFilter) :
    Option ℕ → Option MemoryEntity → List (List Char) → Option MemoryEntity
  | _, current, [] => current
  | parentId, _, segment :: segments =>
    match findFirst rows filter parentId segment with
    | none => none
    | some row => traverse rows filter (some row.id) (some row) segments

def resolvePath (rows : List MemoryEntity) (filter : RepoFilter) (segments : List (List Char)) :
    Option MemoryEntity :=
  traverse rows filter none none segments

namespace EntityTable

def empty : EntityTable := ⟨[], 0⟩

def newRow (t : EntityTable) (filter : RepoFilter) (parentId : Option ℕ) (segment : List Char) :
    MemoryEntity :=
  ⟨t.nextId, filter.nodeId, filter.threadId, parentId, segment, none⟩

def create (t : EntityTable) (filter : RepoFilter) (parentId : Option ℕ) (segment : List Char) :
    EntityTable :=
  ⟨t.rows ++ [t.newRow filter parentId segment], t.nextId + 1⟩

/-- `traverse` with `createMissing`. -/
def traverseCreating (filter : RepoFilter) :
    EntityTable → Option ℕ → Option MemoryEntity → List (List Char) →
      Option MemoryEntity × EntityTable
  | t, _, current, [] => (current, t)
  | t, parentId, _, segment :: segments =>
    match findFirst t.rows filter parentId segment with
    | some row => traverseCreating filter t (some row.id) (some row) segments
    | none =>
      traverseCreating filter (t.create filter parentId segment) (some t.nextId)
        (some (t.newRow filter parentId segment)) segments

def ensurePath (t : EntityTable) (filter : RepoFilter) (segments : List (List Char)) :
    Option MemoryEntity × EntityTable :=
  traverseCreating filter t none none segments

/-- The content of one row is replaced; the database refuses an id that no row has. -/
def updateContent (t : EntityTable) (entityId : ℕ) (content : List Char) : Option EntityTable :=
  if t.rows.any (·.id = entityId) then
    some { t with rows := t.rows.map fun row =>
      if row.id = entityId then { row with content := some content } else row }
  else none

def entityHasChildren (t : EntityTable) (entityId : ℕ) : Bool :=
  t.rows.any (·.parentId = some entityId)

def listAll (t : EntityTable) (filter : RepoFilter) : List MemoryEntity :=
  t.rows.filter (·.scope = filter)

def listChildren (t : EntityTable) (filter : RepoFilter) (parentId : Option ℕ) :
    List (MemoryEntity × Bool) :=
  ((t.listAll filter).filter (·.parentId = parentId)).map fun row =>
    (row, t.entityHasChildren row.id)

/-- `ON DELETE CASCADE`, for rows that are stored after their parents: `gone` are the ids deleted
so far. -/
def cascade : List ℕ → List MemoryEntity → List MemoryEntity
  | _, [] => []
  | gone, row :: rows =>
    if row.id ∈ gone ∨ row.parentId ∈ gone.map some then cascade (row.id :: gone) rows
    else row :: cascade gone rows

/-- The number of rows deleted does not count those that go with their parents. -/
def deleteMany (t : EntityTable) (ids : List ℕ) : ℕ × EntityTable :=
  ((t.rows.filter (·.id ∈ ids)).length, { t with rows := cascade ids t.rows })

def childrenByParent (nodes : List MemoryEntity) (id : ℕ) : List ℕ :=
  (nodes.filter (·.parentId = some id)).map (·.id)

/-- The loop of `deleteSubtree`. The queue is taken from its end, which stands first here. -/
def collect (nodes : List MemoryEntity) : ℕ → List ℕ → List ℕ → List ℕ
  | 0, _, descendants => descendants
  | _, [], descendants => descendants
  | fuel + 1, current :: queue, descendants =>
    if current ∈ descendants then collect nodes fuel queue descendants
    else collect nodes fuel ((childrenByParent nodes current).reverse ++ queue)
      (current :: descendants)

/-- Every row is put into the queue once at most, below its parent. -/
def deleteSubtree (t : EntityTable) (filter : RepoFilter) (entityId : Option ℕ) :
    ℕ × EntityTable :=
  match entityId with
  | none => t.deleteMany ((t.listAll filter).map (·.id))
  | some id =>
    let nodes := t.listAll filter
    if nodes.length = 0 then (0, t)
    else t.deleteMany (collect nodes (nodes.length + 1) [id] [])

end EntityTable

end Agyn.Memory
