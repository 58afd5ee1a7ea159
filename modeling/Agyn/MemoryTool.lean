import Agyn.MemoryCalls
import Agyn.MemoryStates

/-!
The memory tool: its arguments and paths, the commands it passes on to the memory service and the
envelopes it answers with. A delete removes the subtree that its path leads to, and through the
tool no more than what a list of the same path shows.
-/
namespace Agyn.Memory

open EntityTable

inductive RawField where
  | absent
  | text (s : String)
  | other
  deriving DecidableEq

structure RawArgs where
  path : RawField
  command : RawField
  content : RawField
  oldContent : RawField
  /-- There are fields that the schema does not have. -/
  unknownKeys : Bool
  deriving DecidableEq

structure ToolArgs where
  path : String
  command : String
  content : Option String
  oldContent : Option String
  deriving DecidableEq

def RawField.text? : RawField → Option String
  | .text s => some s
  | _ => none

/-- `z.string().optional()`. -/
def RawField.optional : RawField → Option (Option String)
  | .absent => some none
  | .text s => some (some s)
  | .other => none

/-- `UnifiedMemoryToolStaticConfigSchema.safeParse`. -/
def RawArgs.safeParse (raw : RawArgs) : Option ToolArgs :=
  if raw.unknownKeys then none
  else match raw.path, raw.command, raw.content.optional, raw.oldContent.optional with
    | .text path, .text command, some content, some oldContent =>
      some ⟨path, command, content, oldContent⟩
    | _, _, _, _ => none

structure ToolError where
  message : String
  code : Option String
  deriving DecidableEq

inductive ToolResult where
  | content (content : List Char)
  | entries (entries : List ListEntry)
  | replaced (count : ℕ)
  | removed (count : ℕ)
  deriving DecidableEq

/-- What `makeEnvelope` writes; `ok` tells which outcome it has. -/
structure Envelope where
  command : String
  path : List Char
  outcome : Except ToolError (Option ToolResult)

/-- The errors of the service have no code of their own. -/
def extractError (message : String) : ToolError :=
  ⟨message, if "ENOENT".toList <:+: message.toList then some "ENOENT" else none⟩

/-- `/\/+?/g` matches one slash at a time, so that its replacement changes nothing. -/
def normalizePathRuntime (input : List Char) : Except String (List Char) :=
  if input = [] then .error "path is required"
  else
    let p := replaceRuns '\\' '/' false input
    let p := if p.head? = some '/' then p else '/' :: p
    let p := if 1 < p.length ∧ p.getLast? = some '/' then stripEnd '/' p else p
    if ['.', '.'] <:+: p then .error "invalid path: \"..\" not allowed"
    else if '$' ∈ p then .error "invalid path: \"$\" not allowed"
    else .ok p

/-- `path || '/'`. -/
def orRoot (path : List Char) : List Char := if path = [] then ['/'] else path

/-- `message || fallback`. -/
def orMessage (message fallback : String) : String := if message = "" then fallback else message

/-- `MemoryNode.getMemoryService`: the memory of the node, or the thread's memory of it. -/
def getMemoryService (nodeId : String) (scope : MemoryScope) (threadId : Option String) :
    MemoryBinding :=
  ⟨nodeId, scope, if scope = .perThread then threadId else none⟩

/-- The tool with the source of memories that is connected to it. -/
structure MemoryTool where
  memoryFactory : Option (Option String → Except String MemoryBinding)

namespace MemoryTool

def service (tool : MemoryTool) (threadId : Option String) : Except String MemoryBinding :=
  match tool.memoryFactory with
  | none => .error "Memory not connected"
  | some factory => factory threadId

def answer {α : Type} (result : α → Option ToolResult) (res : Except String α) :
    Except ToolError (Option ToolResult) :=
  (res.map result).mapError extractError

def run (m : MemoryBinding) (args : ToolArgs) (path : List Char) (t : EntityTable) :
    Except ToolError (Option ToolResult) × EntityTable :=
  if args.command = "read" then (answer (some ∘ .content) (t.read m path), t)
  else if args.command = "list" then (answer (some ∘ .entries) (t.list m (orRoot path)), t)
  else if args.command = "append" then
    match args.content with
    | none => (.error ⟨"content is required for append", some "EINVAL"⟩, t)
    | some content =>
      let (res, t) := t.append m path content.toList
      (answer (fun _ => none) res, t)
  else if args.command = "update" then
    match args.content, args.oldContent with
    | some content, some oldContent =>
      let (res, t) := t.update m path oldContent.toList content.toList
      (answer (some ∘ .replaced) res, t)
    | _, _ => (.error ⟨"oldContent and content are required for update", some "EINVAL"⟩, t)
  else if args.command = "delete" then
    let (res, t) := t.delete m (some path)
    (answer (some ∘ .removed) res, t)
  else (.error ⟨"unknown command: " ++ args.command, some "EINVAL"⟩, t)

def execute (tool : MemoryTool) (raw : RawArgs) (threadId : Option String) (t : EntityTable) :
    Envelope × EntityTable :=
  match raw.safeParse with
  | none =>
    (⟨raw.command.text?.getD "unknown", orRoot (raw.path.text?.getD "/").toList,
      .error ⟨"invalid arguments", some "EINVAL"⟩⟩, t)
  | some args =>
    let path := if args.command = "list" then orRoot args.path.toList else args.path.toList
    match normalizePathRuntime path with
    | .error e =>
      (⟨args.command, orRoot path, .error ⟨orMessage e "invalid path", some "EINVAL"⟩⟩, t)
    | .ok path =>
      match tool.service threadId with
      | .error e =>
        (⟨args.command, path, .error ⟨orMessage e "memory not connected", some "ENOTMEM"⟩⟩, t)
      | .ok m =>
        let (outcome, t) := run m args path t
        (⟨args.command, path, outcome⟩, t)

end MemoryTool

/-- The row that a path leads to; the root has none. -/
def EntityTable.leadsTo (t : EntityTable) (filter : RepoFilter) :
    List (List Char) → Option (Option ℕ)
  | [] => some none
  | segments => (resolvePath t.rows filter segments).map fun entity => some entity.id

/-- A delete removes the rows of the subtree that its path leads to and tells their number. -/
structure DeletesSubtree (t : EntityTable) (m : MemoryBinding) (rawPath : Option (List Char)) :
    Prop where
  refused : ∀ e, located m (rawPath.getD ['/']) true = .error e →
    t.delete m rawPath = (.error e, t)
  removed : ∀ filter segments, located m (rawPath.getD ['/']) true = .ok (filter, segments) →
    ∃ n t', t.delete m rawPath = (.ok n, t') ∧ Removes t t' n fun row =>
      ∃ top, t.leadsTo filter segments = some top ∧ InSubtree t filter top row

def Listed (tool : MemoryTool) (raw : RawArgs) (threadId : Option String) (t : EntityTable)
    (row : MemoryEntity) : Prop :=
  ∃ path p m filter segments top, raw.path = .text path ∧
    normalizePathRuntime path.toList = .ok p ∧ tool.service threadId = .ok m ∧
    located m p true = .ok (filter, segments) ∧ t.leadsTo filter segments = some top ∧
    (tool.execute { raw with command := .text "list" } threadId t).1.outcome =
      .ok (some (.entries (t.listEntries filter top))) ∧
    InSubtree t filter top row

section Deleting

variable {t : EntityTable} {m : MemoryBinding} {filter : RepoFilter}
  {segments : List (List Char)} {path : List Char}

theorem mem_listed_of_leadsTo {top : Option ℕ} (h : t.leadsTo filter segments = some top) :
    ∀ id, top = some id → ∃ row ∈ t.listAll filter, row.id = id := by
  rintro id rfl
  cases segments with
  | nil => simp [leadsTo] at h
  | cons segment segments =>
    obtain ⟨entity, hentity, heq⟩ := Option.map_eq_some_iff.mp h
    obtain ⟨hmem, hscope⟩ := mem_of_traverse (List.cons_ne_nil _ _) hentity
    exact ⟨entity, by simpa [listAll] using ⟨hmem, hscope⟩, Option.some.inj heq⟩

theorem removes_none (t : EntityTable) : Removes t t 0 fun _ => False :=
  ⟨.refl _, fun row hrow => by simpa using hrow, rfl, rfl⟩

/-- What is deleted, by what the path leads to. -/
theorem delete_eq {rawPath : Option (List Char)}
    (hlocated : located m (rawPath.getD ['/']) true = .ok (filter, segments)) :
    t.delete m rawPath = match t.leadsTo filter segments with
      | none => (.ok 0, t)
      | some top => (.ok (t.deleteSubtree filter top).1, (t.deleteSubtree filter top).2) := by
  cases segments with
  | nil => simp [EntityTable.delete, hlocated, leadsTo]
  | cons segment segments =>
    rw [EntityTable.delete, hlocated, leadsTo]
    · dsimp only
      cases resolvePath t.rows filter (segment :: segments) <;> rfl
    · simp

theorem Rooted.deletesSubtree (h : Rooted t.rows) (m : MemoryBinding)
    (rawPath : Option (List Char)) : DeletesSubtree t m rawPath where
  refused := fun e he => by rw [EntityTable.delete, he]
  removed := by
    intro filter segments hlocated
    rw [delete_eq hlocated]
    cases hleads : t.leadsTo filter segments with
    | none => exact ⟨0, t, rfl, by simpa using removes_none t⟩
    | some top =>
      refine ⟨_, _, rfl, ?_⟩
      simpa using h.removes_deleteSubtree (mem_listed_of_leadsTo hleads)

theorem located_orRoot (m : MemoryBinding) (path : List Char) :
    located m (orRoot path) true = located m path true := by
  unfold orRoot
  split_ifs with hnil
  · subst hnil
    rfl
  · rfl

/-- What is listed, by what the path leads to. -/
theorem list_eq_of_leadsTo {top : Option ℕ}
    (hlocated : located m path true = .ok (filter, segments))
    (hleads : t.leadsTo filter segments = some top) :
    t.list m (orRoot path) = .ok (t.listEntries filter top) := by
  have hne : orRoot path ≠ [] := by
    unfold orRoot
    split_ifs with hnil
    · exact List.cons_ne_nil _ _
    · exact hnil
  rw [EntityTable.list, if_neg hne, located_orRoot, hlocated]
  cases segments with
  | nil =>
    obtain rfl := Option.some.inj hleads
    rfl
  | cons segment segments =>
    obtain ⟨entity, hentity, rfl⟩ := Option.map_eq_some_iff.mp hleads
    simp [hentity]

variable {tool : MemoryTool} {raw : RawArgs} {args : ToolArgs} {threadId : Option String}
  {p : List Char}

theorem RawArgs.safeParse_eq_some (h : raw.safeParse = some args) :
    raw.path = .text args.path ∧ raw.command = .text args.command ∧
      ∀ command, { raw with command := .text command }.safeParse =
        some { args with command := command } := by
  unfold RawArgs.safeParse at h
  split_ifs at h with hkeys
  split at h
  · rename_i hpath hcommand hcontent hold
    obtain rfl := Option.some.inj h
    refine ⟨hpath, hcommand, fun command => ?_⟩
    simp [RawArgs.safeParse, hkeys, hpath, hcontent, hold]
  · cases h

theorem normalizePathRuntime_ne_nil (h : normalizePathRuntime path = .ok p) :
    orRoot path = path := by
  unfold normalizePathRuntime at h
  split_ifs at h with hnil
  rw [orRoot, if_neg hnil]

/-- A delete through the tool changes nothing or passes a path on to the service; a list then
passes on the same path. -/
theorem MemoryTool.execute_delete (tool : MemoryTool) (threadId : Option String)
    (t : EntityTable) (hcommand : raw.command = .text "delete") :
    (tool.execute raw threadId t).2 = t ∨ ∃ path p m, raw.path = .text path ∧
      normalizePathRuntime path.toList = .ok p ∧ tool.service threadId = .ok m ∧
      (tool.execute raw threadId t).2 = (t.delete m (some p)).2 ∧
      (tool.execute { raw with command := .text "list" } threadId t).1.outcome =
        answer (some ∘ .entries) (t.list m (orRoot p)) := by
  cases hparse : raw.safeParse with
  | none => exact .inl (by rw [execute, hparse])
  | some args =>
    obtain ⟨hpath, hargs, hlist⟩ := RawArgs.safeParse_eq_some hparse
    have hdelete : args.command = "delete" := RawField.text.inj (hargs.symm.trans hcommand)
    cases hnorm : normalizePathRuntime args.path.toList with
    | error e => exact .inl (by simp [execute, hparse, hdelete, hnorm])
    | ok p =>
      cases hservice : tool.service threadId with
      | error e => exact .inl (by simp [execute, hparse, hdelete, hnorm, hservice])
      | ok m =>
        refine .inr ⟨args.path, p, m, hpath, hnorm, rfl, ?_, ?_⟩
        · simp [execute, hparse, hdelete, hnorm, hservice, run]
        · simp [execute, hlist, normalizePathRuntime_ne_nil hnorm, hnorm, hservice, run]

/-- What a delete through the tool removes is listed under its path. -/
theorem Rooted.executeDelete (h : Rooted t.rows) (tool : MemoryTool) (threadId : Option String)
    (hcommand : raw.command = .text "delete") :
    ∃ n gone, Removes t (tool.execute raw threadId t).2 n gone ∧
      ∀ row, gone row → Listed tool raw threadId t row := by
  rcases MemoryTool.execute_delete tool threadId t hcommand with
    hsame | ⟨path, p, m, hpath, hnorm, hservice, hdelete, hlist⟩
  · rw [hsame]
    exact ⟨0, _, removes_none t, fun _ => False.elim⟩
  have hspec := h.deletesSubtree m (some p)
  cases hlocated : located m p true with
  | error e =>
    rw [hdelete, hspec.refused e hlocated]
    exact ⟨0, _, removes_none t, fun _ => False.elim⟩
  | ok place =>
    obtain ⟨filter, segments⟩ := place
    obtain ⟨n, t', hresult, hremoves⟩ := hspec.removed filter segments hlocated
    rw [hdelete, hresult]
    refine ⟨n, _, hremoves, ?_⟩
    rintro row ⟨top, hleads, hrow⟩
    refine ⟨path, p, m, filter, segments, top, hpath, hnorm, hservice, hlocated, hleads, ?_, hrow⟩
    rw [hlist, list_eq_of_leadsTo hlocated hleads]
    rfl

end Deleting

open MemoryRaces in
/-- In every state of the store a delete removes the subtree that its path leads to, and a delete
through the tool removes nothing outside the subtree that is listed under its path. -/
theorem delete_confined {s : State} (h : Reached storeStep (fun _ _ => True) init s) :
    (∀ m rawPath, DeletesSubtree s.table m rawPath) ∧
      ∀ tool raw threadId, raw.command = .text "delete" →
        ∃ n gone, Removes s.table (MemoryTool.execute tool raw threadId s.table).2 n gone ∧
          ∀ row, gone row → Listed tool raw threadId s.table row :=
  ⟨(rooted_of_reached h).deletesSubtree, fun tool _ threadId hcommand =>
    (rooted_of_reached h).executeDelete tool threadId hcommand⟩

open MemoryRaces in
/-- A document `/a/b` is created, and then a document `/c`. -/
def twoDocuments : List StoreAction :=
  [.statement (.ensurePath ⟨"memory", none⟩ ["a".toList, "b".toList] none),
    .statement (.advance 0), .statement (.advance 0), .statement (.advance 0),
    .statement (.advance 0), .statement (.advance 0), .update 1 "x".toList,
    .statement (.ensurePath ⟨"memory", none⟩ ["c".toList] none),
    .statement (.advance 1), .statement (.advance 1), .statement (.advance 1)]

def globalTool : MemoryTool where
  memoryFactory := some fun threadId => .ok (getMemoryService "memory" .global threadId)

def deleteArgs (path : String) : RawArgs := ⟨.text path, .text "delete", .absent, .absent, false⟩

open MemoryRaces in
theorem delete_confined_two : ∃ s, runFrom storeStep init twoDocuments = some s ∧
    (globalTool.execute (deleteArgs "\\a//") none s.table).2.rows.map (·.name) =
      ["c".toList] ∧
    ∀ m rawPath, DeletesSubtree s.table m rawPath := by
  have hrun : (runFrom storeStep init twoDocuments).map (fun s =>
      (globalTool.execute (deleteArgs "\\a//") none s.table).2.rows.map (·.name)) =
        some ["c".toList] := by
    decide +kernel
  obtain ⟨s, hs, hnames⟩ := Option.map_eq_some_iff.mp hrun
  exact ⟨s, hs, hnames, (delete_confined (.of_run hs)).1⟩

end Agyn.Memory
