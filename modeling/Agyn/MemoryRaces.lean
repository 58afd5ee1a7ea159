import Agyn.GuardedRuns
import Agyn.MemoryService
import Agyn.MemoryTree

/-!
Calls on the memory table that run at the same time, statement by statement. The rows that a
transaction creates are seen by its own statements only, until it commits; the unique index does
not compare keys with a NULL in them.
-/
namespace Agyn.MemoryRaces

open Memory EntityTable

abbrev Key := RepoFilter × Option ℕ × List Char

/-- A NULL in the columns of `uniq_memory_entity_path`: the global scope or the root level. -/
def hasNull (k : Key) : Bool := k.1.threadId.isNone || k.2.1.isNone

/-- An `ensurePath` transaction: the segments to come, the rows it has created, and whether its last
statement missed the first of the segments. -/
structure Ensuring where
  filter : RepoFilter
  segments : List (List Char)
  parentId : Option ℕ
  current : Option MemoryEntity
  created : List MemoryEntity
  missed : Bool
  deriving DecidableEq

/-- A call in flight, by its next statement. `append` goes on with the data it appends. -/
inductive Call where
  | ensuring (tx : Ensuring) (data : Option (List Char))
  | writing (entityId : ℕ) (content : List Char)
  | resolving (filter : RepoFilter) (segments : List (List Char)) (parentId : Option ℕ)
  | collecting (filter : RepoFilter) (entityId : ℕ)
  | removing (ids : List ℕ)
  | clearing (filter : RepoFilter)
  | settled
  deriving DecidableEq

structure State where
  rows : List MemoryEntity
  nextId : ℕ
  calls : List Call
  deriving DecidableEq

inductive Action where
  /-- `ensurePath`, alone, in `ensureDir`, or in `append` with its data. -/
  | ensurePath (filter : RepoFilter) (segments : List (List Char)) (data : Option (List Char))
  | delete (filter : RepoFilter) (segments : List (List Char))
  /-- The next statement of a call. -/
  | advance (i : ℕ)
  /-- The database or the client gives a call up; its transaction is rolled back. -/
  | abort (i : ℕ)

def Call.created : Call → List MemoryEntity
  | .ensuring tx _ => tx.created
  | _ => []

namespace Ensuring

def nextKey (tx : Ensuring) : Option Key :=
  tx.segments.head?.map fun segment => (tx.filter, tx.parentId, segment)

/-- The key of the row that the next statement creates, where the index does not protect it. -/
def unprotected (tx : Ensuring) : Option Key :=
  if tx.missed then tx.nextKey.filter hasNull else none

/-- On to the next segment, below the row found or created for this one. -/
def descend (tx : Ensuring) (row : MemoryEntity) : Ensuring :=
  { tx with
    segments := tx.segments.tail, parentId := some row.id, current := some row, missed := false }

def newRow (tx : Ensuring) (nextId : ℕ) (segment : List Char) : MemoryEntity :=
  ⟨nextId, tx.filter.nodeId, tx.filter.threadId, tx.parentId, segment, none⟩

def hasParent (tx : Ensuring) (rows : List MemoryEntity) : Bool :=
  tx.parentId.all fun id => (rows ++ tx.created).any (·.id = id)

end Ensuring

/-- The keys a call has created rows for, or is about to without the protection of the index. -/
def Call.held : Call → List Key
  | .ensuring tx _ => tx.created.map (·.key) ++ tx.unprotected.toList
  | _ => []

/-- What a statement leaves: the rows committed, the next id and the call. -/
abbrev Outcome := List MemoryEntity × ℕ × Call

/-- `create` fails without its parent or on a key that the index protects; it waits for another
transaction that has created the same key and has not committed. -/
def Ensuring.create (tx : Ensuring) (data : Option (List Char)) (rows : List MemoryEntity)
    (nextId : ℕ) (others : List MemoryEntity) (segment : List Char) : Option Outcome :=
  let row := tx.newRow nextId segment
  if tx.hasParent rows = false then some (rows, nextId, .settled)
  else if hasNull row.key = false ∧ row.key ∈ others.map (·.key) then none
  else if hasNull row.key = false ∧ row.key ∈ (rows ++ tx.created).map (·.key) then
    some (rows, nextId, .settled)
  else some (rows, nextId + 1,
    .ensuring { tx.descend row with created := tx.created ++ [row] } data)

def Ensuring.find (tx : Ensuring) (data : Option (List Char)) (rows : List MemoryEntity)
    (nextId : ℕ) (segment : List Char) : Outcome :=
  match findFirst (rows ++ tx.created) tx.filter tx.parentId segment with
  | some row => (rows, nextId, .ensuring (tx.descend row) data)
  | none => (rows, nextId, .ensuring { tx with missed := true } data)

/-- What `append` does after its transaction. -/
def afterEnsure (current : Option MemoryEntity) (data : Option (List Char)) : Call :=
  match current, data with
  | some entity, some data => .writing entity.id (appended (entity.content.getD []) data)
  | _, _ => .settled

/-- A row is not deleted while another transaction has created a row below it. -/
def deleteRows (ids : List ℕ) (rows : List MemoryEntity) (nextId : ℕ)
    (others : List MemoryEntity) : Option Outcome :=
  let left := cascade ids rows
  let gone := (rows.filter (· ∉ left)).map (·.id)
  if others.any fun row => row.parentId.any (· ∈ gone) then none
  else some (left, nextId, .settled)

/-- The next statement of a call; `others` are the rows created in other open transactions. -/
def Call.next (rows : List MemoryEntity) (nextId : ℕ) (others : List MemoryEntity) :
    Call → Option Outcome
  | .ensuring tx data =>
    match tx.segments with
    | [] => some (rows ++ tx.created, nextId, afterEnsure tx.current data)
    | segment :: _ =>
      if tx.missed then tx.create data rows nextId others segment
      else some (tx.find data rows nextId segment)
  | .writing entityId content => some (rows.map (setContent entityId content), nextId, .settled)
  | .resolving _ [] _ => some (rows, nextId, .settled)
  | .resolving filter (segment :: segments) parentId =>
    match findFirst rows filter parentId segment with
    | none => some (rows, nextId, .settled)
    | some row =>
      some (rows, nextId, if segments = [] then .collecting filter row.id
        else .resolving filter segments (some row.id))
  | .collecting filter entityId =>
    let nodes := rows.filter (·.scope = filter)
    some (rows, nextId, if nodes.length = 0 then .settled
      else .removing (EntityTable.collect nodes (nodes.length + 1) [entityId] []))
  | .removing ids => deleteRows ids rows nextId others
  | .clearing filter =>
    deleteRows ((rows.filter (·.scope = filter)).map (·.id)) rows nextId others
  | .settled => none

def step (s : State) : Action → Option State
  | .ensurePath filter segments data =>
    some { s with calls := s.calls ++ [.ensuring ⟨filter, segments, none, none, [], false⟩ data] }
  | .delete filter segments =>
    some { s with calls := s.calls ++
      [if segments = [] then .clearing filter else .resolving filter segments none] }
  | .advance i =>
    match s.calls[i]? with
    | none => none
    | some call =>
      (call.next s.rows s.nextId ((s.calls.eraseIdx i).flatMap Call.created)).map fun out =>
        ⟨out.1, out.2.1, s.calls.set i out.2.2⟩
  | .abort i =>
    match s.calls[i]? with
    | none => none
    | some _ => some { s with calls := s.calls.set i .settled }

def init : State := ⟨[], 0, []⟩

/-- The key that the next statement of a call looks for and misses, at the root level or in the
global scope. -/
def Call.misses (rows : List MemoryEntity) : Call → Option Key
  | .ensuring tx _ =>
    if tx.missed then none
    else tx.nextKey.filter fun k =>
      hasNull k && (findFirst (rows ++ tx.created) k.1 k.2.1 k.2.2).isNone
  | _ => none

/-- A segment missed at the root level or in the global scope is not being created by another call
in flight. -/
def MissesAlone (s : State) : Action → Prop
  | .advance i => ∀ call ∈ s.calls[i]?, ∀ k ∈ call.misses s.rows,
      k ∉ (s.calls.eraseIdx i).flatMap Call.held
  | .ensurePath _ _ _ => True
  | .delete _ _ => True
  | .abort _ => True

instance : ∀ s a, Decidable (MissesAlone s a)
  | s, .advance i => inferInstanceAs (Decidable (∀ call ∈ s.calls[i]?, ∀ k ∈ call.misses s.rows,
      k ∉ (s.calls.eraseIdx i).flatMap Call.held))
  | _, .ensurePath _ _ _ => isTrue trivial
  | _, .delete _ _ => isTrue trivial
  | _, .abort _ => isTrue trivial

section Held

variable {rows rows' others : List MemoryEntity} {nextId nextId' : ℕ} {call call' : Call}
  {rest : List Key} {tx : Ensuring} {data : Option (List Char)} {segment : List Char}

/-- The keys of a call's rows and those it is about to create are not among the other keys. -/
def HeldApart (rows : List MemoryEntity) (call : Call) (rest : List Key) : Prop :=
  (rows.map (·.key) ++ call.held ++ rest).Nodup

theorem held_descend (row : MemoryEntity) :
    (Call.ensuring (tx.descend row) data).held = tx.created.map (·.key) := by
  simp [Call.held, Ensuring.unprotected, Ensuring.descend]

/-- What is held of the keys when fewer rows are left and fewer are created. -/
theorem HeldApart.of_sublist (h : HeldApart rows call rest)
    (hsub : (rows'.map (·.key) ++ call'.held).Sublist (rows.map (·.key) ++ call.held)) :
    HeldApart rows' call' rest :=
  h.sublist (hsub.append_right rest)

theorem HeldApart.settle (h : HeldApart rows call rest) : HeldApart rows .settled rest :=
  h.of_sublist (by simp [Call.held])

@[simp] theorem held_afterEnsure (current : Option MemoryEntity) :
    (afterEnsure current data).held = [] := by
  unfold afterEnsure
  split <;> rfl

theorem key_newRow (tx : Ensuring) :
    (tx.newRow nextId segment).key = (tx.filter, tx.parentId, segment) := rfl

theorem nextKey_of_head? (hhead : tx.segments.head? = some segment) :
    tx.nextKey = some (tx.filter, tx.parentId, segment) := by
  rw [Ensuring.nextKey, hhead, Option.map_some]

theorem nodup_insert {xs ys zs : List Key} {k : Key} (h : (xs ++ ys ++ zs).Nodup)
    (hk : k ∉ xs ++ ys) (hrest : k ∉ zs) : (xs ++ (ys ++ [k]) ++ zs).Nodup := by
  rw [← List.append_assoc, List.append_assoc _ [k], List.singleton_append, List.nodup_middle]
  refine List.nodup_cons.mpr ⟨fun hmem => ?_, h⟩
  exact (List.mem_append.mp hmem).elim hk hrest

theorem HeldApart.create (h : HeldApart rows (.ensuring tx data) rest)
    (hhead : tx.segments.head? = some segment) (hmissed : tx.missed)
    (hrest : ∀ k ∈ rest, hasNull k = false → k ∈ others.map (·.key))
    (hcreate : tx.create data rows nextId others segment = some (rows', nextId', call')) :
    HeldApart rows' call' rest := by
  unfold Ensuring.create at hcreate
  dsimp only at hcreate
  split_ifs at hcreate with hparent hwaits hexists
  · obtain ⟨rfl, rfl, rfl⟩ := by simpa using hcreate
    exact h.settle
  · obtain ⟨rfl, rfl, rfl⟩ := by simpa using hcreate
    exact h.settle
  obtain ⟨rfl, rfl, rfl⟩ := by simpa using hcreate
  have hheld : (Call.ensuring { tx.descend (tx.newRow nextId segment) with
      created := tx.created ++ [tx.newRow nextId segment] } data).held =
        tx.created.map (·.key) ++ [(tx.filter, tx.parentId, segment)] := by
    simp [Call.held, Ensuring.unprotected, Ensuring.descend, key_newRow]
  rw [HeldApart, hheld]
  rw [HeldApart, Call.held, Ensuring.unprotected, if_pos hmissed, nextKey_of_head? hhead] at h
  cases hnull : hasNull (tx.filter, tx.parentId, segment) with
  | true => simpa [Option.filter_some, hnull] using h
  | false =>
    have h : (rows.map (·.key) ++ tx.created.map (·.key) ++ rest).Nodup := by
      simpa [Option.filter_some, hnull] using h
    refine nodup_insert h ?_ fun hmem => ?_
    · rw [← List.map_append]
      exact fun hmem => hexists ⟨hnull, hmem⟩
    · exact hwaits ⟨hnull, hrest _ hmem hnull⟩

theorem HeldApart.find (h : HeldApart rows (.ensuring tx data) rest)
    (hhead : tx.segments.head? = some segment) (hmissed : tx.missed = false)
    (halone : ∀ k, (Call.ensuring tx data).misses rows = some k → k ∉ rest)
    (hfind : tx.find data rows nextId segment = (rows', nextId', call')) :
    HeldApart rows' call' rest := by
  have hbefore : (rows.map (·.key) ++ tx.created.map (·.key) ++ rest).Nodup := by
    simpa [HeldApart, Call.held, Ensuring.unprotected, hmissed] using h
  rw [Ensuring.find] at hfind
  cases hrow : findFirst (rows ++ tx.created) tx.filter tx.parentId segment with
  | some row =>
    rw [hrow] at hfind
    obtain ⟨rfl, rfl, rfl⟩ := by simpa using hfind
    rwa [HeldApart, held_descend]
  | none =>
    rw [hrow] at hfind
    obtain ⟨rfl, rfl, rfl⟩ := by simpa using hfind
    have hkey : ({ tx with missed := true } : Ensuring).nextKey =
        some (tx.filter, tx.parentId, segment) := nextKey_of_head? hhead
    rw [HeldApart, Call.held, Ensuring.unprotected, if_pos rfl, hkey]
    cases hnull : hasNull (tx.filter, tx.parentId, segment) with
    | false => simpa [Option.filter_some, hnull] using hbefore
    | true =>
      have hmisses : (Call.ensuring tx data).misses rows =
          some (tx.filter, tx.parentId, segment) := by
        simp [Call.misses, hmissed, nextKey_of_head? hhead, hnull, hrow]
      have hnew : (tx.filter, tx.parentId, segment) ∉
          rows.map (·.key) ++ tx.created.map (·.key) := by
        rw [← List.map_append, List.mem_map]
        rintro ⟨row, hmem, heq⟩
        exact findFirst_eq_none.mp hrow row hmem heq
      simpa [Option.filter_some, hnull] using nodup_insert hbefore hnew (halone _ hmisses)

theorem HeldApart.deleteRows (h : HeldApart rows call rest) {ids : List ℕ}
    (hdelete : deleteRows ids rows nextId others = some (rows', nextId', call')) :
    HeldApart rows' call' rest := by
  unfold MemoryRaces.deleteRows at hdelete
  dsimp only at hdelete
  split_ifs at hdelete
  obtain ⟨rfl, rfl, rfl⟩ := by simpa using hdelete
  refine h.of_sublist ?_
  simp only [Call.held, List.append_nil]
  exact ((cascade_sublist ids rows).map _).trans (List.sublist_append_left _ _)

/-- One statement of a call keeps the keys apart. -/
theorem HeldApart.next (h : HeldApart rows call rest)
    (hrest : ∀ k ∈ rest, hasNull k = false → k ∈ others.map (·.key))
    (halone : ∀ k, call.misses rows = some k → k ∉ rest)
    (hnext : call.next rows nextId others = some (rows', nextId', call')) :
    HeldApart rows' call' rest := by
  cases call with
  | ensuring tx data =>
    rw [Call.next] at hnext
    cases hsegs : tx.segments with
    | nil =>
      simp only [hsegs, Option.some.injEq, Prod.mk.injEq] at hnext
      obtain ⟨rfl, rfl, rfl⟩ := hnext
      refine h.of_sublist ?_
      rw [held_afterEnsure]
      simp [Call.held]
    | cons segment segments =>
      have hhead : tx.segments.head? = some segment := by rw [hsegs, List.head?_cons]
      simp only [hsegs] at hnext
      split_ifs at hnext with hmissed
      · exact h.create hhead hmissed hrest hnext
      · exact h.find hhead (by simpa using hmissed) halone (Option.some.inj hnext)
  | writing entityId content =>
    obtain ⟨rfl, rfl, rfl⟩ := by simpa [Call.next] using hnext
    refine h.of_sublist ?_
    simp [Call.held, Function.comp_def]
  | resolving filter segments parentId =>
    cases segments with
    | nil =>
      obtain ⟨rfl, rfl, rfl⟩ := by simpa [Call.next] using hnext
      exact h.settle
    | cons segment segments =>
      rw [Call.next] at hnext
      cases hfind : findFirst rows filter parentId segment with
      | none =>
        rw [hfind] at hnext
        obtain ⟨rfl, rfl, rfl⟩ := by simpa using hnext
        exact h.settle
      | some row =>
        rw [hfind] at hnext
        obtain ⟨rfl, rfl, rfl⟩ := by simpa using hnext
        refine h.of_sublist ?_
        split_ifs <;> simp [Call.held]
  | collecting filter entityId =>
    rw [Call.next] at hnext
    obtain ⟨rfl, rfl, rfl⟩ := by simpa using hnext
    refine h.of_sublist ?_
    split_ifs <;> simp [Call.held]
  | removing ids => exact h.deleteRows hnext
  | clearing filter => exact h.deleteRows hnext
  | settled => simp [Call.next] at hnext

end Held

variable {s s' : State} {i : ℕ} {call call' : Call}

/-- The keys of all rows, committed, created in an open transaction or about to be created
unprotected, are different. -/
def KeysApart (s : State) : Prop :=
  (s.rows.map (·.key) ++ s.calls.flatMap Call.held).Nodup

theorem keysApart_iff (hcall : s.calls[i]? = some call) :
    KeysApart s ↔ HeldApart s.rows call ((s.calls.eraseIdx i).flatMap Call.held) := by
  obtain ⟨hlt, rfl⟩ := List.getElem?_eq_some_iff.mp hcall
  have hperm := (List.getElem_cons_eraseIdx_perm hlt).flatMap_right Call.held
  rw [List.flatMap_cons] at hperm
  rw [KeysApart, HeldApart, List.append_assoc]
  exact (hperm.symm.append_left _).nodup_iff

theorem mem_created_of_mem_held {calls : List Call} {k : Key}
    (hk : k ∈ calls.flatMap Call.held) (hnull : hasNull k = false) :
    k ∈ (calls.flatMap Call.created).map (·.key) := by
  obtain ⟨call, hcall, hk⟩ := List.mem_flatMap.mp hk
  cases call with
  | ensuring tx data =>
    obtain hk | hk := List.mem_append.mp hk
    · obtain ⟨row, hrow, rfl⟩ := List.mem_map.mp hk
      exact List.mem_map_of_mem (List.mem_flatMap.mpr ⟨_, hcall, hrow⟩)
    · rw [Option.mem_toList, Ensuring.unprotected] at hk
      split_ifs at hk
      · simp [Option.filter_eq_some_iff, hnull] at hk
  | _ => simp [Call.held] at hk

theorem KeysApart.set (h : HeldApart s'.rows call' ((s.calls.eraseIdx i).flatMap Call.held))
    (hlt : i < s.calls.length) (hcalls : s'.calls = s.calls.set i call') : KeysApart s' := by
  have hcall : s'.calls[i]? = some call' := by rw [hcalls, List.getElem?_set_self hlt]
  rw [keysApart_iff hcall, hcalls, List.eraseIdx_set_eq]
  exact h

theorem KeysApart.start (h : KeysApart s) (hheld : call.held = []) :
    KeysApart { s with calls := s.calls ++ [call] } := by
  simpa [KeysApart, hheld] using h

/-- What one step keeps, as long as a segment that the index does not protect is missed alone. -/
theorem KeysApart.step (h : KeysApart s) {a : Action} (halone : MissesAlone s a)
    (hstep : step s a = some s') : KeysApart s' := by
  cases a with
  | ensurePath filter segments data =>
    obtain rfl := Option.some.inj hstep
    exact h.start (by simp [Call.held, Ensuring.unprotected])
  | delete filter segments =>
    obtain rfl := Option.some.inj hstep
    exact h.start (by split_ifs <;> rfl)
  | advance i =>
    rw [MemoryRaces.step] at hstep
    cases hcall : s.calls[i]? with
    | none => simp [hcall] at hstep
    | some call =>
      rw [hcall] at hstep
      obtain ⟨⟨rows, nextId, call'⟩, hnext, rfl⟩ := Option.map_eq_some_iff.mp hstep
      have hapart := ((keysApart_iff hcall).mp h).next (fun k hk => mem_created_of_mem_held hk)
        (halone call hcall) hnext
      exact KeysApart.set hapart (List.getElem?_eq_some_iff.mp hcall).1 rfl
  | abort i =>
    rw [MemoryRaces.step] at hstep
    cases hcall : s.calls[i]? with
    | none => simp [hcall] at hstep
    | some call =>
      rw [hcall] at hstep
      obtain rfl := Option.some.inj hstep
      exact KeysApart.set ((keysApart_iff hcall).mp h).settle
        (List.getElem?_eq_some_iff.mp hcall).1 rfl

/-- A row found at the end of a path, each segment below the row of the one before. -/
inductive FoundAt (rows : List MemoryEntity) (filter : RepoFilter) :
    Option ℕ → List (List Char) → MemoryEntity → Prop where
  | last {parentId : Option ℕ} {name : List Char} {row : MemoryEntity} :
      row ∈ rows → row.key = (filter, parentId, name) → FoundAt rows filter parentId [name] row
  | under {parentId : Option ℕ} {name : List Char} {names : List (List Char)}
      {parent row : MemoryEntity} : parent ∈ rows → parent.key = (filter, parentId, name) →
      FoundAt rows filter (some parent.id) names row →
      FoundAt rows filter parentId (name :: names) row

theorem FoundAt.unique {rows : List MemoryEntity} {filter : RepoFilter} {parentId : Option ℕ}
    {names : List (List Char)} {row row' : MemoryEntity} (hkeys : (rows.map (·.key)).Nodup)
    (h : FoundAt rows filter parentId names row) (h' : FoundAt rows filter parentId names row') :
    row = row' := by
  induction h generalizing row' with
  | last hrow hkey =>
    cases h' with
    | last hrow' hkey' =>
      exact List.inj_on_of_nodup_map hkeys hrow hrow' (hkey.trans hkey'.symm)
    | under _ _ hbelow => cases hbelow
  | under hparent hkey hbelow ih =>
    cases h' with
    | last => cases hbelow
    | under hparent' hkey' hbelow' =>
      obtain rfl := List.inj_on_of_nodup_map hkeys hparent hparent' (hkey.trans hkey'.symm)
      exact ih hbelow'

/-- Where unprotected segments are missed alone, siblings have different names and a path leads to
one entity. -/
theorem siblings_unique (h : Reached step MissesAlone init s) :
    (s.rows.map (·.key)).Nodup ∧
      ∀ filter segments row row', FoundAt s.rows filter none segments row →
        FoundAt s.rows filter none segments row' → row = row' := by
  have hapart : KeysApart s := h.invariant (by simp [KeysApart, init])
    fun _ _ _ hinv halone hstep => hinv.step halone hstep
  have hkeys : (s.rows.map (·.key)).Nodup := (List.nodup_append.mp hapart).1
  exact ⟨hkeys, fun _ _ _ _ hrow hrow' => hrow.unique hkeys hrow'⟩

/-- Two calls that write `/a/b` and `/a/c` in the global scope; the second begins when the first
has found and created its segments. -/
def partlyOverlapping : List Action :=
  [.ensurePath ⟨"memory", none⟩ ["a".toList, "b".toList] none,
    .ensurePath ⟨"memory", none⟩ ["a".toList, "c".toList] (some "x".toList),
    .advance 0, .advance 0, .advance 0, .advance 0, .advance 0,
    .advance 1, .advance 1, .advance 1, .advance 1, .advance 1]

theorem siblings_unique_overlapping :
    ∃ s, runFrom step init partlyOverlapping = some s ∧ s.rows.length = 3 ∧
      (s.rows.map (·.key)).Nodup := by
  have hmeet : StepsMeet step MissesAlone init partlyOverlapping := by decide +kernel
  have hsome : (runFrom step init partlyOverlapping).isSome := by decide +kernel
  obtain ⟨s, hs⟩ := Option.isSome_iff_exists.mp hsome
  have hlength : (runFrom step init partlyOverlapping).map (·.rows.length) = some 3 := by
    decide +kernel
  rw [hs] at hlength
  exact ⟨s, hs, Option.some.inj hlength, (siblings_unique (Reached.init.run hmeet hs)).1⟩

/-- Two calls that append to `/a` in the global scope, each of which misses it before the other
commits. -/
def bothMiss : List Action :=
  [.ensurePath ⟨"memory", none⟩ ["a".toList] (some "x".toList),
    .ensurePath ⟨"memory", none⟩ ["a".toList] (some "y".toList),
    .advance 0, .advance 1, .advance 0, .advance 1, .advance 0, .advance 1]

theorem created_twice :
    ∃ s, Reached step (fun _ _ => True) init s ∧ ¬(s.rows.map (·.key)).Nodup := by
  have hkeys : (runFrom step init bothMiss).map (·.rows.map (·.key)) =
      some [(⟨"memory", none⟩, none, "a".toList), (⟨"memory", none⟩, none, "a".toList)] := by
    decide +kernel
  obtain ⟨s, hs, heq⟩ := Option.map_eq_some_iff.mp hkeys
  exact ⟨s, .of_run hs, by rw [heq]; simp⟩

end Agyn.MemoryRaces
