import Agyn.GuardedRuns
import Agyn.MemoryService
import Agyn.MemoryTree

/-!
Calls on the memory, one after the other: where a call goes, and that every call keeps the table
well formed and brings in no names but those of the paths it is given.
-/
namespace Agyn.Memory

open EntityTable

inductive MemoryCall where
  | append (path data : List Char)
  | update (path oldStr newStr : List Char)
  | ensureDir (path : List Char)
  | delete (rawPath : Option (List Char))
  deriving DecidableEq

def EntityTable.after (t : EntityTable) (m : MemoryBinding) : MemoryCall → EntityTable
  | .append path data => (t.append m path data).2
  | .update path oldStr newStr => (t.update m path oldStr newStr).2
  | .ensureDir path => (t.ensureDir m path).2
  | .delete rawPath => (t.delete m rawPath).2

def callStep (t : EntityTable) (c : MemoryBinding × MemoryCall) : Option EntityTable :=
  some (t.after c.1 c.2)

def MemoryCall.createdPath : MemoryCall → Option (List Char)
  | .append path _ => some path
  | .ensureDir path => some path
  | .update _ _ _ => none
  | .delete _ => none

section Located

variable {m : MemoryBinding} {path : List Char} {root : Bool} {filter : RepoFilter}
  {segments : List (List Char)}

theorem located_eq_ok :
    located m path root = .ok (filter, segments) ↔
      buildFilter m = .ok filter ∧ segments = segmentsOf path ∧ (∀ s ∈ segments, ValidName s) ∧
        (segments = [] → root) := by
  have hexists : (∃ p, normalizePath path root = .ok p) ↔ _ := exists_normalizePath
  unfold located
  cases buildFilter m with
  | error e => simp
  | ok filter' =>
    cases hnorm : normalizePath path root with
    | error e =>
      have hnone : ¬∃ p, normalizePath path root = .ok p := by simp [hnorm]
      rw [hexists] at hnone
      simp only [reduceCtorEq, Except.ok.injEq, false_iff, not_and]
      rintro - rfl
      simpa using hnone
    | ok norm =>
      have hok := hexists.mp ⟨norm, hnorm⟩
      simp only [getSegments_of_ok hnorm, Except.ok.injEq, Prod.mk.injEq]
      constructor
      · rintro ⟨rfl, rfl⟩
        exact ⟨rfl, rfl, hok⟩
      · rintro ⟨rfl, rfl, -⟩
        exact ⟨rfl, rfl⟩

end Located

/-- The table is well formed and has names of one kind only. -/
structure Named (ok : List Char → Prop) (t : EntityTable) : Prop where
  wf : t.Wf
  names : ∀ row ∈ t.rows, ok row.name

def CreatesBy (ok : List Char → Prop) (c : MemoryBinding × MemoryCall) : Prop :=
  ∀ path ∈ c.2.createdPath, ∀ root filter segments,
    located c.1 path root = .ok (filter, segments) → ∀ s ∈ segments, ok s

namespace Named

variable {ok : List Char → Prop} {t : EntityTable} {m : MemoryBinding} {filter : RepoFilter}
  {segments : List (List Char)}

theorem empty : Named ok EntityTable.empty := ⟨wf_empty, by simp [EntityTable.empty]⟩

theorem ensurePath (h : Named ok t) (hnames : ∀ s ∈ segments, ok s) :
    Named ok (t.ensurePath filter segments).2 := by
  obtain ⟨hwf, ⟨added, hrows, hadded⟩, -⟩ : t.Created filter none none segments _ :=
    h.wf.ensurePath_created
  refine ⟨hwf, fun row hrow => ?_⟩
  obtain hrow | hrow := List.mem_append.mp (hrows ▸ hrow)
  · exact h.names row hrow
  · exact hnames row.name (hadded row hrow).1

theorem written (h : Named ok t) (entityId : ℕ) (content : List Char) :
    Named ok (t.written (t.updateContent entityId content)).2 := by
  unfold updateContent
  split_ifs
  · refine ⟨h.wf.map_setContent, fun row hrow => ?_⟩
    obtain ⟨old, hold, rfl⟩ := List.mem_map.mp hrow
    have hname := h.names old hold
    split_ifs <;> exact hname
  · exact h

theorem deleteMany (h : Named ok t) (ids : List ℕ) : Named ok (t.deleteMany ids).2 :=
  ⟨h.wf.deleteMany ids, fun row hrow => h.names row ((cascade_sublist ids t.rows).subset hrow)⟩

theorem deleteSubtree (h : Named ok t) (entityId : Option ℕ) :
    Named ok (t.deleteSubtree filter entityId).2 := by
  cases entityId with
  | none => exact h.deleteMany _
  | some id =>
    unfold EntityTable.deleteSubtree
    dsimp only
    split_ifs
    · exact h
    · exact h.deleteMany _

theorem append (h : Named ok t) {path data : List Char}
    (hcreates : CreatesBy ok (m, .append path data)) : Named ok (t.append m path data).2 := by
  unfold EntityTable.append
  cases hlocated : located m path false with
  | error e => exact h
  | ok place =>
    obtain ⟨filter, segments⟩ := place
    have hnames : ∀ s ∈ segments, ok s := hcreates path rfl _ _ _ hlocated
    cases segments with
    | nil => exact h
    | cons segment segments =>
      have hensured : Named ok (t.ensurePath filter (segment :: segments)).2 := h.ensurePath hnames
      dsimp only
      cases hres : t.ensurePath filter (segment :: segments) with
      | mk found t' =>
        rw [hres] at hensured
        cases found with
        | none => exact hensured
        | some entity => exact hensured.written _ _

theorem update (h : Named ok t) (path oldStr newStr : List Char) :
    Named ok (t.update m path oldStr newStr).2 := by
  unfold EntityTable.update
  cases located m path false with
  | error e => exact h
  | ok place =>
    dsimp only
    cases resolvePath t.rows place.1 place.2 with
    | none => exact h
    | some entity =>
      dsimp only
      split_ifs
      · exact h
      · exact h
      · exact h.written _ _

theorem ensureDir (h : Named ok t) {path : List Char}
    (hcreates : CreatesBy ok (m, .ensureDir path)) : Named ok (t.ensureDir m path).2 := by
  unfold EntityTable.ensureDir
  cases hlocated : located m path true with
  | error e => exact h
  | ok place =>
    obtain ⟨filter, segments⟩ := place
    cases segments with
    | nil => exact h
    | cons segment segments => exact h.ensurePath (hcreates path rfl _ _ _ hlocated)

theorem delete (h : Named ok t) (rawPath : Option (List Char)) :
    Named ok (t.delete m rawPath).2 := by
  unfold EntityTable.delete
  cases located m (rawPath.getD ['/']) true with
  | error e => exact h
  | ok place =>
    obtain ⟨filter, segments⟩ := place
    cases segments with
    | nil => exact h.deleteSubtree none
    | cons segment segments =>
      dsimp only
      cases resolvePath t.rows filter (segment :: segments) with
      | none => exact h
      | some entity => exact h.deleteSubtree (some entity.id)

/-- What every call keeps. -/
theorem after (h : Named ok t) {call : MemoryCall} (hcreates : CreatesBy ok (m, call)) :
    Named ok (t.after m call) := by
  cases call with
  | append path data => exact h.append hcreates
  | update path oldStr newStr => exact h.update path oldStr newStr
  | ensureDir path => exact h.ensureDir hcreates
  | delete rawPath => exact h.delete rawPath

/-- What every run of calls that create by such names keeps. -/
theorem of_reached {good : EntityTable → MemoryBinding × MemoryCall → Prop}
    (hgood : ∀ t c, good t c → CreatesBy ok c)
    (h : Reached callStep good EntityTable.empty t) : Named ok t :=
  h.invariant .empty fun t c _ ht hc hstep => Option.some.inj hstep ▸ ht.after (hgood t c hc)

end Named

/-- Every run of calls keeps the table well formed. -/
theorem wf_of_reached {good : EntityTable → MemoryBinding × MemoryCall → Prop} {t : EntityTable}
    (h : Reached callStep good EntityTable.empty t) : t.Wf := by
  have hnamed : Named (fun _ => True) t := by
    refine Named.of_reached (fun _ _ _ => ?_) h
    intro path _ root filter segments _ s _
    trivial
  exact hnamed.wf

end Agyn.Memory
