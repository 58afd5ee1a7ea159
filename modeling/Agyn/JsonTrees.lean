import Mathlib.Data.List.Infix
import Mathlib.Data.List.Nodup
import Mathlib.Data.Nat.Notation

/-!
JSON values as trees whose positions are pointers. An object has its own properties in order and
may have a prototype, which the values of a parser never have. Two values that differ exactly at
some positions agree at every position that is neither above nor below one of them; what is known
of the children in this way is known of the values.
-/
namespace Agyn

/-- Numbers are an opaque `N`; no prototype is that of object literals. -/
inductive JsonTree (N : Type) where
  | null
  | bool (b : Bool)
  | num (n : N)
  | str (s : String)
  | arr (items : List (JsonTree N))
  | obj (proto : Option (JsonTree N)) (entries : List (String × JsonTree N))

inductive Segment where
  | index (i : ℕ)
  | key (k : String)
  deriving DecidableEq

abbrev Pointer := List Segment

namespace JsonTree

variable {N : Type} {v w a : JsonTree N} {s : Segment} {p q : Pointer} {ps : List Pointer}

abbrev record (entries : List (String × JsonTree N)) : JsonTree N := .obj none entries

def lookup {κ ν : Type} [DecidableEq κ] (entries : List (κ × ν)) (key : κ) : Option ν :=
  (entries.find? fun e => e.1 = key).map Prod.snd

/-- `obj[key]`, for keys that the prototype of object literals does not have. -/
def get : JsonTree N → String → Option (JsonTree N)
  | .obj none entries, key => lookup entries key
  | .obj (some proto) entries, key => (lookup entries key).or (proto.get key)
  | _, _ => none

def children : JsonTree N → List (Segment × JsonTree N)
  | .arr items => items.zipIdx.map fun e => (.index e.2, e.1)
  | .obj _ entries => entries.map fun e => (.key e.1, e.2)
  | _ => []

/-- `entries[key] = x`, which keeps the place of a key that is there. -/
def assignKey (entries : List (String × JsonTree N)) (key : String) (x : JsonTree N) :
    List (String × JsonTree N) :=
  if key ∈ entries.map Prod.fst then entries.map fun e => if e.1 = key then (key, x) else e
  else entries ++ [(key, x)]

def removeKey (entries : List (String × JsonTree N)) (key : String) :
    List (String × JsonTree N) :=
  entries.filter fun e => e.1 ≠ key

def setKey (entries : List (String × JsonTree N)) (field : String × Option (JsonTree N)) :
    List (String × JsonTree N) :=
  match field with
  | (key, some x) => assignKey entries key x
  | (key, none) => removeKey entries key

/-- Fields that are assigned, or removed where they have no value. -/
def setKeys (entries : List (String × JsonTree N))
    (fields : List (String × Option (JsonTree N))) : List (String × JsonTree N) :=
  fields.foldl setKey entries

def at? (v : JsonTree N) : Pointer → Option (JsonTree N)
  | [] => some v
  | s :: p => (lookup v.children s).bind fun child => child.at? p

mutual

/-- A value that a parser returns: no object has a prototype or a key twice. -/
def isDocument : JsonTree N → Bool
  | .arr items => areDocuments items
  | .obj proto entries => proto.isNone && (entries.map Prod.fst).Nodup && haveDocuments entries
  | _ => true

def areDocuments : List (JsonTree N) → Bool
  | [] => true
  | v :: rest => isDocument v && areDocuments rest

def haveDocuments : List (String × JsonTree N) → Bool
  | [] => true
  | (_, v) :: rest => isDocument v && haveDocuments rest

end

/-- What holds of a value when it holds of its children holds of all values. -/
theorem induct_children {motive : JsonTree N → Prop}
    (h : ∀ v : JsonTree N, (∀ e ∈ v.children, motive e.2) → motive v) : ∀ v, motive v
  | .null => h _ (by simp [children])
  | .bool _ => h _ (by simp [children])
  | .num _ => h _ (by simp [children])
  | .str _ => h _ (by simp [children])
  | .arr items => by
    refine h _ fun e he => ?_
    obtain ⟨⟨item, i⟩, hitem, rfl⟩ := List.mem_map.mp he
    have hmem : item ∈ items := List.fst_mem_of_mem_zipIdx hitem
    have := List.sizeOf_lt_of_mem hmem
    exact induct_children h item
  | .obj proto entries => by
    refine h _ fun e he => ?_
    obtain ⟨⟨key, value⟩, hentry, rfl⟩ := List.mem_map.mp he
    have := List.sizeOf_lt_of_mem hentry
    exact induct_children h value
termination_by v => sizeOf v
decreasing_by
  · simp
    omega
  · simp at *
    omega

theorem lookup_eq_some_of_mem {κ ν : Type} [DecidableEq κ] {entries : List (κ × ν)} {e : κ × ν}
    (hnodup : (entries.map Prod.fst).Nodup) (h : e ∈ entries) : lookup entries e.1 = some e.2 := by
  induction entries with
  | nil => simp at h
  | cons d entries ih =>
    rw [List.map_cons, List.nodup_cons] at hnodup
    obtain rfl | h := List.mem_cons.mp h
    · simp [lookup]
    · have hne : d.1 ≠ e.1 := fun heq => hnodup.1 (heq ▸ List.mem_map_of_mem h)
      simpa [lookup, hne] using ih hnodup.2 h

theorem mem_of_lookup_eq_some {κ ν : Type} [DecidableEq κ] {entries : List (κ × ν)} {k : κ} {x : ν}
    (h : lookup entries k = some x) : (k, x) ∈ entries := by
  obtain ⟨e, he, rfl⟩ := Option.map_eq_some_iff.mp h
  have hkey : e.1 = k := by simpa using List.find?_some he
  exact hkey ▸ List.mem_of_find?_eq_some he

theorem lookup_map {κ ν μ : Type} [DecidableEq κ] (entries : List (κ × ν)) (f : κ → ν → μ) (k : κ) :
    lookup (entries.map fun e => (e.1, f e.1 e.2)) k = (lookup entries k).map (f k) := by
  induction entries with
  | nil => rfl
  | cons e entries ih =>
    by_cases h : e.1 = k
    · subst h
      simp [lookup]
    · simpa [lookup, h] using ih

section Keys

variable {entries : List (String × JsonTree N)} {j k : String} {x : JsonTree N}

theorem lookup_eq_none_iff {κ ν : Type} [DecidableEq κ] {entries : List (κ × ν)} {k : κ} :
    lookup entries k = none ↔ k ∉ entries.map Prod.fst := by
  simp only [lookup, Option.map_eq_none_iff, List.find?_eq_none, decide_eq_true_eq, List.mem_map,
    not_exists, not_and]

theorem assignKey_of_mem (h : k ∈ entries.map Prod.fst) (x : JsonTree N) :
    assignKey entries k x = entries.map fun e => (e.1, if e.1 = k then x else e.2) := by
  rw [assignKey, if_pos h]
  refine List.map_congr_left fun e _ => ?_
  split_ifs with heq
  · rw [heq]
  · rfl

theorem lookup_assignKey (entries : List (String × JsonTree N)) (k j : String) (x : JsonTree N) :
    lookup (assignKey entries k x) j = if j = k then some x else lookup entries j := by
  by_cases hmem : k ∈ entries.map Prod.fst
  · rw [assignKey_of_mem hmem, lookup_map _ fun i y => if i = k then x else y]
    split_ifs with hj
    · cases hlookup : lookup entries j with
      | none => exact absurd (hj ▸ hmem) (lookup_eq_none_iff.mp hlookup)
      | some y => rfl
    · exact Option.map_id'
  · rw [assignKey, if_neg hmem, lookup, List.find?_append]
    split_ifs with hj
    · have hnone : entries.find? (fun e => e.1 = j) = none :=
        Option.map_eq_none_iff.mp (lookup_eq_none_iff.mpr (hj ▸ hmem))
      rw [hnone, hj]
      simp
    · rw [List.find?_singleton, if_neg (by simpa using Ne.symm hj), Option.or_none]
      rfl

theorem lookup_removeKey (entries : List (String × JsonTree N)) (k j : String) :
    lookup (removeKey entries k) j = if j = k then none else lookup entries j := by
  induction entries with
  | nil => simp [removeKey, lookup]
  | cons e entries ih => grind [removeKey, lookup]

theorem assignKey_eq_self (hnodup : (entries.map Prod.fst).Nodup)
    (h : lookup entries k = some x) : assignKey entries k x = entries := by
  have hmem : k ∈ entries.map Prod.fst :=
    List.mem_map_of_mem (mem_of_lookup_eq_some h)
  rw [assignKey_of_mem hmem]
  refine (List.map_congr_left fun e he => ?_).trans (List.map_id _)
  split_ifs with hkey
  · have hx := lookup_eq_some_of_mem hnodup he
    rw [hkey, h] at hx
    rw [Option.some.inj hx]
    rfl
  · rfl

theorem removeKey_eq_self (h : lookup entries k = none) : removeKey entries k = entries := by
  refine List.filter_eq_self.mpr fun e he => ?_
  have hkey : e.1 ≠ k := fun heq => lookup_eq_none_iff.mp h (heq ▸ List.mem_map_of_mem he)
  simpa using hkey

theorem nodup_setKey (hnodup : (entries.map Prod.fst).Nodup)
    (field : String × Option (JsonTree N)) : ((setKey entries field).map Prod.fst).Nodup := by
  obtain ⟨k, x | x⟩ := field
  · exact hnodup.sublist (List.filter_sublist.map Prod.fst)
  · show ((assignKey entries k x).map Prod.fst).Nodup
    by_cases hmem : k ∈ entries.map Prod.fst
    · rw [assignKey_of_mem hmem, List.map_map]
      exact hnodup
    · rw [assignKey, if_neg hmem, List.map_append]
      exact hnodup.append (List.nodup_singleton k) (by simpa using hmem)

theorem lookup_setKey (entries : List (String × JsonTree N))
    (field : String × Option (JsonTree N)) (j : String) :
    lookup (setKey entries field) j = if j = field.1 then field.2 else lookup entries j := by
  obtain ⟨k, x | x⟩ := field
  · exact lookup_removeKey entries k j
  · exact lookup_assignKey entries k j x

theorem setKey_eq_self (hnodup : (entries.map Prod.fst).Nodup)
    {field : String × Option (JsonTree N)} (h : lookup entries field.1 = field.2) :
    setKey entries field = entries := by
  obtain ⟨k, x | x⟩ := field
  · exact removeKey_eq_self h
  · exact assignKey_eq_self hnodup h

theorem setKeys_cons (entries : List (String × JsonTree N))
    (field : String × Option (JsonTree N)) (fields : List (String × Option (JsonTree N))) :
    setKeys entries (field :: fields) = setKeys (setKey entries field) fields := rfl

theorem setKeys_nil (entries : List (String × JsonTree N)) : setKeys entries [] = entries := rfl

theorem lookup_setKeys_of_notMem {fields : List (String × Option (JsonTree N))}
    (h : j ∉ fields.map Prod.fst) (entries : List (String × JsonTree N)) :
    lookup (setKeys entries fields) j = lookup entries j := by
  induction fields generalizing entries with
  | nil => rfl
  | cons field fields ih =>
    rw [List.map_cons, List.mem_cons, not_or] at h
    exact (ih h.2 _).trans ((lookup_setKey entries field j).trans (if_neg h.1))

theorem lookup_setKeys_of_mem {fields : List (String × Option (JsonTree N))}
    (hfields : (fields.map Prod.fst).Nodup) {field : String × Option (JsonTree N)}
    (h : field ∈ fields) (entries : List (String × JsonTree N)) :
    lookup (setKeys entries fields) field.1 = field.2 := by
  induction fields generalizing entries with
  | nil => cases h
  | cons d fields ih =>
    rw [List.map_cons, List.nodup_cons] at hfields
    obtain rfl | h := List.mem_cons.mp h
    · exact (lookup_setKeys_of_notMem hfields.1 _).trans
        ((lookup_setKey entries field field.1).trans (if_pos rfl))
    · exact ih hfields.2 h _

/-- Nothing changes when every field has its value already. -/
theorem setKeys_eq_self_iff {fields : List (String × Option (JsonTree N))}
    (hnodup : (entries.map Prod.fst).Nodup) (hfields : (fields.map Prod.fst).Nodup) :
    setKeys entries fields = entries ↔ ∀ field ∈ fields, lookup entries field.1 = field.2 := by
  constructor
  · intro heq field hfield
    rw [← lookup_setKeys_of_mem hfields hfield entries, heq]
  · intro h
    clear hfields
    induction fields with
    | nil => rfl
    | cons field fields ih =>
      have hself := setKey_eq_self hnodup (h field List.mem_cons_self)
      show setKeys (setKey entries field) fields = entries
      rw [hself]
      exact ih fun d hd => h d (List.mem_cons_of_mem _ hd)

end Keys

@[simp] theorem at?_nil (v : JsonTree N) : v.at? [] = some v := rfl

theorem at?_cons (v : JsonTree N) (s : Segment) (p : Pointer) :
    v.at? (s :: p) = (lookup v.children s).bind fun child => child.at? p := rfl

theorem areDocuments_iff {items : List (JsonTree N)} :
    areDocuments items = true ↔ ∀ v ∈ items, v.isDocument = true := by
  induction items with
  | nil => simp [areDocuments]
  | cons v items ih => simp [areDocuments, ih]

theorem haveDocuments_iff {entries : List (String × JsonTree N)} :
    haveDocuments entries = true ↔ ∀ e ∈ entries, e.2.isDocument = true := by
  induction entries with
  | nil => simp [haveDocuments]
  | cons e entries ih => simp [haveDocuments, ih]

theorem isDocument_child (h : v.isDocument = true) {e : Segment × JsonTree N}
    (he : e ∈ v.children) : e.2.isDocument = true := by
  cases v with
  | arr items =>
    obtain ⟨⟨item, i⟩, hitem, rfl⟩ := List.mem_map.mp he
    exact areDocuments_iff.mp h item (List.fst_mem_of_mem_zipIdx hitem)
  | obj proto entries =>
    obtain ⟨entry, hentry, rfl⟩ := List.mem_map.mp he
    rw [isDocument, Bool.and_eq_true] at h
    exact haveDocuments_iff.mp h.2 entry hentry
  | _ => simp [children] at he

theorem nodup_children (h : v.isDocument = true) : (v.children.map Prod.fst).Nodup := by
  cases v with
  | arr items =>
    have heq : (JsonTree.arr items).children.map Prod.fst =
        (List.range' 0 items.length).map Segment.index := by
      rw [← List.zipIdx_map_snd 0 items, List.map_map, children, List.map_map]
      rfl
    rw [heq]
    exact (List.nodup_range').map fun i j hij => Segment.index.inj hij
  | obj proto entries =>
    have heq : (JsonTree.obj proto entries).children.map Prod.fst =
        (entries.map Prod.fst).map Segment.key := by
      simp [children, Function.comp_def]
    rw [heq]
    simp only [isDocument, Bool.and_eq_true, decide_eq_true_eq] at h
    exact h.1.2.map fun k l hkl => Segment.key.inj hkl
  | _ => simp [children]

theorem lookup_child (h : v.isDocument = true) {e : Segment × JsonTree N} (he : e ∈ v.children) :
    lookup v.children e.1 = some e.2 := lookup_eq_some_of_mem (nodup_children h) he

structure ReplacedAt (v w : JsonTree N) (ps : List Pointer) : Prop where
  differs : ∀ p ∈ ps, ∃ a b, v.at? p = some a ∧ w.at? p = some b ∧ a ≠ b
  same : ∀ p, (∀ q ∈ ps, ¬q <+: p ∧ ¬p <+: q) → v.at? p = w.at? p

theorem ReplacedAt.refl (v : JsonTree N) : ReplacedAt v v [] := ⟨by simp, fun _ _ => rfl⟩

theorem ReplacedAt.root (h : v ≠ w) : ReplacedAt v w [[]] where
  differs p hp := by
    obtain rfl := List.mem_singleton.mp hp
    exact ⟨v, w, rfl, rfl, h⟩
  same p hp := absurd List.nil_prefix (hp [] (by simp)).1

def childPositions (v : JsonTree N) (ps : JsonTree N → List Pointer) : List Pointer :=
  v.children.flatMap fun e => (ps e.2).map (e.1 :: ·)

theorem mem_childPositions {ps : JsonTree N → List Pointer} :
    p ∈ v.childPositions ps ↔ ∃ e ∈ v.children, ∃ q ∈ ps e.2, e.1 :: q = p := by
  simp [childPositions]

theorem ReplacedAt.children {g : JsonTree N → JsonTree N} {ps : JsonTree N → List Pointer}
    (hv : v.isDocument = true) (hw : w.children = v.children.map fun e => (e.1, g e.2))
    (h : ∀ e ∈ v.children, ReplacedAt e.2 (g e.2) (ps e.2))
    (hroot : v.childPositions ps = [] → v = w) :
    ReplacedAt v w (v.childPositions ps) where
  differs p hp := by
    obtain ⟨e, he, q, hq, rfl⟩ := mem_childPositions.mp hp
    obtain ⟨a, b, ha, hb, hne⟩ := (h e he).differs q hq
    refine ⟨a, b, ?_, ?_, hne⟩
    · rw [at?_cons, lookup_child hv he, Option.bind_some, ha]
    · rw [at?_cons, hw, lookup_map _ fun _ => g, lookup_child hv he, Option.map_some,
        Option.bind_some, hb]
  same p hp := by
    cases p with
    | nil =>
      have hnil : v.childPositions ps = [] :=
        List.eq_nil_iff_forall_not_mem.mpr fun q hq => (hp q hq).2 List.nil_prefix
      rw [hroot hnil]
    | cons s p =>
      rw [at?_cons, at?_cons, hw, lookup_map _ fun _ => g]
      cases hchild : lookup v.children s with
      | none => rfl
      | some child =>
        have hmem := mem_of_lookup_eq_some hchild
        refine (h (s, child) hmem).same p fun q hq => ?_
        have hq' := hp (s :: q) (mem_childPositions.mpr ⟨_, hmem, q, hq, rfl⟩)
        simpa only [List.prefix_cons_inj] using hq'

theorem nodup_childPositions {ps : JsonTree N → List Pointer} (hv : v.isDocument = true)
    (h : ∀ e ∈ v.children, (ps e.2).Nodup) : (v.childPositions ps).Nodup := by
  refine List.nodup_flatMap.mpr ⟨fun e he => (h e he).map fun p q hpq => (List.cons.inj hpq).2, ?_⟩
  have hne : v.children.Pairwise fun d e => d.1 ≠ e.1 := List.pairwise_map.mp (nodup_children hv)
  refine hne.imp fun hde => List.disjoint_left.mpr ?_
  intro p hp hp'
  obtain ⟨q, -, rfl⟩ := List.mem_map.mp hp
  obtain ⟨q', -, heq⟩ := List.mem_map.mp hp'
  exact hde (List.cons.inj heq).1.symm

end JsonTree

end Agyn
