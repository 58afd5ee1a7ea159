import Mathlib.Data.Rat.Floor
import Agyn.DoublyLinkedLists
import Agyn.InsertionMap
import Agyn.RecencyLists

/-!
The LRU cache of the platform UI: a map from keys to nodes, and the nodes in a doubly linked list
from the most to the least recently used one. In the source `newer` points away from the head. The
cache refines a recency list: its links hold the nodes of the entries in order, its map has just
their keys, and every operation of the cache does to both what it does to the list.
-/
namespace Agyn

abbrev LruRef := ℕ

structure LruNode (K V : Type) where
  key : K
  value : V
  newer : Option LruRef
  older : Option LruRef

structure LruCache (K V : Type) where
  capacity : ℕ
  entries : InsMap K LruRef
  head : Option LruRef
  tail : Option LruRef
  heap : LruRef → Option (LruNode K V)
  /-- The next node that is allocated. -/
  fresh : LruRef

/-- A number: a finite one, an infinity or NaN. -/
inductive JsNumber where
  | finite (value : ℚ)
  | nonFinite

namespace LruCache

open Recency (Op Answer)

variable {K V : Type}

def create : JsNumber → Except String (LruCache K V)
  | .nonFinite => .error "LRU cache capacity must be a positive finite number"
  | .finite capacity =>
    if capacity ≤ 0 then .error "LRU cache capacity must be a positive finite number"
    else if ⌊capacity⌋ ≤ 0 then .error "LRU cache capacity must be at least 1"
    else .ok ⟨⌊capacity⌋.toNat, .empty, none, none, fun _ => none, 0⟩

def modify (c : LruCache K V) (a : LruRef) (f : LruNode K V → LruNode K V) : LruCache K V :=
  { c with heap := Function.update c.heap a ((c.heap a).map f) }

def newer (c : LruCache K V) (a : LruRef) : Option LruRef := (c.heap a).bind LruNode.newer

def older (c : LruCache K V) (a : LruRef) : Option LruRef := (c.heap a).bind LruNode.older

def setNewer (c : LruCache K V) (a : LruRef) (b : Option LruRef) : LruCache K V :=
  c.modify a fun node => { node with newer := b }

def setOlder (c : LruCache K V) (a : LruRef) (b : Option LruRef) : LruCache K V :=
  c.modify a fun node => { node with older := b }

def insertAtFront (c : LruCache K V) (node : LruRef) : LruCache K V :=
  let c := c.setOlder node none
  let c := c.setNewer node c.head
  let c := match c.head with
    | some head => c.setOlder head (some node)
    | none => c
  { c with
    head := some node
    tail := match c.tail with
      | some tail => some tail
      | none => some node }

def removeNode (c : LruCache K V) (node : LruRef) : LruCache K V :=
  let c := match c.older node with
    | some older => c.setNewer older (c.newer node)
    | none => if c.head = some node then { c with head := c.newer node } else c
  let c := match c.newer node with
    | some newer => c.setOlder newer (c.older node)
    | none => if c.tail = some node then { c with tail := c.older node } else c
  (c.setNewer node none).setOlder node none

def moveToFront (c : LruCache K V) (node : LruRef) : LruCache K V :=
  if c.head = some node then c else (c.removeNode node).insertAtFront node

section Keys

variable [DecidableEq K]

def evictLeastRecent (c : LruCache K V) : LruCache K V :=
  match c.tail with
  | none => c
  | some node =>
    let c := c.removeNode node
    match c.heap node with
    | some removed => { c with entries := c.entries.delete removed.key }
    | none => c

def size (c : LruCache K V) : ℕ := c.entries.keys.length

def get (c : LruCache K V) (key : K) : LruCache K V × Option V :=
  match c.entries.get key with
  | none => (c, none)
  | some node =>
    let c := c.moveToFront node
    (c, (c.heap node).map LruNode.value)

def set (c : LruCache K V) (key : K) (value : V) : LruCache K V :=
  match c.entries.get key with
  | some existing =>
    (c.modify existing fun node => { node with value }).moveToFront existing
  | none =>
    let node := c.fresh
    let c := { c with
      heap := Function.update c.heap node (some ⟨key, value, none, none⟩)
      fresh := node + 1
      entries := c.entries.set key node }
    let c := c.insertAtFront node
    if c.capacity < c.size then c.evictLeastRecent else c

def has (c : LruCache K V) (key : K) : Bool := c.entries.has key

def delete (c : LruCache K V) (key : K) : LruCache K V × Bool :=
  match c.entries.get key with
  | none => (c, false)
  | some node =>
    let c := c.removeNode node
    ({ c with entries := c.entries.delete key }, true)

def clear (c : LruCache K V) : LruCache K V :=
  { c with entries := .empty, head := none, tail := none }

/-- The loop of `keys`, from a node on. -/
def keysFrom (c : LruCache K V) : ℕ → Option LruRef → Option (List K)
  | _, none => some []
  | 0, some _ => none
  | fuel + 1, some node =>
    (c.heap node).bind fun current => (c.keysFrom fuel current.newer).map (current.key :: ·)

def keys (c : LruCache K V) (fuel : ℕ) : Option (List K) := c.keysFrom fuel c.head

def step (c : LruCache K V) : Op K V → LruCache K V × Answer V
  | .get key => ((c.get key).1, .value (c.get key).2)
  | .set key value => (c.set key value, .done)
  | .has key => (c, .flag (c.has key))
  | .delete key => ((c.delete key).1, .flag (c.delete key).2)
  | .clear => (c.clear, .done)

def execute (c : LruCache K V) : List (Op K V) → LruCache K V × List (Answer V)
  | [] => (c, [])
  | op :: ops =>
    let next := c.step op
    let rest := next.1.execute ops
    (rest.1, next.2 :: rest.2)

end Keys

section Refinement

open Recency (Entries)

variable {c c' : LruCache K V} {refs pre post : List LruRef} {xs : Entries K V}
  {a : LruRef} {k : K} {v : V}

def links (c : LruCache K V) : Links LruRef := ⟨c.head, c.tail, c.newer, c.older⟩

def entry (c : LruCache K V) (a : LruRef) : Option (K × V) :=
  (c.heap a).map fun node => (node.key, node.value)

structure Relinks (c c' : LruCache K V) (l : Links LruRef) : Prop where
  links : c'.links = l
  entry : c'.entry = c.entry
  entries : c'.entries = c.entries
  capacity : c'.capacity = c.capacity
  fresh : c'.fresh = c.fresh

/-- What is read from the nodes, after one of them was changed. -/
theorem comp_modify {β : Type} (g : Option (LruNode K V) → β) (f : LruNode K V → LruNode K V) :
    (fun x => g ((c.modify a f).heap x)) =
      Function.update (fun x => g (c.heap x)) a (g ((c.heap a).map f)) :=
  Function.comp_update g c.heap a _

theorem comp_modify_eq {β : Type} {g : Option (LruNode K V) → β} {f : LruNode K V → LruNode K V}
    (h : g ((c.heap a).map f) = g (c.heap a)) :
    (fun x => g ((c.modify a f).heap x)) = fun x => g (c.heap x) := by
  rw [comp_modify, h]
  exact Function.update_eq_self a _

theorem entry_modify {f : LruNode K V → LruNode K V}
    (hf : ∀ node, (f node).key = node.key ∧ (f node).value = node.value) :
    (c.modify a f).entry = c.entry := by
  refine comp_modify_eq (g := Option.map fun node => (node.key, node.value)) ?_
  cases c.heap a with
  | none => rfl
  | some node => simp [hf node]

theorem relinks_setNewer (ha : (c.entry a).isSome) (b : Option LruRef) :
    Relinks c (c.setNewer a b) (c.links.setNext a b) := by
  obtain ⟨node, hnode⟩ := Option.isSome_iff_exists.mp (Option.isSome_map.symm.trans ha)
  have hnewer : (c.setNewer a b).newer = Function.update c.newer a b := by
    refine (comp_modify (Option.bind · LruNode.newer) _).trans ?_
    rw [hnode]
    rfl
  have holder : (c.setNewer a b).older = c.older := by
    refine comp_modify_eq (g := (Option.bind · LruNode.older)) ?_
    rw [hnode]
    rfl
  refine ⟨?_, entry_modify fun _ => ⟨rfl, rfl⟩, rfl, rfl, rfl⟩
  rw [links, hnewer, holder]
  rfl

theorem relinks_setOlder (ha : (c.entry a).isSome) (b : Option LruRef) :
    Relinks c (c.setOlder a b) (c.links.setPrev a b) := by
  obtain ⟨node, hnode⟩ := Option.isSome_iff_exists.mp (Option.isSome_map.symm.trans ha)
  have hnewer : (c.setOlder a b).newer = c.newer := by
    refine comp_modify_eq (g := (Option.bind · LruNode.newer)) ?_
    rw [hnode]
    rfl
  have holder : (c.setOlder a b).older = Function.update c.older a b := by
    refine (comp_modify (Option.bind · LruNode.older) _).trans ?_
    rw [hnode]
    rfl
  refine ⟨?_, entry_modify fun _ => ⟨rfl, rfl⟩, rfl, rfl, rfl⟩
  rw [links, hnewer, holder]
  rfl

theorem Relinks.trans {c'' : LruCache K V} {l l' : Links LruRef} (h : Relinks c c' l)
    (h' : Relinks c' c'' l') : Relinks c c'' l' :=
  ⟨h'.links, h'.entry.trans h.entry, h'.entries.trans h.entries, h'.capacity.trans h.capacity,
    h'.fresh.trans h.fresh⟩

theorem Relinks.isSome {l : Links LruRef} (h : Relinks c c' l) (ha : (c.entry a).isSome) :
    (c'.entry a).isSome := by
  rwa [h.entry]

theorem Relinks.setNewer {l : Links LruRef} (h : Relinks c c' l) (ha : (c.entry a).isSome)
    (b : Option LruRef) : Relinks c (c'.setNewer a b) (l.setNext a b) := by
  have hset := relinks_setNewer (h.isSome ha) b
  rw [h.links] at hset
  exact h.trans hset

theorem Relinks.setOlder {l : Links LruRef} (h : Relinks c c' l) (ha : (c.entry a).isSome)
    (b : Option LruRef) : Relinks c (c'.setOlder a b) (l.setPrev a b) := by
  have hset := relinks_setOlder (h.isSome ha) b
  rw [h.links] at hset
  exact h.trans hset

theorem Relinks.refl (c : LruCache K V) : Relinks c c c.links := ⟨rfl, rfl, rfl, rfl, rfl⟩

/-- The ends are no part of the heap. -/
theorem Relinks.ends {l : Links LruRef} (h : Relinks c c' l) (head tail : Option LruRef) :
    Relinks c { c' with head, tail } { l with head, tail } := by
  refine ⟨?_, h.entry, h.entries, h.capacity, h.fresh⟩
  rw [← h.links]
  rfl

theorem insertAtFront_relinks (ha : (c.entry a).isSome)
    (hhead : ∀ b ∈ c.head, (c.entry b).isSome) :
    Relinks c (c.insertAtFront a) (c.links.pushFront a) := by
  have hset := ((Relinks.refl c).setOlder ha none).setNewer ha c.head
  cases hc : c.head with
  | none =>
    have hinsert : c.insertAtFront a =
        { (c.setOlder a none).setNewer a c.head with
          head := some a
          tail := c.tail.or (some a) } := by
      cases htail : c.tail <;> simp [insertAtFront, setOlder, setNewer, modify, hc, htail]
    have hpush : c.links.pushFront a =
        { (c.links.setPrev a none).setNext a c.head with
          head := some a
          tail := c.tail.or (some a) } := by
      simp only [Links.pushFront, Links.bridgeFront, Links.setNext, Links.setPrev, links, hc]
    rw [hinsert, hpush]
    exact hset.ends _ _
  | some head =>
    have hinsert : c.insertAtFront a =
        { ((c.setOlder a none).setNewer a c.head).setOlder head (some a) with
          head := some a
          tail := c.tail.or (some a) } := by
      cases htail : c.tail <;> simp [insertAtFront, setOlder, setNewer, modify, hc, htail]
    have hpush : c.links.pushFront a =
        { ((c.links.setPrev a none).setNext a c.head).setPrev head (some a) with
          head := some a
          tail := c.tail.or (some a) } := by
      simp only [Links.pushFront, Links.bridgeFront, Links.setNext, Links.setPrev, links, hc]
    rw [hinsert, hpush]
    exact (hset.setOlder (hhead head hc) (some a)).ends _ _

/-- The first half of `removeNode`. -/
theorem bridgeNext_relinks {l : Links LruRef} (h : Relinks c c' l)
    (holder : ∀ b ∈ l.prev a, (c.entry b).isSome) :
    Relinks c (match c'.older a with
      | some older => c'.setNewer older (c'.newer a)
      | none => if c'.head = some a then { c' with head := c'.newer a } else c')
      (l.bridgeNext a) := by
  obtain rfl := h.links
  cases hold : c'.older a with
  | some b =>
    have hprev : c'.links.prev a = some b := hold
    simp only [Links.bridgeNext, hprev]
    exact h.setNewer (holder b hold) _
  | none =>
    have hprev : c'.links.prev a = none := hold
    simp only [Links.bridgeNext, hprev]
    by_cases hhead : c'.head = some a
    · rw [if_pos hhead, if_pos (show c'.links.head = some a from hhead)]
      exact h.ends _ _
    · rw [if_neg hhead, if_neg (show c'.links.head ≠ some a from hhead)]
      exact h

theorem bridgePrev_relinks {l : Links LruRef} (h : Relinks c c' l)
    (hnewer : ∀ b ∈ l.next a, (c.entry b).isSome) :
    Relinks c (match c'.newer a with
      | some newer => c'.setOlder newer (c'.older a)
      | none => if c'.tail = some a then { c' with tail := c'.older a } else c')
      (l.bridgePrev a) := by
  obtain rfl := h.links
  cases hnew : c'.newer a with
  | some b =>
    have hnext : c'.links.next a = some b := hnew
    simp only [Links.bridgePrev, hnext]
    exact h.setOlder (hnewer b hnew) _
  | none =>
    have hnext : c'.links.next a = none := hnew
    simp only [Links.bridgePrev, hnext]
    by_cases htail : c'.tail = some a
    · rw [if_pos htail, if_pos (show c'.links.tail = some a from htail)]
      exact h.ends _ _
    · rw [if_neg htail, if_neg (show c'.links.tail ≠ some a from htail)]
      exact h

theorem removeNode_relinks (ha : (c.entry a).isSome)
    (holder : ∀ b ∈ c.older a, (c.entry b).isSome) (hnewer : ∀ b ∈ c.newer a, (c.entry b).isSome)
    (hself : c.older a ≠ some a) :
    Relinks c (c.removeNode a) (c.links.unlink a) := by
  have hnext : (c.links.bridgeNext a).next a = c.newer a := by
    obtain ⟨-, -, hnext, -⟩ := Links.bridgeNext_spec c.links a
    rw [hnext a]
    exact if_neg hself
  have hbridged := bridgeNext_relinks (a := a) (Relinks.refl c) holder
  have hboth := bridgePrev_relinks (a := a) hbridged fun b hb => hnewer b (hnext ▸ hb)
  exact (hboth.setNewer ha none).setOlder ha none

/-- The list holds the nodes of the entries, and the map finds each of them under its key. -/
structure Represents [DecidableEq K] (c : LruCache K V) (refs : List LruRef) (xs : Entries K V) :
    Prop where
  links : c.links.Holds refs
  nodes : refs.map c.entry = xs.map some
  entries : ∀ k a, c.entries.get k = some a ↔ a ∈ refs ∧ (c.entry a).map Prod.fst = some k
  fresh : ∀ a ∈ refs, a < c.fresh

structure Stands (c : LruCache K V) (pre : List LruRef) (a : LruRef) (post : List LruRef)
    (xpre : Entries K V) (e : K × V) (xpost : Entries K V) : Prop where
  pre : pre.map c.entry = xpre.map some
  node : c.entry a = some e
  post : post.map c.entry = xpost.map some

namespace Represents

variable [DecidableEq K] {xpre xpost : Entries K V} {e : K × V}

theorem isSome (h : Represents c refs xs) (ha : a ∈ refs) : (c.entry a).isSome := by
  have hmem : c.entry a ∈ xs.map some := h.nodes ▸ List.mem_map_of_mem ha
  obtain ⟨e, -, he⟩ := List.mem_map.mp hmem
  rw [← he]
  rfl

theorem split (h : Represents c refs xs) (ha : a ∈ refs) :
    ∃ pre post xpre e xpost, refs = pre ++ a :: post ∧ xs = xpre ++ e :: xpost ∧
      Stands c pre a post xpre e xpost := by
  obtain ⟨pre, post, rfl⟩ := List.append_of_mem ha
  have hnodes := h.nodes
  rw [List.map_append, List.map_cons] at hnodes
  obtain ⟨xpre, xs, rfl, hpre, hrest⟩ := List.map_eq_append_iff.mp hnodes.symm
  obtain ⟨e, xpost, rfl, he, hpost⟩ := List.map_eq_cons_iff.mp hrest
  exact ⟨pre, post, xpre, e, xpost, rfl, rfl, hpre.symm, he.symm, hpost.symm⟩

theorem get_iff (h : Represents c refs xs) {k : K} :
    (c.entries.get k).isSome ↔ k ∈ xs.keys := by
  rw [Option.isSome_iff_exists]
  constructor
  · rintro ⟨a, ha⟩
    obtain ⟨hmem, hkey⟩ := (h.entries k a).mp ha
    obtain ⟨pre, post, xpre, e, xpost, -, rfl, hstands⟩ := h.split hmem
    rw [hstands.node] at hkey
    obtain rfl := Option.some.inj hkey
    simp [Entries.keys]
  · intro hk
    obtain ⟨e, he, rfl⟩ := List.mem_map.mp hk
    have hmem : some e ∈ refs.map c.entry := h.nodes ▸ List.mem_map_of_mem he
    obtain ⟨a, ha, hentry⟩ := List.mem_map.mp hmem
    exact ⟨a, (h.entries e.1 a).mpr ⟨ha, by rw [hentry]; rfl⟩⟩

/-- The nodes that a removal unlinks have entries. -/
theorem removeNode (h : Represents c (pre ++ a :: post) xs) :
    Relinks c (c.removeNode a) (c.links.unlink a) ∧
      (c.removeNode a).links.Holds (pre ++ post) := by
  have hmem : ∀ b, b ∈ pre ∨ b ∈ post → (c.entry b).isSome := by
    intro b hb
    refine h.isSome (List.mem_append.mpr (hb.imp_right (List.mem_cons_of_mem a)))
  have hprev : c.older a = pre.getLast? := h.links.prev pre a post rfl
  have hnext : c.newer a = post.head? := h.links.next pre a post rfl
  have hapre : a ∉ pre := fun ha =>
    (List.nodup_append.mp h.links.nodup).2.2 a ha a List.mem_cons_self rfl
  have hrelinks : Relinks c (c.removeNode a) (c.links.unlink a) := by
    refine removeNode_relinks (h.isSome (by simp)) (fun b hb => ?_) (fun b hb => ?_) ?_
    · rw [hprev] at hb
      exact hmem b (.inl (List.mem_of_getLast? hb))
    · rw [hnext] at hb
      exact hmem b (.inr (List.mem_of_head? hb))
    · rw [hprev]
      exact fun heq => hapre (List.mem_of_getLast? heq)
  refine ⟨hrelinks, ?_⟩
  rw [hrelinks.links]
  exact h.links.unlink

theorem moveToFront (h : Represents c (pre ++ a :: post) (xpre ++ e :: xpost))
    (hstands : Stands c pre a post xpre e xpost) :
    Represents (c.moveToFront a) (a :: (pre ++ post)) (e :: (xpre ++ xpost)) ∧
      (c.moveToFront a).entry = c.entry ∧ (c.moveToFront a).capacity = c.capacity := by
  have hmem : ∀ b, b ∈ a :: (pre ++ post) ↔ b ∈ pre ++ a :: post := fun b =>
    List.perm_middle.symm.mem_iff
  unfold LruCache.moveToFront
  split_ifs with hhead
  · have hpre : pre = [] := by
      have hnodup := h.links.nodup
      have heq : (pre ++ a :: post).head? = some a := h.links.head.symm.trans hhead
      cases pre with
      | nil => rfl
      | cons b pre =>
        obtain rfl := Option.some.inj heq
        simp at hnodup
    subst hpre
    have hxpre : xpre = [] := by
      have hempty := hstands.pre
      simpa using hempty.symm
    subst hxpre
    exact ⟨h, rfl, rfl⟩
  · obtain ⟨hremove, hholds⟩ := h.removeNode
    have ha : a ∉ pre ++ post := (List.nodup_cons.mp (List.perm_middle.nodup_iff.mp
      h.links.nodup)).1
    have hinsert : Relinks (c.removeNode a) ((c.removeNode a).insertAtFront a)
        ((c.removeNode a).links.pushFront a) := by
      refine insertAtFront_relinks (hremove.isSome (h.isSome (by simp))) fun b hb => ?_
      refine hremove.isSome (h.isSome ?_)
      have hb : b ∈ pre ++ post := List.mem_of_head? (hholds.head.symm.trans hb)
      exact (hmem b).mp (List.mem_cons_of_mem a hb)
    have hboth := hremove.trans hinsert
    refine ⟨⟨?_, ?_, fun k b => ?_, fun b hb => ?_⟩, hboth.entry, hboth.capacity⟩
    · rw [hinsert.links]
      exact hholds.pushFront ha
    · rw [hboth.entry]
      simp [hstands.pre, hstands.node, hstands.post]
    · rw [hboth.entries, hboth.entry, h.entries, hmem]
    · rw [hboth.fresh]
      exact h.fresh b ((hmem b).mp hb)

/-- A node that leaves the list and whose key leaves the map. -/
theorem drop (h : Represents c (pre ++ a :: post) (xpre ++ e :: xpost))
    (hstands : Stands c pre a post xpre e xpost) :
    Represents { c.removeNode a with entries := (c.removeNode a).entries.delete e.1 }
      (pre ++ post) (xpre ++ xpost) := by
  obtain ⟨hremove, hholds⟩ := h.removeNode
  have hsub : ∀ b ∈ pre ++ post, b ∈ pre ++ a :: post := fun b hb =>
    ((List.sublist_cons_self a post).append_left pre).subset hb
  have ha : a ∉ pre ++ post := (List.nodup_cons.mp (List.perm_middle.nodup_iff.mp
    h.links.nodup)).1
  refine ⟨hholds, ?_, fun k b => ?_, fun b hb => ?_⟩
  · change (pre ++ post).map (c.removeNode a).entry = _
    rw [hremove.entry]
    simp [hstands.pre, hstands.post]
  · change ((c.removeNode a).entries.delete e.1).get k = some b ↔
      b ∈ pre ++ post ∧ ((c.removeNode a).entry b).map Prod.fst = some k
    have hown : c.entries.get e.1 = some a :=
      (h.entries e.1 a).mpr ⟨by simp, by rw [hstands.node]; rfl⟩
    rw [hremove.entries, hremove.entry, InsMap.get_delete]
    split_ifs with hk
    · subst hk
      refine iff_of_false not_false fun hb => ?_
      have hother := (h.entries e.1 b).mpr ⟨hsub b hb.1, hb.2⟩
      obtain rfl := Option.some.inj (hown.symm.trans hother)
      exact ha hb.1
    · refine (h.entries k b).trans (and_congr_left fun hkey => ?_)
      have hne : b ≠ a := by
        rintro rfl
        rw [hstands.node] at hkey
        exact hk (Option.some.inj hkey).symm
      simp [hne]
  · rw [show ({ c.removeNode a with entries := _ } : LruCache K V).fresh = c.fresh from
      hremove.fresh]
    exact h.fresh b (hsub b hb)

/-- A node takes a new value. -/
theorem setValue (h : Represents c (pre ++ a :: post) (xpre ++ e :: xpost))
    (hstands : Stands c pre a post xpre e xpost) (value : V) :
    Represents (c.modify a fun node => { node with value }) (pre ++ a :: post)
        (xpre ++ (e.1, value) :: xpost) ∧
      Stands (c.modify a fun node => { node with value }) pre a post xpre (e.1, value) xpost := by
  obtain ⟨node, hnode, hkey⟩ : ∃ node, c.heap a = some node ∧ node.key = e.1 := by
    obtain ⟨node, hnode, rfl⟩ := Option.map_eq_some_iff.mp hstands.node
    exact ⟨node, hnode, rfl⟩
  have hentry : (c.modify a fun node => { node with value }).entry =
      Function.update c.entry a (some (e.1, value)) := by
    refine (comp_modify (Option.map fun node : LruNode K V => (node.key, node.value)) _).trans ?_
    rw [hnode, Option.map_some, Option.map_some, hkey]
    rfl
  have hlinks : (c.modify a fun node => { node with value }).links = c.links := by
    have hnewer : (c.modify a fun node => { node with value }).newer = c.newer := by
      refine comp_modify_eq (g := (Option.bind · LruNode.newer)) ?_
      rw [hnode]
      rfl
    have holder : (c.modify a fun node => { node with value }).older = c.older := by
      refine comp_modify_eq (g := (Option.bind · LruNode.older)) ?_
      rw [hnode]
      rfl
    rw [LruCache.links, hnewer, holder]
    rfl
  have hne : ∀ b ∈ pre ++ post, b ≠ a := by
    rintro b hb rfl
    exact (List.nodup_cons.mp (List.perm_middle.nodup_iff.mp h.links.nodup)).1 hb
  have hstands' : Stands (c.modify a fun node => { node with value }) pre a post xpre
      (e.1, value) xpost := by
    refine ⟨?_, ?_, ?_⟩
    · rw [hentry, ← hstands.pre]
      exact List.map_congr_left fun b hb =>
        Function.update_of_ne (hne b (List.mem_append_left post hb)) _ _
    · rw [hentry, Function.update_self]
    · rw [hentry, ← hstands.post]
      exact List.map_congr_left fun b hb =>
        Function.update_of_ne (hne b (List.mem_append_right pre hb)) _ _
  refine ⟨⟨hlinks ▸ h.links, ?_, fun k b => (h.entries k b).trans ?_, h.fresh⟩, hstands'⟩
  · simp [hstands'.pre, hstands'.node, hstands'.post]
  · rw [hentry]
    by_cases hb : b = a
    · subst hb
      rw [Function.update_self, hstands.node]
      rfl
    · rw [Function.update_of_ne hb]

def alloc (c : LruCache K V) (key : K) (value : V) : LruCache K V :=
  { c with
    heap := Function.update c.heap c.fresh (some ⟨key, value, none, none⟩)
    fresh := c.fresh + 1
    entries := c.entries.set key c.fresh }

theorem insertNew (h : Represents c refs xs) (hk : k ∉ xs.keys) (v : V) :
    Represents ((alloc c k v).insertAtFront c.fresh) (c.fresh :: refs) ((k, v) :: xs) ∧
      ((alloc c k v).insertAtFront c.fresh).capacity = c.capacity := by
  have hfresh : c.fresh ∉ refs := fun hmem => Nat.lt_irrefl _ (h.fresh _ hmem)
  have hheap : ∀ b ∈ refs, (alloc c k v).heap b = c.heap b := fun b hb =>
    Function.update_of_ne (ne_of_mem_of_not_mem hb hfresh) _ _
  have hentry : ∀ b ∈ refs, (alloc c k v).entry b = c.entry b := fun b hb => by
    rw [LruCache.entry, hheap b hb]
    rfl
  have hnode : (alloc c k v).entry c.fresh = some (k, v) := by
    simp [LruCache.entry, alloc]
  have hlinks : (alloc c k v).links.Holds refs := by
    refine h.links.congr rfl rfl (fun b hb => ?_) fun b hb => ?_
    · change ((alloc c k v).heap b).bind LruNode.newer = _
      rw [hheap b hb]
      rfl
    · change ((alloc c k v).heap b).bind LruNode.older = _
      rw [hheap b hb]
      rfl
  have hinsert := insertAtFront_relinks (c := alloc c k v) (a := c.fresh) (by rw [hnode]; rfl)
    fun b hb => by
      have hmem : b ∈ refs := List.mem_of_head? (h.links.head.symm.trans hb)
      rw [hentry b hmem]
      exact h.isSome hmem
  refine ⟨⟨?_, ?_, fun k' b => ?_, ?_⟩, hinsert.capacity⟩
  · rw [hinsert.links]
    exact hlinks.pushFront hfresh
  · rw [hinsert.entry, List.map_cons, List.map_cons, hnode, ← h.nodes]
    exact congrArg _ (List.map_congr_left hentry)
  · rw [hinsert.entries, hinsert.entry]
    change (c.entries.set k c.fresh).get k' = some b ↔ _
    have hnone : c.entries.get k = none := by
      rw [← Option.not_isSome_iff_eq_none, h.get_iff]
      exact hk
    rw [InsMap.get_set]
    split_ifs with hkey
    · subst hkey
      constructor
      · intro heq
        obtain rfl := Option.some.inj heq
        exact ⟨List.mem_cons_self, by rw [hnode]; rfl⟩
      · rintro ⟨hb, hbkey⟩
        obtain rfl | hb := List.mem_cons.mp hb
        · rfl
        · rw [hentry b hb] at hbkey
          exact absurd ((h.entries k' b).mpr ⟨hb, hbkey⟩) (by simp [hnone])
    · refine (h.entries k' b).trans ⟨fun hb => ?_, fun hb => ?_⟩
      · exact ⟨List.mem_cons_of_mem _ hb.1, by rw [hentry b hb.1]; exact hb.2⟩
      · obtain ⟨hmem, hbkey⟩ := hb
        obtain rfl | hmem := List.mem_cons.mp hmem
        · rw [hnode] at hbkey
          exact absurd (Option.some.inj hbkey).symm hkey
        · exact ⟨hmem, by rwa [hentry b hmem] at hbkey⟩
  · rw [hinsert.fresh]
    exact List.forall_mem_cons.mpr ⟨Nat.lt_succ_self _, fun b hb =>
      Nat.lt_succ_of_lt (h.fresh b hb)⟩

/-- The map has as many keys as the list has entries. -/
theorem keys_perm (h : Represents c refs xs) (hnodup : xs.keys.Nodup) :
    c.entries.keys.Perm xs.keys := by
  refine (List.perm_ext_iff_of_nodup c.entries.nodup hnodup).mpr fun k => ?_
  rw [← h.get_iff, Option.isSome_iff_exists]
  exact c.entries.mem_keys_iff k

theorem evict (h : Represents c refs xs) (hne : xs ≠ []) :
    ∃ refs', Represents c.evictLeastRecent refs' xs.dropLast ∧
      c.evictLeastRecent.capacity = c.capacity := by
  have hlength : refs.length = xs.length := by
    have hnodes := congrArg List.length h.nodes
    simpa using hnodes
  have hrefs : refs ≠ [] := by
    rintro rfl
    exact hne (List.length_eq_zero_iff.mp hlength.symm)
  obtain ⟨pre, a, rfl⟩ : ∃ pre a, refs = pre ++ [a] :=
    ⟨_, _, (List.dropLast_append_getLast hrefs).symm⟩
  obtain ⟨xpre, e, rfl⟩ : ∃ xpre e, xs = xpre ++ [e] :=
    ⟨_, _, (List.dropLast_append_getLast hne).symm⟩
  have hnodes := h.nodes
  rw [List.map_append, List.map_append] at hnodes
  obtain ⟨hpre, hlast⟩ := List.append_inj' hnodes rfl
  have hstands : Stands c pre a [] xpre e [] := ⟨hpre, (List.cons.inj hlast).1, rfl⟩
  have htail : c.tail = some a := by
    have htail := h.links.tail
    rwa [List.getLast?_append] at htail
  have hremove := h.removeNode.1
  obtain ⟨node, hnode, hkey⟩ : ∃ node, (c.removeNode a).heap a = some node ∧ node.key = e.1 := by
    have hentry : (c.removeNode a).entry a = some e := by rw [hremove.entry, hstands.node]
    obtain ⟨node, hnode, rfl⟩ := Option.map_eq_some_iff.mp hentry
    exact ⟨node, hnode, rfl⟩
  have hevict : c.evictLeastRecent =
      { c.removeNode a with entries := (c.removeNode a).entries.delete e.1 } := by
    simp only [evictLeastRecent, htail, hnode, hkey]
  rw [hevict, List.dropLast_concat]
  refine ⟨pre ++ [], ?_, hremove.capacity⟩
  have hdrop := h.drop hstands
  rwa [List.append_nil xpre] at hdrop

/-- A key of the list is found at its node. -/
theorem find (h : Represents c refs xs) (hnodup : xs.keys.Nodup) (hk : k ∈ xs.keys) :
    ∃ pre a post xpre v xpost, refs = pre ++ a :: post ∧ xs = xpre ++ (k, v) :: xpost ∧
      Stands c pre a post xpre (k, v) xpost ∧ c.entries.get k = some a ∧
      xs.lookup k = some v ∧ xs.erase k = xpre ++ xpost := by
  obtain ⟨a, ha⟩ := Option.isSome_iff_exists.mp (h.get_iff.mpr hk)
  obtain ⟨hmem, hkey⟩ := (h.entries k a).mp ha
  obtain ⟨pre, post, xpre, ⟨k', v⟩, xpost, rfl, rfl, hstands⟩ := h.split hmem
  rw [hstands.node] at hkey
  obtain rfl : k' = k := Option.some.inj hkey
  obtain ⟨hlookup, herase⟩ := Recency.lookup_erase_of_split hnodup
  exact ⟨pre, a, post, xpre, v, xpost, rfl, rfl, hstands, ha, hlookup, herase⟩

theorem get_eq_none (h : Represents c refs xs) (hk : k ∉ xs.keys) : c.entries.get k = none := by
  rw [← Option.not_isSome_iff_eq_none, h.get_iff]
  exact hk

theorem set (h : Represents c refs xs) (hnodup : xs.keys.Nodup) (hcap : 1 ≤ c.capacity)
    (hbound : xs.length ≤ c.capacity) (k : K) (v : V) :
    ∃ refs', Represents (c.set k v) refs' (Recency.step c.capacity xs (.set k v)).1 ∧
      (c.set k v).capacity = c.capacity := by
  by_cases hk : k ∈ xs.keys
  · obtain ⟨pre, a, post, xpre, v', xpost, rfl, rfl, hstands, hget, -, herase⟩ :=
      h.find hnodup hk
    obtain ⟨hvalue, hstands'⟩ := h.setValue hstands v
    obtain ⟨hfront, -, hcapacity⟩ := hvalue.moveToFront hstands'
    simp only [LruCache.set, hget, Recency.step, if_pos hk, herase]
    exact ⟨_, hfront, hcapacity⟩
  · obtain ⟨hinsert, hcapacity⟩ := h.insertNew hk v
    have hnodup' : (Entries.keys ((k, v) :: xs)).Nodup := List.nodup_cons.mpr ⟨hk, hnodup⟩
    have hsize : ((alloc c k v).insertAtFront c.fresh).size = xs.length + 1 := by
      rw [size, (hinsert.keys_perm hnodup').length_eq, Entries.keys, List.length_map,
        List.length_cons]
    have hset : c.set k v =
        if c.capacity < xs.length + 1 then
          ((alloc c k v).insertAtFront c.fresh).evictLeastRecent
        else (alloc c k v).insertAtFront c.fresh := by
      rw [← hsize, ← hcapacity]
      simp only [LruCache.set, h.get_eq_none hk]
      rfl
    have hlist := Recency.step_set_of_not_mem hk hcap hbound v
    rw [hset, hlist]
    split_ifs with hfull hroom hroom
    · omega
    · obtain ⟨refs', hevict, hcapacity'⟩ := hinsert.evict (List.cons_ne_nil _ _)
      have hne : xs ≠ [] := by
        rintro rfl
        exact hroom hcap
      rw [List.dropLast_cons_of_ne_nil hne] at hevict
      exact ⟨refs', hevict, hcapacity'.trans hcapacity⟩
    · exact ⟨_, hinsert, hcapacity⟩
    · omega

/-- Every operation does to the cache what it does to the list. -/
theorem step (h : Represents c refs xs) (hnodup : xs.keys.Nodup) (hcap : 1 ≤ c.capacity)
    (hbound : xs.length ≤ c.capacity) (op : Op K V) :
    ∃ refs', Represents (c.step op).1 refs' (Recency.step c.capacity xs op).1 ∧
      (c.step op).1.capacity = c.capacity ∧
      (c.step op).2 = (Recency.step c.capacity xs op).2 := by
  have hhas : ∀ k, c.has k = decide (k ∈ xs.keys) := fun k => by
    rw [Bool.eq_iff_iff, decide_eq_true_iff, ← h.get_iff]
    rfl
  cases op with
  | get k =>
    by_cases hk : k ∈ xs.keys
    · obtain ⟨pre, a, post, xpre, v, xpost, rfl, rfl, hstands, hget, hlookup, herase⟩ :=
        h.find hnodup hk
      obtain ⟨hfront, hentry, hcapacity⟩ := h.moveToFront hstands
      have hvalue : ((c.moveToFront a).heap a).map LruNode.value = some v := by
        have hnode : (c.moveToFront a).entry a = some (k, v) := by rw [hentry, hstands.node]
        obtain ⟨node, hnode, heq⟩ := Option.map_eq_some_iff.mp hnode
        rw [hnode, Option.map_some, (Prod.mk.inj heq).2]
      simp only [LruCache.step, LruCache.get, hget, Recency.step, hlookup, herase, hvalue]
      exact ⟨_, hfront, hcapacity, trivial⟩
    · simp only [LruCache.step, LruCache.get, h.get_eq_none hk, Recency.step,
        Recency.lookup_of_not_mem hk]
      exact ⟨refs, h, trivial, trivial⟩
  | set k v =>
    obtain ⟨refs', hset, hcapacity⟩ := h.set hnodup hcap hbound k v
    refine ⟨refs', hset, hcapacity, ?_⟩
    by_cases hk : k ∈ xs.keys
    · simp only [LruCache.step, Recency.step, if_pos hk]
    · simp only [LruCache.step, Recency.step, if_neg hk]
  | has k => exact ⟨refs, h, rfl, congrArg Answer.flag (hhas k)⟩
  | delete k =>
    by_cases hk : k ∈ xs.keys
    · obtain ⟨pre, a, post, xpre, v, xpost, rfl, rfl, hstands, hget, -, herase⟩ :=
        h.find hnodup hk
      simp only [LruCache.step, LruCache.delete, hget, Recency.step, herase, hk, decide_true]
      exact ⟨_, h.drop hstands, h.removeNode.1.capacity, trivial⟩
    · simp only [LruCache.step, LruCache.delete, h.get_eq_none hk, Recency.step,
        Recency.erase_eq_self hk, hk, decide_false]
      exact ⟨refs, h, trivial, trivial⟩
  | clear =>
    have hempty : Represents c.clear [] [] :=
      ⟨Links.holds_empty _ _, rfl, by simp [LruCache.clear], by simp⟩
    exact ⟨[], hempty, rfl, rfl⟩

omit [DecidableEq K] in
/-- The loop of `keys` puts out the keys of the nodes that it visits. -/
theorem keysFrom_of_walk {n : ℕ} {start : Option LruRef}
    (hwalk : Links.walk c.newer n start = some refs) (hnodes : refs.map c.entry = xs.map some) :
    c.keysFrom n start = some xs.keys := by
  induction n generalizing start refs xs with
  | zero =>
    cases start with
    | none =>
      obtain rfl := Option.some.inj hwalk
      obtain rfl : xs = [] := by simpa using hnodes.symm
      rfl
    | some a => cases hwalk
  | succ n ih =>
    cases start with
    | none =>
      obtain rfl := Option.some.inj hwalk
      obtain rfl : xs = [] := by simpa using hnodes.symm
      rfl
    | some a =>
      obtain ⟨rest, hrest, rfl⟩ := Option.map_eq_some_iff.mp hwalk
      obtain ⟨e, xs, rfl, he, hothers⟩ := List.map_eq_cons_iff.mp hnodes.symm
      obtain ⟨node, hnode, rfl⟩ := Option.map_eq_some_iff.mp he.symm
      have hnext : c.newer a = node.newer := by rw [newer, hnode, Option.bind_some]
      rw [hnext] at hrest
      change (c.heap a).bind (fun current =>
        (c.keysFrom n current.newer).map (current.key :: ·)) = _
      rw [hnode, Option.bind_some, ih hrest hothers.symm]
      rfl

theorem keys (h : Represents c refs xs) {n : ℕ} (hn : xs.length ≤ n) :
    c.keys n = some xs.keys := by
  have hlength : refs.length = xs.length := by
    have hnodes := congrArg List.length h.nodes
    simpa using hnodes
  exact keysFrom_of_walk (h.links.walk (hlength ▸ hn)) h.nodes

end Represents

variable [DecidableEq K]

/-- The cache after some operations is the list of its entries by their last uses. -/
structure Refines (c : LruCache K V) (ops : List (Op K V)) (xs : Entries K V) : Prop where
  linked : ∃ refs, Represents c refs xs
  keys : ∃ fuel, ∀ n, fuel ≤ n → c.keys n = some xs.keys
  sameKeys : c.entries.keys.Perm xs.keys
  nodup : xs.keys.Nodup
  size : c.size = xs.length
  bounded : c.size ≤ c.capacity
  lastUses : Recency.Follows ops.reverse xs
  evicts : ∀ k v, k ∉ xs.keys → ∃ fuel, ∀ n, fuel ≤ n → (c.set k v).keys n =
    some (k :: if c.size < c.capacity then xs.keys else xs.keys.dropLast)

theorem execute_represents (h : Represents c refs xs)
    (hfollows : ∃ history, Recency.Follows history xs) (hcap : 1 ≤ c.capacity)
    (hbound : xs.length ≤ c.capacity) (ops : List (Op K V)) :
    (∃ refs', Represents (c.execute ops).1 refs' (Recency.execute c.capacity xs ops).1) ∧
      (c.execute ops).1.capacity = c.capacity ∧
      (c.execute ops).2 = (Recency.execute c.capacity xs ops).2 ∧
      (Recency.execute c.capacity xs ops).1.length ≤ c.capacity := by
  induction ops generalizing c refs xs with
  | nil => exact ⟨⟨refs, h⟩, rfl, rfl, hbound⟩
  | cons op ops ih =>
    obtain ⟨history, hfollows⟩ := hfollows
    obtain ⟨refs', hstep, hcapacity, hanswer⟩ := h.step hfollows.nodup hcap hbound op
    have hlength := Recency.length_step hfollows.nodup hbound op
    have hnext : ∃ history, Recency.Follows history (Recency.step c.capacity xs op).1 :=
      ⟨op :: history, hfollows.step c.capacity op⟩
    obtain ⟨hrep, hcap', hanswers, hbound'⟩ :=
      ih hstep hnext (hcapacity.symm ▸ hcap) (by rw [hcapacity]; exact hlength)
    rw [hcapacity] at hrep hcap' hanswers hbound'
    refine ⟨hrep, hcap', ?_, hbound'⟩
    rw [execute, Recency.execute, hanswers, hanswer]

theorem represents_create {capacity : ℚ} (h : 1 ≤ capacity) :
    ∃ c : LruCache K V, create (.finite capacity) = .ok c ∧ Represents c [] [] ∧
      c.capacity = ⌊capacity⌋.toNat ∧ 1 ≤ c.capacity := by
  have hpos : ¬ capacity ≤ 0 := not_le.mpr (lt_of_lt_of_le one_pos h)
  have hfloor : 1 ≤ ⌊capacity⌋ := Int.le_floor.mpr (by simpa using h)
  have hfloor' : ¬ ⌊capacity⌋ ≤ 0 := by omega
  refine ⟨⟨⌊capacity⌋.toNat, .empty, none, none, fun _ => none, 0⟩, ?_, ?_, rfl, ?_⟩
  · rw [create, if_neg hpos, if_neg hfloor']
  · exact ⟨Links.holds_empty _ _, rfl, by simp, by simp⟩
  · show 1 ≤ ⌊capacity⌋.toNat
    omega

theorem refines_recency (capacity : ℚ) (h : 1 ≤ capacity) (ops : List (Op K V)) :
    ∃ c : LruCache K V, create (.finite capacity) = .ok c ∧
      (c.execute ops).2 = (Recency.execute ⌊capacity⌋.toNat [] ops).2 ∧
      (c.execute ops).1.capacity = ⌊capacity⌋.toNat ∧
      Refines (c.execute ops).1 ops (Recency.execute ⌊capacity⌋.toNat [] ops).1 := by
  obtain ⟨c, hcreate, hinit, hcapacity, hpos⟩ := represents_create (K := K) (V := V) h
  have hfollows : Recency.Follows [] ([] : Entries K V) :=
    ⟨List.Pairwise.nil, fun _ he => absurd he List.not_mem_nil⟩
  obtain ⟨⟨refs, hrep⟩, hcap, hanswers, hbound⟩ :=
    execute_represents hinit ⟨[], hfollows⟩ hpos (Nat.zero_le _) ops
  rw [← hcapacity]
  refine ⟨c, hcreate, hanswers, hcap, ?_⟩
  have huses := Recency.follows_execute c.capacity ops
  generalize (Recency.execute c.capacity [] ops).1 = xs at hrep hbound huses
  rw [← hcap] at hbound hpos
  generalize (c.execute ops).1 = c' at hrep hcap hbound hpos
  have hsize : c'.size = xs.length := by
    rw [size, (hrep.keys_perm huses.nodup).length_eq, Entries.keys, List.length_map]
  refine ⟨⟨refs, hrep⟩, ⟨xs.length, fun n hn => hrep.keys hn⟩, hrep.keys_perm huses.nodup,
    huses.nodup, hsize, hsize ▸ hbound, huses, fun k v hk => ?_⟩
  obtain ⟨refs', hset, -⟩ := hrep.set huses.nodup hpos hbound k v
  refine ⟨_, fun n hn => (hset.keys hn).trans ?_⟩
  rw [Recency.step_set_of_not_mem hk hpos hbound, hsize]
  split_ifs
  · rfl
  · simp [Entries.keys]

/-- A cache of three entries: a get keeps its key when a fourth one is set. -/
def fourKeys : List (Op String ℕ) :=
  [.set "a" 1, .set "b" 2, .set "c" 3, .get "a", .set "d" 4]

theorem refines_recency_four :
    ∃ c : LruCache String ℕ, create (.finite 3) = .ok c ∧
      Refines (c.execute fourKeys).1 fourKeys [("d", 4), ("a", 1), ("c", 3)] := by
  obtain ⟨c, hcreate, -, -, hrefines⟩ := refines_recency (3 : ℚ) (by norm_num) fourKeys
  have hthree : ⌊(3 : ℚ)⌋.toNat = 3 := by
    rw [show ⌊(3 : ℚ)⌋ = 3 by norm_num]
    rfl
  have hentries : (Recency.execute 3 [] fourKeys).1 = [("d", 4), ("a", 1), ("c", 3)] := by decide
  rw [hthree, hentries] at hrefines
  exact ⟨c, hcreate, hrefines⟩

end Refinement

end LruCache

end Agyn
