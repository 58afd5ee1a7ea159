import Mathlib.Data.List.Nodup
import Mathlib.Logic.Function.Basic

/-!
Doubly linked lists as pointers between cells. A list is held by its links when every cell that
it has points to the cells beside it; pushing a cell to the front and unlinking a cell wherever it
stands keep that, and following the pointers from an end visits the cells in order.
-/
namespace Agyn

/-- The ends of a list, and where each cell points to. -/
structure Links (α : Type*) where
  head : Option α
  tail : Option α
  next : α → Option α
  prev : α → Option α

namespace Links

variable {α : Type*} {l : Links α} {xs pre post : List α} {a b : α}

/-- The cells of the list, the head first. What cells outside of the list point to is left open. -/
structure Holds (l : Links α) (xs : List α) : Prop where
  nodup : xs.Nodup
  head : l.head = xs.head?
  tail : l.tail = xs.getLast?
  next : ∀ pre a post, xs = pre ++ a :: post → l.next a = post.head?
  prev : ∀ pre a post, xs = pre ++ a :: post → l.prev a = pre.getLast?

/-- Cells outside of the list may point anywhere. -/
theorem Holds.congr {l' : Links α} (h : l.Holds xs) (hhead : l'.head = l.head)
    (htail : l'.tail = l.tail) (hnext : ∀ a ∈ xs, l'.next a = l.next a)
    (hprev : ∀ a ∈ xs, l'.prev a = l.prev a) : l'.Holds xs := by
  have hmem : ∀ {pre a post}, xs = pre ++ a :: post → a ∈ xs := fun hxs => hxs ▸ by simp
  exact ⟨h.nodup, hhead.trans h.head, htail.trans h.tail,
    fun pre a post hxs => (hnext a (hmem hxs)).trans (h.next pre a post hxs),
    fun pre a post hxs => (hprev a (hmem hxs)).trans (h.prev pre a post hxs)⟩

def empty (next prev : α → Option α) : Links α := ⟨none, none, next, prev⟩

theorem holds_empty (next prev : α → Option α) : (empty next prev).Holds [] where
  nodup := List.nodup_nil
  head := rfl
  tail := rfl
  next _ _ _ h := absurd h.symm (by simp)
  prev _ _ _ h := absurd h.symm (by simp)

section Operations

variable [DecidableEq α]

def setNext (l : Links α) (a : α) (b : Option α) : Links α :=
  { l with next := Function.update l.next a b }

def setPrev (l : Links α) (a : α) (b : Option α) : Links α :=
  { l with prev := Function.update l.prev a b }

def bridgeFront (l : Links α) (a : α) : Links α :=
  match l.head with
  | some h => l.setPrev h (some a)
  | none => l

def pushFront (l : Links α) (a : α) : Links α :=
  let l := ((l.setPrev a none).setNext a l.head).bridgeFront a
  { l with head := some a, tail := l.tail.or (some a) }

/-- The cell before takes over the successor, or the head does. -/
def bridgeNext (l : Links α) (a : α) : Links α :=
  match l.prev a with
  | some p => l.setNext p (l.next a)
  | none => if l.head = some a then { l with head := l.next a } else l

/-- The cell after takes over the predecessor, or the tail does. -/
def bridgePrev (l : Links α) (a : α) : Links α :=
  match l.next a with
  | some n => l.setPrev n (l.prev a)
  | none => if l.tail = some a then { l with tail := l.prev a } else l

def unlink (l : Links α) (a : α) : Links α :=
  (((l.bridgeNext a).bridgePrev a).setNext a none).setPrev a none

theorem Holds.pushFront (h : l.Holds xs) (ha : a ∉ xs) : (l.pushFront a).Holds (a :: xs) := by
  have hnext : (l.pushFront a).next = Function.update l.next a l.head := by
    cases hhead : l.head <;> simp [Links.pushFront, bridgeFront, setNext, setPrev, hhead]
  have hprev : ∀ b, (l.pushFront a).prev b =
      if l.head = some b then some a else if b = a then none else l.prev b := by
    intro b
    cases hhead : l.head with
    | none => simp [Links.pushFront, bridgeFront, setNext, setPrev, hhead, Function.update_apply]
    | some head =>
      simp [Links.pushFront, bridgeFront, setNext, setPrev, hhead, Function.update_apply, eq_comm]
  refine ⟨List.nodup_cons.mpr ⟨ha, h.nodup⟩, ?_, ?_, fun pre b post hxs => ?_,
    fun pre b post hxs => ?_⟩
  · rfl
  · have htail : (l.pushFront a).tail = l.tail.or (some a) := by
      cases hhead : l.head <;> simp [Links.pushFront, bridgeFront, setNext, setPrev, hhead]
    rw [htail, h.tail]
    cases xs with
    | nil => rfl
    | cons x xs => simp [List.getLast?_cons]
  · rw [hnext]
    obtain ⟨rfl, hpost⟩ | ⟨pre', rfl, hrest⟩ := List.cons_eq_append_iff.mp hxs
    · obtain ⟨rfl, rfl⟩ := List.cons.inj hpost
      rw [Function.update_self, h.head]
    · have hb : b ≠ a := by
        rintro rfl
        simp [hrest] at ha
      rw [Function.update_of_ne hb, h.next _ _ _ hrest]
  · rw [hprev]
    obtain ⟨rfl, hpost⟩ | ⟨pre', rfl, hrest⟩ := List.cons_eq_append_iff.mp hxs
    · obtain ⟨rfl, rfl⟩ := List.cons.inj hpost
      have hhead : l.head ≠ some b := by
        rw [h.head]
        exact fun heq => ha (List.mem_of_head? heq)
      rw [if_neg hhead, if_pos rfl]
      rfl
    · have hb : b ≠ a := by
        rintro rfl
        simp [hrest] at ha
      cases pre' with
      | nil =>
        rw [h.head, hrest]
        exact if_pos rfl
      | cons x pre' =>
        have hnodup := h.nodup
        have hhead : l.head ≠ some b := by
          rw [h.head, hrest]
          rintro heq
          obtain rfl := Option.some.inj heq
          simp [hrest] at hnodup
        rw [if_neg hhead, if_neg hb, h.prev _ _ _ hrest, List.getLast?_cons_cons]

theorem bridgeNext_spec (l : Links α) (a : α) :
    (l.bridgeNext a).prev = l.prev ∧ (l.bridgeNext a).tail = l.tail ∧
      (∀ b, (l.bridgeNext a).next b = if l.prev a = some b then l.next a else l.next b) ∧
      (l.bridgeNext a).head =
        if l.prev a = none ∧ l.head = some a then l.next a else l.head := by
  unfold bridgeNext
  cases l.prev a with
  | none => by_cases hhead : l.head = some a <;> simp [hhead]
  | some p => simp [setNext, Function.update_apply, eq_comm]

theorem bridgePrev_spec (l : Links α) (a : α) :
    (l.bridgePrev a).next = l.next ∧ (l.bridgePrev a).head = l.head ∧
      (∀ b, (l.bridgePrev a).prev b = if l.next a = some b then l.prev a else l.prev b) ∧
      (l.bridgePrev a).tail =
        if l.next a = none ∧ l.tail = some a then l.prev a else l.tail := by
  unfold bridgePrev
  cases l.next a with
  | none => by_cases htail : l.tail = some a <;> simp [htail]
  | some n => simp [setPrev, Function.update_apply, eq_comm]

/-- What the pointers are after a cell that does not point to itself is unlinked. -/
theorem unlink_spec (ha : l.prev a ≠ some a) :
    (∀ b, b ≠ a → (l.unlink a).next b = if l.prev a = some b then l.next a else l.next b) ∧
      (∀ b, b ≠ a → (l.unlink a).prev b = if l.next a = some b then l.prev a else l.prev b) ∧
      (l.unlink a).head = (if l.prev a = none ∧ l.head = some a then l.next a else l.head) ∧
      (l.unlink a).tail = if l.next a = none ∧ l.tail = some a then l.prev a else l.tail := by
  obtain ⟨hprev, htail, hnext, hhead⟩ := bridgeNext_spec l a
  obtain ⟨hnext', hhead', hprev', htail'⟩ := bridgePrev_spec (l.bridgeNext a) a
  rw [hprev, hnext a, if_neg ha] at hprev' htail'
  refine ⟨fun b hb => ?_, fun b hb => ?_, ?_, ?_⟩
  · rw [← hnext b, ← hnext']
    exact Function.update_of_ne hb _ _
  · rw [← hprev' b]
    exact Function.update_of_ne hb _ _
  · rw [← hhead, ← hhead']
    rfl
  · rw [← htail, ← htail']
    rfl

end Operations

/-- A cell of a list with one cell taken out stands before or after that one. -/
theorem cell_of_append {pre' post' : List α} (h : pre ++ post = pre' ++ b :: post') :
    (∃ mid, pre = pre' ++ b :: mid ∧ post' = mid ++ post) ∨
      ∃ mid, post = mid ++ b :: post' ∧ pre' = pre ++ mid := by
  obtain ⟨mid, hpre', hpost⟩ | ⟨mid, hpre, hpost'⟩ := List.append_eq_append_iff.mp h
  · exact .inr ⟨mid, hpost, hpre'⟩
  · obtain ⟨rfl, hpost⟩ | ⟨mid, rfl, hmid⟩ := List.cons_eq_append_iff.mp hpost'
    · exact .inr ⟨[], hpost.symm ▸ rfl, by simpa using hpre.symm⟩
    · exact .inl ⟨mid, hpre, hmid⟩

theorem Holds.unlink [DecidableEq α] (h : l.Holds (pre ++ a :: post)) :
    (l.unlink a).Holds (pre ++ post) := by
  obtain ⟨hpre, hpost, hapart⟩ := List.nodup_append.mp h.nodup
  obtain ⟨ha, hpost⟩ := List.nodup_cons.mp hpost
  have hapre : a ∉ pre := fun hmem => hapart a hmem a List.mem_cons_self rfl
  have hprev : l.prev a = pre.getLast? := h.prev _ _ _ rfl
  have hnext : l.next a = post.head? := h.next _ _ _ rfl
  have hself : l.prev a ≠ some a := by
    rw [hprev]
    exact fun heq => hapre (List.mem_of_getLast? heq)
  obtain ⟨hnext', hprev', hhead', htail'⟩ := unlink_spec hself
  rw [hprev, hnext] at hnext' hprev' hhead' htail'
  refine ⟨?_, ?_, ?_, fun pre' b post' hxs => ?_, fun pre' b post' hxs => ?_⟩
  · exact h.nodup.sublist ((List.sublist_cons_self a post).append_left pre)
  · rw [hhead', h.head]
    cases pre with
    | nil => simp
    | cons x pre => simp
  · rw [htail', h.tail]
    cases post with
    | nil => simp
    | cons x post => simp [List.getLast?_append]
  · have hb : b ≠ a := by
      rintro rfl
      have hmem : b ∈ pre ++ post := hxs ▸ by simp
      exact (List.mem_append.mp hmem).elim hapre ha
    rw [hnext' b hb]
    obtain ⟨mid, rfl, rfl⟩ | ⟨mid, rfl, rfl⟩ := cell_of_append hxs
    · cases mid with
      | nil => simp
      | cons x mid =>
        have hlast : (pre' ++ b :: x :: mid).getLast? ≠ some b := by
          rw [List.getLast?_append_cons, List.getLast?_cons_cons]
          intro heq
          have hmem := List.mem_of_getLast? heq
          have hnodup := (List.nodup_append.mp hpre).2.1
          exact (List.nodup_cons.mp hnodup).1 hmem
        rw [if_neg hlast, h.next pre' b (x :: mid ++ a :: post) (by simp)]
        rfl
    · have hlast : pre.getLast? ≠ some b := fun heq =>
        hapart b (List.mem_of_getLast? heq) b (by simp) rfl
      rw [if_neg hlast, h.next (pre ++ a :: mid) b post' (by simp)]
  · have hb : b ≠ a := by
      rintro rfl
      have hmem : b ∈ pre ++ post := hxs ▸ by simp
      exact (List.mem_append.mp hmem).elim hapre ha
    rw [hprev' b hb]
    obtain ⟨mid, rfl, rfl⟩ | ⟨mid, rfl, rfl⟩ := cell_of_append hxs
    · have hhead : post.head? ≠ some b := fun heq =>
        hapart b (by simp) b (List.mem_cons_of_mem a (List.mem_of_head? heq)) rfl
      rw [if_neg hhead, h.prev pre' b (mid ++ a :: post) (by simp)]
    · cases mid with
      | nil => simp
      | cons x mid =>
        have hhead : (x :: mid ++ b :: post').head? ≠ some b := by
          intro heq
          obtain rfl := Option.some.inj heq
          exact (List.nodup_cons.mp hpost).1 (by simp)
        rw [if_neg hhead, h.prev (pre ++ a :: x :: mid) b post' (by simp)]
        simp [List.getLast?_append]

/-- The cells from one on, or nothing when the fuel ran out. -/
def walk (next : α → Option α) : ℕ → Option α → Option (List α)
  | _, none => some []
  | 0, some _ => none
  | fuel + 1, some a => (walk next fuel (next a)).map (a :: ·)

theorem walk_of_next {next : α → Option α} (h : ∀ pre a post, xs = pre ++ a :: post →
    next a = post.head?) {fuel : ℕ} (hfuel : xs.length ≤ fuel) :
    walk next fuel xs.head? = some xs := by
  induction xs generalizing fuel with
  | nil => cases fuel <;> rfl
  | cons x xs ih =>
    obtain ⟨fuel, rfl⟩ := Nat.exists_eq_add_of_le' hfuel
    have hrest : walk next (fuel + xs.length) xs.head? = some xs :=
      ih (fun pre a post hxs => h (x :: pre) a post (hxs ▸ rfl)) (Nat.le_add_left _ _)
    show (walk next (fuel + xs.length) (next x)).map (x :: ·) = _
    rw [h [] x xs rfl, hrest]
    rfl

theorem Holds.walk (h : l.Holds xs) {fuel : ℕ} (hfuel : xs.length ≤ fuel) :
    walk l.next fuel l.head = some xs := by
  rw [h.head]
  exact walk_of_next h.next hfuel

end Links

end Agyn
