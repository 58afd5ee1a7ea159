import Mathlib.Data.Prod.Lex
import Agyn.KeysetPages
import Agyn.RunEventPages

/-!
Following the cursors of the events. A cursor names the time and the id of the last event of its
page, so that the next page begins right after it, whichever the order is and however many events
have the same time.
-/
namespace Agyn.RunEvents

open KeysetPages

variable {ι : Type} [LinearOrder ι]

variable {rows : List (RunEvent ι)} {order : Order} {dates : Dates} {a b e : RunEvent ι}

/-- An event stands before another one: by time, and by id at the same time. -/
def Before (order : Order) (a b : RunEvent ι) : Prop := cursorCondition order a.ts (some a.id) b

instance (order : Order) : DecidableRel (Before (ι := ι) order) :=
  fun _ _ => inferInstanceAs (Decidable (_ = true))

def RunEvent.key (e : RunEvent ι) : ℤ ×ₗ ι := toLex (e.ts, e.id)

theorem key_lt_iff :
    a.key < b.key ↔ a.ts < b.ts ∨ a.ts = b.ts ∧ a.id < b.id := Prod.Lex.toLex_lt_toLex

theorem key_le_iff : a.key ≤ b.key ↔ a.ts < b.ts ∨ a.ts = b.ts ∧ a.id ≤ b.id :=
  Prod.Lex.toLex_le_toLex

theorem before_iff : Before order a b ↔
    match order with
    | .asc => a.key < b.key
    | .desc => b.key < a.key := by
  cases order with
  | asc => simp only [Before, cursorCondition, decide_eq_true_eq, key_lt_iff, eq_comm (a := b.ts)]
  | desc => simp only [Before, cursorCondition, decide_eq_true_eq, key_lt_iff]

theorem orderBy_iff : orderBy order a b = true ↔
    match order with
    | .asc => a.key ≤ b.key
    | .desc => b.key ≤ a.key := by
  cases order with
  | asc => simp only [orderBy, decide_eq_true_eq, key_le_iff]
  | desc => simp only [orderBy, decide_eq_true_eq, key_le_iff, eq_comm (a := a.ts)]

theorem before_asymm (order : Order) (a b : RunEvent ι) (h : Before order a b) :
    ¬ Before order b a := by
  rw [before_iff] at h ⊢
  cases order <;> exact lt_asymm h

/-- Rows of different ids are sorted strictly. -/
theorem sorted_pairwise (order : Order) (h : (rows.map RunEvent.id).Nodup) :
    (rows.mergeSort (orderBy order)).Pairwise (Before order) := by
  have hsorted : (rows.mergeSort (orderBy order)).Pairwise fun a b => orderBy order a b = true := by
    refine List.pairwise_mergeSort (fun a b c hab hbc => ?_) (fun a b => ?_) rows
    · rw [orderBy_iff] at hab hbc ⊢
      cases order
      · exact le_trans hab hbc
      · exact le_trans hbc hab
    · rw [Bool.or_eq_true, orderBy_iff, orderBy_iff]
      cases order <;> exact le_total _ _
  have hids : ((rows.mergeSort (orderBy order)).map RunEvent.id).Nodup :=
    ((List.mergeSort_perm rows _).map _).nodup_iff.mpr h
  refine (hsorted.and (List.pairwise_map.mp hids)).imp fun {a b} hab => ?_
  obtain ⟨hle, hne⟩ := hab
  have hkey : a.key ≠ b.key := fun heq => hne (congrArg (fun k => (ofLex k).2) heq)
  rw [orderBy_iff] at hle
  rw [before_iff]
  cases order
  · exact lt_of_le_of_ne hle hkey
  · exact lt_of_le_of_ne hle hkey.symm

/-- Sorting the rows after a cursor leaves what is after it of the sorted rows. -/
theorem mergeSort_filter (order : Order) (h : (rows.map RunEvent.id).Nodup)
    (p : RunEvent ι → Bool) :
    (rows.filter p).mergeSort (orderBy order) = (rows.mergeSort (orderBy order)).filter p := by
  have hsub : ((rows.filter p).map RunEvent.id).Nodup := h.sublist (List.filter_sublist.map _)
  refine eq_of_perm (before_asymm order) ?_ (sorted_pairwise order hsub)
    ((sorted_pairwise order h).sublist List.filter_sublist)
  exact (List.mergeSort_perm _ _).trans ((List.mergeSort_perm rows _).symm.filter p)

def ListParams.page (p : ListParams ι) (dates : Dates) (rows : List (RunEvent ι))
    (cursor : Option (EventCursor ι)) : List (RunEvent ι) × Option (EventCursor ι) :=
  let page := listRunEvents dates rows { p with cursor }
  (page.items, page.nextCursor)

def ListParams.sorted (p : ListParams ι) (rows : List (RunEvent ι)) : List (RunEvent ι) :=
  (rows.filter p.wants).mergeSort (orderBy (orderOf p.order))

def ListParams.Left (p : ListParams ι) (dates : Dates) (rows : List (RunEvent ι)) :
    Option (EventCursor ι) → List (RunEvent ι) → Prop
  | none, xs => xs = p.sorted rows
  | some cursor, xs => ∃ pre e, p.sorted rows = pre ++ e :: xs ∧
      cursor = ⟨.text (dates.toISOString e.ts), some e.id⟩

omit [LinearOrder ι] in
theorem one_le_eventLimit (limit : Option ℤ) : 1 ≤ eventLimit limit := by
  unfold eventLimit
  split
  · omega
  · split_ifs <;> omega

/-- The page, from the rows that are left. -/
theorem page_eq (p : ListParams ι) (cursor : Option (EventCursor ι)) {xs : List (RunEvent ι)}
    (hrows : (matchingRows dates rows { p with cursor }).mergeSort (orderBy (orderOf p.order)) =
      xs) :
    p.page dates rows cursor =
      (xs.take (eventLimit p.limit), if eventLimit p.limit < xs.length then
        (xs.take (eventLimit p.limit)).getLast?.map fun e =>
          ⟨.text (dates.toISOString e.ts), some e.id⟩
      else none) := by
  have hmore : eventLimit p.limit < (xs.take (eventLimit p.limit + 1)).length ↔
      eventLimit p.limit < xs.length := by
    rw [List.length_take]
    omega
  have htake : (xs.take (eventLimit p.limit + 1)).take (eventLimit p.limit) =
      xs.take (eventLimit p.limit) := by
    rw [List.take_take, min_eq_left (Nat.le_succ _)]
  simp only [ListParams.page, listRunEvents, hrows, hmore, htake]
  by_cases h : eventLimit p.limit < xs.length
  · simp only [if_pos h]
  · simp only [if_neg h]
    rw [List.take_of_length_le (by omega),
      List.take_of_length_le (by omega)]

/-- The rows after a cursor that stands for a row. -/
theorem matchingRows_cursor (p : ListParams ι) (hdates : dates.parse (dates.toISOString e.ts) =
      some e.ts ∧ dates.toISOString e.ts ≠ "") :
    matchingRows dates rows { p with
        cursor := some ⟨.text (dates.toISOString e.ts), some e.id⟩ } =
      (rows.filter p.wants).filter fun a => decide (Before (orderOf p.order) e a) := by
  have htime : (CursorTs.text (dates.toISOString e.ts)).time dates = some e.ts := by
    rw [CursorTs.time, if_neg hdates.2, hdates.1]
  simp only [matchingRows, htime]
  exact List.filter_congr fun a _ => Bool.decide_eq_true.symm

theorem page_of_left (p : ListParams ι) (hids : (rows.map RunEvent.id).Nodup)
    (hdates : ∀ e ∈ rows, dates.parse (dates.toISOString e.ts) = some e.ts ∧
      dates.toISOString e.ts ≠ "") {cursor : Option (EventCursor ι)} {xs : List (RunEvent ι)}
    (h : p.Left dates rows cursor xs) :
    p.page dates rows cursor = (xs, none) ∨
      ∃ next, p.page dates rows cursor = (xs.take (eventLimit p.limit), some next) ∧ xs ≠ [] ∧
        p.Left dates rows (some next) (xs.drop (eventLimit p.limit)) := by
  have hids' : ((rows.filter p.wants).map RunEvent.id).Nodup :=
    hids.sublist (List.filter_sublist.map _)
  have hsorted : (p.sorted rows).Pairwise (Before (orderOf p.order)) :=
    sorted_pairwise (orderOf p.order) hids'
  have hrows : (matchingRows dates rows { p with cursor }).mergeSort
      (orderBy (orderOf p.order)) = xs := by
    cases cursor with
    | none => exact h.symm
    | some cursor =>
      obtain ⟨pre, e, hsplit, rfl⟩ := h
      have he : e ∈ rows := by
        have hmem : e ∈ p.sorted rows := hsplit ▸ by simp
        exact (List.mem_filter.mp (List.mem_mergeSort.mp hmem)).1
      rw [matchingRows_cursor p (hdates e he), mergeSort_filter _ hids']
      change (p.sorted rows).filter _ = xs
      rw [hsplit] at hsorted ⊢
      exact filter_before (before_asymm _) hsorted
  have hsuffix : ∃ before, p.sorted rows = before ++ xs := by
    cases cursor with
    | none => exact ⟨[], h.symm⟩
    | some cursor =>
      obtain ⟨pre, e, hsplit, -⟩ := h
      exact ⟨pre ++ [e], by simpa using hsplit⟩
  rw [page_eq p cursor hrows]
  by_cases hmore : eventLimit p.limit < xs.length
  · have hpos := one_le_eventLimit p.limit
    have hne : xs.take (eventLimit p.limit) ≠ [] := by
      intro hnil
      have hlength := congrArg List.length hnil
      rw [List.length_take, List.length_nil] at hlength
      omega
    have hlast := List.dropLast_append_getLast hne
    rw [if_pos hmore, List.getLast?_eq_some_getLast hne]
    refine .inr ⟨_, rfl, fun hnil => by simp [hnil] at hmore, ?_⟩
    obtain ⟨before, hbefore⟩ := hsuffix
    refine ⟨before ++ (xs.take (eventLimit p.limit)).dropLast, _, ?_, rfl⟩
    rw [hbefore]
    conv_lhs => rw [← List.take_append_drop (eventLimit p.limit) xs, ← hlast]
    simp
  · rw [if_neg hmore, List.take_of_length_le (by omega)]
    exact .inl rfl

/-- Following the cursors fetches each event that is asked for once, in order. -/
def EnumeratesEvents (dates : Dates) (rows : List (RunEvent ι)) (p : ListParams ι) : Prop :=
  ∃ xs, (∃ fuel, ∀ n, fuel ≤ n → followAll (p.page dates rows) n none = some xs) ∧
    xs.Perm (rows.filter p.wants) ∧ xs.Pairwise (Before (orderOf p.order))

theorem enumeratesEvents (p : ListParams ι) (hids : (rows.map RunEvent.id).Nodup)
    (hdates : ∀ e ∈ rows, dates.parse (dates.toISOString e.ts) = some e.ts ∧
      dates.toISOString e.ts ≠ "") : EnumeratesEvents dates rows p := by
  have hfollow : ∀ n, (p.sorted rows).length + 1 ≤ n →
      followAll (p.page dates rows) n none = some (p.sorted rows) := by
    intro n hn
    have hleft : p.Left dates rows none (p.sorted rows) := rfl
    exact followAll_eq (one_le_eventLimit p.limit)
      (fun cursor xs h => page_of_left p hids hdates h) hleft hn
  exact ⟨p.sorted rows, ⟨_, hfollow⟩, List.mergeSort_perm _ _,
    sorted_pairwise _ (hids.sublist (List.filter_sublist.map _))⟩

end Agyn.RunEvents
