import Agyn.MemoryRaces
import Agyn.MemorySubtrees

/-!
The states of the memory table: what the statements of concurrent calls lead to, those of updates
among them. Every row has its parent before it and in its scope, also while rows of transactions
that are not committed hang below rows that others want to delete.
-/
namespace Agyn.MemoryRaces

open Memory EntityTable

inductive StoreAction where
  | statement (a : Action)
  /-- The write of an `update`, whatever content it has come to. -/
  | update (entityId : ℕ) (content : List Char)

def storeStep (s : State) : StoreAction → Option State
  | .statement a => step s a
  | .update entityId content => some { s with rows := s.rows.map (setContent entityId content) }

def State.table (s : State) : EntityTable := ⟨s.rows, s.nextId⟩

/-- The rows of a transaction are rooted in those committed, and it goes on below a row of its own
scope, as long as that row is there. -/
def Call.Placed (rows all : List MemoryEntity) (nextId : ℕ) : Call → Prop
  | .ensuring tx _ => Rooted (rows ++ tx.created) ∧ ∀ p, tx.parentId = some p →
      p < nextId ∧ ∀ row ∈ all, row.id = p → row.scope = tx.filter
  | _ => True

/-- All rows, committed or not, have ids of their own, and every transaction is placed. -/
structure Sound (rows : List MemoryEntity) (nextId : ℕ) (calls : List Call) : Prop where
  rooted : Rooted rows
  ids : (rows ++ calls.flatMap Call.created).Pairwise (·.id ≠ ·.id)
  fresh : ∀ row ∈ rows ++ calls.flatMap Call.created, row.id < nextId
  placed : ∀ call ∈ calls, call.Placed rows (rows ++ calls.flatMap Call.created) nextId

section Sound

variable {rows rows' all all' : List MemoryEntity} {nextId nextId' : ℕ} {calls others : List Call}
  {call call' : Call} {tx : Ensuring} {data : Option (List Char)} {segment : List Char}

theorem sound_init : Sound [] 0 [] := ⟨rooted_nil, .nil, by simp, by simp⟩

theorem Call.Placed.mono (h : call.Placed rows all nextId) (hall : ∀ row ∈ all', row ∈ all)
    (hnext : nextId ≤ nextId') : call.Placed rows all' nextId' := by
  cases call with
  | ensuring tx data =>
    refine ⟨h.1, fun p hp => ?_⟩
    obtain ⟨hlt, hscope⟩ := h.2 p hp
    exact ⟨Nat.lt_of_lt_of_le hlt hnext, fun row hrow => hscope row (hall row hrow)⟩
  | _ => trivial

theorem Sound.perm (h : Sound rows nextId calls) (hperm : calls.Perm others) :
    Sound rows nextId others := by
  have hrows := (hperm.flatMap_right Call.created).append_left rows
  refine ⟨h.rooted, (hrows.pairwise_iff fun hne => Ne.symm hne).mp h.ids, fun row hrow => ?_,
    fun call hcall => ?_⟩
  · exact h.fresh row (hrows.mem_iff.mpr hrow)
  · exact (h.placed call (hperm.mem_iff.mpr hcall)).mono (fun row => hrows.mem_iff.mpr)
      (Nat.le_refl nextId)

/-- A call with nothing created that takes the place of another one. -/
theorem Sound.replace (h : Sound rows nextId (call :: others)) (hcreated : call'.created = [])
    (hplaced : ∀ all, call'.Placed rows all nextId) : Sound rows nextId (call' :: others) := by
  have hsub : (rows ++ (call' :: others).flatMap Call.created).Sublist
      (rows ++ (call :: others).flatMap Call.created) := by
    rw [List.flatMap_cons, List.flatMap_cons, hcreated, List.nil_append]
    exact (List.sublist_append_right _ _).append_left rows
  refine ⟨h.rooted, h.ids.sublist hsub, fun row hrow => h.fresh row (hsub.subset hrow), ?_⟩
  refine List.forall_mem_cons.mpr ⟨hplaced _, fun other hother => ?_⟩
  exact (h.placed other (List.mem_cons_of_mem _ hother)).mono (fun _ hrow => hsub.subset hrow)
    (Nat.le_refl nextId)

theorem Sound.settle (h : Sound rows nextId (call :: others)) :
    Sound rows nextId (.settled :: others) :=
  h.replace rfl fun _ => trivial

theorem Sound.start (h : Sound rows nextId calls) (hcreated : call.created = [])
    (hplaced : ∀ all, call.Placed rows all nextId) : Sound rows nextId (call :: calls) := by
  have hrows : rows ++ (call :: calls).flatMap Call.created =
      rows ++ calls.flatMap Call.created := by
    rw [List.flatMap_cons, hcreated, List.nil_append]
  exact ⟨h.rooted, hrows ▸ h.ids, hrows ▸ h.fresh,
    List.forall_mem_cons.mpr ⟨hplaced _, hrows ▸ h.placed⟩⟩

theorem Sound.commit (h : Sound rows nextId (.ensuring tx data :: others))
    (hcreated : call'.created = []) (hplaced : ∀ rows all, call'.Placed rows all nextId) :
    Sound (rows ++ tx.created) nextId (call' :: others) := by
  have hrows : rows ++ tx.created ++ (call' :: others).flatMap Call.created =
      rows ++ (Call.ensuring tx data :: others).flatMap Call.created := by
    rw [List.flatMap_cons, List.flatMap_cons, hcreated, List.nil_append, List.append_assoc]
    rfl
  have htx := (h.placed _ List.mem_cons_self).1
  refine ⟨htx, hrows ▸ h.ids, hrows ▸ h.fresh, ?_⟩
  refine List.forall_mem_cons.mpr ⟨hplaced _ _, fun other hother => ?_⟩
  rw [hrows]
  have hother' := h.placed other (List.mem_cons_of_mem _ hother)
  cases other with
  | ensuring tx' data' =>
    refine ⟨htx.join hother'.1 (h.ids.sublist ?_), hother'.2⟩
    have hsub : tx'.created.Sublist (others.flatMap Call.created) :=
      List.sublist_flatten_of_mem (List.mem_map_of_mem hother)
    rw [List.flatMap_cons, List.append_assoc]
    exact (hsub.append_left tx.created).append_left rows
  | _ => trivial

/-- A transaction goes on below a row that stands in its scope. -/
theorem Sound.descend (h : Sound rows nextId (.ensuring tx data :: others)) {tx' : Ensuring}
    (hcreated : tx'.created = tx.created)
    (hparent : ∀ p, tx'.parentId = some p → p < nextId ∧
      ∀ row ∈ rows ++ (Call.ensuring tx data :: others).flatMap Call.created,
        row.id = p → row.scope = tx'.filter) :
    Sound rows nextId (.ensuring tx' data :: others) := by
  have hrows : rows ++ (Call.ensuring tx' data :: others).flatMap Call.created =
      rows ++ (Call.ensuring tx data :: others).flatMap Call.created := by
    rw [List.flatMap_cons, List.flatMap_cons, Call.created, Call.created, hcreated]
  obtain ⟨hrooted, -⟩ := h.placed _ List.mem_cons_self
  refine ⟨h.rooted, hrows ▸ h.ids, hrows ▸ h.fresh, ?_⟩
  rw [hrows]
  refine List.forall_mem_cons.mpr ⟨⟨hcreated ▸ hrooted, hparent⟩, fun other hother => ?_⟩
  exact h.placed other (List.mem_cons_of_mem _ hother)

theorem Sound.find (h : Sound rows nextId (.ensuring tx data :: others))
    (hfind : tx.find data rows nextId segment = (rows', nextId', call')) :
    Sound rows' nextId' (call' :: others) := by
  rw [Ensuring.find] at hfind
  cases hrow : findFirst (rows ++ tx.created) tx.filter tx.parentId segment with
  | none =>
    rw [hrow] at hfind
    obtain ⟨rfl, rfl, rfl⟩ := by simpa using hfind
    exact h.descend rfl (h.placed _ List.mem_cons_self).2
  | some row =>
    rw [hrow] at hfind
    obtain ⟨rfl, rfl, rfl⟩ := by simpa using hfind
    obtain ⟨hmem, hkey⟩ := findFirst_eq_some hrow
    have hall : row ∈ rows ++ (Call.ensuring tx data :: others).flatMap Call.created := by
      rw [List.flatMap_cons, ← List.append_assoc]
      exact List.mem_append_left _ hmem
    refine h.descend rfl fun p hp => ?_
    obtain rfl : row.id = p := Option.some.inj hp
    refine ⟨h.fresh row hall, fun row' hrow' hid => ?_⟩
    have hnodup := List.pairwise_map.mpr h.ids
    rw [List.inj_on_of_nodup_map hnodup hrow' hall hid]
    exact congrArg Prod.fst hkey

theorem Sound.create (h : Sound rows nextId (.ensuring tx data :: others))
    (hcreate : tx.create data rows nextId (others.flatMap Call.created) segment =
      some (rows', nextId', call')) : Sound rows' nextId' (call' :: others) := by
  unfold Ensuring.create at hcreate
  dsimp only at hcreate
  split_ifs at hcreate with hexists hwaits htaken
  · obtain ⟨rfl, rfl, rfl⟩ := by simpa using hcreate
    exact h.settle
  · obtain ⟨rfl, rfl, rfl⟩ := by simpa using hcreate
    exact h.settle
  obtain ⟨rfl, rfl, rfl⟩ := by simpa using hcreate
  obtain ⟨hrooted, hparent⟩ := h.placed _ List.mem_cons_self
  set new := tx.newRow nextId segment with hnew
  have hsub : ∀ row ∈ rows ++ tx.created,
      row ∈ rows ++ (Call.ensuring tx data :: others).flatMap Call.created := by
    intro row hrow
    rw [List.flatMap_cons, ← List.append_assoc]
    exact List.mem_append_left _ hrow
  -- The row that is created comes last of those of its transaction.
  have hperm : (rows ++ (Call.ensuring
      { tx.descend new with created := tx.created ++ [new] } data :: others).flatMap
        Call.created).Perm
      (new :: (rows ++ (Call.ensuring tx data :: others).flatMap Call.created)) := by
    simp only [List.flatMap_cons, Call.created, List.append_assoc, List.singleton_append]
    rw [← List.append_assoc, ← List.append_assoc]
    exact List.perm_middle
  have hgrown : Rooted (rows ++ (tx.created ++ [new])) := by
    rw [← List.append_assoc]
    refine hrooted.concat (fun row hrow => h.fresh row (hsub row hrow)) fun p hp => ?_
    have hany : tx.hasParent rows = true := by simpa using hexists
    rw [Ensuring.hasParent, show tx.parentId = some p from hp, Option.all_some,
      List.any_eq_true] at hany
    obtain ⟨parent, hmem, hid⟩ := hany
    have hid : parent.id = p := by simpa using hid
    exact ⟨parent, hmem, hid, (hparent p hp).2 parent (hsub parent hmem) hid⟩
  refine ⟨h.rooted, ?_, fun row hrow => ?_, ?_⟩
  · rw [hperm.pairwise_iff fun hne => Ne.symm hne, List.pairwise_cons]
    exact ⟨fun row hrow => Nat.ne_of_gt (h.fresh row hrow), h.ids⟩
  · obtain rfl | hrow := List.mem_cons.mp (hperm.mem_iff.mp hrow)
    · exact Nat.lt_succ_self nextId
    · exact Nat.lt_succ_of_lt (h.fresh row hrow)
  · refine List.forall_mem_cons.mpr ⟨⟨hgrown, fun p hp => ?_⟩, fun other hother => ?_⟩
    · obtain rfl : nextId = p := Option.some.inj hp
      refine ⟨Nat.lt_succ_self nextId, fun row hrow hid => ?_⟩
      obtain rfl | hrow := List.mem_cons.mp (hperm.mem_iff.mp hrow)
      · rfl
      · exact absurd hid (Nat.ne_of_lt (h.fresh row hrow))
    · have hother := h.placed other (List.mem_cons_of_mem _ hother)
      cases other with
      | ensuring tx' data' =>
        refine ⟨hother.1, fun p hp => ?_⟩
        obtain ⟨hlt, hscope⟩ := hother.2 p hp
        refine ⟨Nat.lt_succ_of_lt hlt, fun row hrow hid => ?_⟩
        obtain rfl | hrow := List.mem_cons.mp (hperm.mem_iff.mp hrow)
        · exact absurd hid (Nat.ne_of_gt hlt)
        · exact hscope row hrow hid
      | _ => trivial

theorem Sound.deleteRows (h : Sound rows nextId (call :: others)) {ids : List ℕ}
    (hdelete : deleteRows ids rows nextId (others.flatMap Call.created) =
      some (rows', nextId', call')) : Sound rows' nextId' (call' :: others) := by
  unfold MemoryRaces.deleteRows at hdelete
  dsimp only at hdelete
  split_ifs at hdelete with hheld
  obtain ⟨rfl, rfl, rfl⟩ := by simpa using hdelete
  have hsub : (cascade ids rows ++ (Call.settled :: others).flatMap Call.created).Sublist
      (rows ++ (call :: others).flatMap Call.created) :=
    (cascade_sublist ids rows).append (List.sublist_append_right _ _)
  refine ⟨?_, h.ids.sublist hsub, fun row hrow => h.fresh row (hsub.subset hrow), ?_⟩
  · have hrows : Rooted (rows ++ []) := by simpa using h.rooted
    simpa using hrows.cascade h.rooted (by simp)
  refine List.forall_mem_cons.mpr ⟨trivial, fun other hother => ?_⟩
  have hplaced := h.placed other (List.mem_cons_of_mem _ hother)
  cases other with
  | ensuring tx data =>
    refine ⟨hplaced.1.cascade h.rooted fun row hrow gone hgone hleft hp => hheld ?_,
      fun p hp => ⟨(hplaced.2 p hp).1, fun row hrow => (hplaced.2 p hp).2 row (hsub.subset hrow)⟩⟩
    refine List.any_eq_true.mpr ⟨row, List.mem_flatMap.mpr ⟨_, hother, hrow⟩, ?_⟩
    rw [hp, Option.any_some, decide_eq_true_eq]
    exact List.mem_map_of_mem (List.mem_filter.mpr ⟨hgone, by simpa using hleft⟩)
  | _ => trivial

theorem shape_map_setContent (entityId : ℕ) (content : List Char) (rows : List MemoryEntity) :
    (rows.map (setContent entityId content)).map shape = rows.map shape := by
  rw [List.map_map]
  refine List.map_congr_left fun row _ => ?_
  simp [shape]

/-- The content of a row has nothing to do with where it stands. -/
theorem Sound.write (h : Sound rows nextId calls) (entityId : ℕ) (content : List Char) :
    Sound (rows.map (setContent entityId content)) nextId calls := by
  have hshape := shape_map_setContent entityId content rows
  have hmem : ∀ row ∈ rows.map (setContent entityId content) ++ calls.flatMap Call.created,
      ∃ old ∈ rows ++ calls.flatMap Call.created, old.id = row.id ∧ old.scope = row.scope := by
    intro row hrow
    obtain hrow | hrow := List.mem_append.mp hrow
    · obtain ⟨old, hold, rfl⟩ := List.mem_map.mp hrow
      exact ⟨old, List.mem_append_left _ hold, by simp, by simp⟩
    · exact ⟨row, List.mem_append_right _ hrow, rfl, rfl⟩
  refine ⟨h.rooted.of_shape hshape, ?_, fun row hrow => ?_, fun call hcall => ?_⟩
  · have hsame : (rows.map (setContent entityId content)).map (·.id) = rows.map (·.id) := by
      simp [Function.comp_def]
    have hids := List.pairwise_map.mpr h.ids
    rw [List.map_append, ← hsame, ← List.map_append] at hids
    exact List.pairwise_map.mp hids
  · obtain ⟨old, hold, hid, -⟩ := hmem row hrow
    exact hid ▸ h.fresh old hold
  · have hplaced := h.placed call hcall
    cases call with
    | ensuring tx data =>
      refine ⟨hplaced.1.of_shape (by rw [List.map_append, List.map_append, hshape]), fun p hp => ?_⟩
      refine ⟨(hplaced.2 p hp).1, fun row hrow hid => ?_⟩
      obtain ⟨old, hold, hid', hscope⟩ := hmem row hrow
      exact hscope ▸ (hplaced.2 p hp).2 old hold (hid'.trans hid)
    | _ => trivial

/-- One statement of a call. -/
theorem Sound.next (h : Sound rows nextId (call :: others))
    (hnext : call.next rows nextId (others.flatMap Call.created) = some (rows', nextId', call')) :
    Sound rows' nextId' (call' :: others) := by
  cases call with
  | ensuring tx data =>
    rw [Call.next] at hnext
    cases hsegs : tx.segments with
    | nil =>
      simp only [hsegs, Option.some.injEq, Prod.mk.injEq] at hnext
      obtain ⟨rfl, rfl, rfl⟩ := hnext
      refine h.commit ?_ fun rows all => ?_ <;> unfold afterEnsure <;> split <;> trivial
    | cons segment segments =>
      simp only [hsegs] at hnext
      split_ifs at hnext
      · exact h.create hnext
      · exact h.find (Option.some.inj hnext)
  | writing entityId content =>
    obtain ⟨rfl, rfl, rfl⟩ := by simpa [Call.next] using hnext
    exact h.settle.write entityId content
  | resolving filter segments parentId =>
    cases segments with
    | nil =>
      obtain ⟨rfl, rfl, rfl⟩ := by simpa [Call.next] using hnext
      exact h.settle
    | cons segment segments =>
      rw [Call.next] at hnext
      cases hfind : findFirst rows filter parentId segment with
      | none =>
        rw [hfind] at hnext
        obtain ⟨rfl, rfl, rfl⟩ := by simpa using hnext
        exact h.settle
      | some row =>
        rw [hfind] at hnext
        obtain ⟨rfl, rfl, rfl⟩ := by simpa using hnext
        refine h.replace ?_ fun all => ?_ <;> split_ifs <;> trivial
  | collecting filter entityId =>
    rw [Call.next] at hnext
    obtain ⟨rfl, rfl, rfl⟩ := by simpa using hnext
    refine h.replace ?_ fun all => ?_ <;> split_ifs <;> trivial
  | removing ids => exact h.deleteRows hnext
  | clearing filter => exact h.deleteRows hnext
  | settled => simp [Call.next] at hnext

end Sound

theorem perm_set {calls : List Call} {i : ℕ} {call : Call} (hcall : calls[i]? = some call)
    (call' : Call) : (call' :: calls.eraseIdx i).Perm (calls.set i call') := by
  obtain ⟨hlt, -⟩ := List.getElem?_eq_some_iff.mp hcall
  have hlt' : i < (calls.set i call').length := by rwa [List.length_set]
  have hperm := List.getElem_cons_eraseIdx_perm hlt'
  rwa [List.getElem_set_self, List.eraseIdx_set_eq] at hperm

theorem Sound.at {rows : List MemoryEntity} {nextId : ℕ} {calls : List Call} {i : ℕ} {call : Call}
    (hcall : calls[i]? = some call) (h : Sound rows nextId calls) :
    Sound rows nextId (call :: calls.eraseIdx i) := by
  obtain ⟨hlt, rfl⟩ := List.getElem?_eq_some_iff.mp hcall
  exact h.perm (List.getElem_cons_eraseIdx_perm hlt).symm

def State.Sound (s : State) : Prop := MemoryRaces.Sound s.rows s.nextId s.calls

theorem State.Sound.step {s s' : State} (h : s.Sound) {a : StoreAction}
    (hstep : storeStep s a = some s') : s'.Sound := by
  cases a with
  | update entityId content =>
    obtain rfl := Option.some.inj hstep
    exact Sound.write h entityId content
  | statement a =>
    rw [storeStep] at hstep
    cases a with
    | ensurePath filter segments data =>
      obtain rfl := Option.some.inj hstep
      have hstart : MemoryRaces.Sound s.rows s.nextId
          (.ensuring ⟨filter, segments, none, none, [], false⟩ data :: s.calls) :=
        Sound.start h rfl fun all => ⟨by simpa using Sound.rooted h, by simp⟩
      exact hstart.perm (List.perm_append_singleton _ _).symm
    | delete filter segments =>
      obtain rfl := Option.some.inj hstep
      have hstart : MemoryRaces.Sound s.rows s.nextId
          ((if segments = [] then .clearing filter else .resolving filter segments none) ::
            s.calls) := by
        refine Sound.start h ?_ fun all => ?_ <;> split_ifs <;> trivial
      exact hstart.perm (List.perm_append_singleton _ _).symm
    | advance i =>
      rw [MemoryRaces.step] at hstep
      cases hcall : s.calls[i]? with
      | none => simp [hcall] at hstep
      | some call =>
        rw [hcall] at hstep
        obtain ⟨⟨rows, nextId, call'⟩, hnext, rfl⟩ := Option.map_eq_some_iff.mp hstep
        exact (Sound.at hcall h).next hnext |>.perm (perm_set hcall call')
    | abort i =>
      rw [MemoryRaces.step] at hstep
      cases hcall : s.calls[i]? with
      | none => simp [hcall] at hstep
      | some call =>
        rw [hcall] at hstep
        obtain rfl := Option.some.inj hstep
        exact (Sound.at hcall h).settle.perm (perm_set hcall .settled)

/-- In every state of the store a row has its parent before it and in its scope. -/
theorem rooted_of_reached {good : State → StoreAction → Prop} {s : State}
    (h : Reached storeStep good init s) : Rooted s.table.rows := by
  have hsound : s.Sound := h.invariant sound_init fun _ _ _ hinv _ hstep => hinv.step hstep
  exact Sound.rooted hsound

end Agyn.MemoryRaces
