import Mathlib.Algebra.BigOperators.Ring.List
import Mathlib.Algebra.Group.Nat.Units
import Agyn.ThreadMetrics

/-!
What the metrics of threads count. Each row below a root is repeated for the joined rows of the
other tables, so that a count is right exactly where nothing repeats the rows that are counted.
-/
namespace Agyn.ThreadMetrics

open JoinedRows ThreadCleanup References

variable {ι : Type} [DecidableEq ι] {db : Tables ι} {ids : List ι} {root t : ι}
  {rec : List (SubtreeRow ι)} {n : ℕ}

abbrev Tables.InSubtree (db : Tables ι) : ι → ι → Prop := Below (childrenIn db.threads.rows)

def Tables.HasRunning (db : Tables ι) (t : ι) : Prop :=
  ∃ run ∈ db.runs, run.isRunning ∧ run.threadId = t

open Classical in
noncomputable def Tables.pendingReminders (db : Tables ι) (root : ι) : ℕ :=
  db.reminders.countP fun rem => rem.isPending ∧ db.InSubtree root rem.threadId

open Classical in
noncomputable def Tables.runningContainers (db : Tables ι) (root : ι) : ℕ :=
  db.containers.countP fun cont =>
    cont.isCounted ∧ ∃ t, cont.threadId = some t ∧ db.InSubtree root t

open Classical in
noncomputable def Tables.activity (db : Tables ι) (root : ι) : Activity :=
  if db.HasRunning root then .working
  else if (∃ t, db.InSubtree root t ∧ t ≠ root ∧ db.HasRunning t) ∨ 0 < db.pendingReminders root
  then .waiting
  else .idle

/-- The service answers for each root that is there with what its subtree has. -/
def CountsCorrectly (db : Tables ι) (ids : List ι) : Prop :=
  ∃ fuel, ∀ n, fuel ≤ n → ∃ out, getThreadsMetrics (some db) n ids = some out ∧
    ∀ root ∈ ids, root ∈ db.threads.rows.map ThreadNode.id →
      out.get root =
        some ⟨db.pendingReminders root, db.runningContainers root, db.activity root⟩

def Tables.kids (db : Tables ι) (r : SubtreeRow ι) : List (SubtreeRow ι) :=
  (db.threads.rows.filter fun c => c.parentId = some r.threadId).map fun c =>
    ⟨c.id, c.parentId, r.rootId⟩

theorem children_perm (db : Tables ι) (work : List (SubtreeRow ι)) :
    (db.children work).Perm (work.flatMap db.kids) :=
  join_perm db.threads.rows work (fun c r => c.parentId = some r.threadId)
    fun c r => (⟨c.id, c.parentId, r.rootId⟩ : SubtreeRow ι)

theorem map_kids (db : Tables ι) (r : SubtreeRow ι) :
    (db.kids r).map SubtreeRow.threadId = childrenIn db.threads.rows r.threadId := by
  rw [Tables.kids, List.map_map]
  rfl

theorem map_postOrder (db : Tables ι) (n : ℕ) (r : SubtreeRow ι) :
    (postOrder db.kids n r).map SubtreeRow.threadId =
      postOrder (childrenIn db.threads.rows) n r.threadId := by
  induction n generalizing r with
  | zero => rfl
  | succ n ih =>
    simp only [postOrder, List.map_append, List.map_flatMap, ← map_kids, List.flatMap_map,
      List.map_cons, List.map_nil, ih]

theorem rootId_of_mem_postOrder {r x : SubtreeRow ι} (h : x ∈ postOrder db.kids n r) :
    x.rootId = r.rootId := by
  induction n generalizing r with
  | zero => exact absurd h List.not_mem_nil
  | succ n ih =>
    obtain hx | hx := List.mem_append.mp h
    · obtain ⟨c, hc, hx⟩ := List.mem_flatMap.mp hx
      obtain ⟨row, -, rfl⟩ := List.mem_map.mp hc
      exact (ih hx).trans rfl
    · rw [List.mem_singleton.mp hx]

theorem mem_roots {r : SubtreeRow ι} (h : r ∈ db.roots ids) :
    r.threadId = r.rootId ∧ r.rootId ∈ ids ∧ r.rootId ∈ db.threads.rows.map ThreadNode.id := by
  obtain ⟨row, hrow, hr⟩ := List.mem_flatMap.mp h
  obtain ⟨id, hid, rfl⟩ := List.mem_map.mp hr
  obtain ⟨hid, heq⟩ := List.mem_filter.mp hid
  exact ⟨rfl, of_decide_eq_true heq ▸ hid, List.mem_map_of_mem hrow⟩

/-- A root that is there comes once for each time that it is asked for. -/
theorem countP_roots (hroot : root ∈ db.threads.rows.map ThreadNode.id) :
    (db.roots ids).countP (fun r => r.rootId = root) = ids.count root := by
  have hrows : ∀ rows : List (ThreadNode ι), (rows.flatMap fun t =>
      (ids.filter fun id => t.id = id).map fun _ =>
        (⟨t.id, t.parentId, t.id⟩ : SubtreeRow ι)).countP (fun r => r.rootId = root) =
      ids.count root * (rows.map ThreadNode.id).count root := by
    intro rows
    induction rows with
    | nil => rfl
    | cons t rows ih =>
      rw [List.flatMap_cons, List.countP_append, ih, List.map_cons, List.countP_map]
      by_cases hid : t.id = root
      · subst hid
        have hall : (ids.filter fun id => t.id = id).countP (fun _ => true) = ids.count t.id := by
          rw [List.countP_true, ← List.countP_eq_length_filter, List.count]
          exact List.countP_congr fun id _ => by rw [decide_eq_true_eq, beq_iff_eq, eq_comm]
        rw [List.count_cons_self, Nat.mul_succ, Nat.add_comm, ← hall]
        simp [Function.comp_def]
      · rw [List.count_cons_of_ne hid]
        simp [Function.comp_def, hid]
  rw [Tables.roots, hrows, List.count_eq_one_of_mem db.threads.ids hroot, Nat.mul_one]

/-- The rows of one root: its subtree, once for each time that it is asked for. -/
theorem perm_group (hroot : root ∈ db.threads.rows.map ThreadNode.id)
    (hrec : unionAll db.children n (db.roots ids) = some rec) :
    ((rec.filter fun r => r.rootId = root).map SubtreeRow.threadId).Perm
      ((List.replicate (ids.count root) root).flatMap
        (postOrder (childrenIn db.threads.rows) n)) := by
  have hperm := ((perm_of_unionAll (children_perm db) hrec).filter fun r => r.rootId = root).map
    SubtreeRow.threadId
  refine hperm.trans (List.Perm.of_eq ?_)
  rw [← countP_roots hroot]
  obtain ⟨roots, hroots⟩ : ∃ roots, db.roots ids = roots := ⟨_, rfl⟩
  have hself : ∀ r ∈ roots, r.threadId = r.rootId := fun r hr => (mem_roots (hroots ▸ hr)).1
  rw [hroots]
  clear hroots hperm hrec
  induction roots with
  | nil => rfl
  | cons r roots ih =>
    obtain ⟨hr, hrest⟩ := List.forall_mem_cons.mp hself
    rw [List.flatMap_cons, List.filter_append, List.map_append, ih hrest]
    by_cases heq : r.rootId = root
    · have hall : (postOrder db.kids n r).filter (fun x => x.rootId = root) =
          postOrder db.kids n r := List.filter_eq_self.mpr fun x hx => by
        simpa using (rootId_of_mem_postOrder hx).trans heq
      rw [hall, map_postOrder, hr, heq, List.countP_cons_of_pos (by simpa using heq),
        List.replicate_succ, List.flatMap_cons]
    · have hnone : (postOrder db.kids n r).filter (fun x => x.rootId = root) = [] :=
        List.filter_eq_nil_iff.mpr fun x hx => by
          simpa using fun h => heq ((rootId_of_mem_postOrder hx).symm.trans h)
      rw [hnone, List.countP_cons_of_neg (by simpa using heq)]
      rfl

/-- The recursive query ends. -/
theorem exists_rec (db : Tables ι) (ids : List ι) (hn : db.threads.rows.length < n) :
    ∃ rec, unionAll db.children n (db.roots ids) = some rec := by
  obtain ⟨rank, hforest⟩ := db.threads.exists_forest
  refine exists_unionAll (fun r => rank r.threadId) (children_perm db) (fun a c hc => ?_)
    (fun a => hforest.rank_le _) fun a _ => by omega
  have hmem : c.threadId ∈ (db.kids a).map SubtreeRow.threadId := List.mem_map_of_mem hc
  rw [map_kids] at hmem
  exact hforest.rank_lt hmem

def Tables.runsAt (db : Tables ι) (t : ι) : ℕ := db.runningRuns.countP (· = t)

def Tables.remindersAt (db : Tables ι) (t : ι) : ℕ := db.activeReminders.countP (· = t)

def Tables.containersAt (db : Tables ι) (t : ι) : ℕ := db.countedContainers.countP (· = some t)

theorem filter_joined (rec : List (SubtreeRow ι)) (p : SubtreeRow ι → Bool) :
    (db.joined rec).filter (fun r => p r.1.1.1) = db.joined (rec.filter p) := by
  rw [Tables.joined, Tables.joined, ← filter_leftJoin p,
    ← filter_leftJoin fun r : SubtreeRow ι × Option ι => p r.1,
    ← filter_leftJoin fun r : (SubtreeRow ι × Option ι) × Option ι => p r.1.1]

/-- The pending reminders of a thread are repeated for its runs and its containers. -/
theorem reminders_joined (rec : List (SubtreeRow ι)) :
    ((db.joined rec).filter fun r => r.1.2.isSome).length = (rec.map fun r =>
      max 1 (db.runsAt r.threadId) * (db.remindersAt r.threadId *
        max 1 (db.containersAt r.threadId))).sum := by
  rw [Tables.joined, filter_leftJoin fun r : (SubtreeRow ι × Option ι) × Option ι => r.2.isSome,
    length_leftJoin]
  exact (sum_leftJoin_some fun r : SubtreeRow ι × Option ι =>
    max 1 (db.containersAt r.1.threadId)).trans (sum_leftJoin fun r : SubtreeRow ι =>
      db.remindersAt r.threadId * max 1 (db.containersAt r.threadId))

/-- The containers of a thread are repeated for its runs and its pending reminders. -/
theorem containers_joined (rec : List (SubtreeRow ι)) :
    ((db.joined rec).filter fun r => r.2.isSome).length = (rec.map fun r =>
      max 1 (db.runsAt r.threadId) * (max 1 (db.remindersAt r.threadId) *
        db.containersAt r.threadId)).sum := by
  rw [Tables.joined, length_leftJoin_some]
  exact (sum_leftJoin fun r : SubtreeRow ι × Option ι => db.containersAt r.1.threadId).trans
    (sum_leftJoin fun r : SubtreeRow ι =>
      max 1 (db.remindersAt r.threadId) * db.containersAt r.threadId)

theorem exists_joined (db : Tables ι) (rec : List (SubtreeRow ι)) (p : SubtreeRow ι → Prop) :
    (∃ r ∈ db.joined rec, p r.1.1.1 ∧ r.1.1.2.isSome) ↔
      ∃ r ∈ rec, p r ∧ r.threadId ∈ db.runningRuns := by
  rw [Tables.joined,
    exists_leftJoin fun r : (SubtreeRow ι × Option ι) × Option ι => p r.1.1 ∧ r.1.2.isSome,
    exists_leftJoin fun r : SubtreeRow ι × Option ι => p r.1 ∧ r.2.isSome, exists_leftJoin_some]
  simp

theorem boolOr_eq_true {bs : List Bool} : boolOr bs = some true ↔ true ∈ bs := by
  cases bs with
  | nil => simp [boolOr]
  | cons b bs =>
    rw [boolOr, Option.some.injEq, List.any_eq_true]
    simp

theorem remindersAt_eq (db : Tables ι) (t : ι) : db.remindersAt t =
    (db.reminders.filter Reminder.isPending).countP fun rem => some rem.threadId = some t := by
  rw [Tables.remindersAt, Tables.activeReminders, List.countP_map]
  simp [Function.comp_def]

theorem containersAt_eq (db : Tables ι) (t : ι) : db.containersAt t =
    (db.containers.filter Container.isCounted).countP fun cont => cont.threadId = some t := by
  rw [Tables.containersAt, Tables.countedContainers, List.countP_map]
  rfl

structure IsSubtree (db : Tables ι) (root : ι) (ts : List ι) : Prop where
  nodup : ts.Nodup
  mem_iff : ∀ t, t ∈ ts ↔ db.InSubtree root t

variable {ts : List ι}

theorem isSubtree_postOrder (db : Tables ι) (root : ι) (hn : db.threads.rows.length < n) :
    IsSubtree db root (postOrder (childrenIn db.threads.rows) n root) := by
  obtain ⟨rank, hforest⟩ := db.threads.exists_forest
  exact ⟨hforest.nodup_postOrder (by omega), fun t => hforest.mem_postOrder (by omega)⟩

theorem IsSubtree.sum_reminders (h : IsSubtree db root ts) :
    (ts.map db.remindersAt).sum = db.pendingReminders root := by
  classical
  simp only [funext (remindersAt_eq db)]
  rw [sum_matching h.nodup (db.reminders.filter Reminder.isPending) fun rem => some rem.threadId,
    List.countP_filter, Tables.pendingReminders]
  refine List.countP_congr fun rem _ => ?_
  simp [h.mem_iff, and_comm]

theorem IsSubtree.sum_containers (h : IsSubtree db root ts) :
    (ts.map db.containersAt).sum = db.runningContainers root := by
  classical
  simp only [funext (containersAt_eq db)]
  rw [sum_matching h.nodup (db.containers.filter Container.isCounted) Container.threadId,
    List.countP_filter, Tables.runningContainers]
  refine List.countP_congr fun cont _ => ?_
  cases hthread : cont.threadId with
  | none => simp
  | some t => simp [h.mem_iff, and_comm]

def MetricsRow.Fits (row : MetricsRow ι) : Prop :=
  row.remindersCount ≤ 2147483647 ∧ row.containersCount ≤ 2147483647

omit [DecidableEq ι] in
theorem cast_eq_some {row row' : MetricsRow ι} : row.cast = some row' ↔ row.Fits ∧ row' = row := by
  unfold MetricsRow.cast toInt4 MetricsRow.Fits
  by_cases hrem : row.remindersCount ≤ 2147483647
  · by_cases hcont : row.containersCount ≤ 2147483647
    · simp only [hrem, hcont, if_true, and_self, true_and]
      exact ⟨fun h => (Option.some.inj h).symm, fun h => congrArg some h.symm⟩
    · simp [hrem, hcont]
  · simp [hrem]

omit [DecidableEq ι] in
theorem mapM_cast {rows rows' : List (MetricsRow ι)} :
    rows.mapM MetricsRow.cast = some rows' ↔ (∀ row ∈ rows, row.Fits) ∧ rows' = rows := by
  induction rows generalizing rows' with
  | nil => simp [eq_comm]
  | cons row rows ih =>
    rw [List.mapM_cons, List.forall_mem_cons]
    simp only [bind_pure_comp, Option.bind_eq_bind, Option.bind_eq_some_iff, cast_eq_some,
      Option.map_eq_map, Option.map_eq_some_iff, ih]
    constructor
    · rintro ⟨_, ⟨hrow, rfl⟩, _, ⟨hrows, rfl⟩, rfl⟩
      exact ⟨⟨hrow, hrows⟩, rfl⟩
    · rintro ⟨⟨hrow, hrows⟩, rfl⟩
      exact ⟨row, ⟨hrow, rfl⟩, rows, ⟨hrows, rfl⟩, rfl⟩

theorem mem_aggregate {joined : List (JoinedRow ι)} {row : MetricsRow ι} :
    row ∈ aggregate joined ↔ row.rootId ∈ joined.map (fun r => r.1.1.1.rootId) ∧
      row = metricsRow row.rootId (joined.filter fun r => r.1.1.1.rootId = row.rootId) := by
  unfold aggregate
  rw [List.mem_map]
  constructor
  · rintro ⟨rootId, hroot, rfl⟩
    exact ⟨List.mem_dedup.mp hroot, rfl⟩
  · rintro ⟨hroot, heq⟩
    exact ⟨row.rootId, List.mem_dedup.mpr hroot, heq.symm⟩

theorem get_metricsOf {joined : List (JoinedRow ι)} {row : MetricsRow ι}
    (hrow : row ∈ aggregate joined) :
    (metricsOf (some (aggregate joined))).get row.rootId = some row.metrics := by
  have hfold : metricsOf (some (aggregate joined)) =
      InsMap.ofEntries ((aggregate joined).map fun r => (r.rootId, r.metrics)) := by
    rw [metricsOf, InsMap.ofEntries, List.foldl_map]
  have hkeys : (((aggregate joined).map fun r => (r.rootId, r.metrics)).map Prod.fst).Nodup := by
    rw [List.map_map, aggregate, List.map_map]
    simpa [Function.comp_def, metricsRow] using List.nodup_dedup _
  rw [hfold]
  exact InsMap.get_ofEntries_of_mem _ hkeys (List.mem_map.mpr ⟨row, hrow, rfl⟩)

theorem mem_runningRuns {t : ι} : t ∈ db.runningRuns ↔ db.HasRunning t := by
  simp [Tables.runningRuns, Tables.HasRunning, and_assoc]

/-- Nothing repeats the reminders and the containers that are counted for a root. -/
structure Uninflated (db : Tables ι) (ids : List ι) (root : ι) : Prop where
  reminders : ∀ t, db.InSubtree root t → 0 < db.remindersAt t →
    ids.count root = 1 ∧ db.runsAt t ≤ 1 ∧ db.containersAt t ≤ 1
  containers : ∀ t, db.InSubtree root t → 0 < db.containersAt t →
    ids.count root = 1 ∧ db.runsAt t ≤ 1 ∧ db.remindersAt t ≤ 1
  reminders_le : db.pendingReminders root ≤ 2147483647
  containers_le : db.runningContainers root ≤ 2147483647

/-- A count is repeated by the copies of its root and by the joined rows. -/
theorem repeated_eq_iff {a b c k : ℕ} :
    a = k * (max 1 b * (max 1 c * a)) ↔ (0 < a → k = 1 ∧ b ≤ 1 ∧ c ≤ 1) := by
  have hfactor : k * (max 1 b * (max 1 c * a)) = k * (max 1 b * max 1 c) * a := by
    rw [Nat.mul_assoc, Nat.mul_assoc]
  have hone : k * (max 1 b * max 1 c) = 1 ↔ k = 1 ∧ b ≤ 1 ∧ c ≤ 1 := by
    rw [mul_eq_one, mul_eq_one]
    omega
  rw [hfactor, ← hone]
  constructor
  · intro h hpos
    have hmul : k * (max 1 b * max 1 c) * a = 1 * a := by omega
    exact Nat.eq_of_mul_eq_mul_right hpos hmul
  · intro h
    obtain rfl | hpos := Nat.eq_zero_or_pos a
    · rfl
    · rw [h hpos, Nat.one_mul]

theorem le_repeated {a b c k : ℕ} (hk : 1 ≤ k) : a ≤ k * (max 1 b * (max 1 c * a)) :=
  calc a ≤ max 1 c * a := Nat.le_mul_of_pos_left a (by omega)
    _ ≤ max 1 b * (max 1 c * a) := Nat.le_mul_of_pos_left _ (by omega)
    _ ≤ k * (max 1 b * (max 1 c * a)) := Nat.le_mul_of_pos_left _ hk

omit [DecidableEq ι] in
theorem sum_group {group : List (SubtreeRow ι)} {copies : ℕ}
    (hgroup : (group.map SubtreeRow.threadId).Perm
      ((List.replicate copies root).flatMap fun _ => ts)) (f : ι → ℕ) :
    (group.map fun r => f r.threadId).sum = (ts.map fun t => copies * f t).sum := by
  have hperm := (hgroup.map f).sum_eq
  rw [List.map_map] at hperm
  refine hperm.trans ?_
  rw [List.sum_map_mul_left]
  clear hgroup hperm
  induction copies with
  | zero => simp
  | succ copies ih =>
    rw [List.replicate_succ, List.flatMap_cons, List.map_append, List.sum_append, ih,
      Nat.succ_mul, Nat.add_comm]

structure Grouped (db : Tables ι) (ids : List ι) (root : ι) (group : List (SubtreeRow ι))
    (ts : List ι) : Prop where
  perm : (group.map SubtreeRow.threadId).Perm
    ((List.replicate (ids.count root) root).flatMap fun _ => ts)
  rootId : ∀ r ∈ group, r.rootId = root
  subtree : IsSubtree db root ts
  copies : 1 ≤ ids.count root

variable {group : List (SubtreeRow ι)}

theorem Grouped.mem_iff (h : Grouped db ids root group ts) :
    (∃ r ∈ group, r.threadId = t) ↔ db.InSubtree root t := by
  have hmem := h.perm.mem_iff (a := t)
  rw [List.mem_map] at hmem
  rw [hmem, List.mem_flatMap, ← h.subtree.mem_iff]
  have hcopies := h.copies
  constructor
  · rintro ⟨_, -, ht⟩
    exact ht
  · exact fun ht => ⟨root, List.mem_replicate.mpr ⟨by omega, rfl⟩, ht⟩

theorem Grouped.reminders_eq (h : Grouped db ids root group ts) :
    (metricsRow root (db.joined group)).remindersCount = (ts.map fun t =>
      ids.count root * (max 1 (db.runsAt t) * (max 1 (db.containersAt t) *
        db.remindersAt t))).sum := by
  refine (reminders_joined group).trans ?_
  simp only [Nat.mul_comm (db.remindersAt _)]
  exact sum_group h.perm fun t =>
    max 1 (db.runsAt t) * (max 1 (db.containersAt t) * db.remindersAt t)

theorem Grouped.containers_eq (h : Grouped db ids root group ts) :
    (metricsRow root (db.joined group)).containersCount = (ts.map fun t =>
      ids.count root * (max 1 (db.runsAt t) * (max 1 (db.remindersAt t) *
        db.containersAt t))).sum :=
  (containers_joined group).trans (sum_group h.perm fun t =>
    max 1 (db.runsAt t) * (max 1 (db.remindersAt t) * db.containersAt t))

theorem Grouped.reminders_iff (h : Grouped db ids root group ts) :
    db.pendingReminders root = (metricsRow root (db.joined group)).remindersCount ↔
      ∀ t, db.InSubtree root t → 0 < db.remindersAt t →
        ids.count root = 1 ∧ db.runsAt t ≤ 1 ∧ db.containersAt t ≤ 1 := by
  rw [h.reminders_eq, ← h.subtree.sum_reminders,
    sum_eq_iff_of_le fun t _ => le_repeated h.copies]
  exact forall_congr' fun t => imp_congr (h.subtree.mem_iff t) repeated_eq_iff

theorem Grouped.containers_iff (h : Grouped db ids root group ts) :
    db.runningContainers root = (metricsRow root (db.joined group)).containersCount ↔
      ∀ t, db.InSubtree root t → 0 < db.containersAt t →
        ids.count root = 1 ∧ db.runsAt t ≤ 1 ∧ db.remindersAt t ≤ 1 := by
  rw [h.containers_eq, ← h.subtree.sum_containers,
    sum_eq_iff_of_le fun t _ => le_repeated h.copies]
  exact forall_congr' fun t => imp_congr (h.subtree.mem_iff t) repeated_eq_iff

/-- A row counts a reminder exactly when one is pending. -/
theorem Grouped.reminders_pos (h : Grouped db ids root group ts) :
    0 < (metricsRow root (db.joined group)).remindersCount ↔ 0 < db.pendingReminders root := by
  rw [h.reminders_eq, ← h.subtree.sum_reminders]
  simp only [Nat.pos_iff_ne_zero, Ne, List.sum_eq_zero_iff, List.forall_mem_map, Nat.mul_eq_zero]
  have hcopies := h.copies
  refine not_congr (forall_congr' fun t => forall_congr' fun _ => ?_)
  omega

/-- Whether some of the threads works, from the rows of the group. -/
theorem Grouped.working_iff (h : Grouped db ids root group ts) (p : ι → Bool) :
    boolOr (((db.joined group).filter fun r => p r.1.1.1.threadId).map fun r => r.1.1.2.isSome) =
      some true ↔ ∃ t, db.InSubtree root t ∧ p t ∧ db.HasRunning t := by
  have hrows := exists_joined db group fun r => p r.threadId
  simp only [mem_runningRuns] at hrows
  rw [boolOr_eq_true]
  simp only [List.mem_map, List.mem_filter, and_assoc]
  rw [hrows]
  constructor
  · rintro ⟨r, hr, hp, hrun⟩
    exact ⟨r.threadId, h.mem_iff.mp ⟨r, hr, rfl⟩, hp, hrun⟩
  · rintro ⟨t, ht, hp, hrun⟩
    obtain ⟨r, hr, rfl⟩ := h.mem_iff.mpr ht
    exact ⟨r, hr, hp, hrun⟩

theorem Grouped.rootId_joined (h : Grouped db ids root group ts) {r : JoinedRow ι}
    (hr : r ∈ db.joined group) : r.1.1.1.rootId = root := by
  have hgroup : group.filter (fun r => r.rootId = root) = group :=
    List.filter_eq_self.mpr fun r hr => by simpa using h.rootId r hr
  rw [← hgroup, ← filter_joined group] at hr
  simpa using (List.mem_filter.mp hr).2

theorem Grouped.activity_eq (h : Grouped db ids root group ts) :
    (metricsRow root (db.joined group)).activity = db.activity root := by
  have hself : (metricsRow root (db.joined group)).selfWorking = some true ↔
      db.HasRunning root := by
    have hfilter : (db.joined group).filter (fun r => r.1.1.1.threadId = r.1.1.1.rootId) =
        (db.joined group).filter fun r => r.1.1.1.threadId = root :=
      List.filter_congr fun r hr => by rw [h.rootId_joined hr]
    rw [metricsRow, hfilter]
    refine (h.working_iff fun t => t = root).trans ?_
    simp only [decide_eq_true_eq]
    exact ⟨fun ⟨t, _, heq, hrun⟩ => heq ▸ hrun, fun hrun => ⟨root, .refl, rfl, hrun⟩⟩
  have hdesc : (metricsRow root (db.joined group)).descWorking = some true ↔
      ∃ t, db.InSubtree root t ∧ t ≠ root ∧ db.HasRunning t := by
    have hfilter : (db.joined group).filter (fun r => r.1.1.1.threadId ≠ r.1.1.1.rootId) =
        (db.joined group).filter fun r => r.1.1.1.threadId ≠ root :=
      List.filter_congr fun r hr => by rw [h.rootId_joined hr]
    rw [metricsRow, hfilter]
    refine (h.working_iff fun t => t ≠ root).trans ?_
    simp only [decide_eq_true_eq]
  classical
  unfold Tables.activity
  exact if_congr hself rfl (if_congr (or_congr hdesc h.reminders_pos) rfl rfl)

/-- The rows of a root that is there and asked for. -/
theorem exists_grouped (hmem : root ∈ ids) (hroot : root ∈ db.threads.rows.map ThreadNode.id)
    (hn : db.threads.rows.length < n)
    (hrec : unionAll db.children n (db.roots ids) = some rec) :
    ∃ ts, Grouped db ids root (rec.filter fun r => r.rootId = root) ts := by
  refine ⟨postOrder (childrenIn db.threads.rows) n root, ?_, fun r hr => ?_,
    isSubtree_postOrder db root hn, List.one_le_count_iff.mpr hmem⟩
  · refine (perm_group hroot hrec).trans (List.Perm.of_eq (List.flatMap_congr fun x hx => ?_))
    rw [List.eq_of_mem_replicate hx]
  · simpa using (List.mem_filter.mp hr).2

theorem mem_joined {r : JoinedRow ι} (hr : r ∈ db.joined rec) : r.1.1.1 ∈ rec := by
  have hcolumns := (exists_leftJoin fun x : (SubtreeRow ι × Option ι) × Option ι =>
    x.1.1 = r.1.1.1).mp ⟨r, hr, rfl⟩
  obtain ⟨x, hx, heq⟩ := (exists_leftJoin fun x => x = r.1.1.1).mp
    ((exists_leftJoin fun x : SubtreeRow ι × Option ι => x.1 = r.1.1.1).mp hcolumns)
  exact heq ▸ hx

/-- The roots that the query has rows for. -/
theorem mem_rootIds (hrec : unionAll db.children n (db.roots ids) = some rec)
    {row : MetricsRow ι} (hrow : row ∈ aggregate (db.joined rec)) :
    row.rootId ∈ ids ∧ row.rootId ∈ db.threads.rows.map ThreadNode.id := by
  obtain ⟨r, hr, heq⟩ := List.mem_map.mp (mem_aggregate.mp hrow).1
  obtain ⟨first, hfirst, hbelow⟩ := List.mem_flatMap.mp
    ((perm_of_unionAll (children_perm db) hrec).mem_iff.mp (mem_joined hr))
  rw [← heq, rootId_of_mem_postOrder hbelow]
  exact (mem_roots hfirst).2

/-- The row of a root that is there and asked for. -/
theorem mem_aggregate_root {ts : List ι}
    (h : Grouped db ids root (rec.filter fun r => r.rootId = root) ts) :
    metricsRow root (db.joined (rec.filter fun r => r.rootId = root)) ∈
      aggregate (db.joined rec) := by
  obtain ⟨r, hr, -⟩ := h.mem_iff.mpr Relation.ReflTransGen.refl
  obtain ⟨x, hx, hroot⟩ := (exists_leftJoin fun x : (SubtreeRow ι × Option ι) × Option ι =>
    x.1.1.rootId = root).mpr ((exists_leftJoin fun x : SubtreeRow ι × Option ι =>
      x.1.rootId = root).mpr ((exists_leftJoin fun x => x.rootId = root).mpr
        ⟨r, (List.mem_filter.mp hr).1, h.rootId r hr⟩))
  rw [← filter_joined rec fun r => r.rootId = root]
  exact mem_aggregate.mpr ⟨List.mem_map.mpr ⟨x, hx, hroot⟩, rfl⟩

theorem get_root (h : Grouped db ids root (rec.filter fun r => r.rootId = root) ts) :
    (metricsOf (some (aggregate (db.joined rec)))).get root =
      some (metricsRow root (db.joined (rec.filter fun r => r.rootId = root))).metrics :=
  get_metricsOf (mem_aggregate_root h)

/-- The row of a root is right, and an integer, exactly when nothing repeats what it counts. -/
theorem Grouped.uninflated_iff (h : Grouped db ids root group ts) :
    Uninflated db ids root ↔
      db.pendingReminders root = (metricsRow root (db.joined group)).remindersCount ∧
      db.runningContainers root = (metricsRow root (db.joined group)).containersCount ∧
      (metricsRow root (db.joined group)).Fits := by
  constructor
  · intro hroot
    have hrem := h.reminders_iff.mpr hroot.reminders
    have hcont := h.containers_iff.mpr hroot.containers
    exact ⟨hrem, hcont, hrem ▸ hroot.reminders_le, hcont ▸ hroot.containers_le⟩
  · rintro ⟨hrem, hcont, hfits⟩
    exact ⟨h.reminders_iff.mp hrem, h.containers_iff.mp hcont, hrem ▸ hfits.1, hcont ▸ hfits.2⟩

theorem uninflated_of_countsCorrectly (h : CountsCorrectly db ids) (hmem : root ∈ ids)
    (hroot : root ∈ db.threads.rows.map ThreadNode.id) : Uninflated db ids root := by
  obtain ⟨fuel, hfuel⟩ := h
  obtain ⟨rec, hrec⟩ := exists_rec db ids (n := max fuel (db.threads.rows.length + 1)) (by omega)
  obtain ⟨ts, hgroup⟩ := exists_grouped hmem hroot (by omega) hrec
  obtain ⟨out, hout, hall⟩ := hfuel _ (le_max_left _ _)
  rw [getThreadsMetrics, if_neg (List.ne_nil_of_mem hmem)] at hout
  obtain ⟨rec', hrec', rfl⟩ := Option.map_eq_some_iff.mp hout
  obtain rfl := Option.some.inj (hrec.symm.trans hrec')
  have hget := hall root hmem hroot
  cases hquery : db.queryRaw rec with
  | none =>
    rw [hquery] at hget
    exact absurd hget nofun
  | some rows =>
    obtain ⟨hfits, rfl⟩ := mapM_cast.mp hquery
    rw [hquery, get_root hgroup] at hget
    have hmetrics := Option.some.inj hget
    exact hgroup.uninflated_iff.mpr ⟨(congrArg Metrics.remindersCount hmetrics).symm,
      (congrArg Metrics.containersCount hmetrics).symm, hfits _ (mem_aggregate_root hgroup)⟩

theorem countsCorrectly_of_uninflated (h : ∀ root ∈ ids,
    root ∈ db.threads.rows.map ThreadNode.id → Uninflated db ids root) :
    CountsCorrectly db ids := by
  refine ⟨db.threads.rows.length + 1, fun n hn => ?_⟩
  by_cases hids : ids = []
  · subst hids
    exact ⟨.empty, rfl, fun root hmem => absurd hmem List.not_mem_nil⟩
  obtain ⟨rec, hrec⟩ := exists_rec db ids hn
  have hfits : ∀ row ∈ aggregate (db.joined rec), row.Fits := by
    intro row hrow
    obtain ⟨hmem, hroot⟩ := mem_rootIds hrec hrow
    obtain ⟨ts, hgroup⟩ := exists_grouped hmem hroot hn hrec
    rw [(mem_aggregate.mp hrow).2, filter_joined rec fun r => r.rootId = row.rootId]
    exact (hgroup.uninflated_iff.mp (h row.rootId hmem hroot)).2.2
  have hquery : db.queryRaw rec = some (aggregate (db.joined rec)) :=
    mapM_cast.mpr ⟨hfits, rfl⟩
  refine ⟨metricsOf (db.queryRaw rec), ?_, fun root hmem hroot => ?_⟩
  · rw [getThreadsMetrics, if_neg hids]
    simp only [hrec, Option.map_some]
  · obtain ⟨ts, hgroup⟩ := exists_grouped hmem hroot hn hrec
    obtain ⟨hrem, hcont, -⟩ := hgroup.uninflated_iff.mp (h root hmem hroot)
    rw [hquery, get_root hgroup, MetricsRow.metrics, hgroup.activity_eq, ← hrem, ← hcont]

/-- The counts are right exactly when nothing repeats them at any of the roots. -/
theorem countsCorrectly_iff (db : Tables ι) (ids : List ι) : CountsCorrectly db ids ↔
    ∀ root ∈ ids, root ∈ db.threads.rows.map ThreadNode.id → Uninflated db ids root :=
  ⟨fun h _ hmem hroot => uninflated_of_countsCorrectly h hmem hroot, countsCorrectly_of_uninflated⟩

def twoContainers : Tables ℕ where
  threads :=
    { rows := [⟨1, none, .isOpen, 0⟩]
      ids := List.nodup_singleton 1
      parents := by simp
      acyclic := fun id h => by
        obtain ⟨c, -, hchild⟩ := Relation.TransGen.tail'_iff.mp h
        obtain ⟨row, hrow, hparent, -⟩ := mem_childrenIn.mp hchild
        rw [List.mem_singleton.mp hrow] at hparent
        exact absurd hparent nofun }
  runs := []
  reminders := [⟨1, none, none⟩]
  containers := [⟨some 1, .running, none⟩, ⟨some 1, .running, none⟩]

theorem not_countsCorrectly : ¬ CountsCorrectly twoContainers [1] := by
  intro h
  have hroot := uninflated_of_countsCorrectly h List.mem_cons_self List.mem_cons_self
  obtain ⟨-, -, hcontainers⟩ := hroot.reminders 1 Relation.ReflTransGen.refl (by decide)
  exact absurd hcontainers (by decide)

end Agyn.ThreadMetrics
