import Agyn.MetricCounts

/-!
Which threads a change affects. The metrics of a thread are the same whichever other threads are
asked for with it, and they depend on the rows of its subtree only. A change of the rows of one
thread is seen in that thread and its ancestors, which are the rows of the query upwards.
-/
namespace Agyn.ThreadMetrics

open JoinedRows ThreadCleanup References

variable {ι : Type} [DecidableEq ι] {db db' : Tables ι} {ids ids' : List ι} {root t : ι}
  {rec : List (SubtreeRow ι)} {group group' : List (SubtreeRow ι)} {ts ts' : List ι} {n : ℕ}

/-- The metrics by thread, where the recursive query has all the fuel it needs. -/
def Tables.answer (db : Tables ι) (ids : List ι) : InsMap ι Metrics :=
  (getThreadsMetrics (some db) (db.threads.rows.length + 1) ids).getD .empty

def Tables.metricsAt (db : Tables ι) (id : ι) : Option Metrics := (db.answer [id]).get id

structure Agree (db db' : Tables ι) (root : ι) : Prop where
  listed : root ∈ db'.threads.rows.map ThreadNode.id ↔ root ∈ db.threads.rows.map ThreadNode.id
  below : ∀ t, db'.InSubtree root t ↔ db.InSubtree root t
  runs : ∀ t, db.InSubtree root t → db'.runsAt t = db.runsAt t
  reminders : ∀ t, db.InSubtree root t → db'.remindersAt t = db.remindersAt t
  containers : ∀ t, db.InSubtree root t → db'.containersAt t = db.containersAt t

theorem Agree.refl (db : Tables ι) (root : ι) : Agree db db root :=
  ⟨Iff.rfl, fun _ => Iff.rfl, fun _ _ => rfl, fun _ _ => rfl, fun _ _ => rfl⟩

theorem hasRunning_iff : db.HasRunning t ↔ 0 < db.runsAt t := by
  rw [← mem_runningRuns, Tables.runsAt, List.countP_pos_iff]
  simp

theorem Agree.activity_eq (h : Agree db db' root) (hts : IsSubtree db root ts)
    (hts' : IsSubtree db' root ts') : db'.activity root = db.activity root := by
  have hrunning : ∀ t, db.InSubtree root t → (db'.HasRunning t ↔ db.HasRunning t) := by
    intro t ht
    rw [hasRunning_iff, hasRunning_iff, h.runs t ht]
  have hperm : ts'.Perm ts := (List.perm_ext_iff_of_nodup hts'.nodup hts.nodup).mpr fun t => by
    rw [hts'.mem_iff, hts.mem_iff, h.below]
  have hreminders : db'.pendingReminders root = db.pendingReminders root := by
    rw [← hts'.sum_reminders, ← hts.sum_reminders, (hperm.map db'.remindersAt).sum_eq]
    exact congrArg List.sum (List.map_congr_left fun t ht => h.reminders t ((hts.mem_iff t).mp ht))
  have hbelow : (∃ t, db'.InSubtree root t ∧ t ≠ root ∧ db'.HasRunning t) ↔
      ∃ t, db.InSubtree root t ∧ t ≠ root ∧ db.HasRunning t := by
    refine exists_congr fun t => ?_
    rw [h.below]
    exact and_congr_right fun ht => and_congr_right fun _ => hrunning t ht
  classical
  unfold Tables.activity
  rw [hreminders]
  exact if_congr (hrunning root Relation.ReflTransGen.refl) rfl
    (if_congr (or_congr_left hbelow) rfl rfl)

/-- The row of a root is made of what its subtree has. -/
theorem Agree.metrics_eq (h : Agree db db' root) (hgroup : Grouped db ids root group ts)
    (hgroup' : Grouped db' ids' root group' ts') (hone : ids.count root = 1)
    (hone' : ids'.count root = 1) :
    (metricsRow root (db'.joined group')).metrics =
      (metricsRow root (db.joined group)).metrics := by
  have hperm : ts'.Perm ts :=
    (List.perm_ext_iff_of_nodup hgroup'.subtree.nodup hgroup.subtree.nodup).mpr fun t => by
      rw [hgroup'.subtree.mem_iff, hgroup.subtree.mem_iff, h.below]
  have hmem : ∀ t ∈ ts, db.InSubtree root t := fun t => (hgroup.subtree.mem_iff t).mp
  unfold MetricsRow.metrics
  rw [hgroup'.reminders_eq, hgroup.reminders_eq, hgroup'.containers_eq, hgroup.containers_eq,
    hgroup'.activity_eq, hgroup.activity_eq, hone, hone',
    h.activity_eq hgroup.subtree hgroup'.subtree, (hperm.map _).sum_eq, (hperm.map _).sum_eq]
  have hreminders : ts.map (fun t => 1 * (max 1 (db'.runsAt t) * (max 1 (db'.containersAt t) *
      db'.remindersAt t))) = ts.map fun t => 1 * (max 1 (db.runsAt t) *
        (max 1 (db.containersAt t) * db.remindersAt t)) :=
    List.map_congr_left fun t ht => by
      rw [h.runs t (hmem t ht), h.reminders t (hmem t ht), h.containers t (hmem t ht)]
  have hcontainers : ts.map (fun t => 1 * (max 1 (db'.runsAt t) * (max 1 (db'.remindersAt t) *
      db'.containersAt t))) = ts.map fun t => 1 * (max 1 (db.runsAt t) *
        (max 1 (db.remindersAt t) * db.containersAt t)) :=
    List.map_congr_left fun t ht => by
      rw [h.runs t (hmem t ht), h.reminders t (hmem t ht), h.containers t (hmem t ht)]
  rw [hreminders, hcontainers]

/-- What the service answers for a thread is the row of its group, if every count is an integer of
the database. -/
theorem answer_cases (hmem : root ∈ ids) (hroot : root ∈ db.threads.rows.map ThreadNode.id) :
    ∃ rec ts, unionAll db.children (db.threads.rows.length + 1) (db.roots ids) = some rec ∧
      Grouped db ids root (rec.filter fun r => r.rootId = root) ts ∧
      ((db.answer ids).get root = none ∧ ¬ (∀ row ∈ aggregate (db.joined rec), row.Fits) ∨
        (db.answer ids).get root = some
            (metricsRow root (db.joined (rec.filter fun r => r.rootId = root))).metrics ∧
          ∀ row ∈ aggregate (db.joined rec), row.Fits) := by
  obtain ⟨rec, hrec⟩ := exists_rec db ids (Nat.lt_succ_self _)
  obtain ⟨ts, hgroup⟩ := exists_grouped hmem hroot (Nat.lt_succ_self _) hrec
  have hanswer : db.answer ids = metricsOf (db.queryRaw rec) := by
    rw [Tables.answer, getThreadsMetrics, if_neg (List.ne_nil_of_mem hmem)]
    simp only [hrec, Option.map_some, Option.getD_some]
  refine ⟨rec, ts, hrec, hgroup, ?_⟩
  rw [hanswer]
  cases hquery : db.queryRaw rec with
  | none =>
    refine .inl ⟨rfl, fun hfits => ?_⟩
    exact absurd ((mapM_cast.mpr ⟨hfits, rfl⟩).symm.trans hquery) (Option.some_ne_none _)
  | some rows =>
    obtain ⟨hfits, rfl⟩ := mapM_cast.mp hquery
    exact .inr ⟨get_root hgroup, hfits⟩

theorem exists_row_of_get {rows : List (MetricsRow ι)} {m : Metrics}
    (h : (metricsOf (some rows)).get root = some m) : ∃ row ∈ rows, row.rootId = root := by
  have hfold : metricsOf (some rows) =
      InsMap.ofEntries (rows.map fun r => (r.rootId, r.metrics)) := by
    rw [metricsOf, InsMap.ofEntries, List.foldl_map]
  rw [hfold] at h
  obtain ⟨row, hrow, heq⟩ := List.mem_map.mp (InsMap.mem_of_get_ofEntries _ _ _ h)
  exact ⟨row, hrow, congrArg Prod.fst heq⟩

theorem mem_of_answer {m : Metrics} (h : (db.answer ids).get root = some m) :
    root ∈ ids ∧ root ∈ db.threads.rows.map ThreadNode.id := by
  by_cases hids : ids = []
  · rw [Tables.answer, getThreadsMetrics, if_pos hids, Option.getD_some, InsMap.get_empty] at h
    exact absurd h.symm (Option.some_ne_none m)
  obtain ⟨rec, hrec⟩ := exists_rec db ids (Nat.lt_succ_self _)
  have hanswer : db.answer ids = metricsOf (db.queryRaw rec) := by
    rw [Tables.answer, getThreadsMetrics, if_neg hids]
    simp only [hrec, Option.map_some, Option.getD_some]
  rw [hanswer] at h
  cases hquery : db.queryRaw rec with
  | none =>
    rw [hquery, metricsOf, InsMap.get_empty] at h
    exact absurd h.symm (Option.some_ne_none m)
  | some rows =>
    obtain ⟨-, rfl⟩ := mapM_cast.mp hquery
    rw [hquery] at h
    obtain ⟨row, hrow, rfl⟩ := exists_row_of_get h
    exact mem_rootIds hrec hrow

omit [DecidableEq ι] in
theorem fits_congr {row row' : MetricsRow ι} (h : row'.metrics = row.metrics) :
    row'.Fits ↔ row.Fits := by
  have hreminders := congrArg Metrics.remindersCount h
  have hcontainers := congrArg Metrics.containersCount h
  simp only [MetricsRow.metrics] at hreminders hcontainers
  rw [MetricsRow.Fits, MetricsRow.Fits, hreminders, hcontainers]

/-- A thread that is asked for alone is answered for if its own counts are integers. -/
theorem metricsAt_cases (hroot : root ∈ db.threads.rows.map ThreadNode.id) :
    ∃ group ts, Grouped db [root] root group ts ∧
      (db.metricsAt root = none ∧ ¬ (metricsRow root (db.joined group)).Fits ∨
        db.metricsAt root = some (metricsRow root (db.joined group)).metrics ∧
          (metricsRow root (db.joined group)).Fits) := by
  obtain ⟨rec, ts, hrec, hgroup, hcases⟩ := answer_cases (List.mem_singleton_self root) hroot
  have honly : ∀ row ∈ aggregate (db.joined rec), row =
      metricsRow root (db.joined (rec.filter fun r => r.rootId = root)) := by
    intro row hrow
    have hid := List.mem_singleton.mp (mem_rootIds hrec hrow).1
    have heq := (mem_aggregate.mp hrow).2
    rwa [hid, filter_joined rec fun r => r.rootId = root] at heq
  refine ⟨_, ts, hgroup, hcases.imp ?_ ?_⟩
  · rintro ⟨hnone, hunfit⟩
    exact ⟨hnone, fun hfit => hunfit fun row hrow => honly row hrow ▸ hfit⟩
  · rintro ⟨hsome, hfits⟩
    exact ⟨hsome, hfits _ (mem_aggregate_root hgroup)⟩

/-- A thread has the metrics that it is answered with among others. -/
theorem metricsAt_of_answer (hnodup : ids.Nodup) {m : Metrics}
    (h : (db.answer ids).get root = some m) : db.metricsAt root = some m := by
  obtain ⟨hmem, hroot⟩ := mem_of_answer h
  obtain ⟨rec, ts, hrec, hgroup, ⟨hnone, -⟩ | ⟨hsome, hfits⟩⟩ := answer_cases hmem hroot
  · exact absurd (hnone.symm.trans h).symm (Option.some_ne_none m)
  obtain ⟨group, ts', hgroup', hcases⟩ := metricsAt_cases hroot
  have hsame := (Agree.refl db root).metrics_eq hgroup hgroup'
    (List.count_eq_one_of_mem hnodup hmem) List.count_singleton_self
  obtain ⟨-, hunfit⟩ | ⟨hsome', -⟩ := hcases
  · exact absurd ((fits_congr hsame).mpr (hfits _ (mem_aggregate_root hgroup))) hunfit
  · rw [hsome', hsame, ← hsome, h]

/-- Only rows of one thread have changed: its own row, which stays where it is in the tree once it
is there, and its runs, reminders and containers. -/
structure Touches (db db' : Tables ι) (threadId : ι) : Prop where
  rows : ∀ row, row.id ≠ threadId → (row ∈ db'.threads.rows ↔ row ∈ db.threads.rows)
  own : ∀ row ∈ db.threads.rows,
    ∃ row' ∈ db'.threads.rows, row'.id = row.id ∧ row'.parentId = row.parentId
  runs : ∀ t, t ≠ threadId → db'.runsAt t = db.runsAt t
  reminders : ∀ t, t ≠ threadId → db'.remindersAt t = db.remindersAt t
  containers : ∀ t, t ≠ threadId → db'.containersAt t = db.containersAt t

variable {threadId : ι}

theorem Touches.below_iff (h : Touches db db' threadId) (hbelow : ¬ db'.InSubtree root threadId) :
    db'.InSubtree root t ↔ db.InSubtree root t := by
  constructor
  · intro ht
    induction ht with
    | refl => exact Relation.ReflTransGen.refl
    | tail ha hchild ih =>
      obtain ⟨row, hrow, hparent, rfl⟩ := mem_childrenIn.mp hchild
      have hne : row.id ≠ threadId := fun heq => hbelow (heq ▸ ha.tail hchild)
      exact ih.tail (mem_childrenIn.mpr ⟨row, (h.rows row hne).mp hrow, hparent, rfl⟩)
  · intro ht
    induction ht with
    | refl => exact Relation.ReflTransGen.refl
    | tail _ hchild ih =>
      obtain ⟨row, hrow, hparent, rfl⟩ := mem_childrenIn.mp hchild
      obtain ⟨row', hrow', hid, hparent'⟩ := h.own row hrow
      exact ih.tail (mem_childrenIn.mpr ⟨row', hrow', hparent'.trans hparent, hid⟩)

theorem Touches.agree (h : Touches db db' threadId) (hbelow : ¬ db'.InSubtree root threadId) :
    Agree db db' root := by
  have hne : ∀ t, db.InSubtree root t → t ≠ threadId := fun t ht heq =>
    hbelow (heq ▸ (h.below_iff hbelow).mpr ht)
  refine ⟨⟨fun hroot => ?_, fun hroot => ?_⟩, fun t => h.below_iff hbelow,
    fun t ht => h.runs t (hne t ht), fun t ht => h.reminders t (hne t ht),
    fun t ht => h.containers t (hne t ht)⟩
  · obtain ⟨row, hrow, rfl⟩ := List.mem_map.mp hroot
    exact List.mem_map_of_mem ((h.rows row (hne _ Relation.ReflTransGen.refl)).mp hrow)
  · obtain ⟨row, hrow, rfl⟩ := List.mem_map.mp hroot
    obtain ⟨row', hrow', hid, -⟩ := h.own row hrow
    exact List.mem_map.mpr ⟨row', hrow', hid⟩

theorem metricsAt_eq_none (h : root ∉ db.threads.rows.map ThreadNode.id) :
    db.metricsAt root = none :=
  Option.eq_none_iff_forall_ne_some.mpr fun _ hm => h (mem_of_answer hm).2

theorem Agree.metricsAt_eq (h : Agree db db' root) : db'.metricsAt root = db.metricsAt root := by
  by_cases hroot : root ∈ db.threads.rows.map ThreadNode.id
  · obtain ⟨group, ts, hgroup, hcases⟩ := metricsAt_cases hroot
    obtain ⟨group', ts', hgroup', hcases'⟩ := metricsAt_cases (h.listed.mpr hroot)
    have hsame := h.metrics_eq hgroup hgroup' List.count_singleton_self List.count_singleton_self
    obtain ⟨hnone, hunfit⟩ | ⟨hsome, hfit⟩ := hcases <;>
      obtain ⟨hnone', hunfit'⟩ | ⟨hsome', hfit'⟩ := hcases'
    · rw [hnone, hnone']
    · exact absurd ((fits_congr hsame).mp hfit') hunfit
    · exact absurd ((fits_congr hsame).mpr hfit) hunfit'
    · rw [hsome, hsome', hsame]
  · rw [metricsAt_eq_none hroot, metricsAt_eq_none (mt h.listed.mp hroot)]

/-- The second part of `rec`: the threads joined with the rows whose parent they are. -/
def Tables.parents (db : Tables ι) (work : List (ThreadNode ι)) : List (ThreadNode ι) :=
  db.threads.rows.flatMap fun p => (work.filter fun r => r.parentId = some p.id).map fun _ => p

def Tables.ancestorRows (db : Tables ι) (threadId : ι) : Option (List (ThreadNode ι)) :=
  unionAll db.parents (db.threads.rows.length + 1) (db.threads.rows.filter fun t => t.id = threadId)

def Tables.parentRows (db : Tables ι) (r : ThreadNode ι) : List (ThreadNode ι) :=
  db.threads.rows.filter fun p => r.parentId = some p.id

theorem parents_perm (db : Tables ι) (work : List (ThreadNode ι)) :
    (db.parents work).Perm (work.flatMap db.parentRows) := by
  have hperm := join_perm db.threads.rows work (fun p r => decide (r.parentId = some p.id))
    fun p _ => p
  refine hperm.trans (List.Perm.of_eq (List.flatMap_congr fun r _ => ?_))
  exact List.map_id _

theorem mem_parentRows {r p : ThreadNode ι} :
    p ∈ db.parentRows r ↔ p ∈ db.threads.rows ∧ r.parentId = some p.id := by
  rw [Tables.parentRows, List.mem_filter, decide_eq_true_eq]

open Classical in
/-- The query upwards ends. -/
theorem exists_ancestorRows (db : Tables ι) (threadId : ι) :
    ∃ rows, db.ancestorRows threadId = some rows := by
  obtain ⟨rank, hforest⟩ := db.threads.exists_forest
  -- a row that is not of the table has the parent of any row, so that it ranks before all
  have hbound : ∀ r : ThreadNode ι, (if r ∈ db.threads.rows then
      db.threads.rows.length + 1 - rank r.id else 0) ≤ db.threads.rows.length + 1 := by
    intro r
    split <;> omega
  refine exists_unionAll _ (parents_perm db) (fun r p hp => ?_) hbound fun r hr => ?_
  · obtain ⟨hmem, hparent⟩ := mem_parentRows.mp hp
    have hle := hforest.rank_le p.id
    rw [if_pos hmem]
    split
    · rename_i hr
      have hlt := hforest.rank_lt (mem_childrenIn.mpr ⟨r, hr, hparent, rfl⟩)
      have hle' := hforest.rank_le r.id
      omega
    · omega
  · have hle := hforest.rank_le r.id
    rw [if_pos (List.mem_filter.mp hr).1]
    omega

/-- The query upwards has the rows of the thread and of the threads that it is below. -/
theorem mem_ancestorRows {threadId : ι} {rows : List (ThreadNode ι)}
    (h : db.ancestorRows threadId = some rows) :
    root ∈ rows.map ThreadNode.id ↔
      root ∈ db.threads.rows.map ThreadNode.id ∧ db.InSubtree root threadId := by
  have hrows := forall_of_unionAll
    (P := fun r => r ∈ db.threads.rows ∧ db.InSubtree r.id threadId) (parents_perm db) h ?_ ?_
  · obtain ⟨hfirst, hclosed⟩ := closed_of_unionAll (parents_perm db) h
    constructor
    · intro hroot
      obtain ⟨r, hr, rfl⟩ := List.mem_map.mp hroot
      exact ⟨List.mem_map_of_mem (hrows r hr).1, (hrows r hr).2⟩
    · rintro ⟨hroot, hbelow⟩
      -- from the thread upwards, each parent of a row of the result is one
      induction hbelow using Relation.ReflTransGen.head_induction_on with
      | refl =>
        obtain ⟨r, hr, rfl⟩ := List.mem_map.mp hroot
        exact List.mem_map_of_mem (hfirst r (List.mem_filter.mpr ⟨hr, decide_eq_true rfl⟩))
      | head hchild _ ih =>
        obtain ⟨row, hrow, hparent, rfl⟩ := mem_childrenIn.mp hchild
        obtain ⟨r, hr, hid⟩ := List.mem_map.mp (ih (List.mem_map_of_mem hrow))
        obtain rfl := db.threads.eq_of_id (hrows r hr).1 hrow hid
        obtain ⟨p, hp, rfl⟩ := List.mem_map.mp hroot
        exact List.mem_map_of_mem (hclosed r hr p (mem_parentRows.mpr ⟨hp, hparent⟩))
  · intro r hr
    obtain ⟨hmem, hid⟩ := List.mem_filter.mp hr
    exact ⟨hmem, of_decide_eq_true hid ▸ Relation.ReflTransGen.refl⟩
  · rintro r ⟨hmem, hbelow⟩ p hp
    obtain ⟨hp, hparent⟩ := mem_parentRows.mp hp
    exact ⟨hp, hbelow.head (mem_childrenIn.mpr ⟨r, hmem, hparent, rfl⟩)⟩

/-- Whatever has other metrics after a change is a row of the query upwards. -/
theorem Touches.ancestor_of_changed (h : Touches db db' threadId) {rows : List (ThreadNode ι)}
    (hrows : db'.ancestorRows threadId = some rows)
    (hchanged : db'.metricsAt root ≠ db.metricsAt root) : root ∈ rows.map ThreadNode.id := by
  by_contra hroot
  have hnot : ¬ (root ∈ db'.threads.rows.map ThreadNode.id ∧ db'.InSubtree root threadId) :=
    mt (mem_ancestorRows hrows).mpr hroot
  by_cases hbelow : db'.InSubtree root threadId
  · have hlisted : root ∉ db'.threads.rows.map ThreadNode.id := fun hmem => hnot ⟨hmem, hbelow⟩
    have hlisted' : root ∉ db.threads.rows.map ThreadNode.id := by
      intro hmem
      obtain ⟨row, hrow, rfl⟩ := List.mem_map.mp hmem
      obtain ⟨row', hrow', hid, -⟩ := h.own row hrow
      exact hlisted (hid ▸ List.mem_map_of_mem hrow')
    exact hchanged ((metricsAt_eq_none hlisted).trans (metricsAt_eq_none hlisted').symm)
  · exact hchanged (h.agree hbelow).metricsAt_eq

def withChild (runs : List (Run ℕ)) : Tables ℕ where
  threads :=
    { rows := [⟨1, none, .isOpen, 0⟩, ⟨2, some 1, .isOpen, 0⟩]
      ids := by simp
      parents := by simp
      acyclic := fun id h => by
        have hchild : ∀ {a c : ℕ}, Child (childrenIn [⟨1, none, .isOpen, 0⟩,
            ⟨2, some 1, .isOpen, 0⟩]) a c → a = 1 ∧ c = 2 := by
          intro a c hc
          obtain ⟨row, hrow, hparent, rfl⟩ := mem_childrenIn.mp hc
          obtain rfl | rfl : row = ⟨1, none, .isOpen, 0⟩ ∨ row = ⟨2, some 1, .isOpen, 0⟩ := by
            simpa using hrow
          · exact absurd hparent.symm (Option.some_ne_none a)
          · exact ⟨(Option.some.inj hparent).symm, rfl⟩
        obtain ⟨_, hfirst, -⟩ := Relation.TransGen.head'_iff.mp h
        obtain ⟨_, -, hlast⟩ := Relation.TransGen.tail'_iff.mp h
        have hone := (hchild hfirst).1
        have htwo := (hchild hlast).2
        omega }
  runs
  reminders := []
  containers := []

theorem touches_withChild : Touches (withChild []) (withChild [⟨2, .running⟩]) 2 :=
  ⟨fun _ _ => Iff.rfl, fun row hrow => ⟨row, hrow, rfl, rfl⟩,
    fun t ht => by simp [Tables.runsAt, Tables.runningRuns, withChild, Ne.symm ht],
    fun _ _ => rfl, fun _ _ => rfl⟩

theorem ancestor_of_changed_withChild :
    1 ∈ [(⟨2, some 1, .isOpen, 0⟩ : ThreadNode ℕ), ⟨1, none, .isOpen, 0⟩].map ThreadNode.id :=
  touches_withChild.ancestor_of_changed (by rfl) (by decide)

end Agyn.ThreadMetrics
