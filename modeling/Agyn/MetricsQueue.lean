import Agyn.AffectedThreads
import Agyn.GuardedRuns

/-!
The metrics queue of the gateway. Threads whose metrics may have changed are collected, a timer
asks for the metrics of all of them at once, and each answer is sent to the rooms of its thread.
-/
namespace Agyn.MetricsQueue

open ThreadMetrics ThreadCleanup

variable {ι : Type} [DecidableEq ι]

/-- What `thread_activity_changed` and `thread_reminders_count` say of a thread. -/
structure Shown where
  activity : Activity
  remindersCount : ℕ
  deriving DecidableEq

/-- The gateway: whether it is attached to a server, and what waits for the next flush. -/
structure Gateway (ι : Type) where
  io : Bool
  pendingThreads : InsSet ι
  metricsTimer : Bool

namespace Gateway

def scheduleThreadMetrics (g : Gateway ι) (threadId : ι) : Gateway ι :=
  let g := { g with pendingThreads := g.pendingThreads.add threadId }
  if !g.metricsTimer then { g with metricsTimer := true } else g

/-- Once the query upwards is answered, or has failed. -/
def scheduleThreadAndAncestorsMetrics (g : Gateway ι) (threadId : ι)
    (rows : Option (List (ThreadNode ι))) : Gateway ι :=
  match rows with
  | some rows => rows.foldl (fun g r => g.scheduleThreadMetrics r.id) g
  | none => g.scheduleThreadMetrics threadId

/-- The start of `flushMetricsQueue`, with the threads that it asks for, if it does. -/
def flushMetricsQueue (g : Gateway ι) : Gateway ι × Option (List ι) :=
  let ids := g.pendingThreads.keys
  let g := { g with pendingThreads := .empty, metricsTimer := false }
  (g, if g.io = false ∨ ids = [] then none else some ids)

end Gateway

def toShown (m : Metrics) : Shown := ⟨m.activity, m.remindersCount⟩

/-- The loop of `flushMetricsQueue` over the answer. -/
def emitMetrics (shown : ι → Option Shown) (map : InsMap ι Metrics) (ids : List ι) :
    ι → Option Shown :=
  ids.foldl (fun shown id =>
    match map.get id with
    | none => shown
    | some m => Function.update shown id (some (toShown m))) shown

/-- A flush that waits for its answer, or for its turn once the answer is there. -/
structure Flush (ι : Type) where
  ids : List ι
  map : Option (InsMap ι Metrics)

structure World (ι : Type) [DecidableEq ι] where
  db : Tables ι
  gateway : Gateway ι
  /-- The threads whose query upwards is not answered. -/
  lookups : List ι
  flushes : List (Flush ι)
  /-- What the rooms of each thread were told last. -/
  shown : ι → Option Shown
  /-- The threads that have not been scheduled since their metrics changed. -/
  owed : List ι
  /-- The databases that there have been. -/
  history : List (Tables ι)

inductive Action (ι : Type) [DecidableEq ι] where
  | change (db : Tables ι)
  | attach
  | threadMetrics (threadId : ι)
  | threadMetricsAncestors (threadId : ι)
  | lookedUp (i : ℕ) (available : Bool)
  | fire
  | read (i : ℕ) (available : Bool)
  | emit (i : ℕ)

def changed (db db' : Tables ι) : List ι :=
  ((db.threads.rows ++ db'.threads.rows).map ThreadNode.id).filter fun id =>
    db'.metricsAt id ≠ db.metricsAt id

/-- The threads that are scheduled once the query upwards is answered, or has failed. -/
def scheduledIds (threadId : ι) (rows : Option (List (ThreadNode ι))) : List ι :=
  (rows.map (·.map ThreadNode.id)).getD [threadId]

def World.schedule (w : World ι) (threadId : ι) (rows : Option (List (ThreadNode ι))) : World ι :=
  { w with
    gateway := w.gateway.scheduleThreadAndAncestorsMetrics threadId rows
    owed := w.owed.filter fun id => id ∉ scheduledIds threadId rows }

def World.start (db : Tables ι) (io : Bool) : World ι where
  db
  gateway := ⟨io, .empty, false⟩
  lookups := []
  flushes := []
  shown := fun _ => none
  owed := db.threads.rows.map ThreadNode.id
  history := [db]

def step (w : World ι) : Action ι → Option (World ι)
  | .change db =>
    some { w with db, owed := w.owed ++ changed w.db db, history := w.history ++ [db] }
  | .attach => some { w with gateway := { w.gateway with io := true } }
  | .threadMetrics threadId => some (w.schedule threadId none)
  | .threadMetricsAncestors threadId => some { w with lookups := w.lookups ++ [threadId] }
  | .lookedUp i available =>
    w.lookups[i]?.map fun threadId =>
      { w with lookups := w.lookups.eraseIdx i }.schedule threadId
        (if available then w.db.ancestorRows threadId else none)
  | .fire =>
    if w.gateway.metricsTimer then
      let flushed := w.gateway.flushMetricsQueue
      some { w with
        gateway := flushed.1
        flushes := w.flushes ++ flushed.2.toList.map fun ids => ⟨ids, none⟩ }
    else none
  | .read i available =>
    match w.flushes[i]? with
    | some ⟨ids, none⟩ =>
      some { w with flushes :=
        w.flushes.set i ⟨ids, some (if available then w.db.answer ids else .empty)⟩ }
    | _ => none
  | .emit i =>
    match w.flushes[i]? with
    | some ⟨ids, some map⟩ =>
      some { w with
        flushes := w.flushes.eraseIdx i
        shown := emitMetrics w.shown map ids }
    | _ => none

/-- What a step does; the flushes are split where one of them is answered or sent. -/
inductive Steps (w : World ι) : Action ι → World ι → Prop
  | change (db : Tables ι) :
    Steps w (.change db)
      { w with db, owed := w.owed ++ changed w.db db, history := w.history ++ [db] }
  | attach : Steps w .attach { w with gateway := { w.gateway with io := true } }
  | threadMetrics (threadId : ι) : Steps w (.threadMetrics threadId) (w.schedule threadId none)
  | threadMetricsAncestors (threadId : ι) :
    Steps w (.threadMetricsAncestors threadId) { w with lookups := w.lookups ++ [threadId] }
  | lookedUp {i threadId lookups rows} (available : Bool) (hi : w.lookups[i]? = some threadId)
    (hrows : rows = if available then w.db.ancestorRows threadId else none) :
    Steps w (.lookedUp i available) ({ w with lookups }.schedule threadId rows)
  | fire {flushes} (htimer : w.gateway.metricsTimer = true)
    (hflushes : flushes = [] ∧ (w.gateway.io = false ∨ w.gateway.pendingThreads.keys = []) ∨
      flushes = [⟨w.gateway.pendingThreads.keys, none⟩]) :
    Steps w .fire { w with
      gateway := ⟨w.gateway.io, .empty, false⟩
      flushes := w.flushes ++ flushes }
  | read {pre post ids} (available : Bool) (hflushes : w.flushes = pre ++ ⟨ids, none⟩ :: post) :
    Steps w (.read pre.length available) { w with
      flushes := pre ++ ⟨ids, some (if available then w.db.answer ids else .empty)⟩ :: post }
  | emit {pre post ids map} (hflushes : w.flushes = pre ++ ⟨ids, some map⟩ :: post) :
    Steps w (.emit pre.length) { w with
      flushes := pre ++ post
      shown := emitMetrics w.shown map ids }

variable {w w' : World ι} {a : Action ι}

theorem exists_split {α : Type} {l : List α} {i : ℕ} {x : α} (h : l[i]? = some x) :
    ∃ pre post, l = pre ++ x :: post ∧ pre.length = i := by
  obtain ⟨hi, rfl⟩ := List.getElem?_eq_some_iff.mp h
  refine ⟨l.take i, l.drop (i + 1), ?_, List.length_take_of_le (by omega)⟩
  rw [List.getElem_cons_drop, List.take_append_drop]

theorem steps_of_step (h : step w a = some w') : Steps w a w' := by
  cases a <;> simp only [step] at h
  case change db => exact Option.some.inj h ▸ .change db
  case attach => exact Option.some.inj h ▸ .attach
  case threadMetrics threadId => exact Option.some.inj h ▸ .threadMetrics threadId
  case threadMetricsAncestors threadId => exact Option.some.inj h ▸ .threadMetricsAncestors threadId
  case lookedUp i available =>
    obtain ⟨threadId, hi, rfl⟩ := Option.map_eq_some_iff.mp h
    exact .lookedUp available hi rfl
  case fire =>
    split_ifs at h with htimer
    obtain rfl := Option.some.inj h
    refine .fire htimer ?_
    by_cases hskip : w.gateway.io = false ∨ w.gateway.pendingThreads.keys = []
    · exact .inl ⟨by simp [Gateway.flushMetricsQueue, hskip], hskip⟩
    · exact .inr (by simp [Gateway.flushMetricsQueue, hskip])
  case read i available =>
    split at h
    · rename_i ids hi
      obtain rfl := Option.some.inj h
      obtain ⟨pre, post, hflushes, rfl⟩ := exists_split hi
      rw [hflushes, List.set_append_right _ _ (Nat.le_refl _), Nat.sub_self, List.set_cons_zero]
      exact .read available hflushes
    · exact absurd h.symm (Option.some_ne_none w')
  case emit i =>
    split at h
    · rename_i ids map hi
      obtain rfl := Option.some.inj h
      obtain ⟨pre, post, hflushes, rfl⟩ := exists_split hi
      rw [hflushes, List.eraseIdx_append_of_length_le (Nat.le_refl _), Nat.sub_self,
        List.eraseIdx_cons_zero]
      exact .emit hflushes
    · exact absurd h.symm (Option.some_ne_none w')

theorem schedule_eq (g : Gateway ι) (threadId : ι) (rows : Option (List (ThreadNode ι))) :
    g.scheduleThreadAndAncestorsMetrics threadId rows =
      (scheduledIds threadId rows).foldl Gateway.scheduleThreadMetrics g := by
  cases rows with
  | none => rfl
  | some rows => exact (List.foldl_map ..).symm

theorem scheduleThreadMetrics_eq (g : Gateway ι) (id : ι) :
    g.scheduleThreadMetrics id = ⟨g.io, g.pendingThreads.add id, true⟩ := by
  obtain ⟨io, pendingThreads, metricsTimer⟩ := g
  cases metricsTimer <;> rfl

/-- The timer runs exactly while a thread waits for it. -/
def Gateway.Timed (g : Gateway ι) : Prop :=
  g.metricsTimer = true ↔ ∃ id, id ∈ g.pendingThreads.keys

theorem Gateway.Timed.scheduleThreadMetrics (g : Gateway ι) (id : ι) :
    (g.scheduleThreadMetrics id).Timed := by
  rw [scheduleThreadMetrics_eq]
  exact iff_of_true rfl ⟨id, (InsSet.mem_keys_add _ _ _).mpr (.inl rfl)⟩

theorem Gateway.Timed.schedule {g : Gateway ι} (h : g.Timed) (threadId : ι)
    (rows : Option (List (ThreadNode ι))) :
    (g.scheduleThreadAndAncestorsMetrics threadId rows).Timed := by
  rw [schedule_eq]
  induction scheduledIds threadId rows generalizing g with
  | nil => exact h
  | cons id ids ih => exact ih (Gateway.Timed.scheduleThreadMetrics g id)

theorem mem_schedule (g : Gateway ι) (threadId id : ι) (rows : Option (List (ThreadNode ι))) :
    id ∈ (g.scheduleThreadAndAncestorsMetrics threadId rows).pendingThreads.keys ↔
      id ∈ scheduledIds threadId rows ∨ id ∈ g.pendingThreads.keys := by
  rw [schedule_eq]
  induction scheduledIds threadId rows generalizing g with
  | nil => simp
  | cons id' ids ih =>
    rw [List.foldl_cons, ih, scheduleThreadMetrics_eq, InsSet.mem_keys_add, List.mem_cons]
    tauto

theorem timed_of_steps (h : Steps w a w') (hw : w.gateway.Timed) : w'.gateway.Timed := by
  cases h with
  | change => exact hw
  | attach => exact hw
  | threadMetrics threadId => exact hw.schedule threadId none
  | threadMetricsAncestors => exact hw
  | lookedUp => exact hw.schedule _ _
  | fire => exact iff_of_false Bool.false_ne_true fun ⟨_, hid⟩ => List.not_mem_nil hid
  | read => exact hw
  | emit => exact hw

theorem emitMetrics_apply (shown : ι → Option Shown) (map : InsMap ι Metrics) (ids : List ι)
    (id : ι) : emitMetrics shown map ids id =
      if id ∈ ids then ((map.get id).map toShown).or (shown id) else shown id := by
  unfold emitMetrics
  induction ids generalizing shown with
  | nil => rfl
  | cons id' ids ih =>
    rw [List.foldl_cons, ih]
    by_cases heq : id = id'
    · subst heq
      cases hget : map.get id <;> simp
    · cases hget : map.get id' <;> simp [heq, Function.update_of_ne]

/-- Answers, and what was sent, are metrics that the thread had in one of the databases. -/
structure Sent (w : World ι) : Prop where
  db : w.db ∈ w.history
  ids : ∀ f ∈ w.flushes, f.ids.Nodup
  map : ∀ f ∈ w.flushes, ∀ map ∈ f.map, ∀ id m, map.get id = some m →
    ∃ d ∈ w.history, d.metricsAt id = some m
  shown : ∀ id s, w.shown id = some s →
    ∃ d ∈ w.history, ∃ m, d.metricsAt id = some m ∧ toShown m = s

theorem sent_start (db : Tables ι) (io : Bool) : Sent (World.start db io) where
  db := List.mem_singleton_self db
  ids := fun _ hf => absurd hf List.not_mem_nil
  map := fun _ hf => absurd hf List.not_mem_nil
  shown := fun _ s hs => absurd hs.symm (Option.some_ne_none s)

theorem Sent.change (h : Sent w) (db : Tables ι) (owed : List ι) :
    Sent { w with db, owed, history := w.history ++ [db] } where
  db := List.mem_append_right _ (List.mem_singleton_self db)
  ids := h.ids
  map := fun f hf map hmap id m hm =>
    (h.map f hf map hmap id m hm).imp fun _ hd => ⟨List.mem_append_left _ hd.1, hd.2⟩
  shown := fun id s hs =>
    (h.shown id s hs).imp fun _ hd => ⟨List.mem_append_left _ hd.1, hd.2⟩

theorem sent_of_steps (h : Steps w a w') (hw : Sent w) : Sent w' := by
  cases h with
  | change db => exact hw.change db _
  | attach => exact ⟨hw.db, hw.ids, hw.map, hw.shown⟩
  | threadMetrics => exact ⟨hw.db, hw.ids, hw.map, hw.shown⟩
  | threadMetricsAncestors => exact ⟨hw.db, hw.ids, hw.map, hw.shown⟩
  | lookedUp => exact ⟨hw.db, hw.ids, hw.map, hw.shown⟩
  | @fire flushes _ hflushes =>
    have hnew : ∀ f ∈ flushes, f = ⟨w.gateway.pendingThreads.keys, none⟩ := by
      obtain ⟨rfl, -⟩ | rfl := hflushes
      · exact fun f hf => absurd hf List.not_mem_nil
      · exact fun f => List.mem_singleton.mp
    refine ⟨hw.db, fun f hf => ?_, fun f hf map hmap => ?_, hw.shown⟩
    · obtain hf | hf := List.mem_append.mp hf
      · exact hw.ids f hf
      · rw [hnew f hf]
        exact InsSet.keys_nodup _
    · obtain hf | hf := List.mem_append.mp hf
      · exact hw.map f hf map hmap
      · rw [hnew f hf] at hmap
        exact absurd hmap.symm (Option.some_ne_none map)
  | @read pre post ids available hflushes =>
    have hold : ∀ f ∈ pre ++ ⟨ids, none⟩ :: post, f ∈ w.flushes := fun f => hflushes ▸ id
    have hrest : ∀ f ∈ pre ++ post, f ∈ w.flushes := fun f hf =>
      hold f (by simp only [List.mem_append, List.mem_cons] at hf ⊢; tauto)
    have hids := hw.ids _ (hold ⟨ids, none⟩ (by simp))
    refine ⟨hw.db, fun f hf => ?_, fun f hf map hmap id m hm => ?_, hw.shown⟩ <;>
      obtain rfl | hf := (List.mem_cons.mp (List.perm_middle.mem_iff.mp hf))
    · exact hids
    · exact hw.ids f (hrest f hf)
    · obtain rfl := Option.some.inj hmap
      cases available with
      | true => exact ⟨w.db, hw.db, metricsAt_of_answer hids hm⟩
      | false => exact absurd hm.symm (Option.some_ne_none m)
    · exact hw.map f (hrest f hf) map hmap id m hm
  | @emit pre post ids map hflushes =>
    have hold : ∀ f ∈ pre ++ ⟨ids, some map⟩ :: post, f ∈ w.flushes := fun f => hflushes ▸ id
    have hrest : ∀ f ∈ pre ++ post, f ∈ w.flushes := fun f hf =>
      hold f (by simp only [List.mem_append, List.mem_cons] at hf ⊢; tauto)
    refine ⟨hw.db, fun f hf => hw.ids f (hrest f hf), fun f hf => hw.map f (hrest f hf),
      fun id s hs => ?_⟩
    have hs := (emitMetrics_apply w.shown map ids id).symm.trans hs
    split_ifs at hs with hmem
    · cases hget : map.get id with
      | none =>
        rw [hget] at hs
        exact hw.shown id s hs
      | some m =>
        rw [hget] at hs
        obtain ⟨d, hd, hm⟩ := hw.map _ (hold ⟨ids, some map⟩ (by simp)) map rfl id m hget
        exact ⟨d, hd, m, hm, Option.some.inj hs⟩
    · exact hw.shown id s hs

/-- In every run the timer runs exactly while a thread waits for it, and whatever a room is told
are metrics that its thread had at some time, also when they were read for many threads at once. -/
theorem sent_of_reached {db : Tables ι} {io : Bool}
    (h : Reached step (fun _ _ => True) (World.start db io) w) : w.gateway.Timed ∧ Sent w := by
  induction h with
  | init =>
    exact ⟨iff_of_false Bool.false_ne_true fun ⟨_, hid⟩ => List.not_mem_nil hid, sent_start db io⟩
  | step a _ _ hstep ih =>
    have hsteps := steps_of_step hstep
    exact ⟨timed_of_steps hsteps ih.1, sent_of_steps hsteps ih.2⟩

/-- The query succeeds: a thread that has metrics when it is asked for alone is answered for. -/
def Answers (db : Tables ι) (ids : List ι) : Prop :=
  ∀ id ∈ ids, db.metricsAt id ≠ none → (db.answer ids).get id ≠ none

instance (db : Tables ι) (ids : List ι) : Decidable (Answers db ids) :=
  inferInstanceAs (Decidable (∀ id ∈ ids, _ ≠ _ → _ ≠ _))

/-- The gateway is attached when the timer fires, no query for metrics fails, and no answer is
sent before that of an earlier flush with a thread in common. -/
def InOrder (w : World ι) : Action ι → Prop
  | .fire => w.gateway.io = true
  | .read i available => available = true ∧ ∀ f, w.flushes[i]? = some f → Answers w.db f.ids
  | .emit i => ∀ f, w.flushes[i]? = some f → ∀ g ∈ w.flushes.take i, ∀ id ∈ f.ids, id ∉ g.ids
  | _ => True

/-- The rooms of a thread were told the metrics that it has. -/
def Right (db : Tables ι) (shown : ι → Option Shown) (id : ι) : Prop :=
  ∀ m, db.metricsAt id = some m → shown id = some (toShown m)

def lastFlush (flushes : List (Flush ι)) (id : ι) : Option (Flush ι) :=
  (flushes.filter fun f => id ∈ f.ids).getLast?

/-- The rooms are right once the last flush is sent: it has yet to be answered, or its answer is
still what the thread has. -/
def Coming (db : Tables ι) (shown : ι → Option Shown) (id : ι) : Option (Flush ι) → Prop
  | none => Right db shown id
  | some ⟨_, none⟩ => True
  | some ⟨_, some map⟩ => ∀ m, db.metricsAt id = some m → map.get id = some m

/-- A thread that is not owed waits for the timer or for a flush, or its rooms are right. -/
def Settled (w : World ι) : Prop :=
  ∀ id, id ∉ w.owed →
    id ∈ w.gateway.pendingThreads.keys ∨ Coming w.db w.shown id (lastFlush w.flushes id)

theorem lastFlush_append (fs gs : List (Flush ι)) (id : ι) :
    lastFlush (fs ++ gs) id = (lastFlush gs id).or (lastFlush fs id) := by
  rw [lastFlush, List.filter_append, List.getLast?_append]
  rfl

theorem lastFlush_singleton (f : Flush ι) (id : ι) :
    lastFlush [f] id = if id ∈ f.ids then some f else none := by
  unfold lastFlush
  by_cases hid : id ∈ f.ids <;> simp [hid]

theorem lastFlush_split (pre post : List (Flush ι)) (f : Flush ι) (id : ι) :
    lastFlush (pre ++ f :: post) id =
      (lastFlush post id).or ((if id ∈ f.ids then some f else none).or (lastFlush pre id)) := by
  rw [← List.singleton_append, ← List.append_assoc, lastFlush_append, lastFlush_append,
    lastFlush_singleton]

theorem lastFlush_eq_none {fs : List (Flush ι)} {id : ι} (h : ∀ f ∈ fs, id ∉ f.ids) :
    lastFlush fs id = none := by
  rw [lastFlush, List.filter_eq_nil_iff.mpr fun f hf => by simpa using h f hf]
  rfl

theorem mem_changed {db db' : Tables ι} {id : ι} :
    id ∈ changed db db' ↔ db'.metricsAt id ≠ db.metricsAt id := by
  rw [changed, List.mem_filter, decide_eq_true_iff, and_iff_right_iff_imp]
  intro hne
  by_contra hmem
  rw [List.map_append, List.mem_append, not_or] at hmem
  exact hne ((metricsAt_eq_none hmem.2).trans (metricsAt_eq_none hmem.1).symm)

theorem coming_congr {db db' : Tables ι} {shown : ι → Option Shown} {id : ι}
    (h : db'.metricsAt id = db.metricsAt id) (last : Option (Flush ι)) :
    Coming db' shown id last ↔ Coming db shown id last := by
  obtain _ | ⟨ids, _ | map⟩ := last <;> simp only [Coming, Right, h]

theorem settled_start (db : Tables ι) (io : Bool) : Settled (World.start db io) := by
  refine fun id hid => .inr fun m hm => ?_
  exact absurd (mem_of_answer hm).2 hid

theorem Settled.schedule (h : Settled w) (threadId : ι) (rows : Option (List (ThreadNode ι))) :
    Settled (w.schedule threadId rows) := by
  intro id hid
  by_cases hscheduled : id ∈ scheduledIds threadId rows
  · exact .inl ((mem_schedule _ _ _ _).mpr (.inl hscheduled))
  · have howed : id ∉ w.owed := fun hmem =>
      hid (List.mem_filter.mpr ⟨hmem, decide_eq_true hscheduled⟩)
    exact (h id howed).imp_left fun hmem => (mem_schedule _ _ _ _).mpr (.inr hmem)

variable {db : Tables ι} {shown : ι → Option Shown} {pre post : List (Flush ι)} {ids : List ι}
  {id : ι}

/-- The answer of a flush is what its threads have when it is read. -/
theorem coming_read (hids : ids.Nodup) (hanswers : Answers db ids)
    (h : Coming db shown id (lastFlush (pre ++ ⟨ids, none⟩ :: post) id)) :
    Coming db shown id (lastFlush (pre ++ ⟨ids, some (db.answer ids)⟩ :: post) id) := by
  rw [lastFlush_split] at h ⊢
  cases hlast : lastFlush post id with
  | some f => rwa [hlast] at h
  | none =>
    rw [hlast, Option.none_or] at h
    rw [Option.none_or]
    by_cases hmem : id ∈ ids
    · rw [if_pos hmem, Option.some_or]
      intro m hm
      obtain ⟨m', hm'⟩ := Option.ne_none_iff_exists'.mp
        (hanswers id hmem (hm ▸ Option.some_ne_none m))
      exact (hm.symm.trans (metricsAt_of_answer hids hm')) ▸ hm'
    · rwa [if_neg hmem] at h ⊢

/-- The first flush with a thread leaves its rooms to the flushes after it, or is the last. -/
theorem coming_emit {map : InsMap ι Metrics} (hfirst : ∀ g ∈ pre, ∀ id ∈ ids, id ∉ g.ids)
    (h : Coming db shown id (lastFlush (pre ++ ⟨ids, some map⟩ :: post) id)) :
    Coming db (emitMetrics shown map ids) id (lastFlush (pre ++ post) id) := by
  rw [lastFlush_split] at h
  rw [lastFlush_append]
  cases hlast : lastFlush post id with
  | some f =>
    rw [hlast] at h
    obtain ⟨ids', _ | map'⟩ := f
    · trivial
    · exact h
  | none =>
    rw [hlast, Option.none_or] at h
    rw [Option.none_or]
    by_cases hmem : id ∈ ids
    · rw [if_pos hmem, Option.some_or] at h
      rw [lastFlush_eq_none fun g hg => hfirst g hg id hmem]
      intro m hm
      rw [emitMetrics_apply, if_pos hmem, h m hm]
      rfl
    · rw [if_neg hmem, Option.none_or] at h
      obtain ⟨last, hlast⟩ : ∃ last, lastFlush pre id = last := ⟨_, rfl⟩
      rw [hlast] at h ⊢
      obtain _ | ⟨ids', _ | map'⟩ := last
      · intro m hm
        rw [emitMetrics_apply, if_neg hmem, h m hm]
      · trivial
      · exact h

theorem settled_of_steps (h : Steps w a w') (hok : InOrder w a)
    (hids : ∀ f ∈ w.flushes, f.ids.Nodup) (hw : Settled w) : Settled w' := by
  cases h with
  | change db =>
    intro id hid
    obtain ⟨howed, hsame⟩ := not_or.mp (mt List.mem_append.mpr hid)
    have hsame := not_not.mp (mt mem_changed.mpr hsame)
    exact (hw id howed).imp_right (coming_congr hsame _).mpr
  | attach => exact hw
  | threadMetrics threadId => exact hw.schedule threadId none
  | threadMetricsAncestors => exact hw
  | lookedUp => exact Settled.schedule hw _ _
  | fire _ hflushes =>
    refine fun id hid => .inr ?_
    obtain ⟨rfl, hio | hnil⟩ | rfl := hflushes
    · exact absurd (hok.symm.trans hio) Bool.true_eq_false_eq_False
    · rw [List.append_nil]
      exact (hw id hid).resolve_left (hnil ▸ List.not_mem_nil)
    · rw [lastFlush_append, lastFlush_singleton]
      split_ifs with hpending
      · trivial
      · exact (hw id hid).resolve_left hpending
  | @read pre post ids available hflushes =>
    obtain ⟨rfl, hanswers⟩ := hok
    have hnodup := hids ⟨ids, none⟩ (by simp [hflushes])
    have hanswers := hanswers ⟨ids, none⟩ (by simp [hflushes])
    exact fun id hid => (hw id hid).imp_right fun hcoming =>
      coming_read hnodup hanswers (hflushes ▸ hcoming)
  | @emit pre post ids map hflushes =>
    have hfirst := hok ⟨ids, some map⟩ (by simp [hflushes])
    rw [hflushes, List.take_left] at hfirst
    exact fun id hid => (hw id hid).imp_right fun hcoming =>
      coming_emit hfirst (hflushes ▸ hcoming)

theorem settled_of_reached {io : Bool} (h : Reached step InOrder (World.start db io) w) :
    Settled w ∧ Sent w := by
  induction h with
  | init => exact ⟨settled_start db io, sent_start db io⟩
  | step a _ hok hstep ih =>
    have hsteps := steps_of_step hstep
    exact ⟨settled_of_steps hsteps hok ih.2.ids ih.1, sent_of_steps hsteps ih.2⟩

/-- In a run in order, once neither the timer nor a flush has a thread any more, its rooms have
been told the metrics that it has, unless it was not scheduled since they changed. -/
theorem right_of_reached {io : Bool} (h : Reached step InOrder (World.start db io) w)
    (howed : id ∉ w.owed) (hpending : id ∉ w.gateway.pendingThreads.keys)
    (hflushes : ∀ f ∈ w.flushes, id ∉ f.ids) {m : Metrics} (hm : w.db.metricsAt id = some m) :
    w.shown id = some (toShown m) := by
  have hcoming := ((settled_of_reached h).1 id howed).resolve_left hpending
  rw [lastFlush_eq_none hflushes] at hcoming
  exact hcoming m hm

/-- A change of one thread leaves nothing owed once the thread is scheduled with the ones above. -/
theorem owed_of_touches {threadId : ι} {rows : List (ThreadNode ι)}
    (h : Touches w.db db threadId) (hrows : db.ancestorRows threadId = some rows)
    (hstep : step w (.change db) = some w') : (w'.schedule threadId (some rows)).owed ⊆ w.owed := by
  obtain rfl := Option.some.inj hstep
  intro id hid
  obtain ⟨hmem, hnot⟩ := List.mem_filter.mp hid
  refine (List.mem_append.mp hmem).resolve_right fun hchanged => of_decide_eq_true hnot ?_
  exact h.ancestor_of_changed hrows (mem_changed.mp hchanged)

def childBegins : List (Action ℕ) :=
  [.change (withChild [⟨2, .running⟩]), .threadMetricsAncestors 2, .lookedUp 0 true, .fire,
    .read 0 true, .emit 0]

theorem childBegins_runs :
    (runFrom step (World.start (withChild []) true) childBegins).isSome = true := by
  decide

def childBegun : World ℕ :=
  (runFrom step (World.start (withChild []) true) childBegins).get childBegins_runs

theorem right_of_reached_childBegun :
    childBegun.shown 1 = some (toShown ⟨0, 0, .waiting⟩) := by
  have hmeets : StepsMeet step InOrder (World.start (withChild []) true) childBegins := ?_
  · exact right_of_reached (Reached.init.run hmeets (Option.some_get childBegins_runs).symm)
      (by decide) (by decide) (by decide) (by decide)
  refine .cons trivial rfl (.cons trivial rfl (.cons trivial rfl (.cons rfl rfl
    (.cons ⟨rfl, fun f hf => ?_⟩ rfl (.cons ?_ rfl trivial)))))
  · obtain rfl : ⟨[2, 1], none⟩ = f := Option.some.inj hf
    decide
  · exact fun f _ g hg => absurd hg List.not_mem_nil

theorem sent_of_reached_childBegun : childBegun.gateway.Timed ∧ Sent childBegun :=
  sent_of_reached (Reached.of_run (Option.some_get childBegins_runs).symm)

def Skips (id : ι) (w : World ι) : Action ι → Prop
  | .threadMetrics threadId => threadId ≠ id
  | .lookedUp i available => ∀ threadId, w.lookups[i]? = some threadId →
      id ∉ scheduledIds threadId (if available then w.db.ancestorRows threadId else none)
  | _ => True

/-- While only other threads are scheduled no flush asks for the thread, so that its rooms hear
nothing, whatever changes. -/
theorem shown_of_skips {w₀ : World ι} (h : Reached step (Skips id) w₀ w)
    (hpending : id ∉ w₀.gateway.pendingThreads.keys) (hflushes : ∀ f ∈ w₀.flushes, id ∉ f.ids) :
    id ∉ w.gateway.pendingThreads.keys ∧ (∀ f ∈ w.flushes, id ∉ f.ids) ∧
      w.shown id = w₀.shown id := by
  induction h with
  | init => exact ⟨hpending, hflushes, rfl⟩
  | step a _ hok hstep ih =>
    obtain ⟨hpending, hflushes, hshown⟩ := ih
    cases steps_of_step hstep with
    | change => exact ⟨hpending, hflushes, hshown⟩
    | attach => exact ⟨hpending, hflushes, hshown⟩
    | threadMetrics threadId =>
      refine ⟨fun hmem => ?_, hflushes, hshown⟩
      obtain hmem | hmem := (mem_schedule _ _ _ _).mp hmem
      · exact hok (List.mem_singleton.mp hmem).symm
      · exact hpending hmem
    | threadMetricsAncestors => exact ⟨hpending, hflushes, hshown⟩
    | lookedUp available hi hrows =>
      refine ⟨fun hmem => ?_, hflushes, hshown⟩
      obtain hmem | hmem := (mem_schedule _ _ _ _).mp hmem
      · exact hok _ hi (hrows ▸ hmem)
      · exact hpending hmem
    | fire _ hnew =>
      refine ⟨List.not_mem_nil, fun f hf => ?_, hshown⟩
      obtain hf | hf := List.mem_append.mp hf
      · exact hflushes f hf
      · obtain ⟨rfl, -⟩ | rfl := hnew
        · exact absurd hf List.not_mem_nil
        · exact List.mem_singleton.mp hf ▸ hpending
    | @read pre post ids available hsplit =>
      refine ⟨hpending, fun f hf => ?_, hshown⟩
      obtain rfl | hf := List.mem_cons.mp (List.perm_middle.mem_iff.mp hf)
      · exact hflushes ⟨ids, none⟩ (by simp [hsplit])
      · refine hflushes f ?_
        rw [hsplit, List.perm_middle.mem_iff]
        exact List.mem_cons_of_mem _ hf
    | @emit pre post ids map hsplit =>
      refine ⟨hpending, fun f hf => hflushes f ?_, ?_⟩
      · rw [hsplit, List.perm_middle.mem_iff]
        exact List.mem_cons_of_mem _ hf
      · have hnot := hflushes ⟨ids, some map⟩ (by simp [hsplit])
        exact (emitMetrics_apply _ map ids id).trans ((if_neg hnot).trans hshown)

def childEnds : List (Action ℕ) :=
  [.change (withChild [⟨2, .finished⟩]), .threadMetrics 2, .fire, .read 0 true, .emit 0]

theorem childEnds_runs : (runFrom step childBegun childEnds).isSome = true := by
  decide

def childEnded : World ℕ := (runFrom step childBegun childEnds).get childEnds_runs

theorem shown_of_skips_childEnded :
    childEnded.shown 1 = childBegun.shown 1 ∧
      childEnded.db.metricsAt 1 = some ⟨0, 0, .idle⟩ := by
  have hmeets : StepsMeet step (Skips 1) childBegun childEnds := ?_
  · have hskips := shown_of_skips (Reached.init.run hmeets (Option.some_get childEnds_runs).symm)
      (by decide) (by decide)
    exact ⟨hskips.2.2, by decide⟩
  exact .cons trivial rfl (.cons (Nat.succ_ne_self 1) rfl (.cons trivial rfl (.cons trivial rfl
    (.cons trivial rfl trivial))))

end Agyn.MetricsQueue
