import Agyn.ContainerEventProcessor

/-!
What events do to the row of a container. An event is applied unless one with a newer timestamp
was delivered before it or had changed the row at first, so what a delivery order leaves is what
the other events leave in the order of their timestamps. Field by field the status, the reason and
the metadata keep what the last event of a kind wrote, and the thread is the first one that is
known; so events that come again at once, with the reasons that they had, change nothing.
-/
namespace Agyn.ContainerEventProcessor

open ContainerEvents ContainerRegistry

variable (validateUuid : String → Bool)

abbrev Known := ContainerRow × Option ℤ

def Tracked.known (t : Tracked) : Option Known := t.container.map fun row => (row, t.lastOom)

def applyEvent (row : ContainerRow) (event : ContainerEvent) (reason : ContainerEventReason) :
    ContainerRow :=
  (updateData validateUuid row event reason).apply row

theorem applyEvent_metadata (row : ContainerRow) (event : ContainerEvent)
    (reason : ContainerEventReason) :
    (applyEvent validateUuid row event reason).metadata = nextMetadata row.metadata event := by
  simp only [applyEvent, updateData, ContainerUpdate.apply]
  split_ifs with h
  · rfl
  · exact (not_not.mp h).symm

def Known.update (k : Known) (event : ContainerEvent) : Known :=
  (applyEvent validateUuid k.1 event (reasonOf event k.2), nextOom event k.2)

def lastEventMark (row : ContainerRow) : WithBot ℤ :=
  row.metadata.lastEventAt.elim ⊥ WithBot.some

def highWater : HighWater Known ContainerEvent ℤ where
  time := ContainerEvent.timestampMs
  mark k := lastEventMark k.1
  apply := Known.update validateUuid
  mark_apply k event := by
    rw [lastEventMark, Known.update, applyEvent_metadata]
    rfl

theorem isStale_iff (k : Known) (event : ContainerEvent) :
    isStale k.1 event = true ↔ (highWater validateUuid).Stale k event := by
  simp only [isStale, HighWater.Stale, highWater, lastEventMark]
  cases k.1.metadata.lastEventAt with
  | none => simp
  | some last => exact decide_eq_true_iff.trans WithBot.coe_lt_coe.symm

theorem known_handle (t : Tracked) (event : ContainerEvent) :
    (t.handle validateUuid event).known =
      t.known.map fun k => (highWater validateUuid).step k event := by
  unfold Tracked.handle Tracked.known
  cases hrow : t.container with
  | none =>
    dsimp only
    split_ifs <;> simp [hrow]
  | some row =>
    simp only [Option.map_some, HighWater.step, ← isStale_iff validateUuid (row, t.lastOom)]
    split_ifs with h
    · simp
    · rfl

theorem known_foldl (t : Tracked) (events : List ContainerEvent) :
    (events.foldl (Tracked.handle validateUuid) t).known =
      t.known.map fun k => (highWater validateUuid).run k events := by
  induction events generalizing t with
  | nil => simp [HighWater.run]
  | cons event events ih =>
    rw [List.foldl_cons, ih, known_handle, Option.map_map]
    rfl

def eventsOf (id : String) (ds : List Delivery) : List ContainerEvent :=
  (ds.filterMap Delivery.parsed).filter fun event => event.dockerId = id

theorem process_container (s : Processor) (id : String) (ds : List Delivery) :
    process validateUuid s ds id =
      (eventsOf id ds).foldl (Tracked.handle validateUuid) (s id) := by
  induction ds generalizing s with
  | nil => rfl
  | cons d ds ih =>
    rw [process, List.foldl_cons, ← process, ih, eventsOf, eventsOf, List.filterMap_cons]
    unfold handle
    cases d.parsed with
    | none => rfl
    | some event =>
      dsimp only
      by_cases h : event.dockerId = id
      · rw [List.filter_cons_of_pos (by simpa using h), List.foldl_cons, ← h,
          Function.update_self]
      · rw [List.filter_cons_of_neg (by simpa using h), Function.update_of_ne (Ne.symm h)]

/-- The row after deliveries. -/
theorem process_row (s : Processor) (id : String) (ds : List Delivery) :
    (process validateUuid s ds id).container =
      ((s id).known.map fun k => (highWater validateUuid).run k (eventsOf id ds)).map Prod.fst := by
  rw [← known_foldl, ← process_container, Tracked.known, Option.map_map]
  exact Option.map_id'.symm

def Delivery.timestampMs (d : Delivery) : ℤ := d.event.eventTimestampMs d.now

def Delivery.IsEventOf (id : String) (d : Delivery) : Prop :=
  ∃ event, d.parsed = some event ∧ event.dockerId = id

theorem timestampMs_parsed {d : Delivery} {event : ContainerEvent} (h : d.parsed = some event) :
    event.timestampMs = d.timestampMs := by
  simp only [Delivery.parsed, parse] at h
  split at h
  next =>
    split at h
    next => rw [← Option.some.inj h]; rfl
    next => cases h
  next => cases h

variable {id : String} {ds sorted : List Delivery}

theorem eventsOf_eq_filterMap (h : ∀ d ∈ ds, d.IsEventOf id) :
    eventsOf id ds = ds.filterMap Delivery.parsed := by
  rw [eventsOf, List.filter_eq_self]
  intro event hevent
  obtain ⟨d, hd, hparsed⟩ := List.mem_filterMap.mp hevent
  obtain ⟨event', hparsed', hid⟩ := h d hd
  obtain rfl : event = event' := Option.some.inj (hparsed.symm.trans hparsed')
  simpa using hid

theorem eventsOf_notOvertaken (h : ∀ d ∈ ds, d.IsEventOf id) :
    eventsOf id (notOvertaken Delivery.timestampMs [] ds) =
      notOvertaken ContainerEvent.timestampMs [] (eventsOf id ds) := by
  have hsub : (notOvertaken Delivery.timestampMs [] ds).Sublist ds := notOvertaken_sublist [] ds
  rw [eventsOf_eq_filterMap h, eventsOf_eq_filterMap fun d hd => h d (hsub.subset hd)]
  refine notOvertaken_filterMap fun d hd => ?_
  obtain ⟨event, hparsed, -⟩ := h d (by simpa using hd)
  exact ⟨event, hparsed, timestampMs_parsed hparsed⟩

def Predates (row : ContainerRow) (d : Delivery) : Prop :=
  ∃ last ∈ row.metadata.lastEventAt, d.timestampMs < last

instance (row : ContainerRow) (d : Delivery) : Decidable (Predates row d) :=
  inferInstanceAs (Decidable (∃ last ∈ row.metadata.lastEventAt, d.timestampMs < last))

/-- The deliveries that are not overtaken by one before them or by what the row was changed by. -/
def inEffect (row : ContainerRow) (ds : List Delivery) : List Delivery :=
  (notOvertaken Delivery.timestampMs [] ds).filter fun d => ¬ Predates row d

theorem stale_iff {k : Known} {d : Delivery} {event : ContainerEvent}
    (h : d.parsed = some event) : (highWater validateUuid).Stale k event ↔ Predates k.1 d := by
  rw [← isStale_iff, isStale, timestampMs_parsed h, Predates]
  cases k.1.metadata.lastEventAt <;> simp

theorem eventsOf_inEffect {k : Known} (h : ∀ d ∈ ds, d.IsEventOf id) :
    eventsOf id (inEffect k.1 ds) =
      (notOvertaken ContainerEvent.timestampMs [] (eventsOf id ds)).filter fun event =>
        ¬ (highWater validateUuid).Stale k event := by
  have hsub : (notOvertaken Delivery.timestampMs [] ds).Sublist ds := notOvertaken_sublist [] ds
  have hall : ∀ d ∈ notOvertaken Delivery.timestampMs [] ds, d.IsEventOf id :=
    fun d hd => h d (hsub.subset hd)
  rw [← eventsOf_notOvertaken h, eventsOf_eq_filterMap hall, inEffect,
    eventsOf_eq_filterMap fun d hd => hall d (List.mem_of_mem_filter hd),
    List.filter_filterMap, List.filterMap_filter]
  refine List.filterMap_congr fun d hd => ?_
  obtain ⟨event, hparsed, -⟩ := hall d hd
  simp only [hparsed, Option.filter_some, stale_iff validateUuid hparsed]

theorem mem_inEffect {row : ContainerRow} {d : Delivery} :
    d ∈ inEffect row ds ↔ ¬ Predates row d ∧
      ∃ pre post, ds = pre ++ d :: post ∧ ∀ d' ∈ pre, d'.timestampMs ≤ d.timestampMs := by
  rw [inEffect, List.mem_filter, mem_notOvertaken, and_comm]
  simp

/-- Every order in which the events of a container are delivered leaves the row that the events in
effect leave one after the other, in the order of their timestamps: those that are not older than
the last event of the row and before which none with a newer timestamp was delivered. -/
theorem row_out_of_order (s : Processor) {row : ContainerRow}
    (hrow : (s id).container = some row) (hevents : ∀ d ∈ ds, d.IsEventOf id)
    (hperm : ds.Perm sorted)
    (hsorted : sorted.Pairwise fun a b => a.timestampMs < b.timestampMs) :
    (process validateUuid s ds id).container =
        some ((eventsOf id (inEffect row ds)).foldl (Known.update validateUuid)
          (row, (s id).lastOom)).1 ∧
      (inEffect row ds).Sublist sorted ∧
      (∀ d, d ∈ inEffect row ds ↔ ¬ Predates row d ∧
        ∃ pre post, ds = pre ++ d :: post ∧ ∀ d' ∈ pre, d'.timestampMs ≤ d.timestampMs) ∧
      inEffect row sorted = sorted.filter (fun d => ¬ Predates row d) ∧
      (process validateUuid s ds id).container =
        (process validateUuid s (notOvertaken Delivery.timestampMs [] ds) id).container := by
  have hknown : (s id).known = some (row, (s id).lastOom) := by simp [Tracked.known, hrow]
  have hnotOvertaken : notOvertaken Delivery.timestampMs [] sorted = sorted :=
    notOvertaken_of_pairwise (by simp) (hsorted.imp le_of_lt)
  refine ⟨?_, ?_, fun _ => mem_inEffect, ?_, ?_⟩
  · rw [process_row, hknown, eventsOf_inEffect validateUuid (k := (row, (s id).lastOom)) hevents]
    simp only [Option.map_some, (highWater validateUuid).run_eq_foldl]
    rfl
  · exact List.filter_sublist.trans (notOvertaken_sublist_sorted hperm hsorted)
  · rw [inEffect, hnotOvertaken]
  · have hrun (k : Known) : (highWater validateUuid).run k
        (notOvertaken ContainerEvent.timestampMs [] (eventsOf id ds)) = _ :=
      (highWater validateUuid).run_notOvertaken
    rw [process_row, process_row, eventsOf_notOvertaken hevents]
    simp only [hrun]

def runningContainer : Processor := fun _ =>
  ⟨some ⟨"c1", "n1", none, "image", "w1", .running, 0, none, none, none, .empty⟩, none, []⟩

def deliveryOf (action : String) (time : ℤ) (attributes : List (String × String)) : Delivery :=
  ⟨⟨none, some action, some "container", some "c1", none, some time, none,
    some ⟨none, attributes⟩⟩, 0⟩

def exited : Delivery := deliveryOf "die" 1 [("exitCode", "0")]

def destroyed : Delivery := deliveryOf "destroy" 2 []

/-- A row as the registration of its container leaves it, with its time as the last event. -/
def registeredContainer : Processor := fun _ =>
  ⟨some ⟨"c1", "n1", none, "image", "w1", .running, 0, none, none, none,
    { ContainerMetadata.empty with lastEventAt := some 500 }⟩, none, []⟩

def killed : Delivery := deliveryOf "kill" 3 [("signal", "9")]

/-- The kill is applied, the removal and the exit that come after it are not. -/
theorem row_out_of_order_exit :
    (process (fun _ => false) registeredContainer [exited, killed, destroyed] "c1").container.map
        (fun row => (row.status, row.terminationReason, row.metadata.lastEventAt)) =
      some (.stopped, some (.event .sigkill), some 3000) := by
  have hevents : ∀ d ∈ [exited, killed, destroyed], d.IsEventOf "c1" := by
    simp only [List.forall_mem_cons]
    exact ⟨⟨_, rfl, rfl⟩, ⟨_, rfl, rfl⟩, ⟨_, rfl, rfl⟩, by simp⟩
  have hperm : [exited, killed, destroyed].Perm [exited, destroyed, killed] :=
    (List.Perm.swap destroyed killed []).cons exited
  have hsorted : [exited, destroyed, killed].Pairwise fun a b => a.timestampMs < b.timestampMs := by
    decide
  rw [(row_out_of_order (fun _ => false) registeredContainer rfl hevents hperm hsorted).1]
  decide

/-- The row of the container does not converge: the exit is lost. -/
theorem exit_lost :
    exited.timestampMs < destroyed.timestampMs ∧ exited.IsEventOf "c1" ∧
      destroyed.IsEventOf "c1" ∧
      (process (fun _ => false) runningContainer [exited, destroyed] "c1").container.map
        ContainerRow.status = some .stopped ∧
      (process (fun _ => false) runningContainer [destroyed, exited] "c1").container.map
        ContainerRow.status = some .running :=
  ⟨by decide, ⟨_, rfl, rfl⟩, ⟨_, rfl, rfl⟩, by decide, by decide⟩

/-- What an event does to the status and the reason of a row. -/
inductive StatusEffect where
  | set (status : ContainerStatus) (reason : Option TerminationReason)
  | kill (reason : TerminationReason)
  | stop (reason : TerminationReason)
  | keep

abbrev StatusAndReason := ContainerStatus × Option TerminationReason

def StatusEffect.apply (q : StatusAndReason) : StatusEffect → StatusAndReason
  | .set status reason => (status, reason)
  | .kill reason => (if q.1 = .running then .terminating else q.1, some reason)
  | .stop reason => if q.1 = .failed then q else (.stopped, some reason)
  | .keep => q

def effectOf (event : ContainerEvent) (reason : ContainerEventReason) : StatusEffect :=
  match event.eventType with
  | .create => .set .running none
  | .start => .set .running none
  | .restart => .set .running none
  | .oom => .set .failed (some (.event reason))
  | .die => .set ((statusForEvent .die reason).getD .failed) (some (.event reason))
  | .kill => .kill (.event reason)
  | .stop => .stop (.event reason)
  | .destroy => .keep
  | .healthStatus => .keep

def nextThreadId (stored candidate : Option String) : Option String :=
  (resolveThreadId validateUuid stored candidate).or stored

theorem nextStatus_getD (row : ContainerRow) (event : ContainerEvent)
    (reason : ContainerEventReason) :
    (nextStatus row event reason).getD row.status =
      ((effectOf event reason).apply (row.status, row.terminationReason)).1 := by
  unfold nextStatus effectOf
  cases event.eventType with
  | die =>
    unfold statusForEvent
    dsimp only
    split_ifs <;> cases row.status <;> rfl
  | kill => cases h : row.status <;> rfl
  | stop => cases h : row.status <;> rfl
  | _ => rfl

theorem nextReason_getD (row : ContainerRow) (event : ContainerEvent)
    (reason : ContainerEventReason) :
    (nextReason event reason (nextStatus row event reason).isSome).getD row.terminationReason =
      ((effectOf event reason).apply (row.status, row.terminationReason)).2 := by
  unfold nextReason nextStatus effectOf
  cases event.eventType with
  | stop => cases h : row.status <;> rfl
  | _ => rfl

/-- The fields of a row after an event. -/
theorem applyEvent_eq (row : ContainerRow) (event : ContainerEvent)
    (reason : ContainerEventReason) :
    applyEvent validateUuid row event reason = { row with
      status := ((effectOf event reason).apply (row.status, row.terminationReason)).1
      terminationReason := ((effectOf event reason).apply (row.status, row.terminationReason)).2
      dockerContainerId := event.dockerId
      threadId := nextThreadId validateUuid row.threadId event.threadId
      metadata := nextMetadata row.metadata event } := by
  have hmetadata := applyEvent_metadata validateUuid row event reason
  have hid : (if row.dockerContainerId ≠ event.dockerId then some event.dockerId
      else none).getD row.dockerContainerId = event.dockerId := by
    split_ifs with h
    · rfl
    · exact not_not.mp h
  have hthread : ((resolveThreadId validateUuid row.threadId event.threadId).filter
      (row.threadId ≠ some ·)).or row.threadId =
        nextThreadId validateUuid row.threadId event.threadId := by
    unfold nextThreadId
    cases resolveThreadId validateUuid row.threadId event.threadId with
    | none => rfl
    | some threadId =>
      by_cases h : row.threadId = some threadId
      · simp [Option.filter, h]
      · simp [Option.filter, h]
  simp only [applyEvent, updateData, ContainerUpdate.apply] at hmetadata ⊢
  rw [hmetadata, nextStatus_getD, nextReason_getD, hid, hthread]

theorem effects_absorbing : Absorbing StatusEffect.apply where
  idem q a := by
    cases a with
    | set status reason => rfl
    | kill reason => simp only [StatusEffect.apply]; split_ifs <;> simp_all
    | stop reason => simp only [StatusEffect.apply]; split_ifs <;> simp_all
    | keep => rfl
  congr q₁ q₂ a b h := by
    obtain ⟨status₁, reason₁⟩ := q₁
    obtain ⟨status₂, reason₂⟩ := q₂
    cases a with
    | set status reason => rfl
    | keep => exact congrArg (StatusEffect.apply · b) h
    | kill reason =>
      cases b with
      | set status reason => rfl
      | keep => exact h
      | kill reason' => cases status₁ <;> cases status₂ <;> simp_all [StatusEffect.apply]
      | stop reason' => cases status₁ <;> cases status₂ <;> simp_all [StatusEffect.apply]
    | stop reason =>
      cases b with
      | set status reason => rfl
      | keep => exact h
      | kill reason' => cases status₁ <;> cases status₂ <;> simp_all [StatusEffect.apply]
      | stop reason' => cases status₁ <;> cases status₂ <;> simp_all [StatusEffect.apply]

theorem metadata_absorbing : Absorbing nextMetadata where
  idem m a := by
    simp only [nextMetadata, ContainerMetadata.mk.injEq, true_and, and_true]
    constructor
    · split_ifs <;> rfl
    · split_ifs
      · cases a.health <;> rfl
      · rfl
  congr m₁ m₂ a b h := by
    simp only [nextMetadata, ContainerMetadata.mk.injEq] at h ⊢
    obtain ⟨httl, herror, hretry, hattempts, hclaim, hremoved, hhealth, -⟩ := h
    refine ⟨httl, herror, hretry, hattempts, hclaim, ?_, ?_, trivial⟩
    · split_ifs at hremoved ⊢ <;> simp_all
    · split_ifs at hhealth ⊢ <;> cases ha : a.health <;> simp_all

abbrev Applied := ContainerEvent × ContainerEventReason

def applyTo (row : ContainerRow) (a : Applied) : ContainerRow :=
  applyEvent validateUuid row a.1 a.2

/-- What an event does to a row, except for its thread. -/
def applyRest (row : ContainerRow) (a : Applied) : ContainerRow :=
  { row with
    status := ((effectOf a.1 a.2).apply (row.status, row.terminationReason)).1
    terminationReason := ((effectOf a.1 a.2).apply (row.status, row.terminationReason)).2
    dockerContainerId := a.1.dockerId
    metadata := nextMetadata row.metadata a.1 }

theorem rest_absorbing : Absorbing applyRest where
  idem row a := by
    have heffect := effects_absorbing.idem (row.status, row.terminationReason) (effectOf a.1 a.2)
    simp [applyRest, heffect, metadata_absorbing.idem]
  congr row₁ row₂ a b h := by
    simp only [applyRest, ContainerRow.mk.injEq] at h ⊢
    obtain ⟨-, hnode, hthread, himage, hname, hstatus, hused, hkill, hreason, hdeleted, hmeta⟩ := h
    have heffect := effects_absorbing.congr _ _ _ (effectOf b.1 b.2) (Prod.ext hstatus hreason)
    exact ⟨trivial, hnode, hthread, himage, hname, congrArg Prod.fst heffect, hused, hkill,
      congrArg Prod.snd heffect, hdeleted, metadata_absorbing.congr _ _ _ b.1 hmeta⟩

def withThread (row : ContainerRow) (threadId : Option String) : ContainerRow :=
  { row with threadId }

theorem applyTo_eq (row : ContainerRow) (a : Applied) :
    applyTo validateUuid row a = withThread (applyRest row a)
      (nextThreadId validateUuid row.threadId a.1.threadId) :=
  applyEvent_eq validateUuid row a.1 a.2

theorem foldl_withThread (row : ContainerRow) (threadId : Option String) (as : List Applied) :
    as.foldl applyRest (withThread row threadId) =
      withThread (as.foldl applyRest row) threadId := by
  induction as generalizing row with
  | nil => rfl
  | cons a as ih => exact ih (applyRest row a)

def threadAfter (threadId : Option String) (as : List Applied) : Option String :=
  as.foldl (fun t a => nextThreadId validateUuid t a.1.threadId) threadId

theorem foldl_applyTo (row : ContainerRow) (as : List Applied) :
    as.foldl (applyTo validateUuid) row =
      withThread (as.foldl applyRest row) (threadAfter validateUuid row.threadId as) := by
  induction as generalizing row with
  | nil => rfl
  | cons a as ih =>
    rw [List.foldl_cons, List.foldl_cons, ih, applyTo_eq, foldl_withThread]
    rfl

theorem nextThreadId_eq (stored candidate : Option String) :
    nextThreadId validateUuid stored candidate =
      if stored.any validateUuid then stored
      else (candidate.filter validateUuid).or stored := by
  unfold nextThreadId resolveThreadId
  cases stored with
  | none => rfl
  | some threadId => cases h : validateUuid threadId <;> simp [Option.filter, h]

theorem threadAfter_of_valid {threadId : Option String} (h : threadId.any validateUuid = true)
    (as : List Applied) : threadAfter validateUuid threadId as = threadId := by
  induction as with
  | nil => rfl
  | cons a as ih => rwa [threadAfter, List.foldl_cons, nextThreadId_eq, if_pos h]

/-- No event changes the thread that it has led to. -/
theorem nextThreadId_threadAfter {threadId : Option String} {as : List Applied} {a : Applied}
    (ha : a ∈ as) :
    nextThreadId validateUuid (threadAfter validateUuid threadId as) a.1.threadId =
      threadAfter validateUuid threadId as := by
  induction as generalizing threadId with
  | nil => simp at ha
  | cons b as ih =>
    rcases List.mem_cons.mp ha with rfl | ha
    · rw [threadAfter, List.foldl_cons, ← threadAfter]
      by_cases hvalid : (nextThreadId validateUuid threadId a.1.threadId).any validateUuid
      · rw [threadAfter_of_valid validateUuid hvalid, nextThreadId_eq, if_pos hvalid]
      · -- neither the thread nor the label names one
        have hnone : a.1.threadId.filter validateUuid = none := by
          rw [nextThreadId_eq] at hvalid
          split_ifs at hvalid with hstored
          · exact absurd hstored hvalid
          · cases hlabel : a.1.threadId with
            | none => rfl
            | some label => cases h : validateUuid label <;> simp_all [Option.filter]
        rw [nextThreadId_eq, hnone]
        exact ite_self _
    · exact ih ha

theorem threadAfter_twice (threadId : Option String) {as bs : List Applied}
    (h : ∀ b ∈ bs, b ∈ as) :
    threadAfter validateUuid (threadAfter validateUuid threadId as) bs =
      threadAfter validateUuid threadId as := by
  induction bs with
  | nil => rfl
  | cons b bs ih =>
    rw [threadAfter, List.foldl_cons,
      nextThreadId_threadAfter validateUuid (h b List.mem_cons_self)]
    exact ih fun c hc => h c (List.mem_cons_of_mem b hc)

/-- Events that come again at once, with the reasons that they had, leave the row as it is. -/
theorem foldl_applyTo_twice (row : ContainerRow) (as : List Applied) :
    as.foldl (applyTo validateUuid) (as.foldl (applyTo validateUuid) row) =
      as.foldl (applyTo validateUuid) row := by
  have hrest := rest_absorbing.foldl_foldl (s := row) fun a (ha : a ∈ as) => ha
  have hthread := threadAfter_twice validateUuid row.threadId fun a (ha : a ∈ as) => ha
  simp only [foldl_applyTo, foldl_withThread, hrest]
  exact congrArg (withThread _) hthread

end Agyn.ContainerEventProcessor
