import Agyn.EventEffects

/-!
The reasons that events give when they are applied again at once. They are the ones they had, except
for the exit of a container that ran out of memory: its first application consumed the record of
that. The row tells the difference when no later event replaces the reason. Events of a container
that are delivered again, as after a new subscription. Only the events with the newest timestamp are
applied again, so the row stays as it is unless the exit of a container that ran out of memory is
among them and has lost its reason.
-/
namespace Agyn.ContainerEventProcessor

open ContainerEvents ContainerRegistry

section Reasons

variable (validateUuid : String → Bool)

/-- Events with the reasons that they get one after the other. -/
def reasons : Option ℤ → List ContainerEvent → List Applied
  | _, [] => []
  | lastOom, event :: events =>
    (event, reasonOf event lastOom) :: reasons (nextOom event lastOom) events

def oomAfter (lastOom : Option ℤ) (events : List ContainerEvent) : Option ℤ :=
  events.foldl (fun lastOom event => nextOom event lastOom) lastOom

theorem foldl_highWater_apply (k : Known) (events : List ContainerEvent) :
    events.foldl (highWater validateUuid).apply k =
      ((reasons k.2 events).foldl (applyTo validateUuid) k.1, oomAfter k.2 events) := by
  induction events generalizing k with
  | nil => rfl
  | cons event events ih => exact ih _

theorem reasons_append (lastOom : Option ℤ) (as bs : List ContainerEvent) :
    reasons lastOom (as ++ bs) = reasons lastOom as ++ reasons (oomAfter lastOom as) bs := by
  induction as generalizing lastOom with
  | nil => rfl
  | cons a as ih => exact congrArg (List.cons _) (ih _)

theorem map_fst_reasons (lastOom : Option ℤ) (events : List ContainerEvent) :
    (reasons lastOom events).map Prod.fst = events := by
  induction events generalizing lastOom with
  | nil => rfl
  | cons event events ih => exact congrArg (List.cons event) (ih _)

theorem oomAfter_append (lastOom : Option ℤ) (as bs : List ContainerEvent) :
    oomAfter lastOom (as ++ bs) = oomAfter (oomAfter lastOom as) bs := List.foldl_append

def TouchesOom (event : ContainerEvent) : Prop :=
  event.eventType = .oom ∨ event.eventType = .die

instance (event : ContainerEvent) : Decidable (TouchesOom event) :=
  inferInstanceAs (Decidable (event.eventType = .oom ∨ event.eventType = .die))

theorem nextOom_of_not_touches {event : ContainerEvent} (h : ¬ TouchesOom event)
    (lastOom : Option ℤ) : nextOom event lastOom = lastOom := by
  unfold TouchesOom at h
  unfold nextOom
  split <;> simp_all

theorem oomAfter_of_not_touches {events : List ContainerEvent}
    (h : ∀ event ∈ events, ¬ TouchesOom event) (lastOom : Option ℤ) :
    oomAfter lastOom events = lastOom := by
  induction events with
  | nil => rfl
  | cons event events ih =>
    obtain ⟨hevent, hrest⟩ := List.forall_mem_cons.mp h
    rw [oomAfter, List.foldl_cons, nextOom_of_not_touches hevent]
    exact ih hrest

theorem reasonOf_of_ne_die {event : ContainerEvent} (h : event.eventType ≠ .die)
    (o o' : Option ℤ) : reasonOf event o = reasonOf event o' := by
  unfold reasonOf mapContainerEventReason
  dsimp only
  split <;> simp_all

theorem reasons_of_not_touches {events : List ContainerEvent}
    (h : ∀ event ∈ events, ¬ TouchesOom event) (o o' : Option ℤ) :
    reasons o events = reasons o' events := by
  induction events with
  | nil => rfl
  | cons event events ih =>
    obtain ⟨hevent, hrest⟩ := List.forall_mem_cons.mp h
    have hdie : event.eventType ≠ .die := fun hdie => hevent (Or.inr hdie)
    rw [reasons, reasons, nextOom_of_not_touches hevent, nextOom_of_not_touches hevent, ih hrest,
      reasonOf_of_ne_die hdie o o']

/-- An event after which the reason may be the one before. -/
def KeepsReason (event : ContainerEvent) : Prop :=
  event.eventType = .stop ∨ event.eventType = .destroy ∨ event.eventType = .healthStatus

def withReason (row : ContainerRow) (reason : Option TerminationReason) : ContainerRow :=
  { row with terminationReason := reason }

theorem applyTo_withReason (row : ContainerRow) (r : Option TerminationReason) (a : Applied) :
    ∃ r', applyTo validateUuid (withReason row r) a =
      withReason (applyTo validateUuid row a) r' := by
  refine ⟨((effectOf a.1 a.2).apply (row.status, r)).2, ?_⟩
  rw [applyTo_eq, applyTo_eq]
  have hstatus : ((effectOf a.1 a.2).apply (row.status, r)).1 =
      ((effectOf a.1 a.2).apply (row.status, row.terminationReason)).1 := by
    unfold StatusEffect.apply
    cases effectOf a.1 a.2 with
    | stop reason => dsimp only; split_ifs <;> rfl
    | _ => rfl
  simp only [applyRest, withThread, withReason, hstatus]

theorem applyTo_withReason_of_sets (row : ContainerRow) (r : Option TerminationReason)
    {a : Applied} (h : ¬ KeepsReason a.1) :
    applyTo validateUuid (withReason row r) a = applyTo validateUuid row a := by
  rw [applyTo_eq, applyTo_eq]
  have heffect : (effectOf a.1 a.2).apply (row.status, r) =
      (effectOf a.1 a.2).apply (row.status, row.terminationReason) := by
    unfold KeepsReason at h
    unfold effectOf
    cases hevent : a.1.eventType <;> simp_all [StatusEffect.apply]
  simp only [applyRest, withThread, withReason, heffect]

theorem foldl_withReason (row : ContainerRow) (r : Option TerminationReason) (as : List Applied) :
    ∃ r', as.foldl (applyTo validateUuid) (withReason row r) =
      withReason (as.foldl (applyTo validateUuid) row) r' := by
  induction as generalizing row r with
  | nil => exact ⟨r, rfl⟩
  | cons a as ih =>
    obtain ⟨r', hr'⟩ := applyTo_withReason validateUuid row r a
    rw [List.foldl_cons, List.foldl_cons, hr']
    exact ih _ r'

theorem foldl_withReason_of_sets (row : ContainerRow) (r : Option TerminationReason)
    {as : List Applied} (h : ∃ a ∈ as, ¬ KeepsReason a.1) :
    as.foldl (applyTo validateUuid) (withReason row r) = as.foldl (applyTo validateUuid) row := by
  obtain ⟨a, ha, hsets⟩ := h
  obtain ⟨pre, post, rfl⟩ := List.append_of_mem ha
  obtain ⟨r', hr'⟩ := foldl_withReason validateUuid row r pre
  rw [List.foldl_append, List.foldl_append, hr', List.foldl_cons, List.foldl_cons,
    applyTo_withReason_of_sets validateUuid _ r' hsets]

/-- Stops, removals and reports of health leave a failed row failed, with its reason. -/
theorem foldl_of_failed {row : ContainerRow} (hrow : row.status = .failed) {as : List Applied}
    (h : ∀ a ∈ as, KeepsReason a.1) :
    (as.foldl (applyTo validateUuid) row).terminationReason = row.terminationReason := by
  induction as generalizing row with
  | nil => rfl
  | cons a as ih =>
    obtain ⟨hevent, hrest⟩ := List.forall_mem_cons.mp h
    have heffect : (effectOf a.1 a.2).apply (row.status, row.terminationReason) =
        (row.status, row.terminationReason) := by
      rcases hevent with hevent | hevent | hevent <;>
        simp [effectOf, hevent, StatusEffect.apply, hrow]
    have happly : (applyTo validateUuid row a).status = row.status ∧
        (applyTo validateUuid row a).terminationReason = row.terminationReason := by
      rw [applyTo_eq]
      exact ⟨congrArg Prod.fst heffect, congrArg Prod.snd heffect⟩
    rw [List.foldl_cons, ih (happly.1.trans hrow) hrest, happly.2]

/-- Among events that are applied at once, the last one that gives a reason is an exit which a
recent lack of memory explains, and no other lack of memory or exit is among them. -/
def LosesRecord (lastOom : Option ℤ) (events : List ContainerEvent) : Prop :=
  ∃ pre exit post, events = pre ++ exit :: post ∧
    exit.eventType = .die ∧ exit.exitCode = some 137 ∧
    hasRecentOom lastOom exit.timestampMs = true ∧
    (∀ event ∈ pre, ¬ TouchesOom event) ∧ ∀ event ∈ post, KeepsReason event

theorem KeepsReason.not_touches {event : ContainerEvent} (h : KeepsReason event) :
    ¬ TouchesOom event := by
  rcases h with h | h | h <;> simp [TouchesOom, h]

theorem reasonOf_die {event : ContainerEvent} (h : event.eventType = .die) (o : Option ℤ) :
    reasonOf event o = dieReason event.exitCode (hasRecentOom o event.timestampMs) := by
  simp [reasonOf, mapContainerEventReason, h]

theorem applyTo_die {event : ContainerEvent} (h : event.eventType = .die) (row : ContainerRow)
    (o : Option ℤ) :
    applyTo validateUuid row (event, reasonOf event o) =
      withReason (applyTo validateUuid row (event, reasonOf event none))
        (some (.event (reasonOf event o))) := by
  have heffect (o : Option ℤ) : effectOf event (reasonOf event o) =
      .set ((statusForEvent .die (dieReason event.exitCode false)).getD .failed)
        (some (.event (reasonOf event o))) := by
    rw [effectOf, h]
    dsimp only
    rw [← statusForEvent_die _ (hasRecentOom o event.timestampMs), ← reasonOf_die h]
  rw [applyTo_eq, applyTo_eq]
  simp only [applyRest, withThread, withReason, heffect, StatusEffect.apply]

/-- What comes again after a first exit gets the reasons that it had. -/
theorem reasons_after_die {exit : ContainerEvent} (h : exit.eventType = .die) (o : Option ℤ)
    (post : List ContainerEvent) :
    reasons o (exit :: post) = (exit, reasonOf exit o) :: reasons none post := by
  simp [reasons, nextOom, h]

theorem oomAfter_die {exit : ContainerEvent} (h : exit.eventType = .die) (o : Option ℤ)
    (post : List ContainerEvent) : oomAfter o (exit :: post) = oomAfter none post := by
  simp [oomAfter, nextOom, h]

/-- The second time the row gets the same reasons, or other ones that a later event replaces. -/
theorem foldl_reasons_again {lastOom : Option ℤ} {events : List ContainerEvent}
    (hkeeps : ¬ LosesRecord lastOom events) (row : ContainerRow) :
    (reasons (oomAfter lastOom events) events).foldl (applyTo validateUuid) row =
      (reasons lastOom events).foldl (applyTo validateUuid) row := by
  cases hfirst : events.find? fun event => TouchesOom event with
  | none =>
    have hnone : ∀ event ∈ events, ¬ TouchesOom event := by simpa using hfirst
    rw [reasons_of_not_touches hnone]
  | some first =>
    obtain ⟨htouches, pre, post, rfl, hpre⟩ := List.find?_eq_some_iff_append.mp hfirst
    replace hpre : ∀ event ∈ pre, ¬ TouchesOom event := by simpa using hpre
    set again := oomAfter lastOom (pre ++ first :: post) with hagain
    rw [reasons_append, reasons_append, oomAfter_of_not_touches hpre,
      oomAfter_of_not_touches hpre, reasons_of_not_touches hpre again lastOom]
    rcases (show TouchesOom first by simpa using htouches) with hoom | hdie
    · -- a lack of memory is recorded again
      have hsame : reasons again (first :: post) = reasons lastOom (first :: post) := by
        have hne : first.eventType ≠ .die := by simp [hoom]
        simp [reasons, nextOom, hoom, reasonOf_of_ne_die hne again lastOom]
      rw [hsame]
    · rw [reasons_after_die hdie, reasons_after_die hdie, List.foldl_append, List.foldl_append,
        List.foldl_cons, List.foldl_cons, applyTo_die validateUuid hdie _ again,
        applyTo_die validateUuid hdie _ lastOom]
      by_cases hsets : ∃ event ∈ post, ¬ KeepsReason event
      · have hpost : ∃ a ∈ reasons none post, ¬ KeepsReason a.1 := by
          obtain ⟨event, hevent, hsets⟩ := hsets
          rw [← map_fst_reasons none post] at hevent
          obtain ⟨a, ha, rfl⟩ := List.mem_map.mp hevent
          exact ⟨a, ha, hsets⟩
        rw [foldl_withReason_of_sets validateUuid _ _ hpost,
          foldl_withReason_of_sets validateUuid _ _ hpost]
      · have hpost : ∀ event ∈ post, KeepsReason event := by simpa using hsets
        have hnone : again = none := by
          rw [hagain, oomAfter_append, oomAfter_die hdie,
            oomAfter_of_not_touches fun event hevent => (hpost event hevent).not_touches]
        have hfirst : ¬ (first.exitCode = some 137 ∧
            hasRecentOom lastOom first.timestampMs = true) := fun ⟨hcode, hrecent⟩ =>
          hkeeps ⟨pre, first, post, rfl, hdie, hcode, hrecent, hpre, hpost⟩
        have hsame : reasonOf first again = reasonOf first lastOom := by
          have hnever : hasRecentOom none first.timestampMs = false := rfl
          rw [hnone, reasonOf_die hdie, reasonOf_die hdie, hnever]
          unfold dieReason
          by_cases hcode : first.exitCode = some 137
          · have hrecent : hasRecentOom lastOom first.timestampMs = false :=
              Bool.not_eq_true _ ▸ fun hrecent => hfirst ⟨hcode, hrecent⟩
            rw [hrecent]
          · simp only [hcode, if_false]
        rw [hsame]

theorem last_reason {row : ContainerRow} {o : Option ℤ} {pre post : List ContainerEvent}
    {exit : ContainerEvent} (hdie : exit.eventType = .die) (hcode : exit.exitCode = some 137)
    (hpre : ∀ event ∈ pre, ¬ TouchesOom event) (hpost : ∀ event ∈ post, KeepsReason event) :
    ((reasons o (pre ++ exit :: post)).foldl (applyTo validateUuid) row).terminationReason =
      some (.event (if hasRecentOom o exit.timestampMs then .oomKilled else .sigkill)) := by
  have hreason : reasonOf exit o =
      if hasRecentOom o exit.timestampMs then .oomKilled else .sigkill := by
    simp [reasonOf_die hdie, dieReason, hcode]
  rw [reasons_append, oomAfter_of_not_touches hpre, reasons_after_die hdie, List.foldl_append,
    List.foldl_cons, ← hreason]
  generalize (reasons o pre).foldl (applyTo validateUuid) row = before
  have hstatus : (applyTo validateUuid before (exit, reasonOf exit o)).status = .failed := by
    rw [applyTo_die validateUuid hdie, applyTo_eq, reasonOf_die hdie]
    simp [withReason, withThread, applyRest, effectOf, hdie, dieReason, hcode, hasRecentOom,
      StatusEffect.apply, statusForEvent]
  rw [foldl_of_failed validateUuid hstatus, applyTo_die validateUuid hdie]
  · rfl
  · intro a ha
    refine hpost a.1 ?_
    rw [← map_fst_reasons none post]
    exact List.mem_map_of_mem ha

/-- Events that are applied again at once change the row exactly when they have lost the record of
a lack of memory that explained an exit. -/
theorem applied_again_iff (k : Known) (events : List ContainerEvent) :
    (events.foldl (highWater validateUuid).apply
        (events.foldl (highWater validateUuid).apply k)).1 =
      (events.foldl (highWater validateUuid).apply k).1 ↔ ¬ LosesRecord k.2 events := by
  simp only [foldl_highWater_apply]
  constructor
  · rintro hsame ⟨pre, exit, post, rfl, hdie, hcode, hrecent, hpre, hpost⟩
    have hnone : oomAfter k.2 (pre ++ exit :: post) = none := by
      rw [oomAfter_append, oomAfter_die hdie,
        oomAfter_of_not_touches fun event hevent => (hpost event hevent).not_touches]
    have hreason := congrArg ContainerRow.terminationReason hsame
    rw [last_reason validateUuid hdie hcode hpre hpost,
      last_reason validateUuid hdie hcode hpre hpost, hnone, hrecent] at hreason
    simp [hasRecentOom] at hreason
  · intro hkeeps
    rw [foldl_reasons_again validateUuid hkeeps, foldl_applyTo_twice]

end Reasons

section Redelivery

variable (validateUuid : String → Bool)

/-- Among the newest of the events, the last one that gives a reason is an exit which a recent lack
of memory explained when it was first delivered, and no other lack of memory or exit with its
timestamp is among them. -/
def ForgetsOom (k : Known) (events : List ContainerEvent) : Prop :=
  ∃ pre exit post, events = pre ++ exit :: post ∧
    exit.eventType = .die ∧ exit.exitCode = some 137 ∧
    hasRecentOom ((highWater validateUuid).run k pre).2 exit.timestampMs = true ∧
    lastEventMark ((highWater validateUuid).run k events).1 = exit.timestampMs ∧
    (∀ event ∈ pre, event.timestampMs = exit.timestampMs → ¬ TouchesOom event) ∧
    ∀ event ∈ post, event.timestampMs = exit.timestampMs → KeepsReason event

section Newest

variable {k : Known} {pre post : List ContainerEvent} {first : ContainerEvent}

/-- Until a lack of memory or an exit with the newest timestamp, the record stays. -/
theorem lastOom_run {events : List ContainerEvent}
    (hmark : lastEventMark k.1 ≤ first.timestampMs)
    (hle : ∀ event ∈ events, event.timestampMs ≤ first.timestampMs)
    (h : ∀ event ∈ first :: events, event.timestampMs = first.timestampMs → ¬ TouchesOom event) :
    ((highWater validateUuid).run k (first :: events)).2 = k.2 := by
  rw [(highWater validateUuid).run_cons_of_le hmark hle, foldl_highWater_apply]
  refine oomAfter_of_not_touches (fun event hevent => ?_) k.2
  obtain ⟨hmem, htime⟩ := List.mem_filter.mp hevent
  exact h event hmem (of_decide_eq_true htime)

theorem lastOom_run_append {before : List ContainerEvent} {exit : ContainerEvent}
    {after : List ContainerEvent}
    (hmark : lastEventMark ((highWater validateUuid).run k pre).1 ≤ first.timestampMs)
    (hle : ∀ event ∈ post, event.timestampMs ≤ first.timestampMs)
    (hsplit : first :: post = before ++ exit :: after)
    (h : ∀ event ∈ before, event.timestampMs = first.timestampMs → ¬ TouchesOom event) :
    ((highWater validateUuid).run k (pre ++ before)).2 =
      ((highWater validateUuid).run k pre).2 := by
  rw [HighWater.run_append]
  cases before with
  | nil => rfl
  | cons b before =>
    obtain ⟨rfl, rfl⟩ := List.cons_eq_cons.mp hsplit
    exact lastOom_run validateUuid hmark (fun event hevent =>
      hle event (List.mem_append_left _ hevent)) h

theorem forgetsOom_iff
    (hmark : lastEventMark ((highWater validateUuid).run k (pre ++ first :: post)).1 =
      first.timestampMs)
    (hpre : ∀ event ∈ pre, event.timestampMs < first.timestampMs) :
    ForgetsOom validateUuid k (pre ++ first :: post) ↔
      LosesRecord ((highWater validateUuid).run k pre).2
        ((first :: post).filter fun event => event.timestampMs = first.timestampMs) := by
  have hbefore : lastEventMark ((highWater validateUuid).run k pre).1 ≤ first.timestampMs := by
    rw [← hmark, HighWater.run_append]
    exact (highWater validateUuid).mark_le_run
  have hle : ∀ event ∈ post, event.timestampMs ≤ first.timestampMs := by
    intro event hevent
    have h := (highWater validateUuid).time_le_run (s := k) event
      (List.mem_append_right pre (List.mem_cons_of_mem first hevent))
    exact WithBot.coe_le_coe.mp (h.trans_eq hmark)
  constructor
  · rintro ⟨as, exit, bs, hsplit, hdie, hcode, hrecent, htime, has, hbs⟩
    replace htime : exit.timestampMs = first.timestampMs :=
      (WithBot.coe_inj.mp (hmark.symm.trans htime)).symm
    obtain ⟨before, rfl, hrest⟩ : ∃ before, as = pre ++ before ∧
        first :: post = before ++ exit :: bs := by
      rcases List.append_eq_append_iff.mp hsplit with ⟨c, hc, hrest⟩ | ⟨c, hc, hrest⟩
      · exact ⟨c, hc, hrest⟩
      · -- the exit is not among the older events
        cases c with
        | nil => exact ⟨[], by simp [hc], hrest.symm⟩
        | cons e c =>
          obtain ⟨rfl, -⟩ := List.cons_eq_cons.mp hrest
          exact absurd htime (hpre exit (by simp [hc])).ne
    have hrecord := lastOom_run_append validateUuid hbefore hle hrest fun event hevent h =>
      has event (List.mem_append_right pre hevent) (h.trans htime.symm)
    rw [hrecord] at hrecent
    refine ⟨before.filter fun event => event.timestampMs = first.timestampMs, exit,
      bs.filter fun event => event.timestampMs = first.timestampMs, ?_, hdie, hcode, hrecent,
      fun event hevent => ?_, fun event hevent => ?_⟩
    · rw [hrest, List.filter_append, List.filter_cons_of_pos (by simpa using htime)]
    · obtain ⟨hmem, h⟩ := List.mem_filter.mp hevent
      exact has event (List.mem_append_right pre hmem) ((of_decide_eq_true h).trans htime.symm)
    · obtain ⟨hmem, h⟩ := List.mem_filter.mp hevent
      exact hbs event hmem ((of_decide_eq_true h).trans htime.symm)
  · rintro ⟨as, exit, bs, hsplit, hdie, hcode, hrecent, has, hbs⟩
    obtain ⟨before, rest, hrest, rfl, hfilter⟩ := List.filter_eq_append_iff.mp hsplit
    obtain ⟨stale, after, rfl, hstale, htime, rfl⟩ := List.filter_eq_cons_iff.mp hfilter
    replace htime : exit.timestampMs = first.timestampMs := of_decide_eq_true htime
    have hnewest : ∀ event ∈ before ++ stale, event.timestampMs = first.timestampMs →
        ¬ TouchesOom event := by
      intro event hevent h
      rcases List.mem_append.mp hevent with hevent | hevent
      · exact has event (List.mem_filter.mpr ⟨hevent, decide_eq_true h⟩)
      · exact absurd (decide_eq_true h) (hstale event hevent)
    rw [← List.append_assoc] at hrest
    have hrecord := lastOom_run_append validateUuid hbefore hle hrest hnewest
    refine ⟨pre ++ (before ++ stale), exit, after, ?_, hdie, hcode, ?_, ?_, ?_, ?_⟩
    · simp only [hrest, List.append_assoc]
    · rwa [hrecord]
    · rw [hmark, htime]
    · intro event hevent h
      rcases List.mem_append.mp hevent with hevent | hevent
      · exact absurd (h.trans htime) (hpre event hevent).ne
      · exact hnewest event hevent (h.trans htime)
    · intro event hevent h
      exact hbs event (List.mem_filter.mpr ⟨hevent, decide_eq_true (h.trans htime)⟩)

/-- Events that are applied again leave the row as it is exactly when they forget nothing. -/
theorem run_again_iff (k : Known) (events : List ContainerEvent) :
    ((highWater validateUuid).run ((highWater validateUuid).run k events) events).1 =
      ((highWater validateUuid).run k events).1 ↔ ¬ ForgetsOom validateUuid k events := by
  have hle : ∀ event ∈ events, _ := (highWater validateUuid).time_le_run (s := k)
  have hagain := (highWater validateUuid).run_of_le hle
  rcases (highWater validateUuid).run_eq_foldl_newest k events with
    hnone | ⟨pre, first, post, rfl, hmark, hpre, hrun⟩
  · rw [hagain, hnone]
    refine iff_of_true rfl ?_
    rintro ⟨as, exit, bs, rfl, -, -, -, htime, -⟩
    have hmem : exit ∈ as ++ exit :: bs := by simp
    exact List.filter_eq_nil_iff.mp hnone exit hmem (decide_eq_true htime.symm)
  · have hfilter : (pre ++ first :: post).filter
        (fun event => (highWater validateUuid).time event = (highWater validateUuid).time first) =
          (first :: post).filter fun event => event.timestampMs = first.timestampMs := by
      rw [List.filter_append, List.filter_eq_nil_iff.mpr fun event hevent => ?_]
      · rfl
      · simpa using (hpre event hevent).ne
    rw [forgetsOom_iff validateUuid hmark hpre, ← applied_again_iff validateUuid, ← hfilter, ← hrun,
      hagain]
    simp only [hmark, WithBot.coe_inj]

end Newest

def Delivery.Timed (d : Delivery) : Prop :=
  d.event.timeNano.any (0 < ·) = true ∨ d.event.time.any (0 < ·) = true

def SameMessages (ds again : List Delivery) : Prop :=
  ds.map Delivery.event = again.map Delivery.event

theorem eventTimestampMs_of_timed {d : Delivery} (h : d.Timed) (now : ℤ) :
    d.event.eventTimestampMs now = d.event.eventTimestampMs d.now := by
  have hsome {t : Option ℤ} (ht : t.any (0 < ·) = true) : t.filter (0 < ·) ≠ none := by
    cases t <;> simp_all [Option.filter]
  unfold DockerEventMessage.eventTimestampMs
  cases hnano : d.event.timeNano.filter (0 < ·) with
  | some timeNano => rfl
  | none =>
    cases htime : d.event.time.filter (0 < ·) with
    | some time => rfl
    | none =>
      rcases h with h | h
      · exact absurd hnano (hsome h)
      · exact absurd htime (hsome h)

theorem eventTimestampMs_of_not_timed {d : Delivery} (h : ¬ d.Timed) (now : ℤ) :
    d.event.eventTimestampMs now = now := by
  simp only [Delivery.Timed, not_or, Bool.not_eq_true] at h
  have hnone {t : Option ℤ} (ht : t.any (0 < ·) = false) : t.filter (0 < ·) = none := by
    cases t with
    | none => rfl
    | some t => simp_all [Option.filter]
  simp only [DockerEventMessage.eventTimestampMs, hnone h.1, hnone h.2]

/-- The clock is read for the timestamp only. -/
theorem parse_now (event : DockerEventMessage) (now now' : ℤ) :
    parse event now' = (parse event now).map fun e =>
      { e with timestampMs := event.eventTimestampMs now' } := by
  unfold parse
  split
  next => split <;> rfl
  next => rfl

theorem eventsOf_append (id : String) (as bs : List Delivery) :
    eventsOf id (as ++ bs) = eventsOf id as ++ eventsOf id bs := by
  simp [eventsOf]

theorem mem_eventsOf {id : String} {ds : List Delivery} {event : ContainerEvent} :
    event ∈ eventsOf id ds ↔ ∃ d ∈ ds, d.parsed = some event ∧ event.dockerId = id := by
  simp only [eventsOf, List.mem_filter, List.mem_filterMap, decide_eq_true_eq]
  constructor
  · intro h
    obtain ⟨⟨d, hd, hparsed⟩, hid⟩ := h
    exact ⟨d, hd, hparsed, hid⟩
  · intro h
    obtain ⟨d, hd, hparsed, hid⟩ := h
    exact ⟨⟨d, hd, hparsed⟩, hid⟩

theorem eventsOf_same {id : String} {ds again : List Delivery} (hsame : SameMessages ds again)
    (htimed : ∀ d ∈ ds, d.IsEventOf id → d.Timed) : eventsOf id again = eventsOf id ds := by
  induction ds generalizing again with
  | nil =>
    rw [List.map_eq_nil_iff.mp hsame.symm]
  | cons d ds ih =>
    cases again with
    | nil => cases hsame
    | cons d' again =>
      obtain ⟨hevent, hrest⟩ := List.cons_eq_cons.mp hsame
      obtain ⟨hd, hds⟩ := List.forall_mem_cons.mp htimed
      have hfirst : eventsOf id [d'] = eventsOf id [d] := by
        have hnow := parse_now d.event d.now d'.now
        simp only [eventsOf, List.filterMap_cons, List.filterMap_nil, Delivery.parsed, ← hevent,
          hnow]
        cases hparse : parse d.event d.now with
        | none => rfl
        | some e =>
          by_cases hid : e.dockerId = id
          · have htime : d.event.eventTimestampMs d'.now = e.timestampMs :=
              (eventTimestampMs_of_timed (hd ⟨e, hparse, hid⟩) d'.now).trans
                (timestampMs_parsed (d := d) hparse).symm
            rw [Option.map_some, htime]
          · simp [hid]
      have happend (x : Delivery) (xs : List Delivery) :
          eventsOf id (x :: xs) = eventsOf id [x] ++ eventsOf id xs := eventsOf_append id [x] xs
      rw [happend, happend d, hfirst, ih hrest hds]

/-- What a container is known by after more deliveries. -/
theorem known_append (s : Processor) (id : String) (as bs : List Delivery) :
    (process validateUuid s (as ++ bs) id).known =
      (process validateUuid s as id).known.map fun k =>
        (highWater validateUuid).run k (eventsOf id bs) := by
  rw [process_container, eventsOf_append, List.foldl_append, known_foldl, ← process_container]

theorem container_eq_known (t : Tracked) : t.container = t.known.map Prod.fst := by
  rw [Tracked.known, Option.map_map]
  exact Option.map_id'.symm

theorem lt_mark (row : ContainerRow) : ∃ now : ℤ, lastEventMark row < now := by
  refine ⟨row.metadata.lastEventAt.getD 0 + 1, ?_⟩
  unfold lastEventMark
  cases row.metadata.lastEventAt with
  | none => exact WithBot.bot_lt_coe _
  | some last => exact WithBot.coe_lt_coe.mpr (Int.lt_succ last)

/-- After any deliveries, the messages of a part at their end come again, handled at any times. The
row of a container is as before exactly when those of its messages that come again carry their
times and their events forget no lack of memory. -/
theorem redelivered_iff (s : Processor) (id : String) (past suffix : List Delivery) :
    (∀ again, SameMessages suffix again →
      (process validateUuid s (past ++ suffix ++ again) id).container =
        (process validateUuid s (past ++ suffix) id).container) ↔
      ∀ k, (process validateUuid s past id).known = some k →
        (∀ d ∈ suffix, d.IsEventOf id → d.Timed) ∧
          ¬ ForgetsOom validateUuid k (eventsOf id suffix) := by
  simp only [container_eq_known, known_append]
  cases hknown : (process validateUuid s past id).known with
  | none => simp
  | some k =>
    simp only [Option.map_some, Option.some.injEq, forall_eq']
    constructor
    · intro hsame
      refine ⟨fun d hd hid => ?_, (run_again_iff validateUuid k _).mp (hsame suffix rfl)⟩
      -- handled much later, a message without a time would be newer than all others
      by_contra hnot
      obtain ⟨event, hparsed, hid⟩ := hid
      obtain ⟨now, hnow⟩ := lt_mark ((highWater validateUuid).run k (eventsOf id suffix)).1
      have hrow := hsame (suffix.map fun d => { d with now }) (by simp [SameMessages])
      have hmem : { event with timestampMs := now } ∈
          eventsOf id (suffix.map fun d => { d with now }) := by
        refine mem_eventsOf.mpr ⟨{ d with now }, List.mem_map_of_mem hd, ?_, hid⟩
        rw [Delivery.parsed, parse_now d.event d.now, ← Delivery.parsed, hparsed,
          eventTimestampMs_of_not_timed hnot]
        rfl
      have hle := (highWater validateUuid).time_le_run
        (s := (highWater validateUuid).run k (eventsOf id suffix)) _ hmem
      exact absurd (hle.trans_eq (congrArg lastEventMark hrow)) (not_le.mpr hnow)
    · rintro ⟨htimed, hkeeps⟩ again hsame
      rw [eventsOf_same hsame htimed]
      exact (run_again_iff validateUuid k _).mpr hkeeps

def ranOutOfMemory : Delivery := deliveryOf "oom" 1 []

def exitedAfterwards : Delivery := deliveryOf "die" 2 [("exitCode", "137")]

/-- The exit that comes again is no longer explained. -/
theorem oom_forgotten :
    (process (fun _ => false) runningContainer [ranOutOfMemory, exitedAfterwards]
        "c1").container.map ContainerRow.terminationReason = some (some (.event .oomKilled)) ∧
      (process (fun _ => false) runningContainer
        ([ranOutOfMemory, exitedAfterwards] ++ [exitedAfterwards]) "c1").container.map
          ContainerRow.terminationReason = some (some (.event .sigkill)) := by
  decide

end Redelivery

end Agyn.ContainerEventProcessor
