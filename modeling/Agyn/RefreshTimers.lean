import Agyn.KeyRotation

/-!
The timers of the virtual keys. In every order of the steps at most one timer is set, and what waits
for a refresh has one in flight. A key that expires always has its timer or a scheduled refresh
under way, unless a timer fires while the key before is being revoked.
-/
namespace Agyn.VirtualKeys

variable {parse : String → Option ℤ} {w w' : World} {a : Action}

/-- At most one timer is set, and it is the one that can be cleared. What waits for a refresh has
one, and until it has a key only one scheduled refresh or timer is there. -/
structure Timed (w : World) : Prop where
  one : ∃ timer : Option Timer, w.timers = timer.toList ∧ w.refreshTimer = timer.map (·.id)
  waiting : w.job = none → w.scheduled = [] ∧ ∀ call ∈ w.calls, World.isWaiting call = false
  racing : ∀ job, w.job = some job → job.phase ≠ .revoking →
    w.scheduled.length + w.timers.length ≤ 1

theorem Timed.timers_length (h : Timed w) : w.timers.length ≤ 1 := by
  obtain ⟨timer, htimers, -⟩ := h.one
  rw [htimers]
  cases timer <;> simp

theorem timers_clear (h : Timed w) :
    w.clearRefreshTimer = { w with timers := [], refreshTimer := none } := by
  obtain ⟨timer, htimers, hid⟩ := h.one
  unfold World.clearRefreshTimer
  cases timer with
  | none =>
    rw [hid]
    show w = { w with timers := [], refreshTimer := none }
    rw [← show w.timers = [] from htimers, ← show w.refreshTimer = none from hid]
  | some timer =>
    rw [hid, htimers]
    simp

/-- A step that leaves the timers, and a job where there is one. -/
theorem Timed.of_same (h : Timed w) (htimers : w'.timers = w.timers)
    (hid : w'.refreshTimer = w.refreshTimer) (hscheduled : w'.scheduled = w.scheduled)
    (hwaiting : w'.job = none → w'.scheduled = [] ∧ ∀ call ∈ w'.calls, World.isWaiting call = false)
    (hjob : ∀ job', w'.job = some job' → job'.phase ≠ .revoking →
      w.job = none ∨ ∃ job, w.job = some job ∧ job.phase ≠ .revoking) : Timed w' := by
  refine ⟨htimers ▸ hid ▸ h.one, hwaiting, fun job' hjob' hphase => ?_⟩
  rw [hscheduled, htimers]
  obtain hnone | ⟨job, hsome, hbefore⟩ := hjob job' hjob' hphase
  · rw [(h.waiting hnone).1]
    have := h.timers_length
    simp only [List.length_nil]
    omega
  · exact h.racing job hsome hbefore

theorem Timed.move (h : Timed w) {trigger : ProvisionContext} {previousKey : Option String}
    {phase : Phase} {job' : Job} (hjob : w.job = some ⟨trigger, previousKey, phase⟩)
    (hphase : phase ≠ .revoking) (htimers : w'.timers = w.timers)
    (hid : w'.refreshTimer = w.refreshTimer) (hscheduled : w'.scheduled = w.scheduled)
    (hjob' : w'.job = some job') : Timed w' := by
  refine h.of_same htimers hid hscheduled (fun hnone => ?_) fun _ _ _ => .inr ⟨_, hjob, hphase⟩
  exact absurd (hnone.symm.trans hjob').symm (Option.some_ne_none job')

/-- The scheduled refresh that fails sets its timer again. -/
theorem rejectJob_timers (h : Timed w) {trigger : ProvisionContext} {previousKey : Option String}
    {phase : Phase} (hjob : w.job = some ⟨trigger, previousKey, phase⟩)
    (hphase : phase ≠ .revoking) :
    Timed w.rejectJob ∧ (w.scheduled ≠ [] ∨ w.timers ≠ [] → w.rejectJob.timers ≠ []) := by
  have hracing := h.racing _ hjob hphase
  have hcalls : ∀ call ∈ w.calls.filter (!World.isWaiting ·), World.isWaiting call = false := by
    intro call hcall
    simpa using (List.mem_filter.mp hcall).2
  unfold World.rejectJob
  cases hscheduled : w.scheduled with
  | nil =>
    refine ⟨⟨h.one, fun _ => ⟨rfl, hcalls⟩, fun job heq => ?_⟩, fun hor => ?_⟩
    · exact absurd heq.symm (Option.some_ne_none job)
    · exact hor.resolve_left fun hne => hne rfl
  | cons attempt rest =>
    rw [hscheduled, List.length_cons] at hracing
    obtain rfl : rest = [] := List.length_eq_zero_iff.mp (by omega)
    have htimers : w.timers = [] := List.length_eq_zero_iff.mp (by omega)
    refine ⟨⟨⟨some ⟨w.nextTimer, attempt + 1, World.retryDelay attempt⟩, ?_, rfl⟩,
      fun _ => ⟨rfl, hcalls⟩, fun job heq => ?_⟩, fun _ => ?_⟩
    · show w.timers ++ _ = _
      rw [htimers]
      rfl
    · exact absurd heq.symm (Option.some_ne_none job)
    · exact List.append_ne_nil_of_right_ne_nil _ (by simp)

theorem resolveJob_calls (w : World) :
    ∀ call ∈ w.resolveJob.calls, World.isWaiting call = false := by
  intro call hcall
  obtain ⟨old, -, rfl⟩ := List.mem_map.mp hcall
  cases old <;> rfl

/-- After a save one timer is set, for a key that expires. -/
theorem saved_cases (h : Timed w) (now : ℤ) (job : Job) (state : VirtualKeyState) :
    ∃ timer : Option Timer, (timer = none ↔ state.expiresAt = none) ∧
      (w.saved now job state).timers = timer.toList ∧
      (w.saved now job state).refreshTimer = timer.map (·.id) ∧
      (w.saved now job state).currentKey = some state ∧
      ((w.saved now job state).job = none ∧ (w.saved now job state).scheduled = [] ∧
          (∀ call ∈ (w.saved now job state).calls, World.isWaiting call = false) ∨
        (w.saved now job state).job = some { job with phase := .revoking }) := by
  have hclear : Timed { w with persisted := some state, currentKey := some state } :=
    ⟨h.one, h.waiting, h.racing⟩
  obtain ⟨timer, hnone, happly⟩ : ∃ timer : Option Timer,
      (timer = none ↔ state.expiresAt = none) ∧
      ∃ nextTimer, { w with persisted := some state }.applyKeyState now state =
        { w with
          persisted := some state
          currentKey := some state
          timers := timer.toList
          refreshTimer := timer.map (·.id)
          nextTimer } := by
    unfold World.applyKeyState World.scheduleRefresh
    rw [timers_clear hclear]
    cases state.expiresAt with
    | none => exact ⟨none, by simp, _, rfl⟩
    | some expiresAt => exact ⟨some _, by simp, _, rfl⟩
  obtain ⟨nextTimer, happly⟩ := happly
  refine ⟨timer, hnone, ?_⟩
  unfold World.saved
  dsimp only
  rw [happly]
  split
  · exact ⟨rfl, rfl, rfl, .inl ⟨rfl, rfl, resolveJob_calls _⟩⟩
  · split_ifs
    · exact ⟨rfl, rfl, rfl, .inl ⟨rfl, rfl, resolveJob_calls _⟩⟩
    · exact ⟨rfl, rfl, rfl, .inr rfl⟩

theorem Timed.of_cases {timer : Option Timer} (htimers : w'.timers = timer.toList)
    (hid : w'.refreshTimer = timer.map (·.id))
    (hjob : w'.job = none ∧ w'.scheduled = [] ∧
        (∀ call ∈ w'.calls, World.isWaiting call = false) ∨
      ∃ job, w'.job = some job ∧ job.phase = .revoking) : Timed w' := by
  refine ⟨⟨timer, htimers, hid⟩, fun hnone => ?_, fun job heq hphase => ?_⟩
  · obtain ⟨-, hrest⟩ | ⟨job, heq, -⟩ := hjob
    · exact hrest
    · exact absurd (hnone.symm.trans heq).symm (Option.some_ne_none job)
  · obtain ⟨hnone, -⟩ | ⟨job', heq', hrevoking⟩ := hjob
    · exact absurd (hnone.symm.trans heq).symm (Option.some_ne_none job)
    · obtain rfl := Option.some.inj (heq'.symm.trans heq)
      exact absurd hrevoking hphase

/-- The timer that fires was the only one. -/
theorem fire_timers (h : Timed w) {i : ℕ} {timer : Timer} (hi : w.timers[i]? = some timer) :
    w.timers = [timer] ∧ w.timers.eraseIdx i = [] := by
  obtain ⟨only, htimers, -⟩ := h.one
  cases only with
  | none =>
    rw [htimers] at hi
    exact absurd hi.symm (Option.some_ne_none timer)
  | some only =>
    rw [htimers] at hi ⊢
    obtain ⟨hlt, heq⟩ := List.getElem?_eq_some_iff.mp hi
    obtain rfl : i = 0 := by
      simp only [Option.toList_some, List.length_singleton] at hlt
      omega
    exact ⟨congrArg (fun t => [t]) heq, rfl⟩

theorem timed_step (h : Timed w) (hunstarted : Unstarted w) (hstep : step parse w a = some w') :
    Timed w' := by
  cases steps_of_step hstep with
  | initAgain => exact h
  | bootstrap hstarted =>
    obtain ⟨-, hjob, -, htimers, -⟩ := hunstarted hstarted
    have hsame : w.bootstrap.timers = w.timers ∧ w.bootstrap.refreshTimer = w.refreshTimer ∧
        w.bootstrap.scheduled = w.scheduled ∧ ∃ job, w.bootstrap.job = some job := by
      unfold World.bootstrap
      dsimp only
      split
      · exact ⟨rfl, rfl, rfl, _, rfl⟩
      · split_ifs <;> exact ⟨rfl, rfl, rfl, _, rfl⟩
    obtain ⟨htimers', hid', hscheduled', job', hjob'⟩ := hsame
    refine h.of_same htimers' hid' hscheduled' (fun hnone => ?_) fun _ _ _ => .inl hjob
    exact absurd (hnone.symm.trans hjob').symm (Option.some_ne_none job')
  | generated hjob => exact h.move hjob (by simp) rfl rfl rfl rfl
  | conflict hjob => exact h.move hjob (by simp) rfl rfl rfl rfl
  | @attemptFailed _ trigger previousKey attempt hjob =>
    obtain heq | heq :=
      attemptFailed_cases w ⟨trigger, previousKey, .generating attempt⟩ attempt <;> rw [heq]
    · exact h.move hjob (by simp) rfl rfl rfl rfl
    · exact (rejectJob_timers h hjob (by simp)).1
  | persistedRevoked hjob => exact h.move hjob (by simp) rfl rfl rfl rfl
  | aliasCleared hjob => exact h.move hjob (by simp) rfl rfl rfl rfl
  | @conflictCleared trigger previousKey attempt hjob =>
    obtain heq | heq :=
      nextAttempt_cases w ⟨trigger, previousKey, .clearingConflict attempt⟩ attempt <;> rw [heq]
    · exact h.move hjob (by simp) rfl rfl rfl rfl
    · exact (rejectJob_timers h hjob (by simp)).1
  | previousRevoked =>
    obtain ⟨timer, htimers, hid⟩ := h.one
    exact .of_cases htimers hid (.inl ⟨rfl, rfl, resolveJob_calls w⟩)
  | delayOver hjob => exact h.move hjob (by simp) rfl rfl rfl rfl
  | @saved now trigger previousKey state hjob =>
    obtain ⟨timer, -, htimers, hid, -, hcases⟩ :=
      saved_cases h now ⟨trigger, previousKey, .saving state⟩ state
    exact .of_cases htimers hid (hcases.imp_right fun heq => ⟨_, heq, rfl⟩)
  | @saveFailed trigger previousKey state hjob =>
    have hunsaved : Timed { w with unsaved := w.unsaved ++ [state.key] } :=
      ⟨h.one, h.waiting, h.racing⟩
    exact (rejectJob_timers hunsaved hjob (by simp)).1
  | @fire i timer hi =>
    obtain ⟨honly, herase⟩ := fire_timers h hi
    rw [herase]
    obtain ⟨job, hjob, heq⟩ | ⟨hjob, heq⟩ :=
      refreshKey_cases { w with timers := [], refreshTimer := none } .refresh <;> rw [heq]
    · refine ⟨⟨none, rfl, rfl⟩, fun hnone => ?_, fun job' hjob' hphase => ?_⟩
      · exact absurd (hnone.symm.trans hjob).symm (Option.some_ne_none job)
      · have hracing := h.racing job' hjob' hphase
        rw [honly] at hracing
        simpa using hracing
    · refine ⟨⟨none, rfl, rfl⟩, fun hnone => ?_, fun _ _ _ => ?_⟩
      · exact absurd hnone (Option.some_ne_none _)
      · show (w.scheduled ++ [timer.attempt]).length + 0 ≤ 1
        rw [(h.waiting hjob).1]
        simp
  | call =>
    refine h.of_same rfl rfl rfl (fun hnone => ?_) fun job hjob hphase => .inr ⟨job, hjob, hphase⟩
    obtain ⟨hscheduled, hcalls⟩ := h.waiting hnone
    refine ⟨hscheduled, fun call hcall => ?_⟩
    obtain hcall | hcall := List.mem_append.mp hcall
    · exact hcalls call hcall
    · rw [List.mem_singleton.mp hcall]
      rfl
  | refused =>
    obtain ⟨job, hjob, heq⟩ | ⟨hjob, heq⟩ := refreshKey_cases w .authError <;> rw [heq]
    · refine h.of_same rfl rfl rfl (fun hnone => ?_) fun job hjob hphase => .inr ⟨job, hjob, hphase⟩
      exact absurd (hnone.symm.trans hjob).symm (Option.some_ne_none job)
    · refine h.of_same rfl rfl rfl (fun hnone => ?_) fun _ _ _ => .inl hjob
      exact absurd hnone (Option.some_ne_none _)
  | answered =>
    refine h.of_same rfl rfl rfl (fun hnone => ?_) fun job hjob hphase => .inr ⟨job, hjob, hphase⟩
    obtain ⟨hscheduled, hcalls⟩ := h.waiting hnone
    exact ⟨hscheduled, fun call hcall => hcalls call (List.mem_of_mem_eraseIdx hcall)⟩
  | shutdown => exact ⟨h.one, h.waiting, h.racing⟩
  | teardown =>
    rw [timers_clear h]
    refine ⟨⟨none, rfl, rfl⟩, h.waiting, fun job hjob hphase => ?_⟩
    have hracing := h.racing job hjob hphase
    show w.scheduled.length + 0 ≤ 1
    omega

theorem timed_start (persisted : Option VirtualKeyState) : Timed (World.start persisted) :=
  ⟨⟨none, rfl, rfl⟩, fun _ => ⟨rfl, fun _ hcall => absurd hcall List.not_mem_nil⟩,
    fun job heq => absurd heq.symm (Option.some_ne_none job)⟩

/-- In every order of the steps at most one timer is set, and no call or scheduled refresh waits
without a refresh in flight. -/
theorem timed_of_reached {persisted : Option VirtualKeyState}
    (h : Reached (step parse) (fun _ _ => True) (World.start persisted) w) : Timed w := by
  have hboth : Timed w ∧ Unstarted w := by
    induction h with
    | init => exact ⟨timed_start persisted, unstarted_start persisted⟩
    | step a _ _ hstep ih => exact ⟨timed_step ih.1 ih.2 hstep, unstarted_step ih.2 hstep⟩
  exact hboth.1

/-- No timer fires while the key before is being revoked, and the provisioner is not torn down. -/
def Attentive (w : World) : Action → Prop
  | .fire _ => ∀ job, w.job = some job → job.phase ≠ .revoking
  | .teardown => False
  | _ => True

/-- For a key that expires a timer is set, or a scheduled refresh waits for one that may fail. -/
def Attended (w : World) : Prop :=
  ∀ s, w.currentKey = some s → s.expiresAt ≠ none →
    w.timers ≠ [] ∨ w.scheduled ≠ [] ∧ ∀ job, w.job = some job → job.phase ≠ .revoking

theorem Attended.of_same (h : Attended w) (hcurrent : w'.currentKey = w.currentKey)
    (htimers : w'.timers = w.timers) (hscheduled : w'.scheduled = w.scheduled)
    (hjob : ∀ job', w'.job = some job' → (∀ job, w.job = some job → job.phase ≠ .revoking) →
      job'.phase ≠ .revoking) : Attended w' := by
  intro s hs hexpires
  rw [hcurrent] at hs
  rw [htimers, hscheduled]
  exact (h s hs hexpires).imp_right fun hwait =>
    ⟨hwait.1, fun job' hjob' => hjob job' hjob' hwait.2⟩

theorem currentKey_rejectJob (w : World) : w.rejectJob.currentKey = w.currentKey :=
  (sameKeys_rejectJob w).1.currentKey

theorem Attended.rejectJob (h : Attended w) (htimed : Timed w) {trigger : ProvisionContext}
    {previousKey : Option String} {phase : Phase}
    (hjob : w.job = some ⟨trigger, previousKey, phase⟩) (hphase : phase ≠ .revoking) :
    Attended w.rejectJob := by
  intro s hs hexpires
  rw [currentKey_rejectJob] at hs
  exact .inl ((rejectJob_timers htimed hjob hphase).2
    ((h s hs hexpires).symm.imp_left fun hwait => hwait.1))

theorem attended_step (h : Attended w) (htimed : Timed w) (hunstarted : Unstarted w)
    (hok : Attentive w a) (hstep : step parse w a = some w') : Attended w' := by
  have hto : ∀ {job' : Job}, job'.phase ≠ .revoking → ∀ job, some job' = some job →
      (∀ job, w.job = some job → job.phase ≠ .revoking) → job.phase ≠ .revoking := by
    intro job' hphase job heq _
    exact Option.some.inj heq ▸ hphase
  cases steps_of_step hstep with
  | initAgain => exact h
  | bootstrap hstarted =>
    obtain ⟨-, -, hcurrent, -⟩ := hunstarted hstarted
    have hsame : w.bootstrap.currentKey = w.currentKey := by
      unfold World.bootstrap
      dsimp only
      split
      · rfl
      · split_ifs <;> rfl
    intro s hs
    exact absurd ((hsame.trans hcurrent).symm.trans hs).symm (Option.some_ne_none s)
  | generated => exact h.of_same rfl rfl rfl (hto (by simp))
  | conflict => exact h.of_same rfl rfl rfl (hto (by simp))
  | @attemptFailed _ trigger previousKey attempt hjob =>
    obtain heq | heq :=
      attemptFailed_cases w ⟨trigger, previousKey, .generating attempt⟩ attempt <;> rw [heq]
    · exact h.of_same rfl rfl rfl (hto (by simp))
    · exact h.rejectJob htimed hjob (by simp)
  | persistedRevoked => exact h.of_same rfl rfl rfl (hto (by simp))
  | aliasCleared => exact h.of_same rfl rfl rfl (hto (by simp))
  | @conflictCleared trigger previousKey attempt hjob =>
    obtain heq | heq :=
      nextAttempt_cases w ⟨trigger, previousKey, .clearingConflict attempt⟩ attempt <;> rw [heq]
    · exact h.of_same rfl rfl rfl (hto (by simp))
    · exact h.rejectJob htimed hjob (by simp)
  | previousRevoked hjob =>
    intro s hs hexpires
    exact .inl ((h s hs hexpires).resolve_right fun hwait => hwait.2 _ hjob rfl)
  | delayOver => exact h.of_same rfl rfl rfl (hto (by simp))
  | @saved now trigger previousKey state hjob =>
    obtain ⟨timer, hnone, htimers, -, hcurrent, -⟩ :=
      saved_cases htimed now ⟨trigger, previousKey, .saving state⟩ state
    intro s hs hexpires
    obtain rfl := Option.some.inj (hcurrent.symm.trans hs)
    left
    rw [htimers]
    cases timer with
    | none => exact absurd (hnone.mp rfl) hexpires
    | some timer => exact List.cons_ne_nil _ _
  | @saveFailed trigger previousKey state hjob =>
    have hunsaved : Timed { w with unsaved := w.unsaved ++ [state.key] } :=
      ⟨htimed.one, htimed.waiting, htimed.racing⟩
    have hattended : Attended { w with unsaved := w.unsaved ++ [state.key] } := h
    exact hattended.rejectJob hunsaved hjob (by simp)
  | @fire i timer hi =>
    intro s hs hexpires
    refine .inr ⟨List.append_ne_nil_of_right_ne_nil _ (by simp), ?_⟩
    obtain ⟨job, hjob, heq⟩ | ⟨hjob, heq⟩ :=
      refreshKey_cases { w with timers := w.timers.eraseIdx i, refreshTimer := none } .refresh <;>
      rw [heq]
    · exact hok
    · exact fun job heq => Option.some.inj heq ▸ by simp
  | call => exact h.of_same rfl rfl rfl fun job hjob hall => hall job hjob
  | refused =>
    obtain ⟨job, hjob, heq⟩ | ⟨hjob, heq⟩ := refreshKey_cases w .authError <;> rw [heq]
    · exact h.of_same rfl rfl rfl fun job hjob hall => hall job hjob
    · exact h.of_same rfl rfl rfl (hto (by simp))
  | answered => exact h.of_same rfl rfl rfl fun job hjob hall => hall job hjob
  | shutdown => exact h.of_same rfl rfl rfl fun job hjob hall => hall job hjob
  | teardown => exact absurd hok not_false

theorem attended_of_reached {persisted : Option VirtualKeyState}
    (h : Reached (step parse) Attentive (World.start persisted) w) : Attended w := by
  have hall : Attended w ∧ Timed w ∧ Unstarted w := by
    have hnone : Attended (World.start persisted) :=
      fun s hs => absurd hs.symm (Option.some_ne_none s)
    induction h with
    | init => exact ⟨hnone, timed_start persisted, unstarted_start persisted⟩
    | step a _ hok hstep ih =>
      obtain ⟨hattended, htimed, hunstarted⟩ := ih
      exact ⟨attended_step hattended htimed hunstarted hok hstep,
        timed_step htimed hunstarted hstep, unstarted_step hunstarted hstep⟩
  exact hall.1

/-- A timer that fires during the revocation joins a refresh that sets no timer any more. -/
theorem unattended_of_fire {persisted : Option VirtualKeyState}
    (h : Reached (step parse) (fun _ _ => True) (World.start persisted) w) {job : Job}
    (hjob : w.job = some job) (hphase : job.phase = .revoking)
    (hrun : runFrom (step parse) w [.fire 0, .deleted] = some w') :
    w'.currentKey = w.currentKey ∧ w'.timers = [] ∧ w'.scheduled = [] ∧ w'.job = none := by
  have htimed := timed_of_reached h
  obtain ⟨fired, hfired, hrest⟩ := Option.bind_eq_some_iff.mp hrun
  obtain ⟨last, hlast, heq⟩ := Option.bind_eq_some_iff.mp hrest
  obtain rfl : last = w' := Option.some.inj heq
  obtain ⟨trigger, previousKey, phase⟩ := job
  obtain rfl : phase = .revoking := hphase
  cases steps_of_step hfired with
  | @fire _ timer hi =>
    obtain ⟨-, herase⟩ := fire_timers htimed hi
    rw [herase] at hlast
    obtain ⟨job, -, heq⟩ | ⟨hnone, -⟩ :=
      refreshKey_cases { w with timers := [], refreshTimer := none } .refresh
    · rw [heq] at hlast
      simp only [step, hjob] at hlast
      obtain rfl := Option.some.inj hlast
      exact ⟨rfl, rfl, rfl, rfl⟩
    · exact absurd (hnone.symm.trans hjob).symm (Option.some_ne_none _)

theorem timed_of_reached_rotated : Timed rotated :=
  timed_of_reached (Reached.of_run (Option.some_get rotation_runs).symm)

theorem unattended_of_fire_rotated : ∃ w, runFrom (step noon) rotated [.fire 0, .deleted] = some w ∧
    w.currentKey = rotated.currentKey ∧ w.timers = [] ∧ w.scheduled = [] ∧ w.job = none :=
  ⟨_, rfl, unattended_of_fire (Reached.of_run (Option.some_get rotation_runs).symm) rfl rfl rfl⟩

theorem attended_of_reached_rotated : Attended rotated := by
  have hmeets : StepsMeet (step noon) Attentive (World.start none) rotation := ?_
  · exact attended_of_reached (Reached.init.run hmeets (Option.some_get rotation_runs).symm)
  exact .cons trivial rfl (.cons trivial rfl (.cons trivial rfl (.cons trivial rfl
    (.cons trivial rfl (.cons trivial rfl (.cons trivial rfl (.cons trivial rfl trivial)))))))

end Agyn.VirtualKeys
