import Agyn.ReminderLifecycle

/-!
Cancellations and the destruction of a `remind_me` tool, and what a run keeps whose callbacks and
cancellations do not overlap.
-/
namespace Agyn.ReminderTool

open ReminderState

variable {threadOf : ℕ → String} {maxActive : ℕ} {s s' : ReminderState} {i j k : ℕ}

theorem cancelling_setCancel {c : Cancel}
    (h : (s.setCancel k (some c)).Cancelling threadOf j) :
    s.Cancelling threadOf j ∨ c.targets threadOf j = true := by
  obtain ⟨k', c', hk', htargets⟩ := h
  by_cases hkk : k' = k
  · subst hkk
    obtain rfl : c = c' := by simpa [setCancel] using hk'
    exact Or.inr htargets
  · exact Or.inl ⟨k', c', by simpa [setCancel, hkk] using hk', htargets⟩

/-- A new state of a cancellation, over rows whose `cancelledAt` it may have set. -/
theorem RowsSound.setCancel (h : RowsSound threadOf s) {c : Cancel} {rows : ℕ → Option ReminderRow}
    (hrows : ∀ i row, rows i = some row →
      ∃ row', s.rows i = some row' ∧ row.completedAt = row'.completedAt ∧
        (row.cancelledAt = true → row'.cancelledAt = true ∨
          ¬ s.Delivering i ∧ row.completedAt = false ∧
            ∃ target covered, c = .written target covered ∧ covered i = true))
    (hnone : ∀ i, s.rows i = none → rows i = none)
    (hkept : ∀ i, (s.rows i).isSome → (rows i).isSome)
    (hapart : ∀ i, s.Delivering i → c.targets threadOf i = false)
    (hsnapshot : ∀ i row, c = .read i row → rows i = some row)
    (hcovers : ∀ target covered, c = .written target covered →
      ∀ i, covered i = true → target.matches threadOf i = true)
    (hold : ∀ target covered, s.cancels k ≠ some (.written target covered)) :
    RowsSound threadOf { s.setCancel k (some c) with rows } where
  fresh j hj := hnone j (h.fresh j hj)
  apart j hj hcancelling := by
    rcases cancelling_setCancel hcancelling with hcancelling | htargets
    · exact h.apart j hj hcancelling
    · simp [hapart j hj] at htargets
  pending j row hj hrow := by
    obtain ⟨row', hrow', -, hcancelled⟩ := hrows j row hrow
    rw [← Bool.not_eq_true]
    intro hset
    rcases hcancelled hset with hset' | ⟨hdelivering, -⟩
    · simp [h.pending j row' hj hrow'] at hset'
    · exact hdelivering (Or.inl hj)
  snapshot k' j row hk' := by
    by_cases hkk : k' = k
    · subst hkk
      exact ⟨row, hsnapshot j row (by simpa [ReminderState.setCancel] using hk'), rfl⟩
    · obtain ⟨row', hrow', hsame⟩ := h.snapshot k' j row
        (by simpa [ReminderState.setCancel, hkk] using hk')
      obtain ⟨row'', hrow''⟩ := Option.isSome_iff_exists.mp (hkept j (by simp [hrow']))
      obtain ⟨row₀, hrow₀, hcompleted, -⟩ := hrows j row'' hrow''
      obtain rfl : row' = row₀ := Option.some.inj (hrow'.symm.trans hrow₀)
      exact ⟨row'', hrow'', hcompleted.trans hsame⟩
  covers k' target covered hk' := by
    by_cases hkk : k' = k
    · subst hkk
      exact hcovers target covered (by simpa [ReminderState.setCancel] using hk')
    · exact h.covers k' target covered (by simpa [ReminderState.setCancel, hkk] using hk')
  accounted j row hrow hset := by
    obtain ⟨row', hrow', -, hcancelled⟩ := hrows j row hrow
    rcases hcancelled hset with hset' | ⟨-, -, target, covered, rfl, hcovered⟩
    · rcases h.accounted j row' hrow' hset' with hdone | ⟨k', target, covered, hk', hcovered⟩
      · exact Or.inl hdone
      · have hkk : k' ≠ k := fun heq => hold target covered (heq ▸ hk')
        exact Or.inr ⟨k', target, covered, by simpa [ReminderState.setCancel, hkk] using hk',
          hcovered⟩
    · exact Or.inr ⟨k, target, covered, by simp [ReminderState.setCancel], hcovered⟩
  exclusive j row hrow := by
    obtain ⟨row', hrow', hcompleted, hcancelled⟩ := hrows j row hrow
    rintro ⟨hdone, hset⟩
    rcases hcancelled hset with hset' | ⟨-, hpending, -⟩
    · exact h.exclusive j row' hrow' ⟨hcompleted ▸ hdone, hset'⟩
    · simp [hdone] at hpending

theorem sound_cancelThread (h : Sound threadOf maxActive s) {threadId : String}
    (hk : s.cancels k = none) (hidle : ∀ i, s.Delivering i → threadOf i ≠ threadId)
    (written : Bool) : Sound threadOf maxActive (s.cancelThread threadOf k threadId written) := by
  have hapart (covered : ℕ → Bool) (i : ℕ) (hi : s.Delivering i) :
      (Cancel.written (.thread threadId) covered).targets threadOf i = false := by
    simpa [Cancel.targets, CancelTarget.matches] using hidle i hi
  unfold cancelThread
  split_ifs
  · refine ⟨{ h.registry with }, ?_⟩
    refine h.rows.setCancel (c := .written (.thread threadId) _) ?_ ?_ ?_ (hapart _) (by simp)
      ?_ (by simp [hk])
    · intro j row hrow
      obtain ⟨row', hrow', hmap⟩ := Option.map_eq_some_iff.mp hrow
      refine ⟨row', hrow', ?_⟩
      split_ifs at hmap with hpending
      · subst hmap
        refine ⟨rfl, fun _ => Or.inr ⟨fun hj => hidle j hj hpending.1, hpending.2.1, _, _, rfl, ?_⟩⟩
        simp [hrow', hpending.1]
      · subst hmap
        exact ⟨rfl, Or.inl⟩
    · exact fun j hj => by simp [cancelRows, hj]
    · exact fun j hj => by simpa [cancelRows] using hj
    · rintro _ _ ⟨⟩ j hj
      simp only [Bool.and_eq_true] at hj
      exact hj.2
  · refine ⟨{ h.registry with }, ?_⟩
    refine h.rows.setCancel (c := .written (.thread threadId) fun _ => false)
      (fun j row hrow => ⟨row, hrow, rfl, Or.inl⟩) (fun _ hj => hj) (fun _ hj => hj) (hapart _)
      (by simp) ?_ (by simp [hk])
    rintro _ _ ⟨⟩ j hj
    simp at hj

theorem sound_cancelRead (h : Sound threadOf maxActive s) {row : ReminderRow}
    (hk : s.cancels k = none) (hrow : s.rows i = some row) (hidle : ¬ s.Delivering i) :
    Sound threadOf maxActive (s.setCancel k (some (.read i row))) := by
  refine ⟨{ h.registry with }, ?_⟩
  refine h.rows.setCancel (c := .read i row) (fun j row hrow => ⟨row, hrow, rfl, Or.inl⟩)
    (fun _ hj => hj) (fun _ hj => hj) (fun j hj => ?_) ?_ (by simp) (by simp [hk])
  · have hji : j ≠ i := fun heq => hidle (heq ▸ hj)
    simpa [Cancel.targets] using hji
  · rintro _ _ ⟨⟩
    exact hrow

/-- The write goes to a row that was pending at the read, and still is. -/
theorem sound_cancelWrite (h : Sound threadOf maxActive s) {snapshot : ReminderRow}
    (hk : s.cancels k = some (.read i snapshot)) (written : Bool) :
    Sound threadOf maxActive (s.cancelWrite k i snapshot written) := by
  have hidle : ¬ s.Delivering i :=
    fun hi => h.rows.apart i hi ⟨k, _, hk, by simp [Cancel.targets]⟩
  have hapart (covered : ℕ → Bool) (j : ℕ) (hj : s.Delivering j) :
      (Cancel.written (.reminder i) covered).targets threadOf j = false := by
    have hji : j ≠ i := fun heq => hidle (heq ▸ hj)
    simpa [Cancel.targets, CancelTarget.matches] using hji
  have hunwritten (covered : ℕ → Bool) (hcovered : ∀ j, covered j = true → j = i) :
      Sound threadOf maxActive (s.setCancel k (some (.written (.reminder i) covered))) := by
    refine ⟨{ h.registry with }, ?_⟩
    refine h.rows.setCancel (c := .written (.reminder i) covered)
      (fun j row hrow => ⟨row, hrow, rfl, Or.inl⟩) (fun _ hj => hj) (fun _ hj => hj)
      (hapart covered) (by simp) ?_ (by simp [hk])
    rintro _ _ ⟨⟩ j hj
    simpa [CancelTarget.matches] using hcovered j hj
  obtain ⟨row, hrow, hsame⟩ := h.rows.snapshot k i snapshot hk
  unfold cancelWrite
  simp only [hrow]
  split_ifs with hpending hwritten
  · refine ⟨{ h.registry with }, ?_⟩
    refine h.rows.setCancel (c := .written (.reminder i) fun j => decide (j = i)) ?_ ?_ ?_
      (hapart _) (by simp) ?_ (by simp [hk])
    · intro j row' hrow'
      by_cases hji : j = i
      · subst hji
        obtain rfl : { row with cancelledAt := true } = row' := by
          simpa [setCancel] using hrow'
        exact ⟨row, hrow, rfl, fun _ =>
          Or.inr ⟨hidle, hsame.trans hpending.1, _, _, rfl, by simp⟩⟩
      · exact ⟨row', by simpa [setCancel, hji] using hrow', rfl, Or.inl⟩
    · intro j hj
      have hji : j ≠ i := by
        rintro rfl
        simp [hrow] at hj
      simpa [setCancel, hji] using hj
    · intro j hj
      by_cases hji : j = i
      · simp [hji]
      · simpa [setCancel, hji] using hj
    · rintro _ _ ⟨⟩ j hj
      simpa [CancelTarget.matches] using hj
  · exact hunwritten _ (by simp)
  · exact hunwritten _ (by simp)

theorem sound_clearTimers (h : Sound threadOf maxActive s) {target : CancelTarget}
    {covered : ℕ → Bool} (hk : s.cancels k = some (.written target covered)) :
    Sound threadOf maxActive (s.clearTimers threadOf k target covered) := by
  have hidle (j : ℕ) (hj : s.Delivering j) : target.matches threadOf j = false := by
    rw [← Bool.not_eq_true]
    exact fun hmatches => h.rows.apart j hj ⟨k, _, hk, hmatches⟩
  constructor
  · refine { h.registry with
      timers := ?_, active := ?_, delivering := ?_, nodup := ?_, bounded := ?_, cancelled := ?_,
      destroyed := ?_ }
    · intro j hj
      simp only [clearTimers, Bool.and_eq_true] at hj
      obtain ⟨hactive, hscheduled⟩ := h.registry.timers j hj.1
      refine ⟨List.mem_filter.mpr ⟨hactive, ?_⟩, hscheduled⟩
      simpa [hactive] using hj.2
    · exact fun j hj => h.registry.active j (List.mem_filter.mp hj).1
    · intro j hj
      exact List.mem_filter.mpr ⟨h.registry.delivering j hj, by simp [hidle j hj]⟩
    · exact h.registry.nodup.filter _
    · exact Nat.le_trans (List.length_filter_le _ _) h.registry.bounded
    · intro j hj hactive
      obtain ⟨hactive, hother⟩ := List.mem_filter.mp hactive
      simp only [clearTimers, Bool.or_eq_true] at hj
      rcases hj with (hj | hj) | hj
      · exact h.registry.cancelled j hj hactive
      · simp [h.rows.covers k target covered hk j hj] at hother
      · simp only [Bool.and_eq_true] at hj
        simp [hj.2] at hother
    · exact fun hdestroyed => by simp [clearTimers, h.registry.destroyed hdestroyed]
  · have hother (k' : ℕ) (c : Cancel)
        (hk' : (s.clearTimers threadOf k target covered).cancels k' = some c) :
        s.cancels k' = some c := by
      by_cases hkk : k' = k
      · subst hkk
        simp [clearTimers, setCancel] at hk'
      · simpa [clearTimers, setCancel, hkk] using hk'
    refine { h.rows with apart := ?_, snapshot := ?_, covers := ?_, accounted := ?_ }
    · rintro j hj ⟨k', c, hk', htargets⟩
      exact h.rows.apart j hj ⟨k', c, hother k' c hk', htargets⟩
    · exact fun k' j row hk' => h.rows.snapshot k' j row (hother k' _ hk')
    · exact fun k' target' covered' hk' => h.rows.covers k' target' covered' (hother k' _ hk')
    · intro j row hrow hset
      rcases h.rows.accounted j row hrow hset with hdone | ⟨k', target', covered', hk', hcovered⟩
      · exact Or.inl (by simp [clearTimers, hdone])
      · by_cases hkk : k' = k
        · subst hkk
          obtain ⟨rfl, rfl⟩ : target = target' ∧ covered = covered' := by
            simpa [hk] using hk'
          exact Or.inl (by simp [clearTimers, hcovered])
        · exact Or.inr ⟨k', target', covered', by simpa [clearTimers, setCancel, hkk] using hk',
            hcovered⟩

theorem sound_destroy (h : Sound threadOf maxActive s) (hidle : ∀ i, ¬ s.Delivering i) :
    Sound threadOf maxActive s.destroy := by
  refine ⟨{ h.registry with
    timers := ?_, active := ?_, delivering := ?_, nodup := ?_, bounded := ?_, cancelled := ?_,
    destroyed := ?_ }, { h.rows with }⟩
  · intro j hj
    simp only [destroy, Bool.and_eq_true, decide_eq_true_eq] at hj
    exact absurd (h.registry.timers j hj.1).1 hj.2
  · exact fun j hj => absurd hj (by simp [destroy])
  · exact fun j hj => absurd hj (hidle j)
  · exact List.nodup_nil
  · exact Nat.zero_le _
  · exact fun _ _ => by simp [destroy]
  · exact fun _ => rfl

theorem sound_initial : Sound threadOf maxActive .initial := by
  constructor <;> constructor <;> simp [ReminderState.initial, Delivering]

theorem sound_step (h : Sound threadOf maxActive s) {a : ReminderStep}
    (hok : Undisturbed threadOf maxActive s a)
    (hstep : s.step threadOf maxActive a = some s') : Sound threadOf maxActive s' := by
  cases a with
  | begin i =>
    obtain ⟨hphase, hs⟩ := Option.ite_none_right_eq_some.mp hstep
    exact Option.some.inj hs ▸ sound_begin h hphase
  | abort i =>
    obtain ⟨hphase, hs⟩ := Option.ite_none_right_eq_some.mp hstep
    exact Option.some.inj hs ▸ h.setPhase (Or.inr hphase) (by simp)
  | create i =>
    obtain ⟨hphase, hs⟩ := Option.ite_none_right_eq_some.mp hstep
    exact Option.some.inj hs ▸ sound_create h hphase
  | register i =>
    obtain ⟨hphase, hs⟩ := Option.ite_none_right_eq_some.mp hstep
    exact Option.some.inj hs ▸ sound_register h hphase hok.1 hok.2.1 hok.2.2
  | fire i =>
    obtain ⟨htimer, hs⟩ := Option.ite_none_right_eq_some.mp hstep
    exact Option.some.inj hs ▸ sound_fire h htimer hok
  | complete i written =>
    obtain ⟨hphase, hs⟩ := Option.ite_none_right_eq_some.mp hstep
    exact Option.some.inj hs ▸ sound_complete h hphase written
  | deliver i =>
    obtain ⟨hphase, hs⟩ := Option.ite_none_right_eq_some.mp hstep
    exact Option.some.inj hs ▸ sound_deliver h hphase
  | cancelThread k threadId written =>
    simp only [ReminderState.step] at hstep
    split at hstep
    next hk => exact Option.some.inj hstep ▸ sound_cancelThread h hk hok written
    next => simp at hstep
  | cancelRead k i =>
    simp only [ReminderState.step] at hstep
    split at hstep
    next row hk hrow => exact Option.some.inj hstep ▸ sound_cancelRead h hk hrow hok
    next => simp at hstep
  | cancelWrite k written =>
    simp only [ReminderState.step] at hstep
    split at hstep
    next i snapshot hk => exact Option.some.inj hstep ▸ sound_cancelWrite h hk written
    next => simp at hstep
  | clearTimers k =>
    simp only [ReminderState.step] at hstep
    split at hstep
    next target covered hk => exact Option.some.inj hstep ▸ sound_clearTimers h hk
    next => simp at hstep
  | destroy => exact Option.some.inj hstep ▸ sound_destroy h hok

theorem sound_of_reached (h : Reached (ReminderState.step threadOf maxActive)
    (Undisturbed threadOf maxActive) .initial s) : Sound threadOf maxActive s :=
  h.invariant sound_initial fun _ _ _ hs hok hstep => sound_step hs hok hstep

/-- In an undisturbed run no row is both completed and cancelled, no cancelled reminder and none of
a destroyed tool invokes the agent, every reminder is delivered at most once, and no more than
`maxActive` timers are active. -/
theorem reminders_safe (h : Reached (ReminderState.step threadOf maxActive)
    (Undisturbed threadOf maxActive) .initial s) : Safe maxActive s := by
  obtain ⟨hregistry, hrows⟩ := sound_of_reached h
  exact ⟨hrows.exclusive, hregistry.timely, hregistry.once, hregistry.bounded⟩

/-- One reminder is delivered and then another one is cancelled. -/
theorem delivered_then_cancelled :
    ∃ s, runFrom (ReminderState.step (fun _ => "thread") 1000) .initial
      [.begin 0, .create 0, .register 0, .fire 0, .complete 0 true, .deliver 0,
        .begin 1, .create 1, .register 1, .cancelThread 0 "thread" true, .clearTimers 0] =
      some s ∧ s.deliveries = [⟨0, false, false⟩] ∧ Safe 1000 s := by
  have hfirst : StepsMeet (ReminderState.step (fun _ => "thread") 1000)
      (Undisturbed (fun _ => "thread") 1000) .initial
      [.begin 0, .create 0, .register 0, .fire 0, .complete 0 true, .deliver 0,
        .begin 1, .create 1, .register 1] := by
    refine .cons trivial rfl <| .cons trivial rfl <| .cons ⟨by decide, rfl, rfl⟩ rfl <|
      .cons ?_ rfl <| .cons trivial rfl <| .cons trivial rfl <| .cons trivial rfl <|
      .cons trivial rfl <| .cons ⟨by decide, rfl, rfl⟩ rfl trivial
    rintro ⟨_, _, hk, _⟩
    cases hk
  have hreached := Reached.init.run hfirst rfl
  refine ⟨_, rfl, rfl, reminders_safe ((hreached.step (.cancelThread 0 "thread" true) ?_ rfl).step
    (.clearTimers 0) trivial rfl)⟩
  intro i hi
  obtain rfl : i = 1 := List.mem_singleton.mp ((sound_of_reached hreached).registry.delivering i hi)
  rcases hi with hi | hi <;> cases hi

/-- A cancellation between the firing of a timer and its write leaves a row with both marks, and
a reminder whose timer is set after a cancellation or after the destruction invokes the agent. -/
theorem reminders_unsafe :
    (∃ s, runFrom (ReminderState.step (fun _ => "thread") 1000) .initial
      [.begin 0, .create 0, .register 0, .fire 0, .cancelThread 0 "thread" true,
        .complete 0 true] = some s ∧ s.rows 0 = some ⟨true, true⟩ ∧ ¬ Safe 1000 s) ∧
    (∃ s, runFrom (ReminderState.step (fun _ => "thread") 1000) .initial
      [.begin 0, .create 0, .cancelThread 0 "thread" true, .clearTimers 0, .register 0, .fire 0,
        .complete 0 true, .deliver 0] = some s ∧ s.deliveries = [⟨0, true, false⟩] ∧
      ¬ Safe 1000 s) ∧
    (∃ s, runFrom (ReminderState.step (fun _ => "thread") 1000) .initial
      [.begin 0, .create 0, .destroy, .register 0, .fire 0, .complete 0 true, .deliver 0] =
        some s ∧ s.deliveries = [⟨0, false, true⟩] ∧ ¬ Safe 1000 s) := by
  refine ⟨⟨_, rfl, rfl, fun h => h.exclusive 0 _ rfl ⟨rfl, rfl⟩⟩,
    ⟨_, rfl, rfl, fun h => ?_⟩, ⟨_, rfl, rfl, fun h => ?_⟩⟩
  · exact absurd (h.timely _ List.mem_cons_self).1 (by decide)
  · exact absurd (h.timely _ List.mem_cons_self).2 (by decide)

end Agyn.ReminderTool
