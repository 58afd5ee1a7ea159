import Mathlib.Data.List.Nodup
import Agyn.ReminderTool

/-!
The life of a reminder in runs in which the callback of its timer and a cancellation of it never
overlap. Without that a row can be both completed and cancelled and an agent can be invoked after
the cancellation. What an execution has checked before its writes need not hold any more when it
sets the timer, so the checks have to hold again there.
-/
namespace Agyn.ReminderTool

variable {threadOf : ℕ → String} {maxActive : ℕ} {s s' : ReminderState} {i j : ℕ}
  {p : ReminderPhase}

/-- No row is both completed and cancelled, no agent is invoked by a cancelled reminder or after
the destruction, none is invoked twice by a reminder, and the active timers stay within bounds. -/
structure Safe (maxActive : ℕ) (s : ReminderState) : Prop where
  exclusive : ∀ i row, s.rows i = some row → ¬ (row.completedAt = true ∧ row.cancelledAt = true)
  timely : ∀ d ∈ s.deliveries, d.afterCancel = false ∧ d.afterDestroy = false
  once : (s.deliveries.map Delivery.reminder).Nodup
  bounded : s.active.length ≤ maxActive

namespace ReminderState

def Delivering (s : ReminderState) (i : ℕ) : Prop := s.phase i = .firing ∨ s.phase i = .marked

def Cancelling (threadOf : ℕ → String) (s : ReminderState) (i : ℕ) : Prop :=
  ∃ k c, s.cancels k = some c ∧ c.targets threadOf i = true

end ReminderState

/-- A timer fires while no cancellation of its reminder is under way, a cancellation or the
destruction begins while no callback of what it concerns is running, and a timer is set while
there is room, the tool is not destroyed and the reminder is not cancelled. -/
def Undisturbed (threadOf : ℕ → String) (maxActive : ℕ) (s : ReminderState) :
    ReminderStep → Prop
  | .register i => s.active.length < maxActive ∧ s.destroyed = false ∧ s.cancelled i = false
  | .fire i => ¬ s.Cancelling threadOf i
  | .cancelThread _ threadId _ => ∀ i, s.Delivering i → threadOf i ≠ threadId
  | .cancelRead _ i => ¬ s.Delivering i
  | .destroy => ∀ i, ¬ s.Delivering i
  | _ => True

structure RegistrySound (maxActive : ℕ) (s : ReminderState) : Prop where
  timers : ∀ i, s.timers i = true → i ∈ s.active ∧ s.phase i = .scheduled
  active : ∀ i ∈ s.active, s.phase i = .scheduled ∨ s.Delivering i
  delivering : ∀ i, s.Delivering i → i ∈ s.active
  nodup : s.active.Nodup
  bounded : s.active.length ≤ maxActive
  cancelled : ∀ i, s.cancelled i = true → i ∉ s.active
  destroyed : s.destroyed = true → s.active = []
  ended : ∀ d ∈ s.deliveries, s.phase d.reminder = .ended
  timely : ∀ d ∈ s.deliveries, d.afterCancel = false ∧ d.afterDestroy = false
  once : (s.deliveries.map Delivery.reminder).Nodup

/-- The rows and the cancellations under way. -/
structure RowsSound (threadOf : ℕ → String) (s : ReminderState) : Prop where
  fresh : ∀ i, s.phase i = .idle ∨ s.phase i = .started → s.rows i = none
  apart : ∀ i, s.Delivering i → ¬ s.Cancelling threadOf i
  pending : ∀ i row, s.phase i = .firing → s.rows i = some row → row.cancelledAt = false
  snapshot : ∀ k i row, s.cancels k = some (.read i row) →
    ∃ row', s.rows i = some row' ∧ row'.completedAt = row.completedAt
  covers : ∀ k target covered, s.cancels k = some (.written target covered) →
    ∀ i, covered i = true → target.matches threadOf i = true
  accounted : ∀ i row, s.rows i = some row → row.cancelledAt = true → s.cancelled i = true ∨
    ∃ k target covered, s.cancels k = some (.written target covered) ∧ covered i = true
  exclusive : ∀ i row, s.rows i = some row → ¬ (row.completedAt = true ∧ row.cancelledAt = true)

/-- What every undisturbed run keeps. -/
structure Sound (threadOf : ℕ → String) (maxActive : ℕ) (s : ReminderState) : Prop where
  registry : RegistrySound maxActive s
  rows : RowsSound threadOf s

open ReminderState

@[simp] theorem setPhase_phase_self : (s.setPhase i p).phase i = p := by simp [setPhase]

theorem setPhase_phase_ne (h : j ≠ i) : (s.setPhase i p).phase j = s.phase j := by
  simp [setPhase, h]

/-- A reminder that is not active has another phase, and none of an active one. -/
theorem RegistrySound.setPhase (h : RegistrySound maxActive s) (hi : i ∉ s.active)
    (hphase : p ≠ .firing ∧ p ≠ .marked) (hended : s.phase i = .ended → p = .ended) :
    RegistrySound maxActive (s.setPhase i p) where
  timers j hj := by
    obtain ⟨hactive, hscheduled⟩ := h.timers j hj
    have hji : j ≠ i := fun heq => hi (heq ▸ hactive)
    exact ⟨hactive, (setPhase_phase_ne hji).trans hscheduled⟩
  active j hj := by
    have hji : j ≠ i := fun heq => hi (heq ▸ hj)
    rw [Delivering, setPhase_phase_ne hji]
    exact h.active j hj
  delivering j hj := by
    by_cases hji : j = i
    · subst hji
      simp [Delivering, hphase] at hj
    · rw [Delivering, setPhase_phase_ne hji] at hj
      exact h.delivering j hj
  nodup := h.nodup
  bounded := h.bounded
  cancelled := h.cancelled
  destroyed := h.destroyed
  ended d hd := by
    by_cases hdi : d.reminder = i
    · rw [hdi, setPhase_phase_self]
      exact hended (hdi ▸ h.ended d hd)
    · exact (setPhase_phase_ne hdi).trans (h.ended d hd)
  timely := h.timely
  once := h.once

/-- A phase in which no callback runs. -/
theorem RowsSound.setPhase (h : RowsSound threadOf s)
    (hphase : p ≠ .firing ∧ p ≠ .marked)
    (hfresh : p = .idle ∨ p = .started → s.rows i = none) :
    RowsSound threadOf (s.setPhase i p) where
  fresh j hj := by
    by_cases hji : j = i
    · subst hji
      exact hfresh (by simpa using hj)
    · exact h.fresh j (by simpa [setPhase_phase_ne hji] using hj)
  apart j hj := by
    by_cases hji : j = i
    · subst hji
      simp [Delivering, hphase] at hj
    · rw [Delivering, setPhase_phase_ne hji] at hj
      exact h.apart j hj
  pending j row hj := by
    by_cases hji : j = i
    · subst hji
      simp [hphase] at hj
    · rw [setPhase_phase_ne hji] at hj
      exact h.pending j row hj
  snapshot := h.snapshot
  covers := h.covers
  accounted := h.accounted
  exclusive := h.exclusive

/-- An execution that has not set its timer is not active. -/
theorem RegistrySound.not_mem (h : RegistrySound maxActive s)
    (hphase : s.phase i = .idle ∨ s.phase i = .started ∨ s.phase i = .created) :
    i ∉ s.active := by
  intro hi
  have hactive := h.active i hi
  simp only [Delivering] at hactive
  rcases hphase with hphase | hphase | hphase <;> simp [hphase] at hactive

theorem Sound.setPhase (h : Sound threadOf maxActive s)
    (hold : s.phase i = .idle ∨ s.phase i = .started)
    (hphase : p ≠ .firing ∧ p ≠ .marked) :
    Sound threadOf maxActive (s.setPhase i p) := by
  refine ⟨h.registry.setPhase (h.registry.not_mem ?_) hphase ?_,
    h.rows.setPhase hphase fun _ => h.rows.fresh i hold⟩
  · exact hold.imp_right Or.inl
  · rcases hold with hold | hold <;> simp [hold]

theorem sound_begin (h : Sound threadOf maxActive s) (hphase : s.phase i = .idle) :
    Sound threadOf maxActive (s.begin maxActive i) := by
  unfold begin
  split_ifs
  · exact h.setPhase (Or.inl hphase) (by simp)
  · exact h.setPhase (Or.inl hphase) (by simp)

theorem sound_create (h : Sound threadOf maxActive s) (hphase : s.phase i = .started) :
    Sound threadOf maxActive ((s.setPhase i .created).setRow i ⟨false, false⟩) := by
  have hnone := h.rows.fresh i (Or.inr hphase)
  have hcreated := h.setPhase (p := .created) (Or.inr hphase) (by simp)
  refine ⟨{ hcreated.registry with }, { hcreated.rows with
    fresh := ?_, pending := ?_, snapshot := ?_, accounted := ?_, exclusive := ?_ }⟩
  · intro j hj
    have hji : j ≠ i := by
      rintro rfl
      simp [setRow] at hj
    simpa [setRow, setPhase, hji] using hcreated.rows.fresh j hj
  · intro j row hj hrow
    by_cases hji : j = i
    · subst hji
      simp [setRow] at hj
    · exact hcreated.rows.pending j row hj (by simpa [setRow, hji] using hrow)
  · intro k j row hk
    obtain ⟨row', hrow', hsame⟩ := h.rows.snapshot k j row hk
    have hji : j ≠ i := by
      rintro rfl
      simp [hnone] at hrow'
    exact ⟨row', by simpa [setRow, setPhase, hji] using hrow', hsame⟩
  · intro j row hrow hcancelled
    by_cases hji : j = i
    · subst hji
      obtain rfl : (⟨false, false⟩ : ReminderRow) = row := by simpa [setRow] using hrow
      simp at hcancelled
    · exact h.rows.accounted j row (by simpa [setRow, setPhase, hji] using hrow) hcancelled
  · intro j row hrow
    by_cases hji : j = i
    · subst hji
      obtain rfl : (⟨false, false⟩ : ReminderRow) = row := by simpa [setRow] using hrow
      simp
    · exact h.rows.exclusive j row (by simpa [setRow, setPhase, hji] using hrow)

theorem sound_register (h : Sound threadOf maxActive s) (hphase : s.phase i = .created)
    (hroom : s.active.length < maxActive) (halive : s.destroyed = false)
    (hlive : s.cancelled i = false) : Sound threadOf maxActive (s.register i) := by
  have hi := h.registry.not_mem (Or.inr (Or.inr hphase))
  have hset := h.registry.setPhase (p := .scheduled) hi (by simp) (by simp [hphase])
  have hrows := h.rows.setPhase (i := i) (p := .scheduled) (by simp) (by simp)
  refine ⟨{ hset with
    timers := ?_, active := ?_, delivering := ?_, nodup := ?_, bounded := ?_, cancelled := ?_,
    destroyed := ?_ }, { hrows with }⟩
  · intro j hj
    by_cases hji : j = i
    · subst hji
      simp [register]
    · obtain ⟨hactive, hscheduled⟩ := hset.timers j (by simpa [register, setPhase, hji] using hj)
      exact ⟨List.mem_append_left _ hactive, hscheduled⟩
  · intro j hj
    rcases List.mem_append.mp hj with hj | hj
    · exact hset.active j hj
    · exact Or.inl (by simp [register, List.mem_singleton.mp hj])
  · exact fun j hj => List.mem_append_left _ (hset.delivering j hj)
  · exact h.registry.nodup.append (List.nodup_singleton i) (by simpa using hi)
  · simp only [register, List.length_append, List.length_singleton]
    omega
  · intro j hj hmem
    rcases List.mem_append.mp hmem with hmem | hmem
    · exact h.registry.cancelled j hj hmem
    · obtain rfl := List.mem_singleton.mp hmem
      simp [register, setPhase, hlive] at hj
  · intro hdestroyed
    simp [register, setPhase, halive] at hdestroyed

/-- The row of a reminder whose timer is set was not cancelled by what has completed. -/
theorem Sound.not_cancelled (h : Sound threadOf maxActive s) (hi : i ∈ s.active)
    (hapart : ¬ s.Cancelling threadOf i) {row : ReminderRow} (hrow : s.rows i = some row) :
    row.cancelledAt = false := by
  rw [← Bool.not_eq_true]
  intro hcancelled
  rcases h.rows.accounted i row hrow hcancelled with hdone | ⟨k, target, covered, hk, hcovered⟩
  · exact h.registry.cancelled i hdone hi
  · exact hapart ⟨k, _, hk, h.rows.covers k target covered hk i hcovered⟩

theorem sound_fire (h : Sound threadOf maxActive s) (htimer : s.timers i = true)
    (hapart : ¬ s.Cancelling threadOf i) : Sound threadOf maxActive (s.fire i) := by
  obtain ⟨hactive, hscheduled⟩ := h.registry.timers i htimer
  have hfire : s.fire i =
      { s.setPhase i .firing with timers := Function.update s.timers i false } := by
    simp [fire, hactive, setPhase]
  rw [hfire]
  constructor
  · refine { h.registry with
      timers := ?_, active := ?_, delivering := ?_, ended := ?_ }
    · intro j hj
      have hji : j ≠ i := by
        rintro rfl
        simp at hj
      exact (setPhase_phase_ne (s := s) hji).symm ▸ h.registry.timers j (by simpa [hji] using hj)
    · intro j hj
      by_cases hji : j = i
      · exact Or.inr (Or.inl (by simp [hji]))
      · simpa [Delivering, setPhase_phase_ne hji] using h.registry.active j hj
    · intro j hj
      by_cases hji : j = i
      · exact hji ▸ hactive
      · exact h.registry.delivering j (by simpa [Delivering, setPhase_phase_ne hji] using hj)
    · intro d hd
      have hended := h.registry.ended d hd
      have hdi : d.reminder ≠ i := by
        intro heq
        simp [heq, hscheduled] at hended
      exact (setPhase_phase_ne hdi).trans hended
  · refine { h.rows with fresh := ?_, apart := ?_, pending := ?_ }
    · intro j hj
      by_cases hji : j = i
      · subst hji
        simp at hj
      · exact h.rows.fresh j (by simpa [setPhase_phase_ne hji] using hj)
    · intro j hj
      by_cases hji : j = i
      · exact hji ▸ hapart
      · exact h.rows.apart j (by simpa [Delivering, setPhase_phase_ne hji] using hj)
    · intro j row hj hrow
      by_cases hji : j = i
      · subst hji
        exact h.not_cancelled hactive hapart hrow
      · exact h.rows.pending j row (by simpa [setPhase_phase_ne hji] using hj) hrow

/-- The callback goes on after its write, whether that succeeded or not. -/
theorem sound_marked (h : Sound threadOf maxActive s) (hphase : s.phase i = .firing) :
    Sound threadOf maxActive (s.setPhase i .marked) := by
  have hdelivering (j : ℕ) : (s.setPhase i .marked).Delivering j ↔ s.Delivering j := by
    by_cases hji : j = i
    · subst hji
      simp [Delivering, hphase]
    · simp [Delivering, setPhase_phase_ne hji]
  constructor
  · refine { h.registry with
      timers := ?_, active := ?_, delivering := ?_, ended := ?_ }
    · intro j hj
      obtain ⟨hactive, hscheduled⟩ := h.registry.timers j hj
      have hji : j ≠ i := by
        rintro rfl
        simp [hphase] at hscheduled
      exact ⟨hactive, (setPhase_phase_ne hji).trans hscheduled⟩
    · intro j hj
      by_cases hji : j = i
      · exact Or.inr ((hdelivering j).mpr (Or.inl (hji ▸ hphase)))
      · rw [hdelivering, setPhase_phase_ne hji]
        exact h.registry.active j hj
    · exact fun j hj => h.registry.delivering j ((hdelivering j).mp hj)
    · intro d hd
      have hended := h.registry.ended d hd
      have hdi : d.reminder ≠ i := by
        intro heq
        simp [heq, hphase] at hended
      exact (setPhase_phase_ne hdi).trans hended
  · refine { h.rows with fresh := ?_, apart := ?_, pending := ?_ }
    · intro j hj
      by_cases hji : j = i
      · subst hji
        simp at hj
      · exact h.rows.fresh j (by simpa [setPhase_phase_ne hji] using hj)
    · exact fun j hj => h.rows.apart j ((hdelivering j).mp hj)
    · intro j row hj
      by_cases hji : j = i
      · subst hji
        simp at hj
      · exact h.rows.pending j row (by simpa [setPhase_phase_ne hji] using hj)

theorem sound_complete (h : Sound threadOf maxActive s) (hphase : s.phase i = .firing)
    (written : Bool) : Sound threadOf maxActive (s.complete i written) := by
  have hmarked := sound_marked h hphase
  unfold complete
  dsimp only
  cases hrow : (s.setPhase i .marked).rows i with
  | none => exact hmarked
  | some row =>
    cases written with
    | false => exact hmarked
    | true =>
      have hpending : row.cancelledAt = false := h.rows.pending i row hphase hrow
      refine ⟨{ hmarked.registry with }, { hmarked.rows with
        fresh := ?_, pending := ?_, snapshot := ?_, accounted := ?_, exclusive := ?_ }⟩
      · intro j hj
        have hji : j ≠ i := by
          rintro rfl
          simp [setRow] at hj
        simpa [setRow, hji] using hmarked.rows.fresh j hj
      · intro j row' hj hrow'
        have hji : j ≠ i := by
          rintro rfl
          simp [setRow] at hj
        exact hmarked.rows.pending j row' hj (by simpa [setRow, hji] using hrow')
      · intro k j snapshot hk
        -- no cancellation of this reminder is under way, so the read rows are others
        have hji : j ≠ i := by
          rintro rfl
          exact h.rows.apart j (Or.inl hphase) ⟨k, _, hk, by simp [Cancel.targets]⟩
        simpa [setRow, hji] using hmarked.rows.snapshot k j snapshot hk
      · intro j row' hrow' hcancelled
        by_cases hji : j = i
        · subst hji
          obtain rfl : { row with completedAt := true } = row' := by simpa [setRow] using hrow'
          simp [hpending] at hcancelled
        · exact hmarked.rows.accounted j row' (by simpa [setRow, hji] using hrow') hcancelled
      · intro j row' hrow'
        by_cases hji : j = i
        · subst hji
          obtain rfl : { row with completedAt := true } = row' := by simpa [setRow] using hrow'
          simp [hpending]
        · exact hmarked.rows.exclusive j row' (by simpa [setRow, hji] using hrow')

theorem sound_deliver (h : Sound threadOf maxActive s) (hphase : s.phase i = .marked) :
    Sound threadOf maxActive (s.deliver i) := by
  have hactive := h.registry.delivering i (Or.inr hphase)
  have hlive : s.cancelled i = false := by
    rw [← Bool.not_eq_true]
    exact fun hdone => h.registry.cancelled i hdone hactive
  have halive : s.destroyed = false := by
    rw [← Bool.not_eq_true]
    intro hdestroyed
    simp [h.registry.destroyed hdestroyed] at hactive
  have hmem (j : ℕ) : j ∈ s.active.erase i ↔ j ≠ i ∧ j ∈ s.active :=
    h.registry.nodup.mem_erase_iff
  have hrows := h.rows.setPhase (i := i) (p := .ended) (by simp) (by simp)
  constructor
  · constructor
    · intro j hj
      obtain ⟨hjactive, hscheduled⟩ := h.registry.timers j hj
      have hji : j ≠ i := by
        rintro rfl
        simp [hphase] at hscheduled
      exact ⟨(hmem j).mpr ⟨hji, hjactive⟩, (setPhase_phase_ne hji).trans hscheduled⟩
    · intro j hj
      obtain ⟨hji, hjactive⟩ := (hmem j).mp hj
      simpa [deliver, Delivering, setPhase_phase_ne hji] using h.registry.active j hjactive
    · intro j hj
      have hji : j ≠ i := by
        rintro rfl
        simp [deliver, Delivering] at hj
      refine (hmem j).mpr ⟨hji, h.registry.delivering j ?_⟩
      simpa [deliver, Delivering, setPhase_phase_ne hji] using hj
    · exact h.registry.nodup.erase i
    · have hlength : (s.active.erase i).length ≤ s.active.length := List.length_erase_le
      have hbounded := h.registry.bounded
      simp only [deliver]
      omega
    · exact fun j hj hjactive => h.registry.cancelled j hj ((hmem j).mp hjactive).2
    · exact fun hdestroyed => by simp [deliver, h.registry.destroyed hdestroyed]
    · intro d hd
      rcases List.mem_append.mp hd with hd | hd
      · by_cases hdi : d.reminder = i
        · simp [deliver, hdi]
        · exact (setPhase_phase_ne hdi).trans (h.registry.ended d hd)
      · simp [deliver, List.mem_singleton.mp hd]
    · intro d hd
      rcases List.mem_append.mp hd with hd | hd
      · exact h.registry.timely d hd
      · obtain rfl := List.mem_singleton.mp hd
        exact ⟨hlive, halive⟩
    · simp only [deliver, List.map_append, List.map_cons, List.map_nil]
      refine h.registry.once.append (List.nodup_singleton i) ?_
      rw [List.disjoint_singleton]
      intro hdelivered
      obtain ⟨d, hd, rfl⟩ := List.mem_map.mp hdelivered
      simp [h.registry.ended d hd] at hphase
  · exact { hrows with }

end Agyn.ReminderTool
