import Agyn.WorkerLookups

/-!
A refresh of the workers of a manage tool that is made again, with no change of a configuration in
between, ends as it did before: a worker that is registered stays so, and a worker whose name was
taken finds it taken.
-/
namespace Agyn.WorkerRegistry

open ManageToolNode

variable {fold : String → String} {configs : Configs} {m m' : ManageToolNode} {a b : Worker}
  {ws : List Worker} {info : WorkerName}

def released (m : ManageToolNode) (a : Worker) : ManageToolNode :=
  match m.workerNames a with
  | some current => m.release a current.normalized
  | none => m

theorem onlyFor_released (m : ManageToolNode) (a : Worker) : OnlyFor a m (released m a) := by
  unfold released
  split
  · exact onlyFor_release m a _
  · exact .rfl

theorem workerNames_released : (released m a).workerNames = m.workerNames := by
  unfold released
  split
  · exact workerNames_release _
  · rfl

theorem syncWorker_of_error {e : String} (h : extractWorkerName fold (configs a) = .error e) :
    m.syncWorker fold configs a = (m, .error e) := by
  simp [syncWorker, h]

theorem syncWorker_of_ne (h : extractWorkerName fold (configs a) = .ok info)
    (hne : m.workerNames a ≠ some info) :
    m.syncWorker fold configs a =
      match (released m a).ensureUniqueName a info with
      | .error e => (released m a, .error e)
      | .ok _ => ((released m a).register a info, .ok info) := by
  simp only [syncWorker, h, if_neg hne]
  rfl

def Registered (fold : String → String) (configs : Configs) (m : ManageToolNode) (a : Worker) :
    Prop :=
  ∃ info, extractWorkerName fold (configs a) = .ok info ∧ m.workerNames a = some info

theorem onlyFor_sync (fold : String → String) (configs : Configs) (m : ManageToolNode)
    (a : Worker) : OnlyFor a m (m.syncWorker fold configs a).1 := by
  cases hinfo : extractWorkerName fold (configs a) with
  | error e =>
    rw [syncWorker_of_error hinfo]
    exact .rfl
  | ok info =>
    by_cases hname : m.workerNames a = some info
    · rw [syncWorker_of_registered hinfo hname]
      exact .rfl
    · rw [syncWorker_of_ne hinfo hname]
      split
      · exact onlyFor_released m a
      · rename_i hunique
        exact (onlyFor_released m a).trans
          (onlyFor_register (ensureUniqueName_eq_ok_iff.mp hunique))

theorem registered_of_sync (h : m.syncWorker fold configs a = (m', .ok info)) :
    Registered fold configs m' a := by
  cases hinfo : extractWorkerName fold (configs a) with
  | error e =>
    rw [syncWorker_of_error hinfo] at h
    simp at h
  | ok latest =>
    by_cases hname : m.workerNames a = some latest
    · rw [syncWorker_of_registered hinfo hname] at h
      obtain ⟨rfl, -⟩ := Prod.mk.inj h
      exact ⟨latest, hinfo, hname⟩
    · rw [syncWorker_of_ne hinfo hname] at h
      split at h
      · simp at h
      · obtain ⟨rfl, -⟩ := Prod.mk.inj h
        exact ⟨latest, hinfo, by simp [register]⟩

theorem Registered.sync (h : Registered fold configs m b) (a : Worker) :
    Registered fold configs (m.syncWorker fold configs a).1 b := by
  obtain ⟨info, hinfo, hname⟩ := h
  by_cases hb : b = a
  · subst hb
    rw [syncWorker_of_registered hinfo hname]
    exact ⟨info, hinfo, hname⟩
  · exact ⟨info, hinfo, ((onlyFor_sync fold configs m a).names b hb).trans hname⟩

theorem Registered.refresh (h : Registered fold configs m b) (ws : List Worker) :
    Registered fold configs (m.refreshWorkers fold configs ws).1 b := by
  induction ws generalizing m with
  | nil => exact h
  | cons a ws ih =>
    have hsync := h.sync a
    unfold refreshWorkers
    rcases hm : m.syncWorker fold configs a with ⟨m₁, e | info⟩ <;> rw [hm] at hsync
    · exact hsync
    · exact ih hsync

theorem workers_refresh (m : ManageToolNode) (ws : List Worker) :
    (m.refreshWorkers fold configs ws).1.workers = m.workers := by
  induction ws generalizing m with
  | nil => rfl
  | cons a ws ih =>
    have hsync := (onlyFor_sync fold configs m a).workers
    unfold refreshWorkers
    rcases hm : m.syncWorker fold configs a with ⟨m₁, e | info⟩ <;> rw [hm] at hsync
    · exact hsync
    · exact (ih m₁).trans hsync

theorem refreshWorkers_of_registered (h : ∀ a ∈ ws, Registered fold configs m a) :
    m.refreshWorkers fold configs ws = (m, .ok ()) := by
  induction ws with
  | nil => rfl
  | cons a ws ih =>
    obtain ⟨info, hinfo, hname⟩ := h a List.mem_cons_self
    rw [refreshWorkers, syncWorker_of_registered hinfo hname]
    exact ih fun b hb => h b (List.mem_cons_of_mem a hb)

theorem registered_of_refresh (h : m.refreshWorkers fold configs ws = (m', .ok ())) :
    ∀ a ∈ ws, Registered fold configs m' a := by
  induction ws generalizing m with
  | nil => exact fun a ha => absurd ha List.not_mem_nil
  | cons a ws ih =>
    unfold refreshWorkers at h
    rcases hm : m.syncWorker fold configs a with ⟨m₁, e | info⟩ <;> rw [hm] at h
    · simp at h
    · refine List.forall_mem_cons.mpr ⟨?_, ih h⟩
      have hrest := (registered_of_sync hm).refresh ws
      rwa [show m₁.refreshWorkers fold configs ws = (m', .ok ()) from h] at hrest

theorem ensureUniqueName_of_onlyFor {e : String} (h : OnlyFor a m m')
    (herror : m.ensureUniqueName a info = .error e) : m'.ensureUniqueName a info = .error e := by
  unfold ensureUniqueName at herror ⊢
  split at herror
  · rename_i existing hheld
    split_ifs at herror with hne
    rw [(h.held existing hne _).mpr hheld]
    simpa [hne] using herror
  · simp at herror

/-- A sync that failed fails again: the name is still held by the other worker. -/
theorem sync_again_of_error {e : String} (h : m.syncWorker fold configs a = (m', .error e)) :
    (m'.syncWorker fold configs a).2 = .error e := by
  cases hinfo : extractWorkerName fold (configs a) with
  | error e' =>
    rw [syncWorker_of_error hinfo] at h ⊢
    exact (Prod.mk.inj h).2
  | ok info =>
    by_cases hname : m.workerNames a = some info
    · rw [syncWorker_of_registered hinfo hname] at h
      simp at h
    · rw [syncWorker_of_ne hinfo hname] at h
      split at h
      · rename_i hunique
        obtain ⟨rfl, he⟩ := Prod.mk.inj h
        have hname' : (released m a).workerNames a ≠ some info := by
          rwa [workerNames_released]
        rw [syncWorker_of_ne hinfo hname',
          ensureUniqueName_of_onlyFor (onlyFor_released (released m a) a) hunique]
        exact he
      · simp at h

theorem refresh_again_of_error {e : String}
    (h : m.refreshWorkers fold configs ws = (m', .error e)) :
    (m'.refreshWorkers fold configs ws).2 = .error e := by
  induction ws generalizing m with
  | nil => simp [refreshWorkers] at h
  | cons a ws ih =>
    unfold refreshWorkers at h
    rcases hm : m.syncWorker fold configs a with ⟨m₁, e' | info⟩ <;> rw [hm] at h
    · obtain ⟨rfl, he⟩ := Prod.mk.inj h
      have hagain := sync_again_of_error hm
      unfold refreshWorkers
      rcases hm' : m₁.syncWorker fold configs a with ⟨m₂, e'' | info⟩ <;> rw [hm'] at hagain
      · rw [← Except.error.inj he]
        exact congrArg _ (Except.error.inj hagain)
      · simp at hagain
    · have hrest := (registered_of_sync hm).refresh ws
      rw [show m₁.refreshWorkers fold configs ws = (m', .error e) from h] at hrest
      obtain ⟨info', hinfo, hname⟩ := hrest
      rw [refreshWorkers, syncWorker_of_registered hinfo hname]
      exact ih h

/-- A refresh ends as the one before it did, and leaves the workers. -/
theorem refreshAllWorkers_again (fold : String → String) (configs : Configs)
    (m : ManageToolNode) :
    (m.refreshAllWorkers fold configs).1.workers = m.workers ∧
      ((m.refreshAllWorkers fold configs).1.refreshAllWorkers fold configs).2 =
        (m.refreshAllWorkers fold configs).2 := by
  have hworkers : (m.refreshAllWorkers fold configs).1.workers = m.workers :=
    workers_refresh m m.workers
  refine ⟨hworkers, ?_⟩
  rcases hm : m.refreshAllWorkers fold configs with ⟨m', e | u⟩ <;> rw [hm] at hworkers
  · change (m'.refreshWorkers fold configs m'.workers).2 = _
    rw [show m'.workers = m.workers from hworkers]
    exact refresh_again_of_error hm
  · change (m'.refreshWorkers fold configs m'.workers).2 = _
    rw [show m'.workers = m.workers from hworkers,
      refreshWorkers_of_registered (registered_of_refresh hm)]

end Agyn.WorkerRegistry
