import Mathlib.Data.List.Nodup
import Agyn.WorkerRegistry

/-!
When the look-ups of a manage tool are right. A refresh takes the workers in the order of their
insertion, so it fails when a worker has a name that a later one still holds, and a failed
refresh leaves a worker without the name it is registered under, which is not noticed when the
worker gets that name back.
-/
namespace Agyn.WorkerRegistry

open ManageToolNode

variable {fold : String → String} {configs : Configs} {m m' : ManageToolNode} {a b : Worker}
  {info : WorkerName} {ws : List Worker}

/-- The names of the workers are not empty, and no two of them are equal. -/
structure NamesDistinct (fold : String → String) (configs : Configs) (ws : List Worker) :
    Prop where
  named : ∀ a ∈ ws, ∃ info, extractWorkerName fold (configs a) = .ok info ∧ info.normalized ≠ ""
  distinct : ∀ a ∈ ws, ∀ b ∈ ws, ∀ info info', extractWorkerName fold (configs a) = .ok info →
    extractWorkerName fold (configs b) = .ok info' → info.normalized = info'.normalized → a = b

/-- The workers are listed by their names, and found by them and by nothing else. -/
structure LookupsRight (fold : String → String) (w : RegistryWorld) : Prop where
  listed : (w.node.listWorkers fold w.configs).2 = .ok (w.node.workers.map fun a =>
    (extractWorkerName fold (w.configs a)).toOption.map (·.name))
  found : ∀ a ∈ w.node.workers, ∀ info, extractWorkerName fold (w.configs a) = .ok info →
    ∀ name, normalizeKey fold name = info.normalized →
      (w.node.getWorkerByName fold w.configs name).2 = .ok (some a)
  unknown : ∀ name, (∀ a ∈ w.node.workers, ∀ info,
      extractWorkerName fold (w.configs a) = .ok info → normalizeKey fold name ≠ info.normalized) →
    (w.node.getWorkerByName fold w.configs name).2 = .ok none

/-- The worker has the name it is registered under, but the name does not lead to it. -/
def Lost (fold : String → String) (configs : Configs) (m : ManageToolNode) (a : Worker) : Prop :=
  ∃ info, extractWorkerName fold (configs a) = .ok info ∧ m.workerNames a = some info ∧
    m.workersByName info.normalized ≠ some a

/-- No worker is lost, and none has a name that a later one holds. -/
structure Settled (fold : String → String) (configs : Configs) (m : ManageToolNode)
    (ws : List Worker) : Prop where
  kept : ∀ a ∈ ws, ¬ Lost fold configs m a
  free : ws.Pairwise fun a b => ∀ info, extractWorkerName fold (configs a) = .ok info →
    m.workersByName info.normalized ≠ some b

/-- A change of the configurations or of the workers that leaves distinct names leaves no worker
lost, and none with a name that a later one holds. A worker is not added while it is lost, and
not added again while it has no name or one that another worker holds. -/
def Undisturbed (fold : String → String) (w : RegistryWorld) : RegistryCall → Prop
  | .addWorker agent => ¬ Lost fold w.configs w.node agent ∧
      (agent ∈ w.node.workers → ∃ info, extractWorkerName fold (w.configs agent) = .ok info ∧
        ∀ b, w.node.workersByName info.normalized = some b → b = agent)
  | .removeWorker agent => NamesDistinct fold w.configs (w.node.workers.erase agent) →
      Settled fold w.configs w.node (w.node.workers.erase agent)
  | .setConfig agent name =>
      NamesDistinct fold (w.setConfig agent name).configs w.node.workers →
        Settled fold (w.setConfig agent name).configs w.node w.node.workers
  | .listWorkers | .getWorkerByName _ => True

/-- A name leads only to a worker that is registered under it. -/
def Holds (m : ManageToolNode) : Prop :=
  ∀ name a, m.workersByName name = some a →
    ∃ info, m.workerNames a = some info ∧ info.normalized = name

/-- What every run keeps. -/
structure Consistent (m : ManageToolNode) : Prop where
  holds : Holds m
  attached : ∀ name a, m.workersByName name = some a → a ∈ m.workers
  nodup : m.workers.Nodup

/-- Nothing changed but what concerns this worker. -/
structure OnlyFor (a : Worker) (m m' : ManageToolNode) : Prop where
  workers : m'.workers = m.workers
  names : ∀ b, b ≠ a → m'.workerNames b = m.workerNames b
  held : ∀ b, b ≠ a → ∀ name, m'.workersByName name = some b ↔ m.workersByName name = some b

theorem OnlyFor.rfl : OnlyFor a m m := ⟨.refl _, fun _ _ => .refl _, fun _ _ _ => Iff.rfl⟩

theorem OnlyFor.trans {m'' : ManageToolNode} (h : OnlyFor a m m') (h' : OnlyFor a m' m'') :
    OnlyFor a m m'' :=
  ⟨h'.workers.trans h.workers, fun b hb => (h'.names b hb).trans (h.names b hb),
    fun b hb name => (h'.held b hb name).trans (h.held b hb name)⟩

theorem OnlyFor.lost_iff (h : OnlyFor a m m') (hb : b ≠ a) :
    Lost fold configs m' b ↔ Lost fold configs m b := by
  simp only [Lost, h.names b hb, ne_eq, h.held b hb]

theorem onlyFor_release (m : ManageToolNode) (a : Worker) (name : String) :
    OnlyFor a m (m.release a name) := by
  unfold release
  split_ifs with hheld
  · refine ⟨.refl _, fun _ _ => .refl _, fun b hb name' => ?_⟩
    by_cases hname : name' = name
    · subst hname
      simp [hheld, hb.symm]
    · simp [hname]
  · exact .rfl

theorem release_ne (m : ManageToolNode) (a : Worker) (name : String) :
    (m.release a name).workersByName name ≠ some a := by
  unfold release
  split_ifs with hheld
  · simp
  · exact hheld

@[simp] theorem workerNames_release (name : String) :
    (m.release a name).workerNames = m.workerNames := by
  unfold release
  split_ifs <;> rfl

theorem workersByName_release_le {name name' : String}
    (h : (m.release a name).workersByName name' = some b) : m.workersByName name' = some b := by
  unfold release at h
  split_ifs at h with hheld
  · by_cases hname : name' = name
    · simp [hname] at h
    · simpa [hname] using h
  · exact h

theorem Holds.release (h : Holds m) (name : String) : Holds (m.release a name) := by
  intro name' b hb
  rw [workerNames_release]
  exact h name' b (workersByName_release_le hb)

/-- A worker holds no name but the one it is registered under. -/
theorem Holds.release_free (h : Holds m) {current : WorkerName}
    (hcurrent : m.workerNames a = some current) (name : String) :
    (m.release a current.normalized).workersByName name ≠ some a := by
  intro hheld
  obtain ⟨info, hinfo, rfl⟩ := h name a (workersByName_release_le hheld)
  obtain rfl : current = info := by simpa [hcurrent] using hinfo
  exact release_ne m a current.normalized hheld

theorem onlyFor_register (hfree : ∀ b, m.workersByName info.normalized = some b → b = a) :
    OnlyFor a m (m.register a info) := by
  refine ⟨.refl _, fun b hb => by simp [register, hb], fun b hb name => ?_⟩
  by_cases hname : name = info.normalized
  · subst hname
    have hne : m.workersByName info.normalized ≠ some b := fun h => hb (hfree b h)
    simp [register, hb.symm, hne]
  · simp [register, hname]

theorem Holds.register (h : Holds m) (hfree : ∀ name, m.workersByName name ≠ some a) :
    Holds (m.register a info) := by
  intro name b hb
  by_cases hname : name = info.normalized
  · subst hname
    obtain rfl : a = b := by simpa [ManageToolNode.register] using hb
    exact ⟨info, by simp [ManageToolNode.register], .refl _⟩
  · have hold : m.workersByName name = some b := by
      simpa [ManageToolNode.register, hname] using hb
    have hne : b ≠ a := fun heq => hfree name (heq ▸ hold)
    obtain ⟨info', hinfo', hnormalized⟩ := h name b hold
    exact ⟨info', by simpa [ManageToolNode.register, hne] using hinfo', hnormalized⟩

theorem ensureUniqueName_eq_ok_iff :
    m.ensureUniqueName a info = .ok () ↔
      ∀ b, m.workersByName info.normalized = some b → b = a := by
  unfold ensureUniqueName
  cases hheld : m.workersByName info.normalized with
  | none => simp
  | some b => by_cases hb : b = a <;> simp [hb]

/-- What a sync of one worker can do. -/
structure Synced (fold : String → String) (configs : Configs) (a : Worker) (m : ManageToolNode)
    (result : ManageToolNode × Except String WorkerName) : Prop where
  only : OnlyFor a m result.1
  holds : Holds result.1
  registered : ∀ info, result.2 = .ok info → extractWorkerName fold (configs a) = .ok info ∧
    result.1.workerNames a = some info ∧
      (¬ Lost fold configs m a → result.1.workersByName info.normalized = some a)
  failed : ∀ e, result.2 = .error e → (∀ name, m.workersByName name ≠ some a) → result.1 = m
  succeeds : ∀ info, extractWorkerName fold (configs a) = .ok info →
    (∀ b, m.workersByName info.normalized = some b → b = a) → result.2 = .ok info

/-- The part of a sync after the old name is released. -/
theorem synced_of_released {latest : WorkerName} {released : ManageToolNode}
    (hlatest : extractWorkerName fold (configs a) = .ok latest) (honly : OnlyFor a m released)
    (hholds : Holds released) (hfree : ∀ name, released.workersByName name ≠ some a)
    (hle : ∀ name b, released.workersByName name = some b → m.workersByName name = some b)
    (hsame : (∀ name, m.workersByName name ≠ some a) → released = m) :
    Synced fold configs a m (match released.ensureUniqueName a latest with
      | .error e => (released, .error e)
      | .ok _ => (released.register a latest, .ok latest)) := by
  cases hunique : released.ensureUniqueName a latest with
  | error e =>
    refine ⟨honly, hholds, by simp, fun _ _ => hsame, fun info hinfo hown => ?_⟩
    obtain rfl : latest = info := by simpa [hlatest] using hinfo
    have hok := ensureUniqueName_eq_ok_iff.mpr fun b hb => hown b (hle _ b hb)
    simp [hunique] at hok
  | ok _ =>
    have hown := ensureUniqueName_eq_ok_iff.mp hunique
    refine ⟨honly.trans (onlyFor_register hown), hholds.register hfree, ?_, by simp, ?_⟩
    · rintro _ ⟨⟩
      exact ⟨hlatest, by simp [register], fun _ => by simp [register]⟩
    · intro info hinfo _
      exact hinfo ▸ hlatest ▸ rfl

theorem synced (h : Holds m) (a : Worker) :
    Synced fold configs a m (m.syncWorker fold configs a) := by
  unfold syncWorker
  cases hlatest : extractWorkerName fold (configs a) with
  | error e => exact ⟨.rfl, h, by simp, fun _ _ _ => .refl _, by simp [hlatest]⟩
  | ok latest =>
    dsimp only
    split_ifs with hcurrent
    · refine ⟨.rfl, h, ?_, by simp, fun info hinfo _ => by simpa [hlatest] using hinfo⟩
      rintro _ ⟨⟩
      refine ⟨hlatest, hcurrent, fun hkept => ?_⟩
      by_contra hlost
      exact hkept ⟨latest, hlatest, hcurrent, hlost⟩
    · cases hname : m.workerNames a with
      | none =>
        refine synced_of_released hlatest .rfl h (fun name hheld => ?_) (fun _ _ => id)
          fun _ => .refl _
        obtain ⟨info, hinfo, -⟩ := h name a hheld
        simp [hname] at hinfo
      | some current =>
        refine synced_of_released hlatest (onlyFor_release m a _) (h.release _)
          (h.release_free hname) (fun _ _ => workersByName_release_le) fun hnone => ?_
        simp [release, hnone]

theorem Consistent.sync (h : Consistent m) (ha : a ∈ m.workers) :
    Consistent (m.syncWorker fold configs a).1 := by
  have hsynced : Synced fold configs a m _ := synced h.holds a
  refine ⟨hsynced.holds, fun name b hb => ?_, hsynced.only.workers ▸ h.nodup⟩
  rw [hsynced.only.workers]
  by_cases hba : b = a
  · exact hba ▸ ha
  · exact h.attached name b ((hsynced.only.held b hba name).mp hb)

theorem Consistent.refresh (h : Consistent m) (hws : ∀ a ∈ ws, a ∈ m.workers) :
    Consistent (m.refreshWorkers fold configs ws).1 ∧
      (m.refreshWorkers fold configs ws).1.workers = m.workers := by
  induction ws generalizing m with
  | nil => exact ⟨h, .refl _⟩
  | cons a rest ih =>
    have hconsistent : Consistent (m.syncWorker fold configs a).1 :=
      h.sync (hws a List.mem_cons_self)
    have hsynced : Synced fold configs a m _ := synced h.holds a
    have hworkers := hsynced.only.workers
    unfold refreshWorkers
    rcases hsync : m.syncWorker fold configs a with ⟨m', e | info⟩
    · rw [hsync] at hconsistent hworkers
      exact ⟨hconsistent, hworkers⟩
    · rw [hsync] at hconsistent hworkers
      have hrest := ih hconsistent fun b hb => hworkers ▸ hws b (List.mem_cons_of_mem _ hb)
      exact ⟨hrest.1, hrest.2.trans hworkers⟩

structure Refreshed (fold : String → String) (configs : Configs) (ws : List Worker)
    (m m' : ManageToolNode) : Prop where
  registered : ∀ a ∈ ws, ∀ info, extractWorkerName fold (configs a) = .ok info →
    m'.workerNames a = some info ∧ m'.workersByName info.normalized = some a
  others : ∀ a, a ∉ ws → m'.workerNames a = m.workerNames a ∧
    ∀ name, m'.workersByName name = some a ↔ m.workersByName name = some a

theorem NamesDistinct.of_subset (h : NamesDistinct fold configs ws) {ws' : List Worker}
    (hsub : ∀ a ∈ ws', a ∈ ws) : NamesDistinct fold configs ws' :=
  ⟨fun a ha => h.named a (hsub a ha), fun a ha b hb => h.distinct a (hsub a ha) b (hsub b hb)⟩

theorem Settled.of_same (h : Settled fold configs m ws)
    (hname : ∀ b ∈ ws, m'.workerNames b = m.workerNames b)
    (hheld : ∀ b ∈ ws, ∀ name, m'.workersByName name = some b ↔ m.workersByName name = some b) :
    Settled fold configs m' ws := by
  refine ⟨fun b hb => ?_, h.free.imp_of_mem fun {b c} _ hc hfree info hinfo => ?_⟩
  · simpa only [Lost, hname b hb, ne_eq, hheld b hb] using h.kept b hb
  · rw [ne_eq, hheld c hc]
    exact hfree info hinfo

/-- Syncing the first of settled workers leaves the others settled. -/
theorem Settled.tail (h : Settled fold configs m (a :: ws)) (hnodup : (a :: ws).Nodup)
    (honly : OnlyFor a m m') : Settled fold configs m' ws := by
  obtain ⟨ha, -⟩ := List.nodup_cons.mp hnodup
  have hne (b : Worker) (hb : b ∈ ws) : b ≠ a := fun heq => ha (heq ▸ hb)
  have htail : Settled fold configs m ws :=
    ⟨fun b hb => h.kept b (List.mem_cons_of_mem _ hb), (List.pairwise_cons.mp h.free).2⟩
  exact htail.of_same (fun b hb => honly.names b (hne b hb))
    fun b hb => honly.held b (hne b hb)

/-- A refresh of settled workers with distinct names succeeds, when the names that they have
are held by none but them. -/
theorem refreshWorkers_spec (hholds : Holds m) (hnodup : ws.Nodup)
    (hnames : NamesDistinct fold configs ws) (hsettled : Settled fold configs m ws)
    (hheld : ∀ a ∈ ws, ∀ info, extractWorkerName fold (configs a) = .ok info →
      ∀ b, m.workersByName info.normalized = some b → b ∈ ws) :
    ∃ m', m.refreshWorkers fold configs ws = (m', .ok ()) ∧ Refreshed fold configs ws m m' := by
  induction ws generalizing m with
  | nil => exact ⟨m, .refl _, by simp, fun _ _ => ⟨.refl _, fun _ => Iff.rfl⟩⟩
  | cons a rest ih =>
    obtain ⟨ha, hrestNodup⟩ := List.nodup_cons.mp hnodup
    obtain ⟨info, hinfo, -⟩ := hnames.named a List.mem_cons_self
    have hsynced : Synced fold configs a m _ := synced hholds a
    have hok := hsynced.succeeds info hinfo fun b hb =>
      (List.mem_cons.mp (hheld a List.mem_cons_self info hinfo b hb)).resolve_right
        fun hmem => (List.pairwise_cons.mp hsettled.free).1 b hmem info hinfo hb
    rcases hsync : m.syncWorker fold configs a with ⟨m₁, result⟩
    rw [hsync] at hsynced hok
    obtain rfl : result = .ok info := hok
    have hregistered := hsynced.registered info (.refl _)
    have hown := hregistered.2.2 (hsettled.kept a List.mem_cons_self)
    obtain ⟨m', hrefresh, hrefreshed⟩ := ih hsynced.holds hrestNodup
      (hnames.of_subset fun b hb => List.mem_cons_of_mem _ hb)
      (hsettled.tail hnodup hsynced.only) (by
        intro b hb info' hinfo' c hc
        have hca : c ≠ a := by
          rintro rfl
          obtain ⟨current, hcurrent, hkey⟩ := hsynced.holds _ _ hc
          obtain rfl : info = current := Option.some.inj (hregistered.2.1.symm.trans hcurrent)
          have hbc := hnames.distinct _ List.mem_cons_self b (List.mem_cons_of_mem _ hb)
            info info' hinfo hinfo' hkey
          exact ha (hbc ▸ hb)
        have hold := (hsynced.only.held c hca _).mp hc
        exact (List.mem_cons.mp (hheld b (List.mem_cons_of_mem _ hb) info' hinfo' c hold)
          ).resolve_left hca)
    refine ⟨m', by simp only [refreshWorkers, hsync, hrefresh], ?_, ?_⟩
    · intro b hb info' hinfo'
      rcases List.mem_cons.mp hb with rfl | hb
      · obtain rfl : info = info' := by simpa [hinfo] using hinfo'
        obtain ⟨hname, hheldBy⟩ := hrefreshed.others _ ha
        exact ⟨hname.trans hregistered.2.1, (hheldBy _).mpr hown⟩
      · exact hrefreshed.registered b hb info' hinfo'
    · intro b hb
      obtain ⟨hba, hbrest⟩ := List.ne_and_not_mem_of_not_mem_cons hb
      obtain ⟨hname, hheldBy⟩ := hrefreshed.others b hbrest
      exact ⟨hname.trans (hsynced.only.names b hba),
        fun name => (hheldBy name).trans (hsynced.only.held b hba name)⟩

theorem refreshAllWorkers_spec (h : Consistent m) (hnames : NamesDistinct fold configs m.workers)
    (hsettled : Settled fold configs m m.workers) :
    ∃ m', m.refreshAllWorkers fold configs = (m', .ok ()) ∧ Consistent m' ∧
      m'.workers = m.workers ∧ Refreshed fold configs m.workers m m' := by
  obtain ⟨m', hrefresh, hrefreshed⟩ := refreshWorkers_spec h.holds h.nodup hnames hsettled
    fun _ _ _ _ b hb => h.attached _ b hb
  obtain ⟨hconsistent, hworkers⟩ : Consistent (m.refreshWorkers fold configs m.workers).1 ∧ _ :=
    h.refresh fun _ ha => ha
  rw [hrefresh] at hconsistent hworkers
  exact ⟨m', hrefresh, hconsistent, hworkers, hrefreshed⟩

/-- A worker that holds its own name is found as it is. -/
theorem syncWorker_of_registered (hinfo : extractWorkerName fold (configs a) = .ok info)
    (hname : m.workerNames a = some info) :
    m.syncWorker fold configs a = (m, .ok info) := by
  simp [syncWorker, hinfo, hname]

theorem lookupsRight {w : RegistryWorld} (h : Consistent w.node)
    (hnames : NamesDistinct fold w.configs w.node.workers)
    (hsettled : Settled fold w.configs w.node w.node.workers) : LookupsRight fold w := by
  obtain ⟨m', hrefresh, hconsistent, hworkers, hrefreshed⟩ :=
    refreshAllWorkers_spec h hnames hsettled
  refine ⟨?_, fun a ha info hinfo name hname => ?_, fun name hname => ?_⟩
  · simp only [listWorkers, hrefresh, hworkers]
    congr 1
    refine List.map_congr_left fun a ha => ?_
    obtain ⟨info, hinfo, -⟩ := hnames.named a ha
    rw [(hrefreshed.registered a ha info hinfo).1, hinfo]
    simp [Except.toOption]
  · obtain ⟨hregistered, hheld⟩ := hrefreshed.registered a ha info hinfo
    obtain ⟨info', hinfo', hne⟩ := hnames.named a ha
    obtain rfl : info = info' := by simpa [hinfo] using hinfo'
    simp only [getWorkerByName, hrefresh, hname, if_neg hne, hheld,
      syncWorker_of_registered hinfo hregistered]
  · simp only [getWorkerByName, hrefresh]
    split_ifs with hempty
    · rfl
    · have hnone : m'.workersByName (normalizeKey fold name) = none := by
        refine Option.eq_none_iff_forall_ne_some.mpr fun a ha => ?_
        have hmem := hworkers ▸ hconsistent.attached _ a ha
        obtain ⟨info, hinfo, -⟩ := hnames.named a hmem
        obtain ⟨current, hcurrent, hkey⟩ := hconsistent.holds _ a ha
        obtain rfl : info = current :=
          Option.some.inj ((hrefreshed.registered a hmem info hinfo).1.symm.trans hcurrent)
        exact hname a hmem info hinfo hkey.symm
      simp only [hnone]

/-- After a refresh of settled workers they are settled again. -/
theorem Refreshed.settled (h : Refreshed fold configs ws m m') (hnodup : ws.Nodup) :
    Settled fold configs m' ws := by
  constructor
  · rintro a ha ⟨info, hinfo, -, hlost⟩
    exact hlost (h.registered a ha info hinfo).2
  · refine hnodup.imp_of_mem fun {a b} ha _ hab info hinfo hheld => hab ?_
    exact Option.some.inj ((h.registered a ha info hinfo).2.symm.trans hheld)

end Agyn.WorkerRegistry
