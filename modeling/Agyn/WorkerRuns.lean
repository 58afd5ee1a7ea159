import Agyn.WorkerLookups

/-!
Runs of a manage tool whose agents are attached, detached and renamed while it is used. Look-ups
may come at any time, also while names clash; what matters is the state in which a change of the
names or of the workers leaves the registry.
-/
namespace Agyn.WorkerRegistry

open ManageToolNode

variable {fold : String → String} {configs : Configs} {m m' : ManageToolNode} {a : Worker}
  {info : WorkerName} {ws : List Worker} {w w' : RegistryWorld}

/-- What every undisturbed run keeps. -/
structure Sound (fold : String → String) (w : RegistryWorld) : Prop where
  consistent : Consistent w.node
  settled : NamesDistinct fold w.configs w.node.workers →
    Settled fold w.configs w.node w.node.workers

/-- A registered worker is settled among others that a sync of it did not touch. -/
theorem settled_of_synced (hnodup : ws.Nodup) (hnames : NamesDistinct fold configs ws)
    (ha : a ∈ ws) (hinfo : extractWorkerName fold (configs a) = .ok info)
    (honly : OnlyFor a m m') (hholds : Holds m') (hname : m'.workerNames a = some info)
    (hown : m'.workersByName info.normalized = some a)
    (hkept : ∀ b ∈ ws, b ≠ a → ¬ Lost fold configs m b)
    (hfree : ws.Pairwise fun b c => c ≠ a → ∀ info, extractWorkerName fold (configs b) = .ok info →
      m.workersByName info.normalized ≠ some c) : Settled fold configs m' ws := by
  constructor
  · intro b hb
    by_cases hba : b = a
    · rintro ⟨info', hinfo', -, hlost⟩
      rw [hba] at hinfo' hlost
      obtain rfl : info = info' := by simpa [hinfo] using hinfo'
      exact hlost hown
    · rw [honly.lost_iff hba]
      exact hkept b hb hba
  · refine (hfree.and hnodup).imp_of_mem fun {b c} hb _ hbc info' hinfo' hheld => ?_
    by_cases hca : c = a
    · rw [hca] at hheld hbc
      obtain ⟨current, hcurrent, hkey⟩ := hholds _ _ hheld
      obtain rfl : info = current := Option.some.inj (hname.symm.trans hcurrent)
      exact hbc.2 (hnames.distinct b hb a ha info' info hinfo' hinfo hkey.symm)
    · exact hbc.1 hca info' hinfo' ((honly.held c hca _).mp hheld)

theorem Consistent.attach (h : Consistent m) (ha : a ∉ m.workers) :
    Consistent { m with workers := m.workers ++ [a] } :=
  ⟨h.holds, fun name b hb => List.mem_append_left _ (h.attached name b hb),
    h.nodup.append (List.nodup_singleton a) (by simpa using ha)⟩

theorem sound_addWorker_attached (h : Sound fold w) (ha : a ∈ w.node.workers)
    (hinfo : extractWorkerName fold (w.configs a) = .ok info)
    (hown : ∀ b, w.node.workersByName info.normalized = some b → b = a) :
    Sound fold { w with node := (w.node.addWorker fold w.configs a).1 } := by
  have hsynced : Synced fold w.configs a w.node _ := synced h.consistent.holds a
  have hconsistent : Consistent (w.node.syncWorker fold w.configs a).1 := h.consistent.sync ha
  have hok := hsynced.succeeds info hinfo hown
  simp only [addWorker, if_pos ha]
  rcases hsync : w.node.syncWorker fold w.configs a with ⟨m', result⟩
  rw [hsync] at hsynced hconsistent hok
  obtain rfl : result = .ok info := hok
  have hworkers : m'.workers = w.node.workers := hsynced.only.workers
  refine ⟨hconsistent, fun hnames => ?_⟩
  change NamesDistinct fold w.configs m'.workers at hnames
  change Settled fold w.configs m' m'.workers
  rw [hworkers] at hnames ⊢
  have hsettled := h.settled hnames
  obtain ⟨-, hname, hheld⟩ := hsynced.registered info rfl
  exact settled_of_synced h.consistent.nodup hnames ha hinfo hsynced.only hsynced.holds hname
    (hheld (hsettled.kept a ha)) (fun b hb _ => hsettled.kept b hb)
    (hsettled.free.imp fun hfree _ info hinfo => hfree info hinfo)

theorem sound_addWorker_new (h : Sound fold w) (ha : a ∉ w.node.workers)
    (hkept : ¬ Lost fold w.configs w.node a) :
    Sound fold { w with node := (w.node.addWorker fold w.configs a).1 } := by
  have hattached := h.consistent.attach ha
  have hsynced : Synced fold w.configs a _ _ := synced hattached.holds a
  have hconsistent : Consistent (ManageToolNode.syncWorker fold w.configs _ a).1 :=
    hattached.sync (List.mem_append_right _ (List.mem_singleton.mpr rfl))
  simp only [addWorker, if_neg ha]
  rcases hsync : ManageToolNode.syncWorker fold w.configs
    { w.node with workers := w.node.workers ++ [a] } a with ⟨m', e | info⟩
  · -- nothing was released, since a worker that is not attached holds no name
    rw [hsync] at hsynced
    have hsame : m' = { w.node with workers := w.node.workers ++ [a] } :=
      hsynced.failed e rfl fun name hheld => ha (h.consistent.attached name a hheld)
    have hnode : { m' with workers := m'.workers.erase a } = w.node := by
      rw [hsame]
      simp [List.erase_append, ha]
    change Sound fold { w with node := { m' with workers := m'.workers.erase a } }
    rw [hnode]
    exact h
  · rw [hsync] at hsynced hconsistent
    have hworkers : m'.workers = w.node.workers ++ [a] := hsynced.only.workers
    refine ⟨hconsistent, fun hnames => ?_⟩
    change NamesDistinct fold w.configs m'.workers at hnames
    change Settled fold w.configs m' m'.workers
    have hnodup := hattached.nodup
    rw [hworkers] at hnames ⊢
    have hsettled := h.settled (hnames.of_subset fun b hb => List.mem_append_left _ hb)
    obtain ⟨hinfo, hname, hheld⟩ := hsynced.registered info rfl
    refine settled_of_synced hnodup hnames (List.mem_append_right _ (List.mem_singleton.mpr rfl))
      hinfo hsynced.only hsynced.holds hname (hheld hkept) ?_ ?_
    · intro b hb hba
      exact hsettled.kept b ((List.mem_append.mp hb).resolve_right (by simpa using hba))
    · refine List.pairwise_append.mpr ⟨hsettled.free.imp fun hfree _ info hinfo => hfree info hinfo,
        by simp, ?_⟩
      intro b _ c hc hca
      exact absurd (List.mem_singleton.mp hc) hca

/-- A removed worker holds no name, and the others keep what they have. -/
theorem removeWorker_spec (h : Consistent m) (a : Worker) :
    (m.removeWorker a).workers = m.workers.erase a ∧
      (∀ name, (m.removeWorker a).workersByName name ≠ some a) ∧
      (∀ b, b ≠ a → (m.removeWorker a).workerNames b = m.workerNames b) ∧
      ∀ b, b ≠ a → ∀ name,
        (m.removeWorker a).workersByName name = some b ↔ m.workersByName name = some b := by
  unfold removeWorker
  dsimp only
  cases hname : m.workerNames a with
  | none =>
    refine ⟨rfl, fun name hheld => ?_, fun _ _ => rfl, fun _ _ _ => Iff.rfl⟩
    obtain ⟨info, hinfo, -⟩ := h.holds name a hheld
    simp [hname] at hinfo
  | some info =>
    have honly := onlyFor_release { m with workers := m.workers.erase a } a info.normalized
    have hfree := Holds.release_free (m := { m with workers := m.workers.erase a }) h.holds hname
    refine ⟨honly.workers, hfree, fun b hb => ?_, fun b hb name => honly.held b hb name⟩
    simp [hb]

theorem sound_removeWorker (h : Sound fold w)
    (hok : NamesDistinct fold w.configs (w.node.workers.erase a) →
      Settled fold w.configs w.node (w.node.workers.erase a)) :
    Sound fold { w with node := w.node.removeWorker a } := by
  obtain ⟨hworkers, hnone, hnames, hheld⟩ := removeWorker_spec h.consistent a
  have hne (b : Worker) (hb : b ∈ w.node.workers.erase a) : b ≠ a :=
    ((h.consistent.nodup.mem_erase_iff).mp hb).1
  refine ⟨⟨fun name b hb => ?_, fun name b hb => ?_, hworkers ▸ h.consistent.nodup.erase a⟩, ?_⟩
  · have hba : b ≠ a := fun heq => hnone name (heq ▸ hb)
    change ∃ info, (w.node.removeWorker a).workerNames b = some info ∧ _
    rw [hnames b hba]
    exact h.consistent.holds name b ((hheld b hba name).mp hb)
  · have hba : b ≠ a := fun heq => hnone name (heq ▸ hb)
    change b ∈ (w.node.removeWorker a).workers
    rw [hworkers]
    exact (List.mem_erase_of_ne hba).mpr (h.consistent.attached name b ((hheld b hba name).mp hb))
  · intro hdistinct
    change NamesDistinct fold w.configs (w.node.removeWorker a).workers at hdistinct
    change Settled fold w.configs (w.node.removeWorker a) (w.node.removeWorker a).workers
    rw [hworkers] at hdistinct ⊢
    exact (hok hdistinct).of_same (fun b hb => hnames b (hne b hb)) fun b hb => hheld b (hne b hb)

theorem sound_refresh (h : Sound fold w) :
    Sound fold { w with node := (w.node.refreshAllWorkers fold w.configs).1 } := by
  obtain ⟨hconsistent, hworkers⟩ :
      Consistent (w.node.refreshWorkers fold w.configs w.node.workers).1 ∧ _ :=
    h.consistent.refresh fun _ ha => ha
  refine ⟨hconsistent, fun hnames => ?_⟩
  change NamesDistinct fold w.configs (w.node.refreshAllWorkers fold w.configs).1.workers at hnames
  change Settled fold w.configs (w.node.refreshAllWorkers fold w.configs).1 _
  rw [show (w.node.refreshAllWorkers fold w.configs).1.workers = w.node.workers from hworkers]
    at hnames ⊢
  obtain ⟨m', hrefresh, -, -, hrefreshed⟩ :=
    refreshAllWorkers_spec h.consistent hnames (h.settled hnames)
  rw [hrefresh]
  exact hrefreshed.settled h.consistent.nodup

theorem listWorkers_fst (m : ManageToolNode) :
    (m.listWorkers fold configs).1 = (m.refreshAllWorkers fold configs).1 := by
  unfold listWorkers
  rcases m.refreshAllWorkers fold configs with ⟨m', e | _⟩ <;> rfl

/-- Finding a worker refreshes all of them and may sync the found one once more. -/
theorem getWorkerByName_fst (fold : String → String) (configs : Configs) (m : ManageToolNode)
    (name : String) :
    (m.getWorkerByName fold configs name).1 = (m.refreshAllWorkers fold configs).1 ∨
      ∃ key a, (m.refreshAllWorkers fold configs).1.workersByName key = some a ∧
        (m.getWorkerByName fold configs name).1 =
          ((m.refreshAllWorkers fold configs).1.syncWorker fold configs a).1 := by
  unfold getWorkerByName
  rcases m.refreshAllWorkers fold configs with ⟨m', e | _⟩
  · exact Or.inl rfl
  · dsimp only
    split_ifs with hempty
    · exact Or.inl rfl
    · cases hheld : m'.workersByName (normalizeKey fold name) with
      | none => exact Or.inl rfl
      | some a =>
        refine Or.inr ⟨_, a, hheld, ?_⟩
        dsimp only
        rcases m'.syncWorker fold configs a with ⟨m'', e | _⟩ <;> rfl

theorem sound_getWorkerByName (h : Sound fold w) (name : String) :
    Sound fold { w with node := (w.node.getWorkerByName fold w.configs name).1 } := by
  have hrefreshed := sound_refresh h
  rcases getWorkerByName_fst fold w.configs w.node name with
    heq | ⟨key, a, hheld, heq⟩
  · rw [heq]
    exact hrefreshed
  · rw [heq]
    have ha := hrefreshed.consistent.attached key a hheld
    refine ⟨hrefreshed.consistent.sync ha, fun hnames => ?_⟩
    have hworkers : ((w.node.refreshAllWorkers fold w.configs).1.syncWorker fold w.configs a
        ).1.workers = w.node.workers :=
      (synced hrefreshed.consistent.holds a).only.workers.trans
        (h.consistent.refresh fun _ ha => ha).2
    have hdistinct : NamesDistinct fold w.configs w.node.workers := hworkers ▸ hnames
    obtain ⟨m', hrefresh, -, hsame, hregistered⟩ :=
      refreshAllWorkers_spec h.consistent hdistinct (h.settled hdistinct)
    rw [hrefresh] at ha hrefreshed ⊢
    -- the found worker is registered under its name, so it is not registered again
    obtain ⟨info, hinfo, -⟩ := hdistinct.named a (hsame ▸ ha)
    have hname := (hregistered.registered a (hsame ▸ ha) info hinfo).1
    rw [syncWorker_of_registered hinfo hname]
    exact hrefreshed.settled (hsame ▸ hdistinct)

/-- A refresh does not notice a lost worker. -/
theorem lost_refreshWorkers (h : Holds m) (hlost : Lost fold configs m a) :
    Lost fold configs (m.refreshWorkers fold configs ws).1 a := by
  induction ws generalizing m with
  | nil => exact hlost
  | cons b rest ih =>
    have hsynced : Synced fold configs b m _ := synced h b
    have hlost' : Lost fold configs (m.syncWorker fold configs b).1 a := by
      by_cases hab : a = b
      · subst hab
        obtain ⟨info, hinfo, hname, -⟩ := id hlost
        rw [syncWorker_of_registered hinfo hname]
        exact hlost
      · exact (hsynced.only.lost_iff hab).mpr hlost
    unfold refreshWorkers
    rcases hsync : m.syncWorker fold configs b with ⟨m', e | info⟩
    · rw [hsync] at hlost'
      exact hlost'
    · rw [hsync] at hlost' hsynced
      exact ih hsynced.holds hlost'

/-- A refresh that succeeds met no worker with a name that a later one holds. -/
theorem free_of_refreshWorkers (h : Holds m) (hnodup : ws.Nodup)
    (hkept : ∀ a ∈ ws, ¬ Lost fold configs m a)
    (hrefresh : m.refreshWorkers fold configs ws = (m', .ok ())) :
    ws.Pairwise fun a b => ∀ info, extractWorkerName fold (configs a) = .ok info →
      m.workersByName info.normalized ≠ some b := by
  induction ws generalizing m with
  | nil => exact List.Pairwise.nil
  | cons a rest ih =>
    obtain ⟨ha, hrestNodup⟩ := List.nodup_cons.mp hnodup
    have hne (b : Worker) (hb : b ∈ rest) : b ≠ a := fun heq => ha (heq ▸ hb)
    have hsynced : Synced fold configs a m _ := synced h a
    unfold refreshWorkers at hrefresh
    rcases hsync : m.syncWorker fold configs a with ⟨m₁, e | latest⟩
    · simp [hsync] at hrefresh
    · rw [hsync] at hsynced hrefresh
      obtain ⟨hlatest, -, hheld⟩ := hsynced.registered latest rfl
      refine List.pairwise_cons.mpr ⟨fun b hb info hinfo hlater => ?_, ?_⟩
      · obtain rfl : latest = info := by simpa [hlatest] using hinfo
        have hlater' := (hsynced.only.held b (hne b hb) _).mpr hlater
        exact hne b hb (Option.some.inj
          (hlater'.symm.trans (hheld (hkept a List.mem_cons_self))))
      · refine (ih hsynced.holds hrestNodup (fun b hb => ?_) hrefresh).imp_of_mem ?_
        · rw [hsynced.only.lost_iff (hne b hb)]
          exact hkept b (List.mem_cons_of_mem _ hb)
        · intro b c _ hc hfree info hinfo hheldBy
          exact hfree info hinfo ((hsynced.only.held c (hne c hc) _).mpr hheldBy)

theorem normalizeKey_name (h : extractWorkerName fold (configs a) = .ok info) :
    normalizeKey fold info.name = info.normalized := by
  unfold extractWorkerName at h
  cases hconfig : configs a with
  | none => simp [hconfig] at h
  | some name =>
    simp only [hconfig] at h
    split_ifs at h with hempty
    obtain rfl := Except.ok.inj h
    rfl

/-- Among distinct names the look-ups are right exactly when the workers are settled. -/
theorem lookupsRight_iff (h : Consistent w.node)
    (hnames : NamesDistinct fold w.configs w.node.workers) :
    LookupsRight fold w ↔ Settled fold w.configs w.node w.node.workers := by
  refine ⟨fun hright => ?_, lookupsRight h hnames⟩
  obtain ⟨m', hrefresh⟩ : ∃ m', w.node.refreshAllWorkers fold w.configs = (m', .ok ()) := by
    have hlisted := hright.listed
    unfold listWorkers at hlisted
    rcases hresult : w.node.refreshAllWorkers fold w.configs with ⟨m', e | _⟩
    · simp [hresult] at hlisted
    · exact ⟨m', rfl⟩
  have hkept : ∀ a ∈ w.node.workers, ¬ Lost fold w.configs w.node a := by
    intro a ha hlost
    have hstill : Lost fold w.configs (w.node.refreshAllWorkers fold w.configs).1 a :=
      lost_refreshWorkers h.holds hlost
    rw [hrefresh] at hstill
    obtain ⟨info, hinfo, -, hnot⟩ := hstill
    obtain ⟨info', hinfo', hne⟩ := hnames.named a ha
    obtain rfl : info = info' := by simpa [hinfo] using hinfo'
    have hfound := hright.found a ha info hinfo info.name (normalizeKey_name hinfo)
    simp only [getWorkerByName, hrefresh, normalizeKey_name hinfo, if_neg hne] at hfound
    cases hheld : m'.workersByName info.normalized with
    | none => simp [hheld] at hfound
    | some b =>
      have hba : b ≠ a := fun heq => hnot (heq ▸ hheld)
      simp only [hheld] at hfound
      rcases hsync : m'.syncWorker fold w.configs b with ⟨m'', e | _⟩
      · simp [hsync] at hfound
      · exact hba (by simpa [hsync] using hfound)
  exact ⟨hkept, free_of_refreshWorkers h.holds h.nodup hkept hrefresh⟩

theorem sound_initial : Sound fold .initial := by
  refine ⟨⟨?_, ?_, List.nodup_nil⟩, fun _ => ⟨?_, List.Pairwise.nil⟩⟩
  · simp [RegistryWorld.initial, ManageToolNode.initial, Holds]
  · simp [RegistryWorld.initial, ManageToolNode.initial]
  · simp [RegistryWorld.initial, ManageToolNode.initial]

theorem sound_perform (h : Sound fold w) (call : RegistryCall) (hok : Undisturbed fold w call) :
    Sound fold (w.perform fold call) := by
  cases call with
  | addWorker a =>
    by_cases ha : a ∈ w.node.workers
    · obtain ⟨info, hinfo, hown⟩ := hok.2 ha
      exact sound_addWorker_attached h ha hinfo hown
    · exact sound_addWorker_new h ha hok.1
  | removeWorker a => exact sound_removeWorker h hok
  | setConfig a name => exact ⟨h.consistent, hok⟩
  | listWorkers =>
    change Sound fold { w with node := (w.node.listWorkers fold w.configs).1 }
    rw [listWorkers_fst]
    exact sound_refresh h
  | getWorkerByName name => exact sound_getWorkerByName h name

/-- In every state of an undisturbed run in which the names of the attached workers are not empty
and distinct, the workers are listed by their names and found by them. -/
theorem lookups_right (h : Reached (RegistryWorld.step fold) (Undisturbed fold) .initial w)
    (hnames : NamesDistinct fold w.configs w.node.workers) : LookupsRight fold w := by
  have hsound : Sound fold w := by
    refine h.invariant sound_initial fun w call w' hw hok hstep => ?_
    obtain rfl := Option.some.inj hstep
    exact sound_perform hw call hok
  exact lookupsRight hsound.consistent hnames (hsound.settled hnames)

/-- Lower case of ASCII letters, which have no other normal form. -/
def foldAscii (value : String) : String := String.ofList (value.toList.map Char.toLower)

instance decidableForallOk {ε α : Type} (r : Except ε α) (P : α → Prop) [DecidablePred P] :
    Decidable (∀ x, r = .ok x → P x) :=
  match r with
  | .ok x => decidable_of_iff (P x) ⟨fun h _ hx => Except.ok.inj hx ▸ h, fun h => h x rfl⟩
  | .error _ => isTrue nofun

instance decidableExistsOk {ε α : Type} (r : Except ε α) (P : α → Prop) [DecidablePred P] :
    Decidable (∃ x, r = .ok x ∧ P x) :=
  match r with
  | .ok x => decidable_of_iff (P x) ⟨fun h => ⟨x, rfl, h⟩, fun ⟨_, hx, h⟩ => Except.ok.inj hx ▸ h⟩
  | .error _ => isFalse fun ⟨_, hx, _⟩ => nomatch hx

instance (fold : String → String) (configs : Configs) (m : ManageToolNode) (a : Worker) :
    Decidable (Lost fold configs m a) :=
  inferInstanceAs (Decidable (∃ info, extractWorkerName fold (configs a) = .ok info ∧
    m.workerNames a = some info ∧ m.workersByName info.normalized ≠ some a))

instance (fold : String → String) (configs : Configs) (m : ManageToolNode) (ws : List Worker) :
    Decidable (Settled fold configs m ws) :=
  decidable_of_iff ((∀ a ∈ ws, ¬ Lost fold configs m a) ∧ ws.Pairwise fun a b => ∀ info,
      extractWorkerName fold (configs a) = .ok info → m.workersByName info.normalized ≠ some b)
    ⟨fun h => ⟨h.1, h.2⟩, fun h => ⟨h.kept, h.free⟩⟩

instance (fold : String → String) (configs : Configs) (ws : List Worker) :
    Decidable (NamesDistinct fold configs ws) :=
  decidable_of_iff ((∀ a ∈ ws, ∃ info, extractWorkerName fold (configs a) = .ok info ∧
      info.normalized ≠ "") ∧ ∀ a ∈ ws, ∀ b ∈ ws, ∀ info,
        extractWorkerName fold (configs a) = .ok info → ∀ info',
          extractWorkerName fold (configs b) = .ok info' →
            info.normalized = info'.normalized → a = b)
    ⟨fun h => ⟨h.1, fun a ha b hb info info' hinfo hinfo' =>
        h.2 a ha b hb info hinfo info' hinfo'⟩,
      fun h => ⟨h.named, fun a ha b hb info hinfo info' hinfo' =>
        h.distinct a ha b hb info info' hinfo hinfo'⟩⟩

instance (fold : String → String) : ∀ w call, Decidable (Undisturbed fold w call)
  | w, .addWorker agent => inferInstanceAs (Decidable (¬ Lost fold w.configs w.node agent ∧
      (agent ∈ w.node.workers → ∃ info, extractWorkerName fold (w.configs agent) = .ok info ∧
        ∀ b, w.node.workersByName info.normalized = some b → b = agent)))
  | w, .removeWorker agent => inferInstanceAs (Decidable
      (NamesDistinct fold w.configs (w.node.workers.erase agent) →
        Settled fold w.configs w.node (w.node.workers.erase agent)))
  | w, .setConfig agent name => inferInstanceAs (Decidable
      (NamesDistinct fold (w.setConfig agent name).configs w.node.workers →
        Settled fold (w.setConfig agent name).configs w.node w.node.workers))
  | _, .listWorkers => isTrue trivial
  | _, .getWorkerByName _ => isTrue trivial

/-- Two attached workers, `alpha` before `beta`. -/
def twoWorkers : List RegistryCall :=
  [.setConfig 0 (some "alpha"), .setConfig 1 (some "beta"), .addWorker 0, .addWorker 1]

/-- The second worker is renamed, the workers are listed, and the first one takes the name that is
free since then. -/
def nameHandedOn : List RegistryCall :=
  twoWorkers ++ [.setConfig 1 (some "gamma"), .listWorkers, .setConfig 0 (some "Beta")]

theorem renamed_lookups_right :
    ∃ w, runFrom (RegistryWorld.step foldAscii) .initial nameHandedOn = some w ∧
      NamesDistinct foldAscii w.configs w.node.workers ∧ LookupsRight foldAscii w := by
  have hmeet : StepsMeet (RegistryWorld.step foldAscii) (Undisturbed foldAscii) .initial
      nameHandedOn := by decide +kernel
  have hrun : ∃ w, runFrom (RegistryWorld.step foldAscii) .initial nameHandedOn = some w ∧
      NamesDistinct foldAscii w.configs w.node.workers :=
    ⟨_, rfl, by decide +kernel⟩
  obtain ⟨w, hw, hnames⟩ := hrun
  exact ⟨w, hw, hnames, lookups_right (Reached.init.run hmeet hw) hnames⟩

/-- After two workers swapped their names the look-ups fail; a worker that had the name of
another one while the workers were listed is not found when it has its own name back. -/
theorem renames_not_followed :
    (∃ w, runFrom (RegistryWorld.step foldAscii) .initial
        (twoWorkers ++ [.setConfig 0 (some "beta"), .setConfig 1 (some "alpha")]) = some w ∧
      NamesDistinct foldAscii w.configs w.node.workers ∧ ¬ LookupsRight foldAscii w) ∧
    (∃ w, runFrom (RegistryWorld.step foldAscii) .initial
        (twoWorkers ++ [.setConfig 0 (some "beta"), .listWorkers,
          .setConfig 0 (some "alpha")]) = some w ∧
      NamesDistinct foldAscii w.configs w.node.workers ∧ ¬ LookupsRight foldAscii w) := by
  refine ⟨⟨_, rfl, ?_, fun h => ?_⟩, ⟨_, rfl, ?_, fun h => ?_⟩⟩
  · decide +kernel
  · exact absurd h.listed (by decide)
  · decide +kernel
  · have hfound := h.found 0 List.mem_cons_self ⟨"alpha", "alpha"⟩ rfl "alpha" (by decide)
    exact absurd hfound (by decide)

end Agyn.WorkerRegistry
