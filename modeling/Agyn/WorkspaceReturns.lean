import Agyn.WorkspaceProvisioning

/-!
What the calls of `ensureWorkspace` return: the container that one of them has started, the same one
for all calls until one of them replaces it for another platform.
-/
namespace Agyn.Workspaces

def Phase.made : Phase → Option ℕ
  | .registering id true _ | .settled id true _ => some id
  | _ => none

def Phase.handed : Phase → Option ℕ
  | .registering id _ _ | .settled id _ _ => some id
  | _ => none

def Phase.replaced : Phase → Option ℕ
  | .stopping id | .removing id => some id
  | .starting r | .registering _ _ r | .settled _ _ r => r
  | _ => none

/-- Where the containers come from and what the calls return of them. -/
structure Recorded (runner : Runner) (s : State) : Prop where
  once : (s.calls.filterMap (·.phase.made)).Nodup
  fresh : ∀ call ∈ s.calls, ∀ id ∈ call.phase.made, id < s.nextId
  maker : ∀ w ∈ s.containers, isWorkspace w → ∃ call ∈ s.calls, call.place = w.place ∧
    call.phase.made = some w.id ∧ w.platform = runner.platformLabel call.key.platform
  handedMade : ∀ call ∈ s.calls, ∀ id ∈ call.phase.handed,
    ∃ c ∈ s.calls, c.place = call.place ∧ c.phase.made = some id
  handed : ∀ call ∈ s.calls, ∀ id ∈ call.phase.handed,
    (∃ w ∈ containersAt s.containers call.place, isWorkspace w ∧ w.id = id) ∨
      ∃ c ∈ s.calls, c.place = call.place ∧ c.phase.replaced = some id
  platforms : ∀ call ∈ s.calls, call.phase.replaced ≠ none →
    ∃ c ∈ s.calls, c.place = call.place ∧ c.key.platform ≠ call.key.platform

theorem Recorded.perm {runner : Runner} {containers : List Container} {nextId : ℕ}
    {calls calls' : List Call} (h : Recorded runner ⟨containers, nextId, calls⟩)
    (hperm : calls.Perm calls') : Recorded runner ⟨containers, nextId, calls'⟩ where
  once := (hperm.filterMap _).nodup_iff.mp h.once
  fresh := fun call hcall => h.fresh call (hperm.mem_iff.mpr hcall)
  maker := by
    simp only [← hperm.mem_iff]
    exact h.maker
  handedMade := by
    simp only [← hperm.mem_iff]
    exact h.handedMade
  handed := by
    simp only [← hperm.mem_iff]
    exact h.handed
  platforms := by
    simp only [← hperm.mem_iff]
    exact h.platforms

structure RecordedStep (runner : Runner) (containers containers' : List Container)
    (nextId nextId' : ℕ) (call : Call) (rest : List Call) (phase : Phase) : Prop where
  le : nextId ≤ nextId'
  made : ∀ id, call.phase.made = some id → phase.made = some id
  madeNew : ∀ id, phase.made = some id → call.phase.made = some id ∨ id = nextId ∧ nextId < nextId'
  replaced : ∀ id, call.phase.replaced = some id → phase.replaced = some id
  replacedNew : phase.replaced ≠ none → call.phase.replaced ≠ none ∨
    ∃ c ∈ call :: rest, c.place = call.place ∧ c.key.platform ≠ call.key.platform
  added : ∀ w ∈ containers', isWorkspace w →
    (∃ v ∈ containers, isWorkspace v ∧ v.id = w.id ∧ v.place = w.place ∧ v.platform = w.platform) ∨
      w.place = call.place ∧ phase.made = some w.id ∧
        w.platform = runner.platformLabel call.key.platform
  left : ∀ w ∈ containers, isWorkspace w →
    (∃ v ∈ containers', isWorkspace v ∧ v.id = w.id ∧ v.place = w.place) ∨
      w.place = call.place ∧ phase.replaced = some w.id
  handed : ∀ id, phase.handed = some id → call.phase.handed = some id ∨
    (∃ w ∈ containersAt containers call.place, isWorkspace w ∧ w.id = id) ∨
      phase.made = some id ∧ ∃ w ∈ containersAt containers' call.place, isWorkspace w ∧ w.id = id

section Records

variable {runner : Runner} {containers containers' : List Container} {nextId nextId' : ℕ}
  {call other : Call} {rest : List Call} {phase : Phase} {id : ℕ}

/-- Every call is still there, with what it has made and replaced. -/
theorem RecordedStep.later
    (hs : RecordedStep runner containers containers' nextId nextId' call rest phase)
    (hother : other ∈ call :: rest) :
    ∃ c ∈ { call with phase } :: rest, c.key = other.key ∧
      (∀ id, other.phase.made = some id → c.phase.made = some id) ∧
        ∀ id, other.phase.replaced = some id → c.phase.replaced = some id := by
  rcases List.mem_cons.mp hother with rfl | hother
  · exact ⟨_, List.mem_cons_self, rfl, hs.made, hs.replaced⟩
  · exact ⟨other, List.mem_cons_of_mem _ hother, rfl, fun _ => id, fun _ => id⟩

theorem RecordedStep.once
    (hs : RecordedStep runner containers containers' nextId nextId' call rest phase)
    (h : Recorded runner ⟨containers, nextId, call :: rest⟩) :
    ((({ call with phase } :: rest) : List Call).filterMap (·.phase.made)).Nodup := by
  have hnodup := h.once
  simp only [List.filterMap_cons] at hnodup ⊢
  cases hmade : phase.made with
  | none =>
    cases hold : call.phase.made with
    | none => simpa [hold] using hnodup
    | some i => simp [hs.made i hold] at hmade
  | some i =>
    rcases hs.madeNew i hmade with hold | ⟨rfl, -⟩
    · simpa [hold] using hnodup
    · cases hold : call.phase.made with
      | some j =>
        obtain rfl : j = i := by simpa [hs.made j hold] using hmade
        simpa [hold] using hnodup
      | none =>
        refine List.nodup_cons.mpr ⟨fun hmem => ?_, by simpa [hold] using hnodup⟩
        obtain ⟨c, hc, hid⟩ := List.mem_filterMap.mp hmem
        exact Nat.lt_irrefl _ (h.fresh c (List.mem_cons_of_mem _ hc) i hid)

/-- A workspace container of a place is still there, unless a call of the place has replaced it. -/
theorem RecordedStep.still
    (hs : RecordedStep runner containers containers' nextId nextId' call rest phase) {q : Place}
    (hw : ∃ w ∈ containersAt containers q, isWorkspace w ∧ w.id = id) :
    (∃ w ∈ containersAt containers' q, isWorkspace w ∧ w.id = id) ∨
      ∃ c ∈ { call with phase } :: rest, c.place = q ∧ c.phase.replaced = some id := by
  obtain ⟨w, hw, hworkspace, rfl⟩ := hw
  obtain ⟨hmem, rfl⟩ := mem_containersAt.mp hw
  rcases hs.left w hmem hworkspace with ⟨v, hv, hvworkspace, hid, hplace⟩ | ⟨hplace, hreplaced⟩
  · exact .inl ⟨v, mem_containersAt.mpr ⟨hv, hplace⟩, hvworkspace, hid⟩
  · exact .inr ⟨_, List.mem_cons_self, hplace.symm, hreplaced⟩

theorem place_congr {c : Call} (hkey : c.key = other.key) : c.place = other.place := by
  rw [Call.place, hkey, ← Call.place]

theorem Recorded.next (h : Recorded runner ⟨containers, nextId, call :: rest⟩)
    (hs : RecordedStep runner containers containers' nextId nextId' call rest phase) :
    Recorded runner ⟨containers', nextId', { call with phase } :: rest⟩ where
  once := hs.once h
  fresh := by
    intro c hc i hi
    rcases List.mem_cons.mp hc with rfl | hc
    · rcases hs.madeNew i hi with hold | ⟨rfl, hlt⟩
      · exact Nat.lt_of_lt_of_le (h.fresh call List.mem_cons_self i hold) hs.le
      · exact hlt
    · exact Nat.lt_of_lt_of_le (h.fresh c (List.mem_cons_of_mem _ hc) i hi) hs.le
  maker := by
    intro w hw hworkspace
    rcases hs.added w hw hworkspace with ⟨v, hv, hvworkspace, hid, hplace, hplatform⟩ | hnew
    · obtain ⟨c, hc, hcplace, hmade, hcplatform⟩ := h.maker v hv hvworkspace
      obtain ⟨c', hc', hkey, hmade', -⟩ := hs.later hc
      refine ⟨c', hc', ?_, hid ▸ hmade' _ hmade, ?_⟩
      · rw [place_congr hkey, hcplace, hplace]
      · rw [hkey, ← hplatform, hcplatform]
    · exact ⟨_, List.mem_cons_self, hnew.1.symm, hnew.2.1, hnew.2.2⟩
  handedMade := by
    have hlater : ∀ c ∈ call :: rest, ∀ i, c.phase.made = some i →
        ∃ c' ∈ { call with phase } :: rest, c'.place = c.place ∧ c'.phase.made = some i := by
      intro c hc i hmade
      obtain ⟨c', hc', hkey, hmade', -⟩ := hs.later hc
      exact ⟨c', hc', place_congr hkey, hmade' i hmade⟩
    have hold : ∀ c ∈ call :: rest, ∀ i ∈ c.phase.handed,
        ∃ c' ∈ { call with phase } :: rest, c'.place = c.place ∧ c'.phase.made = some i := by
      intro c hc i hi
      obtain ⟨m, hm, hplace, hmade⟩ := h.handedMade c hc i hi
      obtain ⟨c', hc', hplace', hmade'⟩ := hlater m hm i hmade
      exact ⟨c', hc', hplace'.trans hplace, hmade'⟩
    intro c hc i hi
    rcases List.mem_cons.mp hc with rfl | hc
    · rcases hs.handed i hi with hcall | ⟨w, hw, hworkspace, rfl⟩ | ⟨hmade, -⟩
      · exact hold call List.mem_cons_self i hcall
      · obtain ⟨hw, hplace⟩ := mem_containersAt.mp hw
        obtain ⟨m, hm, hmplace, hmade, -⟩ := h.maker w hw hworkspace
        obtain ⟨c', hc', hplace', hmade'⟩ := hlater m hm _ hmade
        exact ⟨c', hc', hplace'.trans (hmplace.trans hplace), hmade'⟩
      · exact ⟨_, List.mem_cons_self, rfl, hmade⟩
    · exact hold c (List.mem_cons_of_mem _ hc) i hi
  handed := by
    have hold : ∀ c ∈ call :: rest, ∀ i ∈ c.phase.handed,
        (∃ w ∈ containersAt containers' c.place, isWorkspace w ∧ w.id = i) ∨
          ∃ c' ∈ { call with phase } :: rest, c'.place = c.place ∧ c'.phase.replaced = some i := by
      intro c hc i hi
      rcases h.handed c hc i hi with hw | ⟨d, hd, hplace, hreplaced⟩
      · exact hs.still hw
      · obtain ⟨c', hc', hkey, -, hreplaced'⟩ := hs.later hd
        exact .inr ⟨c', hc', (place_congr hkey).trans hplace, hreplaced' i hreplaced⟩
    intro c hc i hi
    rcases List.mem_cons.mp hc with rfl | hc
    · rcases hs.handed i hi with hcall | hw | ⟨-, hw⟩
      · exact hold call List.mem_cons_self i hcall
      · exact hs.still hw
      · exact .inl hw
    · exact hold c (List.mem_cons_of_mem _ hc) i hi
  platforms := by
    have hlater : ∀ q p, (∃ c ∈ call :: rest, c.place = q ∧ c.key.platform ≠ p) →
        ∃ c ∈ { call with phase } :: rest, c.place = q ∧ c.key.platform ≠ p := by
      intro q p hc
      obtain ⟨c, hc, hplace, hplatform⟩ := hc
      obtain ⟨c', hc', hkey, -⟩ := hs.later hc
      exact ⟨c', hc', (place_congr hkey).trans hplace, hkey ▸ hplatform⟩
    intro c hc hreplaced
    rcases List.mem_cons.mp hc with rfl | hc
    · rcases hs.replacedNew hreplaced with hcall | hother
      · exact hlater _ _ (h.platforms call List.mem_cons_self hcall)
      · exact hlater _ _ hother
    · exact hlater _ _ (h.platforms c (List.mem_cons_of_mem _ hc) hreplaced)

/-- A step that changes no container and starts none. -/
theorem RecordedStep.of_read (hmade : phase.made = call.phase.made)
    (hreplaced : phase.replaced = call.phase.replaced)
    (hhanded : ∀ id, phase.handed = some id → call.phase.handed = some id ∨
      ∃ w ∈ containersAt containers call.place, isWorkspace w ∧ w.id = id) :
    RecordedStep runner containers containers nextId nextId call rest phase where
  le := Nat.le_refl _
  made := fun _ h => hmade.trans h
  madeNew := fun _ h => .inl (hmade.symm.trans h)
  replaced := fun _ h => hreplaced.trans h
  replacedNew := fun h => .inl (hreplaced ▸ h)
  added := fun w hw hworkspace => .inl ⟨w, hw, hworkspace, rfl, rfl, rfl⟩
  left := fun w hw hworkspace => .inl ⟨w, hw, hworkspace, rfl, rfl⟩
  handed := fun i h => (hhanded i h).imp_right .inl

theorem RecordedStep.of_stop (hphase : call.phase = .stopping id) :
    RecordedStep runner containers (stopContainer containers id) nextId nextId call rest
      (.removing id) where
  le := Nat.le_refl _
  made := by simp [hphase, Phase.made]
  madeNew := nofun
  replaced := by simp [hphase, Phase.replaced]
  replacedNew := fun _ => .inl (by simp [hphase, Phase.replaced])
  added := by
    intro w' hw' hworkspace
    obtain ⟨w, hw, hid, hplace, hrole, hplatform, -⟩ := of_mem_stopContainer hw'
    exact .inl ⟨w, hw, (isWorkspace_congr hrole).symm.trans hworkspace, hid.symm, hplace.symm,
      hplatform.symm⟩
  left := by
    intro w hw hworkspace
    obtain ⟨w', hw', hid, hplace, hrole, -⟩ := mem_stopContainer hw
    exact .inl ⟨w', hw', (isWorkspace_congr hrole).trans hworkspace, hid, hplace⟩
  handed := nofun

theorem Kept.recordedStep_remove
    (hkept : Kept ⟨containers, nextId, call :: rest⟩) (hphase : call.phase = .removing id) :
    RecordedStep runner containers (removeContainer containers id) nextId nextId call rest
      (.starting (some id)) where
  le := Nat.le_refl _
  made := by simp [hphase, Phase.made]
  madeNew := nofun
  replaced := by simp [hphase, Phase.replaced]
  replacedNew := fun _ => .inl (by simp [hphase, Phase.replaced])
  added := by
    intro w hw hworkspace
    exact .inl ⟨w, (mem_removeContainer.mp hw).1, hworkspace, rfl, rfl, rfl⟩
  left := by
    have hhere := hkept.fits call List.mem_cons_self
    rw [hphase] at hhere
    obtain ⟨v, hv, hvworkspace, rfl⟩ := hhere
    obtain ⟨hv, hplace⟩ := mem_containersAt.mp hv
    intro w hw hworkspace
    by_cases hid : w.id = v.id
    · obtain rfl := List.inj_on_of_nodup_map hkept.nodup hw hv hid
      exact .inr ⟨hplace, rfl⟩
    · exact .inl ⟨w, mem_removeContainer.mpr ⟨hw, hid⟩, hworkspace, rfl, rfl⟩
  handed := nofun

theorem RecordedStep.of_start (hrunner : runner.Lawful) {r : Option ℕ}
    (hphase : call.phase = .starting r) :
    RecordedStep runner containers
      (containers ++ startedContainers runner nextId call.key call.spec) nextId (nextId + 2) call
      rest
      (.registering nextId true r) where
  le := by omega
  made := by simp [hphase, Phase.made]
  madeNew := by
    intro i hi
    exact .inr ⟨(Option.some.inj hi).symm, by omega⟩
  replaced := by simp [hphase, Phase.replaced]
  replacedNew := fun hr => .inl (by simpa [hphase, Phase.replaced] using hr)
  added := by
    intro w hw hworkspace
    rcases List.mem_append.mp hw with hw | hw
    · exact .inl ⟨w, hw, hworkspace, rfl, rfl, rfl⟩
    · obtain ⟨hplace, -, -, -, ⟨-, hid, hplatform⟩ | ⟨hno, -⟩⟩ :=
        of_mem_startedContainers hrunner hw
      · exact .inr ⟨hplace, by rw [hid]; rfl, hplatform⟩
      · simp [hno] at hworkspace
  left := by
    intro w hw hworkspace
    exact .inl ⟨w, List.mem_append_left _ hw, hworkspace, rfl, rfl⟩
  handed := by
    intro i hi
    obtain rfl := Option.some.inj hi
    refine .inr (.inr ⟨rfl, ⟨nextId, buildBaseLabels call.key, some "workspace",
      runner.platformLabel call.key.platform, true⟩, ?_, by simp [isWorkspace], rfl⟩)
    refine mem_containersAt.mpr ⟨List.mem_append_right _ ?_, rfl⟩
    exact List.mem_cons_self

/-- A container is replaced for a platform that the call that started it did not ask for. -/
theorem Recorded.other_platform (h : Recorded runner ⟨containers, nextId, call :: rest⟩)
    (hkept : Kept ⟨containers, nextId, call :: rest⟩) (hrunner : runner.Lawful)
    {label : Option String} (hphase : call.phase = .deciding id label)
    (hrecreate : shouldRecreateForPlatform containers id call.key.platform label) :
    ∃ c ∈ call :: rest, c.place = call.place ∧ c.key.platform ≠ call.key.platform := by
  have hhere := hkept.fits call List.mem_cons_self
  rw [hphase] at hhere
  obtain ⟨w, hw, hworkspace, rfl, rfl⟩ := hhere
  obtain ⟨hmem, hplace⟩ := mem_containersAt.mp hw
  obtain ⟨c, hc, hcplace, -, hlabel⟩ := h.maker w hmem hworkspace
  refine ⟨c, hc, hcplace.trans hplace, fun hsame => ?_⟩
  rw [hsame] at hlabel
  cases hplatform : call.key.platform with
  | none => simp [hplatform, shouldRecreateForPlatform] at hrecreate
  | some p =>
    rw [hplatform, hrunner.platform] at hlabel
    simp [hplatform, hlabel, shouldRecreateForPlatform] at hrecreate

theorem Recorded.recordedStep (h : Recorded runner ⟨containers, nextId, call :: rest⟩)
    (hkept : Kept ⟨containers, nextId, call :: rest⟩) (hrunner : runner.Lawful)
    (hnext : call.next runner containers nextId = some (containers', nextId', phase)) :
    RecordedStep runner containers containers' nextId nextId' call rest phase := by
  have hhere := hkept.fits call List.mem_cons_self
  unfold Call.next at hnext
  cases hphase : call.phase with
  | finding =>
    rw [hphase] at hnext
    obtain ⟨rfl, rfl, rfl⟩ := by simpa using hnext
    cases findWorkspace runner containers call.place with
    | none => exact .of_read (by rw [hphase]; rfl) (by rw [hphase]; rfl) nofun
    | some id => exact .of_read (by rw [hphase]; rfl) (by rw [hphase]; rfl) nofun
  | findingFallback =>
    rw [hphase] at hnext
    obtain ⟨rfl, rfl, rfl⟩ := by simpa using hnext
    cases findCandidates runner containers call.place with
    | nil => exact .of_read (by rw [hphase]; rfl) (by rw [hphase]; rfl) nofun
    | cons id ids => exact .of_read (by rw [hphase]; rfl) (by rw [hphase]; rfl) nofun
  | choosing ids =>
    rw [hphase] at hnext
    obtain ⟨rfl, rfl, rfl⟩ := by simpa using hnext
    cases chooseWorkspaceContainer containers ids with
    | none => exact .of_read (by rw [hphase]; rfl) (by rw [hphase]; rfl) nofun
    | some id => exact .of_read (by rw [hphase]; rfl) (by rw [hphase]; rfl) nofun
  | checking id =>
    rw [hphase] at hnext
    obtain ⟨rfl, rfl, rfl⟩ := by simpa using hnext
    exact .of_read (by rw [hphase]; rfl) (by rw [hphase]; rfl) nofun
  | deciding id label =>
    rw [hphase] at hnext hhere
    obtain ⟨rfl, rfl, rfl⟩ := by simpa using hnext
    split_ifs with hrecreate
    · have hother := h.other_platform hkept hrunner hphase hrecreate
      exact {
        le := Nat.le_refl _
        made := by simp [hphase, Phase.made]
        madeNew := nofun
        replaced := by simp [hphase, Phase.replaced]
        replacedNew := fun _ => .inr hother
        added := fun w hw hworkspace => .inl ⟨w, hw, hworkspace, rfl, rfl, rfl⟩
        left := fun w hw hworkspace => .inl ⟨w, hw, hworkspace, rfl, rfl⟩
        handed := nofun }
    · obtain ⟨w, hw, hworkspace, hid, -⟩ := hhere
      refine .of_read (by rw [hphase]; rfl) (by rw [hphase]; rfl) fun i hi => .inr ?_
      obtain rfl := Option.some.inj hi
      exact ⟨w, hw, hworkspace, hid⟩
  | stopping id =>
    rw [hphase] at hnext
    obtain ⟨rfl, rfl, rfl⟩ := by simpa using hnext
    exact .of_stop hphase
  | removing id =>
    rw [hphase] at hnext hhere
    obtain ⟨rfl, rfl, rfl⟩ := by simpa using hnext
    exact hkept.recordedStep_remove hphase
  | starting r =>
    rw [hphase] at hnext
    obtain ⟨rfl, rfl, rfl⟩ := by simpa using hnext
    exact .of_start hrunner hphase
  | registering id created r =>
    rw [hphase] at hnext
    obtain ⟨rfl, rfl, rfl⟩ := by simpa using hnext
    refine .of_read ?_ (by rw [hphase]; rfl) fun i hi => .inl ?_
    · rw [hphase]
      cases created <;> rfl
    · rw [hphase]
      exact hi
  | settled id created r =>
    rw [hphase] at hnext
    cases hnext

/-- A new call has read nothing. -/
theorem Kept.begin {calls : List Call} (h : Kept ⟨containers, nextId, calls⟩)
    (hphase : call.phase = .finding) : Kept ⟨containers, nextId, call :: calls⟩ where
  nodup := h.nodup
  fresh := h.fresh
  roles := h.roles
  unique := h.unique
  running := fun w hw hworkspace hrunning =>
    have ⟨c, hc, hremoves⟩ := h.running w hw hworkspace hrunning
    ⟨c, List.mem_cons_of_mem _ hc, hremoves⟩
  fits := by
    intro c hc
    rcases List.mem_cons.mp hc with rfl | hc
    · rw [hphase]
      trivial
    · exact h.fits c hc
  apart := by
    refine List.pairwise_cons.mpr ⟨fun other _ _ => ?_, h.apart⟩
    rw [hphase]
    exact apartPhases_of_idle ⟨rfl, rfl⟩

theorem Recorded.begin {calls : List Call} (h : Recorded runner ⟨containers, nextId, calls⟩)
    (hphase : call.phase = .finding) : Recorded runner ⟨containers, nextId, call :: calls⟩ where
  once := by simpa [List.filterMap_cons, hphase, Phase.made] using h.once
  fresh := by
    intro c hc i hi
    rcases List.mem_cons.mp hc with rfl | hc
    · simp [hphase, Phase.made] at hi
    · exact h.fresh c hc i hi
  maker := fun w hw hworkspace =>
    have ⟨c, hc, hmaker⟩ := h.maker w hw hworkspace
    ⟨c, List.mem_cons_of_mem _ hc, hmaker⟩
  handedMade := by
    intro c hc i hi
    rcases List.mem_cons.mp hc with rfl | hc
    · simp [hphase, Phase.handed] at hi
    · obtain ⟨m, hm, hmaker⟩ := h.handedMade c hc i hi
      exact ⟨m, List.mem_cons_of_mem _ hm, hmaker⟩
  handed := by
    intro c hc i hi
    rcases List.mem_cons.mp hc with rfl | hc
    · simp [hphase, Phase.handed] at hi
    · refine (h.handed c hc i hi).imp_right fun ⟨d, hd, hreplaced⟩ => ?_
      exact ⟨d, List.mem_cons_of_mem _ hd, hreplaced⟩
  platforms := by
    intro c hc hreplaced
    rcases List.mem_cons.mp hc with rfl | hc
    · simp [hphase, Phase.replaced] at hreplaced
    · obtain ⟨d, hd, hplatform⟩ := h.platforms c hc hreplaced
      exact ⟨d, List.mem_cons_of_mem _ hd, hplatform⟩

end Records

variable {runner : Runner} {s s' : State} {q : Place}

/-- What every state of a run has in which the calls of a key leave each other alone. -/
def Consistent (runner : Runner) (s : State) : Prop := Kept s ∧ Recorded runner s

theorem consistent_init : Consistent runner init := by
  constructor
  · constructor <;> simp [init]
  · constructor <;> simp [init]

theorem Consistent.step (h : Consistent runner s) (hrunner : runner.Lawful) {a : Action}
    (halone : StepsAlone s a) (hstep : step runner s a = some s') : Consistent runner s' := by
  obtain ⟨hkept, hrecorded⟩ := h
  cases a with
  | ensureWorkspace key spec =>
    obtain rfl := Option.some.inj hstep
    have hperm : (⟨key, spec, .finding⟩ :: s.calls).Perm (s.calls ++ [⟨key, spec, .finding⟩]) :=
      (List.perm_append_singleton _ _).symm
    exact ⟨(hkept.begin rfl).perm hperm, (hrecorded.begin rfl).perm hperm⟩
  | advance i =>
    rw [Workspaces.step] at hstep
    cases hcall : s.calls[i]? with
    | none => simp [hcall] at hstep
    | some call =>
      rw [hcall] at hstep
      obtain ⟨⟨containers, nextId, phase⟩, hnext, rfl⟩ := Option.map_eq_some_iff.mp hstep
      obtain ⟨hlt, rfl⟩ := List.getElem?_eq_some_iff.mp hcall
      have hperm := (List.getElem_cons_eraseIdx_perm hlt).symm
      have hset := (List.set_perm_cons_eraseIdx hlt { s.calls[i] with phase }).symm
      have hkept := hkept.perm hperm
      have hrecorded := hrecorded.perm hperm
      have hnextKept := hkept.next hrunner (halone _ hcall) hnext
      exact ⟨hnextKept.perm hset,
        (hrecorded.next (hrecorded.recordedStep hkept hrunner hnext)).perm hset⟩

def callsAt (s : State) (q : Place) : List Call := s.calls.filter (·.place = q)

/-- The `workspaceId` that a call returns. -/
def Phase.returned : Phase → Option ℕ
  | .settled id _ _ => some id
  | _ => none

/-- The `workspaceId` of a call that reports `created`. -/
def Phase.reported : Phase → Option ℕ
  | .settled id true _ => some id
  | _ => none

def createdIds (s : State) (q : Place) : List ℕ := (callsAt s q).filterMap (·.phase.reported)

def Replaced (s : State) (q : Place) (id : ℕ) : Prop :=
  ∃ call ∈ callsAt s q, call.phase.replaced = some id

def AllReturned (s : State) (q : Place) : Prop :=
  ∀ call ∈ callsAt s q, call.phase.returned.isSome

def SamePlatform (s : State) (q : Place) : Prop :=
  ∀ call ∈ callsAt s q, ∀ other ∈ callsAt s q, call.key.platform = other.key.platform

structure OneWorkspace (s : State) (q : Place) : Prop where
  unique : (workspacesAt s.containers q).length ≤ 1
  /-- All calls return one container, but for the containers that have been replaced. -/
  sameId : ∀ call ∈ callsAt s q, ∀ other ∈ callsAt s q, ∀ id ∈ call.phase.returned,
    ∀ id' ∈ other.phase.returned, Replaced s q id ∨ Replaced s q id' ∨ id = id'
  /-- No container is reported as created twice. -/
  createdOnce : (createdIds s q).Nodup
  /-- A container that is returned is reported as created once all calls have returned. -/
  created : AllReturned s q → ∀ call ∈ callsAt s q, ∀ id ∈ call.phase.returned, id ∈ createdIds s q
  /-- Calls that agree on the platform replace no container. -/
  kept : SamePlatform s q → ∀ id, ¬Replaced s q id

theorem mem_callsAt {call : Call} : call ∈ callsAt s q ↔ call ∈ s.calls ∧ call.place = q := by
  simp [callsAt]

theorem handed_of_returned {phase : Phase} {id : ℕ} (h : phase.returned = some id) :
    phase.handed = some id := by
  cases phase with
  | settled i created r => exact h
  | _ => cases h

theorem returned_of_reported {phase : Phase} {id : ℕ} (h : phase.reported = some id) :
    phase.returned = some id := by
  cases phase with
  | settled i created r =>
    cases created with
    | true => exact h
    | false => cases h
  | _ => cases h

/-- A call that has returned reports what it has made. -/
theorem reported_eq (phase : Phase) :
    phase.reported = if phase.returned.isSome then phase.made else none := by
  cases phase with
  | settled id created r => cases created <;> rfl
  | _ => rfl

theorem createdIds_eq (s : State) (q : Place) :
    createdIds s q =
      ((callsAt s q).filter (·.phase.returned.isSome)).filterMap (·.phase.made) := by
  rw [List.filterMap_filter, createdIds]
  simp only [reported_eq]

theorem Consistent.oneWorkspace (h : Consistent runner s) (q : Place) : OneWorkspace s q := by
  obtain ⟨hkept, hrecorded⟩ := h
  have hsame : ∀ w ∈ workspacesAt s.containers q, ∀ v ∈ workspacesAt s.containers q, w = v := by
    intro w hw v hv
    obtain ⟨hw, hwworkspace⟩ := List.mem_filter.mp hw
    obtain ⟨hv, hvworkspace⟩ := List.mem_filter.mp hv
    obtain ⟨hw, hwplace⟩ := mem_containersAt.mp hw
    obtain ⟨hv, hvplace⟩ := mem_containersAt.mp hv
    exact hkept.unique q w hw v hv hwplace hvplace hwworkspace hvworkspace
  refine ⟨?_, ?_, ?_, ?_, ?_⟩
  · have hids := (List.Sublist.trans List.filter_sublist List.filter_sublist :
      (workspacesAt s.containers q).Sublist s.containers).map (·.id)
    have hnodup := (hkept.nodup.sublist hids).of_map
    cases hlist : workspacesAt s.containers q with
    | nil => simp
    | cons w ws =>
      cases ws with
      | nil => simp
      | cons v vs =>
        rw [hlist] at hnodup hsame
        have hwv : w = v := hsame w (by simp) v (by simp)
        simp [hwv] at hnodup
  · intro call hcall other hother id hid id' hid'
    obtain ⟨hmem, rfl⟩ := mem_callsAt.mp hcall
    obtain ⟨hother, hplace⟩ := mem_callsAt.mp hother
    have hcurrent := hrecorded.handed call hmem id (handed_of_returned hid)
    have hcurrent' := hrecorded.handed other hother id' (handed_of_returned hid')
    rw [hplace] at hcurrent'
    rcases hcurrent with ⟨w, hw, hworkspace, rfl⟩ | ⟨c, hc, hcplace, hreplaced⟩
    · rcases hcurrent' with ⟨v, hv, hvworkspace, rfl⟩ | ⟨c, hc, hcplace, hreplaced⟩
      · rw [hsame w (List.mem_filter.mpr ⟨hw, hworkspace⟩) v
          (List.mem_filter.mpr ⟨hv, hvworkspace⟩)]
        exact .inr (.inr rfl)
      · exact .inr (.inl ⟨c, mem_callsAt.mpr ⟨hc, hcplace⟩, hreplaced⟩)
    · exact .inl ⟨c, mem_callsAt.mpr ⟨hc, hcplace⟩, hreplaced⟩
  · rw [createdIds_eq]
    exact hrecorded.once.sublist ((List.filter_sublist.trans List.filter_sublist).filterMap _)
  · intro hall call hcall id hid
    obtain ⟨hmem, rfl⟩ := mem_callsAt.mp hcall
    obtain ⟨m, hm, hplace, hmade⟩ := hrecorded.handedMade call hmem id (handed_of_returned hid)
    have hm := mem_callsAt.mpr ⟨hm, hplace⟩
    refine List.mem_filterMap.mpr ⟨m, hm, ?_⟩
    rw [reported_eq, if_pos (hall m hm), hmade]
  · intro hplatform id ⟨c, hc, hreplaced⟩
    obtain ⟨hmem, rfl⟩ := mem_callsAt.mp hc
    obtain ⟨d, hd, hplace, hother⟩ := hrecorded.platforms c hmem (by simp [hreplaced])
    exact hother (hplatform d (mem_callsAt.mpr ⟨hd, hplace⟩) c hc)

/-- Once all calls that agree on the platform have returned, all have returned the same container
and one of them has reported it as created. -/
theorem OneWorkspace.agreed (h : OneWorkspace s q) (hplatform : SamePlatform s q)
    (hall : AllReturned s q) (hne : callsAt s q ≠ []) :
    ∃ id, (∀ call ∈ callsAt s q, call.phase.returned = some id) ∧ createdIds s q = [id] := by
  obtain ⟨call, hcall⟩ := List.exists_mem_of_ne_nil _ hne
  obtain ⟨id, hid⟩ := Option.isSome_iff_exists.mp (hall call hcall)
  have hsame : ∀ other ∈ callsAt s q, other.phase.returned = some id := by
    intro other hother
    obtain ⟨id', hid'⟩ := Option.isSome_iff_exists.mp (hall other hother)
    rcases h.sameId call hcall other hother id hid id' hid' with hreplaced | hreplaced | rfl
    · exact absurd hreplaced (h.kept hplatform id)
    · exact absurd hreplaced (h.kept hplatform id')
    · exact hid'
  refine ⟨id, hsame, ?_⟩
  have hmem : id ∈ createdIds s q := h.created hall call hcall id hid
  have hall : ∀ i ∈ createdIds s q, i = id := by
    intro i hi
    obtain ⟨other, hother, hreported⟩ := List.mem_filterMap.mp hi
    have hreturned := returned_of_reported hreported
    exact Option.some.inj (hreturned.symm.trans (hsame other hother))
  have hreplicate := List.eq_replicate_of_mem hall
  have hlength : (createdIds s q).length = 1 := by
    have hnodup := h.createdOnce
    rw [hreplicate, List.nodup_replicate] at hnodup
    have hpos := List.length_pos_of_mem hmem
    omega
  rw [hreplicate, hlength, List.replicate_one]

/-- Where the calls of a key leave each other alone, it has one workspace container at most, calls
return one container until it is replaced for another platform, and calls that agree on the platform
return one container that one of them reports as created. -/
theorem workspaces_unique (hrunner : runner.Lawful)
    (h : Reached (step runner) StepsAlone init s) (q : Place) :
    OneWorkspace s q ∧ (SamePlatform s q → AllReturned s q → callsAt s q ≠ [] →
      ∃ id, (∀ call ∈ callsAt s q, call.phase.returned = some id) ∧ createdIds s q = [id]) := by
  have hconsistent : Consistent runner s := h.invariant consistent_init
    fun _ _ _ hinv halone hstep => hinv.step hrunner halone hstep
  have hone := hconsistent.oneWorkspace q
  exact ⟨hone, hone.agreed⟩

/-- A runner that labels what it starts and lists containers in the order of their start. -/
def labellingRunner : Runner := ⟨Option.map Platform.value, some "sidecar", id⟩

theorem labellingRunner_lawful : labellingRunner.Lawful :=
  ⟨fun _ => rfl, by decide, fun _ => .refl _⟩

def workspaceKey : WorkspaceKey := ⟨"thread", "node", by decide, some .linuxAmd64⟩

/-- Two calls of one key; the second looks for a container once the first has started one. -/
def partlyOverlapping : List Action :=
  [.ensureWorkspace workspaceKey ⟨true⟩, .ensureWorkspace workspaceKey ⟨true⟩,
    .advance 0, .advance 0, .advance 0, .advance 1, .advance 1, .advance 1, .advance 1, .advance 0]

theorem workspaces_unique_overlapping :
    ∃ s, runFrom (step labellingRunner) init partlyOverlapping = some s ∧
      OneWorkspace s (buildBaseLabels workspaceKey) ∧
        createdIds s (buildBaseLabels workspaceKey) = [0] := by
  have hmeet : StepsMeet (step labellingRunner) StepsAlone init partlyOverlapping := by
    decide +kernel
  have hcreated : (runFrom (step labellingRunner) init partlyOverlapping).map
      (createdIds · (buildBaseLabels workspaceKey)) = some [0] := by
    decide +kernel
  obtain ⟨s, hs, hcreated⟩ := Option.map_eq_some_iff.mp hcreated
  exact ⟨s, hs, (workspaces_unique labellingRunner_lawful (Reached.init.run hmeet hs) _).1,
    hcreated⟩

/-- Two calls of one key, each of which finds no container before the other starts one. -/
def bothMiss : List Action :=
  [.ensureWorkspace workspaceKey ⟨false⟩, .ensureWorkspace workspaceKey ⟨false⟩,
    .advance 0, .advance 1, .advance 0, .advance 1, .advance 0, .advance 1, .advance 0, .advance 1]

theorem two_workspaces :
    ∃ s, Reached (step labellingRunner) (fun _ _ => True) init s ∧
      (workspacesAt s.containers (buildBaseLabels workspaceKey)).length = 2 ∧
        (callsAt s (buildBaseLabels workspaceKey)).map (·.phase.returned) = [some 0, some 2] ∧
          createdIds s (buildBaseLabels workspaceKey) = [0, 2] := by
  have hrun : (runFrom (step labellingRunner) init bothMiss).map (fun s =>
      ((workspacesAt s.containers (buildBaseLabels workspaceKey)).length,
        (callsAt s (buildBaseLabels workspaceKey)).map (·.phase.returned),
        createdIds s (buildBaseLabels workspaceKey))) = some (2, [some 0, some 2], [0, 2]) := by
    decide +kernel
  obtain ⟨s, hs, heq⟩ := Option.map_eq_some_iff.mp hrun
  obtain ⟨hlength, hreturned, hcreated⟩ := by simpa using heq
  exact ⟨s, .of_run hs, hlength, hreturned, hcreated⟩

end Agyn.Workspaces
