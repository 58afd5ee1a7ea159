import Mathlib.Data.List.Nodup
import Agyn.Workspaces

/-!
One workspace container for each thread and node. The invariant is about one place at a time: what
a call has read of the containers of its place still holds while no other call of the place creates
or replaces one.
-/
namespace Agyn.Workspaces

def isIdle (phase : Phase) : Prop := phase.creating = false ∧ phase.comparing = false

def Fits (containers : List Container) : Phase → Prop
  | .choosing ids =>
    (∀ id ∈ ids, ∃ c ∈ containers, c.id = id) ∧ ∀ w ∈ containers, isWorkspace w → w.id ∈ ids
  | .checking id => ∃ w ∈ containers, isWorkspace w ∧ w.id = id
  | .deciding id label => ∃ w ∈ containers, isWorkspace w ∧ w.id = id ∧ w.platform = label
  | .stopping id => ∃ w ∈ containers, isWorkspace w ∧ w.id = id
  | .removing id => ∃ w ∈ containers, isWorkspace w ∧ w.id = id
  | .starting _ => ∀ w ∈ containers, isWorkspace w = false
  | _ => True

/-- Two calls of one place do not create at the same time, and none compares the platform of a
container that another replaces. -/
structure ApartPhases (phase other : Phase) : Prop where
  creating : phase.creating → other.creating = false
  replacing : phase.replacing → other.comparing = false
  comparing : phase.comparing → other.replacing = false

def Apart (call other : Call) : Prop :=
  call.place = other.place → ApartPhases call.phase other.phase

/-- What every step keeps of the containers and the calls. -/
structure Kept (s : State) : Prop where
  nodup : (s.containers.map (·.id)).Nodup
  fresh : ∀ c ∈ s.containers, c.id < s.nextId
  roles : ∀ c ∈ s.containers, isWorkspace c = false → isSidecarRole c.role
  unique : ∀ q, ∀ w ∈ s.containers, ∀ w' ∈ s.containers, w.place = q → w'.place = q →
    isWorkspace w → isWorkspace w' → w = w'
  running : ∀ w ∈ s.containers, isWorkspace w → w.running = false →
    ∃ call ∈ s.calls, call.place = w.place ∧ call.phase = .removing w.id
  fits : ∀ call ∈ s.calls, Fits (containersAt s.containers call.place) call.phase
  apart : s.calls.Pairwise Apart

section Phases

variable {phase other : Phase} {containers : List Container}

theorem creating_of_replacing (h : phase.replacing) : phase.creating := by
  cases phase <;> simp_all [Phase.replacing, Phase.creating]

theorem replacing_of_not_creating (h : phase.creating = false) : phase.replacing = false := by
  cases phase <;> simp_all [Phase.replacing, Phase.creating]

theorem fits_of_isIdle (h : isIdle phase) : Fits containers phase := by
  obtain ⟨hcreating, hcomparing⟩ := h
  cases phase <;> simp_all [Fits, Phase.creating, Phase.comparing]

theorem Fits.workspace_of_comparing (h : Fits containers phase) (hcomparing : phase.comparing) :
    ∃ w ∈ containers, isWorkspace w := by
  cases phase with
  | checking id =>
    obtain ⟨w, hw, hworkspace, -⟩ := h
    exact ⟨w, hw, hworkspace⟩
  | deciding id label =>
    obtain ⟨w, hw, hworkspace, -⟩ := h
    exact ⟨w, hw, hworkspace⟩
  | _ => simp [Phase.comparing] at hcomparing

theorem ApartPhases.symm (h : ApartPhases phase other) : ApartPhases other phase := by
  refine ⟨fun ho => ?_, fun ho => ?_, fun ho => ?_⟩
  · exact Bool.eq_false_iff.mpr fun hp => by simp [h.creating hp] at ho
  · exact Bool.eq_false_iff.mpr fun hp => by simp [h.comparing hp] at ho
  · exact Bool.eq_false_iff.mpr fun hp => by simp [h.replacing hp] at ho

theorem apartPhases_of_idle (h : isIdle phase) : ApartPhases phase other :=
  have hreplacing := replacing_of_not_creating h.1
  ⟨fun hp => by simp [h.1] at hp, fun hp => by simp [hreplacing] at hp,
    fun hp => by simp [h.2] at hp⟩

end Phases

instance : Std.Symm Apart := ⟨fun _ _ h hplace => (h hplace.symm).symm⟩

theorem mem_containersAt {containers : List Container} {q : Place} {c : Container} :
    c ∈ containersAt containers q ↔ c ∈ containers ∧ c.place = q := by
  simp [containersAt]

theorem Kept.perm {containers : List Container} {nextId : ℕ} {calls calls' : List Call}
    (h : Kept ⟨containers, nextId, calls⟩) (hperm : calls.Perm calls') :
    Kept ⟨containers, nextId, calls'⟩ where
  nodup := h.nodup
  fresh := h.fresh
  roles := h.roles
  unique := h.unique
  running := fun w hw hworkspace hrunning =>
    have ⟨call, hcall, hremoves⟩ := h.running w hw hworkspace hrunning
    ⟨call, hperm.mem_iff.mp hcall, hremoves⟩
  fits := fun call hcall => h.fits call (hperm.mem_iff.mpr hcall)
  apart := (hperm.pairwise_iff fun h hplace => (h hplace.symm).symm).mp h.apart

section Steps

variable {containers containers' : List Container} {nextId nextId' : ℕ} {call other : Call}
  {rest : List Call} {phase : Phase} {id : ℕ}

/-- A step that only reads. -/
theorem Kept.read (h : Kept ⟨containers, nextId, call :: rest⟩)
    (hremoving : ∀ id, call.phase ≠ .removing id)
    (hfits : Fits (containersAt containers call.place) phase)
    (hapart : ∀ other ∈ rest, call.place = other.place → ApartPhases phase other.phase) :
    Kept ⟨containers, nextId, { call with phase } :: rest⟩ where
  nodup := h.nodup
  fresh := h.fresh
  roles := h.roles
  unique := h.unique
  running := by
    intro w hw hworkspace hrunning
    obtain ⟨c, hc, hplace, hphase⟩ := h.running w hw hworkspace hrunning
    rcases List.mem_cons.mp hc with rfl | hc
    · exact absurd hphase (hremoving _)
    · exact ⟨c, List.mem_cons_of_mem _ hc, hplace, hphase⟩
  fits := by
    intro c hc
    rcases List.mem_cons.mp hc with rfl | hc
    · exact hfits
    · exact h.fits c (List.mem_cons_of_mem _ hc)
  apart := List.pairwise_cons.mpr ⟨hapart, (List.pairwise_cons.mp h.apart).2⟩

/-- The calls that come with a call that creates a container: none of its place reads or creates. -/
theorem Kept.idle_of_replacing (h : Kept ⟨containers, nextId, call :: rest⟩)
    (hreplacing : call.phase.replacing) (hother : other ∈ rest)
    (hplace : call.place = other.place) :
    isIdle other.phase :=
  have hapart := (List.pairwise_cons.mp h.apart).1 other hother hplace
  ⟨hapart.creating (creating_of_replacing hreplacing), hapart.replacing hreplacing⟩

theorem containersAt_stopContainer (q : Place) :
    containersAt (stopContainer containers id) q =
      stopContainer (containersAt containers q) id := by
  simp only [containersAt, stopContainer, List.filter_map]
  congr 1
  refine List.filter_congr fun c _ => ?_
  simp only [Function.comp_apply, decide_eq_decide]
  split_ifs <;> rfl

/-- A stopped container is still there. -/
theorem mem_stopContainer {w : Container} (hw : w ∈ containers) :
    ∃ w' ∈ stopContainer containers id, w'.id = w.id ∧ w'.place = w.place ∧ w'.role = w.role ∧
      w'.platform = w.platform := by
  refine ⟨_, List.mem_map_of_mem hw, ?_⟩
  split_ifs <;> exact ⟨rfl, rfl, rfl, rfl⟩

theorem of_mem_stopContainer {w' : Container} (hw : w' ∈ stopContainer containers id) :
    ∃ w ∈ containers, w'.id = w.id ∧ w'.place = w.place ∧ w'.role = w.role ∧
      w'.platform = w.platform ∧ (w'.running = false → w.running = false ∨ w.id = id) := by
  obtain ⟨w, hmem, rfl⟩ := List.mem_map.mp hw
  refine ⟨w, hmem, ?_⟩
  split_ifs with hid
  · exact ⟨rfl, rfl, rfl, rfl, fun _ => .inr hid⟩
  · exact ⟨rfl, rfl, rfl, rfl, .inl⟩

theorem isWorkspace_congr {w w' : Container} (h : w'.role = w.role) :
    isWorkspace w' = isWorkspace w := by
  rw [isWorkspace, isWorkspace, h]

/-- What a call knows does not depend on whether a container is running. -/
theorem Fits.stop (h : Fits containers phase) : Fits (stopContainer containers id) phase := by
  have hkeep : ∀ i, (∃ w ∈ containers, isWorkspace w ∧ w.id = i) →
      ∃ w ∈ stopContainer containers id, isWorkspace w ∧ w.id = i := by
    intro i hi
    obtain ⟨w, hw, hworkspace, hid⟩ := hi
    obtain ⟨w', hw', hid', -, hrole, -⟩ := mem_stopContainer hw
    exact ⟨w', hw', (isWorkspace_congr hrole).trans hworkspace, hid'.trans hid⟩
  cases phase with
  | choosing ids =>
    refine ⟨fun i hi => ?_, fun w' hw' hworkspace => ?_⟩
    · obtain ⟨c, hc, hid⟩ := h.1 i hi
      obtain ⟨c', hc', hid', -⟩ := mem_stopContainer hc
      exact ⟨c', hc', hid'.trans hid⟩
    · obtain ⟨w, hw, hid, -, hrole, -⟩ := of_mem_stopContainer hw'
      rw [hid]
      exact h.2 w hw ((isWorkspace_congr hrole).symm.trans hworkspace)
  | checking i => exact hkeep i h
  | deciding i label =>
    obtain ⟨w, hw, hworkspace, hid, hlabel⟩ := h
    obtain ⟨w', hw', hid', -, hrole, hplatform⟩ := mem_stopContainer hw
    exact ⟨w', hw', (isWorkspace_congr hrole).trans hworkspace, hid'.trans hid,
      hplatform.trans hlabel⟩
  | stopping i => exact hkeep i h
  | removing i => exact hkeep i h
  | starting r =>
    intro w' hw'
    obtain ⟨w, hw, -, -, hrole, -⟩ := of_mem_stopContainer hw'
    exact (isWorkspace_congr hrole).trans (h w hw)
  | finding => trivial
  | findingFallback => trivial
  | registering i created r => trivial
  | settled i created r => trivial

theorem Kept.stop (h : Kept ⟨containers, nextId, call :: rest⟩)
    (hphase : call.phase = .stopping id) :
    Kept ⟨stopContainer containers id, nextId, { call with phase := .removing id } :: rest⟩ where
  nodup := by
    have hids : (stopContainer containers id).map (·.id) = containers.map (·.id) := by
      rw [stopContainer, List.map_map]
      refine List.map_congr_left fun c _ => ?_
      simp only [Function.comp_apply]
      split_ifs <;> rfl
    rw [hids]
    exact h.nodup
  fresh := by
    intro c' hc'
    obtain ⟨c, hc, hid, -⟩ := of_mem_stopContainer hc'
    rw [hid]
    exact h.fresh c hc
  roles := by
    intro c' hc' hworkspace
    obtain ⟨c, hc, -, -, hrole, -⟩ := of_mem_stopContainer hc'
    rw [hrole]
    exact h.roles c hc ((isWorkspace_congr hrole).symm.trans hworkspace)
  unique := by
    intro q v' hv' w' hw' hvq hwq hv hw
    obtain ⟨v, hvmem, rfl⟩ := List.mem_map.mp hv'
    obtain ⟨w, hwmem, rfl⟩ := List.mem_map.mp hw'
    have hvw : v = w := by
      refine h.unique q v hvmem w hwmem ?_ ?_ ?_ ?_
      · split_ifs at hvq <;> exact hvq
      · split_ifs at hwq <;> exact hwq
      · split_ifs at hv <;> exact hv
      · split_ifs at hw <;> exact hw
    rw [hvw]
  running := by
    intro w' hw' hworkspace hrunning
    obtain ⟨w, hw, hid, hplace, hrole, -, hstopped⟩ := of_mem_stopContainer hw'
    have hworkspace := (isWorkspace_congr hrole).symm.trans hworkspace
    have hhere := h.fits call List.mem_cons_self
    rw [hphase] at hhere
    obtain ⟨v, hv, -, hvid⟩ := hhere
    obtain ⟨hv, hvplace⟩ := mem_containersAt.mp hv
    rcases hstopped hrunning with hrunning | hwid
    · obtain ⟨c, hc, hcplace, hremoving⟩ := h.running w hw hworkspace hrunning
      rcases List.mem_cons.mp hc with rfl | hc
      · rw [hphase] at hremoving
        cases hremoving
      · rw [hid, hplace]
        exact ⟨c, List.mem_cons_of_mem _ hc, hcplace, hremoving⟩
    · have hvw : v = w := List.inj_on_of_nodup_map h.nodup hv hw (hvid.trans hwid.symm)
      refine ⟨_, List.mem_cons_self, ?_, ?_⟩
      · rw [hplace, ← hvw, hvplace]
        rfl
      · rw [hid, hwid]
  fits := by
    intro c hc
    rw [containersAt_stopContainer]
    rcases List.mem_cons.mp hc with rfl | hc
    · have hhere := h.fits call List.mem_cons_self
      rw [hphase] at hhere
      have hremoving : Fits (containersAt containers call.place) (.removing id) := hhere
      exact hremoving.stop
    · exact (h.fits c (List.mem_cons_of_mem _ hc)).stop
  apart := by
    obtain ⟨hapart, hrest⟩ := List.pairwise_cons.mp h.apart
    refine List.pairwise_cons.mpr ⟨fun other hother hplace => ?_, hrest⟩
    have hidle := h.idle_of_replacing (by rw [hphase]; rfl) hother hplace
    exact (apartPhases_of_idle hidle).symm

theorem mem_removeContainer {c : Container} :
    c ∈ removeContainer containers id ↔ c ∈ containers ∧ c.id ≠ id := by
  simp [removeContainer]

/-- A container of one place that is removed is no loss to another. -/
theorem containersAt_removeContainer {w : Container} {q : Place}
    (hnodup : (containers.map (·.id)).Nodup) (hw : w ∈ containers) (hq : w.place ≠ q) :
    containersAt (removeContainer containers w.id) q = containersAt containers q := by
  rw [containersAt, removeContainer, List.filter_filter]
  refine List.filter_congr fun c hc => ?_
  rw [Bool.and_eq_left_iff_imp]
  intro hplace
  refine decide_eq_true fun hid => hq ?_
  rw [← List.inj_on_of_nodup_map hnodup hc hw hid]
  exact of_decide_eq_true hplace

theorem Kept.remove (h : Kept ⟨containers, nextId, call :: rest⟩)
    (hphase : call.phase = .removing id) :
    Kept ⟨removeContainer containers id, nextId,
      { call with phase := .starting (some id) } :: rest⟩ where
  nodup := h.nodup.sublist (List.filter_sublist.map _)
  fresh := fun c hc => h.fresh c (mem_removeContainer.mp hc).1
  roles := fun c hc => h.roles c (mem_removeContainer.mp hc).1
  unique := fun q v hv w hw =>
    h.unique q v (mem_removeContainer.mp hv).1 w (mem_removeContainer.mp hw).1
  running := by
    intro w hw hworkspace hrunning
    obtain ⟨hw, hid⟩ := mem_removeContainer.mp hw
    obtain ⟨c, hc, hplace, hremoving⟩ := h.running w hw hworkspace hrunning
    rcases List.mem_cons.mp hc with rfl | hc
    · rw [hphase] at hremoving
      exact absurd (Phase.removing.inj hremoving).symm hid
    · exact ⟨c, List.mem_cons_of_mem _ hc, hplace, hremoving⟩
  fits := by
    have hhere := h.fits call List.mem_cons_self
    rw [hphase] at hhere
    obtain ⟨w, hw, hworkspace, rfl⟩ := hhere
    obtain ⟨hw, hplace⟩ := mem_containersAt.mp hw
    intro c hc
    rcases List.mem_cons.mp hc with rfl | hc
    · intro v hv
      obtain ⟨hv, hvplace⟩ := mem_containersAt.mp hv
      obtain ⟨hv, hid⟩ := mem_removeContainer.mp hv
      refine Bool.eq_false_iff.mpr fun hvworkspace => hid ?_
      rw [h.unique _ v hv w hw hvplace hplace hvworkspace hworkspace]
    · by_cases hother : call.place = c.place
      · exact fits_of_isIdle (h.idle_of_replacing (by rw [hphase]; rfl) hc hother)
      · rw [containersAt_removeContainer h.nodup hw (hplace ▸ hother)]
        exact h.fits c (List.mem_cons_of_mem _ hc)
  apart := by
    obtain ⟨hapart, hrest⟩ := List.pairwise_cons.mp h.apart
    refine List.pairwise_cons.mpr ⟨fun other hother hplace => ?_, hrest⟩
    have hidle := h.idle_of_replacing (by rw [hphase]; rfl) hother hplace
    exact (apartPhases_of_idle hidle).symm

variable {runner : Runner}

theorem of_mem_startedContainers {key : WorkspaceKey} {spec : WorkspaceSpec} {c : Container}
    (hrunner : runner.Lawful) (hc : c ∈ startedContainers runner nextId key spec) :
    c.place = buildBaseLabels key ∧ c.running ∧ nextId ≤ c.id ∧ c.id < nextId + 2 ∧
      (isWorkspace c ∧ c.id = nextId ∧ c.platform = runner.platformLabel key.platform ∨
        isWorkspace c = false ∧ isSidecarRole c.role) := by
  have hsidecar : ∀ role, isSidecarRole role → role ≠ some "workspace" := by
    intro role h hrole
    rw [hrole] at h
    revert h
    decide
  rw [startedContainers] at hc
  rcases List.mem_cons.mp hc with rfl | hc
  · exact ⟨rfl, rfl, Nat.le_refl _, by simp, .inl ⟨by simp [isWorkspace], rfl, rfl⟩⟩
  · split_ifs at hc
    · obtain rfl := List.mem_singleton.mp hc
      refine ⟨rfl, rfl, by simp, by simp, .inr ⟨?_, hrunner.sidecar⟩⟩
      simpa [isWorkspace] using hsidecar _ hrunner.sidecar
    · simp at hc

theorem nodup_startedContainers (key : WorkspaceKey) (spec : WorkspaceSpec) :
    ((startedContainers runner nextId key spec).map (·.id)).Nodup := by
  rw [startedContainers]
  split_ifs <;> simp

theorem containersAt_append_started {q : Place} (hq : call.place ≠ q) (hrunner : runner.Lawful) :
    containersAt (containers ++ startedContainers runner nextId call.key call.spec) q =
      containersAt containers q := by
  have hnone : containersAt (startedContainers runner nextId call.key call.spec) q = [] := by
    refine List.filter_eq_nil_iff.mpr fun c hc => ?_
    rw [(of_mem_startedContainers hrunner hc).1]
    exact fun h => hq (of_decide_eq_true h)
  rw [containersAt, List.filter_append, ← containersAt, ← containersAt, hnone, List.append_nil]

theorem Kept.start (h : Kept ⟨containers, nextId, call :: rest⟩) (hrunner : runner.Lawful)
    {r : Option ℕ} (hphase : call.phase = .starting r) :
    Kept ⟨containers ++ startedContainers runner nextId call.key call.spec, nextId + 2,
      { call with phase := .registering nextId true r } :: rest⟩ where
  nodup := by
    rw [List.map_append, List.nodup_append]
    refine ⟨h.nodup, ?_, ?_⟩
    · exact nodup_startedContainers call.key call.spec
    · intro i hi j hj hij
      obtain ⟨c, hc, rfl⟩ := List.mem_map.mp hi
      obtain ⟨d, hd, rfl⟩ := List.mem_map.mp hj
      have hlt : c.id < nextId := h.fresh c hc
      have hle := (of_mem_startedContainers hrunner hd).2.2.1
      omega
  fresh := by
    intro c hc
    rcases List.mem_append.mp hc with hc | hc
    · have hlt : c.id < nextId := h.fresh c hc
      show c.id < nextId + 2
      omega
    · exact (of_mem_startedContainers hrunner hc).2.2.2.1
  roles := by
    intro c hc hworkspace
    rcases List.mem_append.mp hc with hc | hc
    · exact h.roles c hc hworkspace
    · obtain ⟨hyes, -⟩ | ⟨-, hrole⟩ := (of_mem_startedContainers hrunner hc).2.2.2.2
      · exact absurd (hworkspace.symm.trans hyes) (by decide)
      · exact hrole
  unique := by
    have hhere := h.fits call List.mem_cons_self
    rw [hphase] at hhere
    have hnew : ∀ c ∈ startedContainers runner nextId call.key call.spec, isWorkspace c →
        c.id = nextId := by
      intro c hc hworkspace
      obtain ⟨-, hid, -⟩ | ⟨hno, -⟩ := (of_mem_startedContainers hrunner hc).2.2.2.2
      · exact hid
      · simp [hno] at hworkspace
    intro q v hv w hw hvq hwq hvworkspace hwworkspace
    rcases List.mem_append.mp hv with hv | hv <;> rcases List.mem_append.mp hw with hw | hw
    · exact h.unique q v hv w hw hvq hwq hvworkspace hwworkspace
    · have hplace : v.place = call.place := by
        rw [hvq, ← hwq, (of_mem_startedContainers hrunner hw).1]
        rfl
      simp [hhere v (mem_containersAt.mpr ⟨hv, hplace⟩)] at hvworkspace
    · have hplace : w.place = call.place := by
        rw [hwq, ← hvq, (of_mem_startedContainers hrunner hv).1]
        rfl
      simp [hhere w (mem_containersAt.mpr ⟨hw, hplace⟩)] at hwworkspace
    · have hids : v.id = w.id := (hnew v hv hvworkspace).trans (hnew w hw hwworkspace).symm
      exact List.inj_on_of_nodup_map (nodup_startedContainers call.key call.spec) hv hw hids
  running := by
    intro w hw hworkspace hrunning
    rcases List.mem_append.mp hw with hw | hw
    · obtain ⟨c, hc, hplace, hremoving⟩ := h.running w hw hworkspace hrunning
      rcases List.mem_cons.mp hc with rfl | hc
      · rw [hphase] at hremoving
        cases hremoving
      · exact ⟨c, List.mem_cons_of_mem _ hc, hplace, hremoving⟩
    · simp [(of_mem_startedContainers hrunner hw).2.1] at hrunning
  fits := by
    have hhere := h.fits call List.mem_cons_self
    rw [hphase] at hhere
    intro c hc
    rcases List.mem_cons.mp hc with rfl | hc
    · trivial
    · by_cases hplace : call.place = c.place
      · have hapart := (List.pairwise_cons.mp h.apart).1 c hc hplace
        rw [hphase] at hapart
        refine fits_of_isIdle ⟨hapart.creating rfl, Bool.eq_false_iff.mpr fun hcomparing => ?_⟩
        obtain ⟨w, hw, hworkspace⟩ :=
          (h.fits c (List.mem_cons_of_mem _ hc)).workspace_of_comparing hcomparing
        rw [← hplace] at hw
        simp [hhere w hw] at hworkspace
      · rw [containersAt_append_started hplace hrunner]
        exact h.fits c (List.mem_cons_of_mem _ hc)
  apart := by
    obtain ⟨hapart, hrest⟩ := List.pairwise_cons.mp h.apart
    refine List.pairwise_cons.mpr ⟨fun other hother hplace => ?_, hrest⟩
    exact apartPhases_of_idle ⟨rfl, rfl⟩

theorem findWorkspace_eq_some (hrunner : runner.Lawful) {q : Place}
    (hfind : findWorkspace runner containers q = some id) :
    ∃ w ∈ containersAt containers q, isWorkspace w ∧ w.id = id := by
  rw [findWorkspace, List.head?_map, Option.map_eq_some_iff] at hfind
  obtain ⟨w, hw, hid⟩ := hfind
  have hw := (hrunner.listed_perm _).mem_iff.mp (List.mem_of_head? hw)
  obtain ⟨hw, -⟩ := List.mem_filter.mp hw
  obtain ⟨hw, hworkspace⟩ := List.mem_filter.mp hw
  exact ⟨w, hw, hworkspace, hid⟩

theorem mem_findCandidates (hrunner : runner.Lawful) {q : Place} :
    id ∈ findCandidates runner containers q ↔
      ∃ c ∈ containersAt containers q, c.running ∧ c.id = id := by
  rw [findCandidates, List.mem_map]
  simp only [(hrunner.listed_perm _).mem_iff, List.mem_filter, and_assoc]

theorem getContainer_eq {c : Container} (hnodup : (containers.map (·.id)).Nodup)
    (hc : c ∈ containers) : getContainer containers c.id = some c := by
  rw [getContainer]
  cases hfind : containers.find? (·.id = c.id) with
  | none => exact absurd (List.find?_eq_none.mp hfind c hc) (by simp)
  | some d =>
    have hid : d.id = c.id := by simpa using List.find?_some hfind
    rw [List.inj_on_of_nodup_map hnodup (List.mem_of_find?_eq_some hfind) hc hid]

/-- The workspace of the place is chosen from the candidates, as every other one is a sidecar. -/
theorem Kept.choose (h : Kept ⟨containers, nextId, call :: rest⟩) {ids : List ℕ}
    (hphase : call.phase = .choosing ids) :
    Fits (containersAt containers call.place)
      (match chooseWorkspaceContainer containers ids with
        | some id => .checking id
        | none => .starting none) := by
  have hhere := h.fits call List.mem_cons_self
  rw [hphase] at hhere
  obtain ⟨hknown, hcontains⟩ := hhere
  cases hchosen : chooseWorkspaceContainer containers ids with
  | some id =>
    obtain ⟨c, hc, rfl⟩ := hknown id (List.mem_of_find?_eq_some hchosen)
    have hmem := (mem_containersAt.mp hc).1
    have hrole : isSidecarRole c.role = false := by
      have hfound := List.find?_some hchosen
      simpa [getContainer_eq h.nodup hmem] using hfound
    refine ⟨c, hc, ?_, rfl⟩
    by_contra hno
    have hsidecar := h.roles c hmem (Bool.eq_false_iff.mpr hno)
    simp [hrole] at hsidecar
  | none =>
    intro w hw
    refine Bool.eq_false_iff.mpr fun hworkspace => ?_
    have hmem := (mem_containersAt.mp hw).1
    have hsidecar := List.find?_eq_none.mp hchosen w.id (hcontains w hw hworkspace)
    simp only [isWorkspace, decide_eq_true_eq] at hworkspace
    rw [getContainer_eq h.nodup hmem, Option.bind_some, hworkspace] at hsidecar
    exact absurd hsidecar (by decide)

/-- The candidates have the workspace of the place, which runs as no other call replaces it. -/
theorem Kept.candidates (h : Kept ⟨containers, nextId, call :: rest⟩) (hrunner : runner.Lawful)
    (hphase : call.phase = .findingFallback)
    (halone : ∀ other ∈ rest, other.place = call.place → other.phase.creating = false) :
    Fits (containersAt containers call.place)
      (match findCandidates runner containers call.place with
        | [] => .starting none
        | candidates => .choosing candidates) := by
  have hlisted : ∀ w ∈ containersAt containers call.place, isWorkspace w →
      w.id ∈ findCandidates runner containers call.place := by
    intro w hw hworkspace
    refine (mem_findCandidates hrunner).mpr ⟨w, hw, ?_, rfl⟩
    obtain ⟨hmem, hplace⟩ := mem_containersAt.mp hw
    by_contra hrunning
    obtain ⟨c, hc, hcplace, hremoving⟩ :=
      h.running w hmem hworkspace (Bool.eq_false_iff.mpr hrunning)
    rcases List.mem_cons.mp hc with rfl | hc
    · rw [hphase] at hremoving
      cases hremoving
    · have hcreating := halone c hc (hcplace.trans hplace)
      rw [hremoving] at hcreating
      cases hcreating
  cases hfound : findCandidates runner containers call.place with
  | nil =>
    intro w hw
    refine Bool.eq_false_iff.mpr fun hworkspace => ?_
    have hmem := hlisted w hw hworkspace
    simp [hfound] at hmem
  | cons id ids =>
    refine ⟨fun i hi => ?_, fun w hw hworkspace => ?_⟩
    · obtain ⟨c, hc, -, hid⟩ := (mem_findCandidates hrunner).mp (hfound ▸ hi)
      exact ⟨c, hc, hid⟩
    · rw [← hfound]
      exact hlisted w hw hworkspace

/-- What the next step of a call keeps, taken while the other calls leave it alone. -/
theorem Kept.next (h : Kept ⟨containers, nextId, call :: rest⟩) (hrunner : runner.Lawful)
    (halone : ∀ other ∈ rest, other.place = call.place →
      call.phase.LeavesAlone containers call.key.platform other.phase)
    (hnext : call.next runner containers nextId = some (containers', nextId', phase)) :
    Kept ⟨containers', nextId', { call with phase } :: rest⟩ := by
  have hhere := h.fits call List.mem_cons_self
  have hrest := (List.pairwise_cons.mp h.apart).1
  unfold Call.next at hnext
  cases hphase : call.phase with
  | finding =>
    rw [hphase] at hnext halone
    obtain ⟨rfl, rfl, rfl⟩ := by simpa using hnext
    cases hfind : findWorkspace runner containers call.place with
    | none =>
      exact h.read (by simp [hphase]) trivial fun _ _ _ => apartPhases_of_idle ⟨rfl, rfl⟩
    | some id =>
      refine h.read (by simp [hphase]) (findWorkspace_eq_some hrunner hfind) ?_
      intro other hother hplace
      exact ⟨nofun, nofun, fun _ => halone other hother hplace.symm⟩
  | findingFallback =>
    rw [hphase] at hnext halone
    obtain ⟨rfl, rfl, rfl⟩ := by simpa using hnext
    refine h.read (by simp [hphase]) (h.candidates hrunner hphase halone) ?_
    intro other hother hplace
    have hother := halone other hother hplace.symm
    cases findCandidates runner containers call.place with
    | nil => exact ⟨fun _ => hother, nofun, nofun⟩
    | cons id ids => exact ⟨fun _ => hother, nofun, nofun⟩
  | choosing ids =>
    rw [hphase] at hnext
    obtain ⟨rfl, rfl, rfl⟩ := by simpa using hnext
    refine h.read (by simp [hphase]) (h.choose hphase) ?_
    intro other hother hplace
    have hother : other.phase.creating = false := by
      refine (hrest other hother hplace).creating ?_
      rw [hphase]
      rfl
    cases chooseWorkspaceContainer containers ids with
    | none => exact ⟨fun _ => hother, nofun, nofun⟩
    | some id => exact ⟨nofun, nofun, fun _ => replacing_of_not_creating hother⟩
  | checking id =>
    rw [hphase] at hnext hhere
    obtain ⟨rfl, rfl, rfl⟩ := by simpa using hnext
    obtain ⟨w, hw, hworkspace, rfl⟩ := hhere
    refine h.read (by simp [hphase]) ⟨w, hw, hworkspace, rfl, ?_⟩ ?_
    · rw [platformLabelOf, getContainer_eq h.nodup (mem_containersAt.mp hw).1]
      rfl
    · intro other hother hplace
      have hapart := hrest other hother hplace
      rw [hphase] at hapart
      exact ⟨nofun, nofun, fun _ => hapart.comparing rfl⟩
  | deciding id label =>
    rw [hphase] at hnext hhere halone
    obtain ⟨rfl, rfl, rfl⟩ := by simpa using hnext
    split_ifs with hrecreate
    · obtain ⟨w, hw, hworkspace, hid, -⟩ := hhere
      refine h.read (by simp [hphase]) ⟨w, hw, hworkspace, hid⟩ ?_
      intro other hother hplace
      obtain ⟨hcreating, hcomparing⟩ := halone other hother hplace.symm hrecreate
      exact ⟨fun _ => hcreating, fun _ => hcomparing, nofun⟩
    · exact h.read (by simp [hphase]) trivial fun _ _ _ => apartPhases_of_idle ⟨rfl, rfl⟩
  | stopping id =>
    rw [hphase] at hnext
    obtain ⟨rfl, rfl, rfl⟩ := by simpa using hnext
    exact h.stop hphase
  | removing id =>
    rw [hphase] at hnext
    obtain ⟨rfl, rfl, rfl⟩ := by simpa using hnext
    exact h.remove hphase
  | starting r =>
    rw [hphase] at hnext
    obtain ⟨rfl, rfl, rfl⟩ := by simpa using hnext
    exact h.start hrunner hphase
  | registering id created r =>
    rw [hphase] at hnext
    obtain ⟨rfl, rfl, rfl⟩ := by simpa using hnext
    exact h.read (by simp [hphase]) trivial fun _ _ _ => apartPhases_of_idle ⟨rfl, rfl⟩
  | settled id created r =>
    rw [hphase] at hnext
    cases hnext

end Steps

end Agyn.Workspaces
