import Mathlib.Tactic.SplitIfs
import Agyn.CallLinking

/-!
Which event the link of a call is written to. The look-ups select the latest event by the run
and the tool name, or by the child thread, so a link reaches its own event as long as no other
matching event is as late. Two calls of one tool that both record before the first one looks up
share an event, and a call of a tool with another name has none.
-/
namespace Agyn.CallLinking

variable {calls : ℕ → AgentCall} {s s' : LinkState} {i j : ℕ}

namespace LinkState

/-- The call has an event, and every event of it carries a link that satisfies `p`. -/
def Linked (s : LinkState) (i : ℕ) (p : LinkMetadata → Prop) : Prop :=
  (∃ e ∈ s.events, e.call = i) ∧
    ∀ e ∈ s.events, e.call = i → ∃ m, e.metadata = some m ∧ p m

def PastLink (s : LinkState) (i : ℕ) : Prop :=
  match s.phase i with
  | .idle | .starting _ | .started | .found _ => False
  | _ => True

def RunPending (s : LinkState) (runId : String) (i : ℕ) : Prop :=
  ∃ event m messageId, s.phase i = .runFound runId event m messageId

end LinkState

def OwnLink (calls : ℕ → AgentCall) (runs : List (String × ℕ)) (i : ℕ) (m : LinkMetadata) : Prop :=
  m.childThreadId = (calls i).childThreadId ∧ ∀ r, m.childRun.id = some r → (r, i) ∈ runs

/-- Every child thread and child run is linked to the event of the call that created it, and no
event carries the link of another call. -/
structure LinksMatch (calls : ℕ → AgentCall) (s : LinkState) : Prop where
  threads : ∀ i, s.PastLink i → s.Linked i fun m => m.childThreadId = (calls i).childThreadId
  runs : ∀ r i, (r, i) ∈ s.runs → ¬ s.RunPending r i →
    s.Linked i fun m => m.childRun.id = some r
  own : ∀ e ∈ s.events, ∀ m, e.metadata = some m → OwnLink calls s.runs e.call m

/-- No other call has an event that `matching` selects and that is as late as one of this call. -/
def IsLast (matching : ToolEvent → Bool) (key : ToolEvent → ℕ) (events : List ToolEvent) (i : ℕ) :
    Prop :=
  ∃ own ∈ events, own.call = i ∧
    ∀ e ∈ events, e.call ≠ i → matching e = true → key e < key own

/-- Every call is of a tool that has a canonical name, no write and no look-up fails, a call
looks its event up while it is the last one to have started among those of its run and tool, and
its child run starts while its event is the last of the thread. -/
def Undisturbed (calls : ℕ → AgentCall) (s : LinkState) : LinkStep → Prop
  | .start i => (canonicalizeToolName (calls i).toolName).isSome
  | .lookUp i _ => ∀ tool ∈ canonicalizeToolName (calls i).toolName,
      IsLast (isToolEvent (calls i) tool) ToolEvent.startedAt s.events i
  | .runLookUp i _ _ _ =>
      IsLast (isEventOfChild (calls i).childThreadId) ToolEvent.ts s.events i
  | .recordFailed _ | .lookUpFailed _ | .saveFailed _ => False
  | .runLookUpFailed _ _ | .runSaveFailed _ => False
  | _ => True

instance (s : LinkState) (a : LinkStep) : Decidable (Undisturbed calls s a) := by
  cases a <;> unfold Undisturbed IsLast <;> infer_instance

def PhaseSound (calls : ℕ → AgentCall) (s : LinkState) (i : ℕ) : CallPhase → Prop
  | .starting _ | .started => (canonicalizeToolName (calls i).toolName).isSome
  | .found event => event = i ∧ ∃ e ∈ s.events, e.call = i
  | .linked => (calls i).toolName ∈ linkableToolNames ∧
      s.Linked i fun m => m.childThreadId = (calls i).childThreadId
  | .runFound r event m _ =>
      event = i ∧ m.childThreadId = (calls i).childThreadId ∧ (r, i) ∈ s.runs ∧
        s.Linked i fun m => m.childThreadId = (calls i).childThreadId
  | .running r => (r, i) ∈ s.runs ∧
      s.Linked i fun m => m.childThreadId = (calls i).childThreadId ∧ m.childRun.id = some r
  | .unlinked | .runUnlinked => False
  | _ => True

/-- What every undisturbed run keeps. -/
structure Sound (calls : ℕ → AgentCall) (s : LinkState) : Prop where
  recorded : ∀ e ∈ s.events,
    e.runId = (calls e.call).runId ∧ e.toolName = (calls e.call).toolName
  own : ∀ e ∈ s.events, ∀ m, e.metadata = some m → OwnLink calls s.runs e.call m
  phases : ∀ i, PhaseSound calls s i (s.phase i)
  runs : ∀ r i, (r, i) ∈ s.runs → s.RunPending r i ∨ s.phase i = .running r

theorem toolName_mem_toolSearchNames {toolName : String} {tool : CanonicalToolName}
    (h : canonicalizeToolName toolName = some tool) : toolName ∈ toolSearchNames tool := by
  unfold canonicalizeToolName at h
  split_ifs at h with h1 h2 h3
  · obtain rfl := Option.some.inj h
    simp [h1, toolSearchNames]
  · obtain rfl := Option.some.inj h
    simp [h2, toolSearchNames]
  · obtain rfl := Option.some.inj h
    simpa [toolSearchNames] using h3

theorem toolName_mem_linkableToolNames {toolName : String} {tool : CanonicalToolName}
    (h : canonicalizeToolName toolName = some tool) : toolName ∈ linkableToolNames := by
  have hmem := toolName_mem_toolSearchNames h
  cases tool <;> simp_all [toolSearchNames, linkableToolNames]

theorem findLatest_spec {matching : ToolEvent → Bool} {key : ToolEvent → ℕ}
    {events : List ToolEvent} {event : ℕ} {e : ToolEvent}
    (h : findLatest matching key events event = some e) :
    e ∈ events ∧ matching e = true ∧
      ∀ e' ∈ events, matching e' = true → key e' ≤ key e := by
  have hlatest := List.find?_some h
  simp only [isLatest, Bool.and_eq_true, List.all_eq_true, Bool.or_eq_true,
    Bool.not_eq_true', decide_eq_true_eq] at hlatest
  refine ⟨List.mem_of_find?_eq_some h, hlatest.2.1, fun e' he' hm => ?_⟩
  exact (hlatest.2.2 e' he').resolve_left (by simp [hm])

/-- A look-up returns an event of the call when its own events match and are last. -/
theorem call_eq_of_isLast {matching : ToolEvent → Bool} {key : ToolEvent → ℕ}
    {events : List ToolEvent} {event : ℕ} {e : ToolEvent}
    (hfind : findLatest matching key events event = some e) (hlast : IsLast matching key events i)
    (hown : ∀ own ∈ events, own.call = i → matching own = true) : e.call = i := by
  obtain ⟨hmem, hmatching, hle⟩ := findLatest_spec hfind
  obtain ⟨own, hownMem, hownCall, hlt⟩ := hlast
  by_contra hne
  have h1 := hlt e hmem hne hmatching
  have h2 := hle own hownMem (hown own hownMem hownCall)
  omega

theorem mem_saveMetadata {event : ℕ} {m : LinkMetadata} {events : List ToolEvent}
    {e : ToolEvent} (h : e ∈ saveMetadata event m events) :
    ∃ e₀ ∈ events, e.call = e₀.call ∧ e.runId = e₀.runId ∧ e.toolName = e₀.toolName ∧
      e.metadata = if e₀.call = event then some m else e₀.metadata := by
  obtain ⟨e₀, he₀, rfl⟩ := List.mem_map.mp h
  refine ⟨e₀, he₀, ?_⟩
  split_ifs <;> simp

theorem exists_call_saveMetadata {event : ℕ} {m : LinkMetadata} {events : List ToolEvent}
    (h : ∃ e ∈ events, e.call = i) : ∃ e ∈ saveMetadata event m events, e.call = i := by
  obtain ⟨e, he, hcall⟩ := h
  refine ⟨_, List.mem_map_of_mem he, ?_⟩
  split_ifs <;> exact hcall

/-- Saving a link keeps what the links of a call satisfy if the new one does too. -/
theorem LinkState.Linked.saveMetadata {p : LinkMetadata → Prop} {event : ℕ} {m : LinkMetadata}
    (h : s.Linked i p) (hevents : s'.events = saveMetadata event m s.events)
    (hm : event = i → p m) : s'.Linked i p := by
  constructor
  · rw [hevents]
    exact exists_call_saveMetadata h.1
  · intro e he hcall
    rw [hevents] at he
    obtain ⟨e₀, he₀, hcall₀, -, -, hmeta⟩ := mem_saveMetadata he
    split_ifs at hmeta with hevent
    · exact ⟨m, hmeta, hm (by omega)⟩
    · rw [hmeta]
      exact h.2 e₀ he₀ (by omega)

/-- A saved link is the one every event of the call carries. -/
theorem LinkState.linked_saveMetadata {p : LinkMetadata → Prop} {m : LinkMetadata}
    (h : ∃ e ∈ s.events, e.call = i) (hevents : s'.events = CallLinking.saveMetadata i m s.events)
    (hm : p m) : s'.Linked i p := by
  constructor
  · rw [hevents]
    exact exists_call_saveMetadata h
  · intro e he hcall
    rw [hevents] at he
    obtain ⟨e₀, -, hcall₀, -, -, hmeta⟩ := mem_saveMetadata he
    exact ⟨m, by rw [hmeta, if_pos (by omega)], hm⟩

theorem LinkState.Linked.imp {p q : LinkMetadata → Prop} (h : s.Linked i p)
    (hpq : ∀ m, p m → q m) : s.Linked i q := by
  refine ⟨h.1, fun e he hcall => ?_⟩
  obtain ⟨m, hm, hp⟩ := h.2 e he hcall
  exact ⟨m, hm, hpq m hp⟩

theorem OwnLink.mono {runs runs' : List (String × ℕ)} {m : LinkMetadata}
    (h : OwnLink calls runs i m) (hruns : runs ⊆ runs') : OwnLink calls runs' i m :=
  ⟨h.1, fun r hr => hruns (h.2 r hr)⟩

theorem sound_initial : Sound calls .initial := by
  constructor <;> simp [LinkState.initial, PhaseSound]

/-- Only call `i` has a new phase, and the links and runs of the other calls stay. -/
theorem phaseSound_of_other (h : Sound calls s) (hphase : s'.phase j = s.phase j)
    (hevents : (∃ e ∈ s.events, e.call = j) → ∃ e ∈ s'.events, e.call = j)
    (hlinked : ∀ p : LinkMetadata → Prop,
      (∀ m m', m.childThreadId = m'.childThreadId → m.childRun.id = m'.childRun.id → p m → p m') →
      s.Linked j p → s'.Linked j p)
    (hruns : s.runs ⊆ s'.runs) : PhaseSound calls s' j (s'.phase j) := by
  have hsound := h.phases j
  rw [hphase]
  have hthread := hlinked (fun m => m.childThreadId = (calls j).childThreadId)
    fun m m' hm _ hp => hm ▸ hp
  cases hp : s.phase j with
  | found event =>
    rw [hp] at hsound
    exact ⟨hsound.1, hevents hsound.2⟩
  | linked =>
    rw [hp] at hsound
    exact ⟨hsound.1, hthread hsound.2⟩
  | runFound r event m messageId =>
    rw [hp] at hsound
    exact ⟨hsound.1, hsound.2.1, hruns hsound.2.2.1, hthread hsound.2.2.2⟩
  | running r =>
    rw [hp] at hsound
    refine ⟨hruns hsound.1, hlinked _ ?_ hsound.2⟩
    rintro m m' hm hid ⟨h1, h2⟩
    exact ⟨hm ▸ h1, hid ▸ h2⟩
  | starting _ | started | unlinked | runUnlinked => rw [hp] at hsound; exact hsound
  | idle => trivial

variable {phase : CallPhase}

@[simp] theorem LinkState.setPhase_events : (s.setPhase i phase).events = s.events := rfl

@[simp] theorem LinkState.setPhase_runs : (s.setPhase i phase).runs = s.runs := rfl

@[simp] theorem LinkState.setPhase_phase_self : (s.setPhase i phase).phase i = phase := by
  simp [LinkState.setPhase]

theorem LinkState.setPhase_phase_ne (h : j ≠ i) :
    (s.setPhase i phase).phase j = s.phase j := by
  simp [LinkState.setPhase, h]

/-- A step that leaves the events alone. -/
theorem sound_of_events_eq (h : Sound calls s) (hevents : s'.events = s.events)
    (hruns : s.runs ⊆ s'.runs) (hother : ∀ j, j ≠ i → s'.phase j = s.phase j)
    (hphase : PhaseSound calls s' i (s'.phase i))
    (hpending : ∀ r j, (r, j) ∈ s'.runs → s'.RunPending r j ∨ s'.phase j = .running r) :
    Sound calls s' where
  recorded := hevents ▸ h.recorded
  own := hevents ▸ fun e he m hm => (h.own e he m hm).mono hruns
  phases j := by
    by_cases hj : j = i
    · exact hj ▸ hphase
    · refine phaseSound_of_other h (hother j hj) ?_ ?_ hruns
      · rw [hevents]; exact id
      · intro p _ hp
        exact ⟨hevents ▸ hp.1, hevents ▸ hp.2⟩
  runs := hpending

/-- A step that saves a link of call `i` to its own events. -/
theorem sound_of_saveMetadata (h : Sound calls s) {m : LinkMetadata}
    (hevents : s'.events = saveMetadata i m s.events) (hruns : s'.runs = s.runs)
    (hother : ∀ j, j ≠ i → s'.phase j = s.phase j) (hown : OwnLink calls s.runs i m)
    (hphase : PhaseSound calls s' i (s'.phase i))
    (hpending : ∀ r j, (r, j) ∈ s.runs → s'.RunPending r j ∨ s'.phase j = .running r) :
    Sound calls s' where
  recorded e he := by
    rw [hevents] at he
    obtain ⟨e₀, he₀, hcall, hrun, htool, -⟩ := mem_saveMetadata he
    rw [hcall, hrun, htool]
    exact h.recorded e₀ he₀
  own e he m' hm' := by
    rw [hevents] at he
    obtain ⟨e₀, he₀, hcall, -, -, hmeta⟩ := mem_saveMetadata he
    rw [hcall, hruns]
    split_ifs at hmeta with hi
    · obtain rfl : m = m' := by simpa [hm'] using hmeta.symm
      exact hi ▸ hown
    · exact h.own e₀ he₀ m' (hmeta ▸ hm')
  phases j := by
    by_cases hj : j = i
    · exact hj ▸ hphase
    · refine phaseSound_of_other h (hother j hj) ?_ ?_ (hruns ▸ List.Subset.refl _)
      · intro hex
        rw [hevents]
        exact exists_call_saveMetadata hex
      · intro p _ hp
        exact hp.saveMetadata hevents fun heq => absurd heq.symm hj
  runs := hruns ▸ hpending

theorem sound_setPhase (h : Sound calls s) (hphase : PhaseSound calls s i phase)
    (hfresh : ∀ r, (r, i) ∉ s.runs) : Sound calls (s.setPhase i phase) := by
  refine sound_of_events_eq (i := i) h rfl (List.Subset.refl _)
    (fun j hj => LinkState.setPhase_phase_ne hj) ?_ ?_
  · rw [LinkState.setPhase_phase_self]
    cases phase <;> exact hphase
  · intro r j hr
    have hj : j ≠ i := fun hj => hfresh r (hj ▸ hr)
    rw [LinkState.RunPending, LinkState.setPhase_phase_ne hj]
    exact h.runs r j hr

theorem Sound.not_mem_runs (h : Sound calls s) (hpending : ∀ r, ¬ s.RunPending r i)
    (hrunning : ∀ r, s.phase i ≠ .running r) (r : String) : (r, i) ∉ s.runs :=
  fun hr => (h.runs r i hr).elim (hpending r) (hrunning r)

theorem sound_record (h : Sound calls s) {t : ℕ} (hphase : s.phase i = .starting t) :
    Sound calls { s.setPhase i .started with
      events := s.events ++ [⟨i, (calls i).runId, (calls i).toolName, t, s.clock, none⟩] } where
  recorded e he := by
    rcases List.mem_append.mp he with he | he
    · exact h.recorded e he
    · obtain rfl := List.mem_singleton.mp he
      exact ⟨rfl, rfl⟩
  own e he m hm := by
    rcases List.mem_append.mp he with he | he
    · exact h.own e he m hm
    · obtain rfl := List.mem_singleton.mp he
      simp at hm
  phases j := by
    by_cases hj : j = i
    · subst hj
      have hsound := h.phases j
      rw [hphase] at hsound
      simpa [PhaseSound] using hsound
    · refine phaseSound_of_other h (LinkState.setPhase_phase_ne hj) ?_ ?_ (List.Subset.refl _)
      · rintro ⟨e, he, hcall⟩
        exact ⟨e, List.mem_append_left _ he, hcall⟩
      · rintro p _ ⟨⟨e, he, hcall⟩, hall⟩
        refine ⟨⟨e, List.mem_append_left _ he, hcall⟩, fun e' he' hcall' => ?_⟩
        rcases List.mem_append.mp he' with he' | he'
        · exact hall e' he' hcall'
        · obtain rfl := List.mem_singleton.mp he'
          exact absurd hcall'.symm hj
  runs r j hr := by
    have hfresh := h.not_mem_runs (i := i) (by simp [LinkState.RunPending, hphase])
      (by simp [hphase])
    have hj : j ≠ i := fun hj => hfresh r (hj ▸ hr)
    simp only [LinkState.RunPending, LinkState.setPhase_phase_ne hj]
    exact h.runs r j hr

/-- The event that a call looks up at the right time is its own. -/
theorem call_eq_of_lookUp (h : Sound calls s) {tool : CanonicalToolName} {event : ℕ}
    {e : ToolEvent} (htool : canonicalizeToolName (calls i).toolName = some tool)
    (hlast : IsLast (isToolEvent (calls i) tool) ToolEvent.startedAt s.events i)
    (hfind : findLatest (isToolEvent (calls i) tool) ToolEvent.startedAt s.events event = some e) :
    e.call = i := by
  refine call_eq_of_isLast hfind hlast fun own hown hcall => ?_
  have hrecorded := h.recorded own hown
  rw [hcall] at hrecorded
  simp [isToolEvent, hrecorded, toolName_mem_toolSearchNames htool]

/-- The event that a child run looks up at the right time is the one of its call. -/
theorem call_eq_of_runLookUp (h : Sound calls s) (hphase : s.phase i = .linked) {event : ℕ}
    {e : ToolEvent}
    (hlast : IsLast (isEventOfChild (calls i).childThreadId) ToolEvent.ts s.events i)
    (hfind : findLatest (isEventOfChild (calls i).childThreadId) ToolEvent.ts s.events event =
      some e) : e.call = i := by
  have hlinked := h.phases i
  rw [hphase] at hlinked
  refine call_eq_of_isLast hfind hlast fun own hown hcall => ?_
  obtain ⟨m, hm, hthread⟩ := hlinked.2.2 own hown hcall
  have htool := (h.recorded own hown).2
  rw [hcall] at htool
  simp [isEventOfChild, htool, hlinked.1, hm, hthread]

theorem sound_runLookUp (h : Sound calls s) (hphase : s.phase i = .linked) {runId : String}
    {m : LinkMetadata} {messageId : Option String}
    (hm : m.childThreadId = (calls i).childThreadId) :
    Sound calls { s.setPhase i (.runFound runId i m messageId) with
      runs := s.runs ++ [(runId, i)] } := by
  have hsound := h.phases i
  rw [hphase] at hsound
  refine sound_of_events_eq (i := i) h rfl (List.subset_append_left _ _)
    (fun j hj => LinkState.setPhase_phase_ne hj) ?_ ?_
  · simp only [LinkState.setPhase_phase_self]
    exact ⟨rfl, hm, List.mem_append_right _ (List.mem_singleton.mpr rfl), hsound.2⟩
  · intro r j hr
    rcases List.mem_append.mp hr with hmem | hr
    · have hj : j ≠ i := by
        rintro rfl
        exact h.not_mem_runs (by simp [LinkState.RunPending, hphase]) (by simp [hphase]) r hmem
      simp only [LinkState.RunPending, LinkState.setPhase_phase_ne hj]
      exact h.runs r j hmem
    · obtain ⟨rfl, rfl⟩ := Prod.mk.inj (List.mem_singleton.mp hr)
      exact .inl ⟨j, m, messageId, by simp⟩

theorem sound_save (h : Sound calls s) (hphase : s.phase i = .found i) {tool : CanonicalToolName}
    (htool : canonicalizeToolName (calls i).toolName = some tool) :
    Sound calls { s.setPhase i .linked with
      events := saveMetadata i (buildInitialMetadata tool (calls i)) s.events } := by
  have hsound := h.phases i
  rw [hphase] at hsound
  refine sound_of_saveMetadata (i := i) h rfl rfl
    (fun j hj => LinkState.setPhase_phase_ne hj) ⟨rfl, by simp [buildInitialMetadata]⟩ ?_ ?_
  · simp only [LinkState.setPhase_phase_self]
    exact ⟨toolName_mem_linkableToolNames htool, LinkState.linked_saveMetadata hsound.2 rfl rfl⟩
  · intro r j hr
    have hj : j ≠ i := by
      rintro rfl
      exact h.not_mem_runs (by simp [LinkState.RunPending, hphase]) (by simp [hphase]) r hr
    simp only [LinkState.RunPending, LinkState.setPhase_phase_ne hj]
    exact h.runs r j hr

theorem sound_runSave (h : Sound calls s) {runId : String} {event : ℕ} {m m' : LinkMetadata}
    {messageId : Option String} (hphase : s.phase i = .runFound runId event m messageId)
    (hthread : m'.childThreadId = m.childThreadId) (hid : m'.childRun.id = some runId) :
    Sound calls { s.setPhase i (.running runId) with
      events := saveMetadata event m' s.events } := by
  have hsound := h.phases i
  rw [hphase] at hsound
  obtain ⟨rfl, hm, hrun, hlinked⟩ := hsound
  refine sound_of_saveMetadata (i := event) h rfl rfl
    (fun j hj => LinkState.setPhase_phase_ne hj) ⟨hthread.trans hm, ?_⟩ ?_ ?_
  · intro r hr
    obtain rfl : runId = r := Option.some.inj (hid.symm.trans hr)
    exact hrun
  · simp only [LinkState.setPhase_phase_self]
    exact ⟨hrun, LinkState.linked_saveMetadata hlinked.1 rfl ⟨hthread.trans hm, hid⟩⟩
  · intro r j hr
    by_cases hj : j = event
    · subst hj
      have hpending := h.runs r j hr
      simp only [LinkState.RunPending, hphase, CallPhase.runFound.injEq, reduceCtorEq,
        or_false] at hpending
      obtain ⟨-, -, -, rfl, -⟩ := hpending
      exact .inr (by simp)
    · simp only [LinkState.RunPending, LinkState.setPhase_phase_ne hj]
      exact h.runs r j hr

/-- A later write to the link of a child run keeps the thread and the run. -/
theorem sound_updateChildRun (h : Sound calls s) {runId : String} {event : ℕ}
    {update : ChildRunLink → ChildRunLink} (hupdate : ∀ c, (update c).id = c.id)
    (hstep : s.updateChildRun runId event update = some s') : Sound calls s' := by
  obtain ⟨e, hfind, hmap⟩ := Option.bind_eq_some_iff.mp hstep
  obtain ⟨m, hm, rfl⟩ := Option.map_eq_some_iff.mp hmap
  obtain ⟨hmem, -⟩ := findLatest_spec hfind
  have hown := h.own e hmem m hm
  refine sound_of_saveMetadata (i := e.call) h rfl rfl (fun _ _ => rfl) ?_ ?_ h.runs
  · exact ⟨hown.1, fun r hr => hown.2 r ((hupdate _).symm.trans hr)⟩
  · refine phaseSound_of_other h rfl exists_call_saveMetadata ?_ (List.Subset.refl _)
    intro p hcongr hp
    refine hp.saveMetadata rfl fun _ => ?_
    obtain ⟨m₀, hm₀, hpm⟩ := hp.2 e hmem rfl
    obtain rfl := Option.some.inj (hm.symm.trans hm₀)
    exact hcongr m _ rfl (hupdate _).symm hpm

theorem sound_lookUp (h : Sound calls s) (hphase : s.phase i = .started) {e : ToolEvent}
    (he : e ∈ s.events) (hcall : e.call = i) : Sound calls (s.setPhase i (.found e.call)) := by
  refine sound_setPhase h ⟨hcall, e, he, hcall⟩ ?_
  exact h.not_mem_runs (by simp [LinkState.RunPending, hphase]) (by simp [hphase])

theorem sound_step (h : Sound calls s) {a : LinkStep} (hok : Undisturbed calls s a)
    (hstep : s.step calls a = some s') : Sound calls s' := by
  cases a with
  | tick =>
    obtain rfl := Option.some.inj hstep
    exact ⟨h.recorded, h.own, fun j => phaseSound_of_other h rfl id (fun _ _ => id)
      (List.Subset.refl _), h.runs⟩
  | start i =>
    obtain ⟨hphase, hs⟩ := Option.ite_none_right_eq_some.mp hstep
    obtain rfl := Option.some.inj hs
    exact sound_setPhase h hok
      (h.not_mem_runs (by simp [LinkState.RunPending, hphase]) (by simp [hphase]))
  | record i =>
    simp only [LinkState.step] at hstep
    split at hstep
    next t hphase =>
      obtain rfl := Option.some.inj hstep
      exact sound_record h hphase
    next => simp at hstep
  | lookUp i event =>
    simp only [LinkState.step] at hstep
    split at hstep
    next tool hphase htool =>
      obtain ⟨e, hfind, rfl⟩ := Option.map_eq_some_iff.mp hstep
      exact sound_lookUp h hphase (findLatest_spec hfind).1
        (call_eq_of_lookUp h htool (hok tool htool) hfind)
    next => simp at hstep
  | notRegistered i =>
    simp only [LinkState.step] at hstep
    split at hstep
    next hphase hnone =>
      -- a call that has started has a canonical name
      have hsound := h.phases i
      rw [hphase] at hsound
      simp [PhaseSound, hnone] at hsound
    next => simp at hstep
  | save i =>
    simp only [LinkState.step] at hstep
    split at hstep
    next event tool hphase htool =>
      obtain rfl := Option.some.inj hstep
      have hsound := h.phases i
      rw [hphase] at hsound
      obtain rfl : event = i := hsound.1
      exact sound_save h hphase htool
    next => simp at hstep
  | runLookUp i runId event messageId =>
    obtain ⟨hmay, hs⟩ := Option.ite_none_right_eq_some.mp hstep
    have hphase : s.phase i = .linked := by
      refine hmay.1.resolve_right fun hphase => ?_
      have hsound := h.phases i
      rw [hphase] at hsound
      exact hsound
    obtain ⟨e, hfind, hmap⟩ := Option.bind_eq_some_iff.mp hs
    obtain ⟨m, hm, rfl⟩ := Option.map_eq_some_iff.mp hmap
    have hcall := call_eq_of_runLookUp h hphase hok hfind
    have hthread := (h.own e (findLatest_spec hfind).1 m hm).1
    rw [hcall] at hthread ⊢
    exact sound_runLookUp h hphase hthread
  | runSave i =>
    simp only [LinkState.step] at hstep
    split at hstep
    next runId event m messageId hphase =>
      obtain rfl := Option.some.inj hstep
      exact sound_runSave h hphase rfl rfl
    next => simp at hstep
  | runMessage runId event messageId =>
    simp only [LinkState.step] at hstep
    exact sound_updateChildRun h (by simp) hstep
  | runCompleted runId event status =>
    simp only [LinkState.step] at hstep
    exact sound_updateChildRun h (by simp) hstep
  | recordFailed _ | lookUpFailed _ | saveFailed _ => exact hok.elim
  | runLookUpFailed _ _ | runSaveFailed _ => exact hok.elim

theorem Sound.linksMatch (h : Sound calls s) : LinksMatch calls s where
  threads i hpast := by
    have hsound := h.phases i
    simp only [LinkState.PastLink] at hpast
    cases hphase : s.phase i with
    | linked => rw [hphase] at hsound; exact hsound.2
    | runFound => rw [hphase] at hsound; exact hsound.2.2.2
    | running => rw [hphase] at hsound; exact hsound.2.imp fun _ hm => hm.1
    | unlinked | runUnlinked => rw [hphase] at hsound; exact hsound.elim
    | idle | starting | started | found => simp [hphase] at hpast
  runs r i hr hpending := by
    have hphase := (h.runs r i hr).resolve_left hpending
    have hsound := h.phases i
    rw [hphase] at hsound
    exact hsound.2.imp fun _ hm => hm.2
  own := h.own

/-- In a run whose steps are all undisturbed, every child thread and run is linked to the event
of its call, and no event carries the link of another call. -/
theorem links_match (h : Reached (LinkState.step calls) (Undisturbed calls) .initial s) :
    LinksMatch calls s :=
  (h.invariant sound_initial fun _ _ _ hs hok hstep => sound_step hs hok hstep).linksMatch

/-- Calls of `call_agent` in one run, each with its own child thread. -/
def delegations (call : ℕ) : AgentCall :=
  ⟨"run", "call_agent", "parent", if call = 0 then "childA" else "childB"⟩

/-- The second call starts after the first one has linked its event. -/
def delegationsInTurn : List LinkStep :=
  [.start 0, .record 0, .lookUp 0 0, .save 0, .runLookUp 0 "runA" 0 none, .runSave 0, .tick,
    .start 1, .record 1, .lookUp 1 1, .save 1, .runLookUp 1 "runB" 1 none, .runSave 1,
    .runCompleted "runA" 0 "finished"]

theorem delegationsInTurn_match :
    ∃ s, runFrom (LinkState.step delegations) .initial delegationsInTurn = some s ∧
      LinksMatch delegations s := by
  have hmeet : StepsMeet (LinkState.step delegations) (Undisturbed delegations) .initial
    delegationsInTurn := by decide
  exact ⟨_, rfl, links_match (Reached.init.run hmeet rfl)⟩

/-- Both calls of one response record before the first one looks up. -/
def delegationsAtOnce : List LinkStep :=
  [.start 0, .tick, .start 1, .record 0, .record 1, .lookUp 0 1, .save 0]

/-- A call of a `call_agent` tool that is configured under another name. -/
def renamedDelegation (_ : ℕ) : AgentCall :=
  ⟨"run", "ask_reviewer", "parent", "child"⟩

def delegationUnregistered : List LinkStep :=
  [.start 0, .record 0, .notRegistered 0, .runLookUpFailed 0 "run2"]

/-- The event of the second call carries the child thread of the first; the child of a renamed
tool is linked to no event. -/
theorem links_mixed :
    (∃ s, runFrom (LinkState.step delegations) .initial delegationsAtOnce = some s ∧
      ¬ LinksMatch delegations s) ∧
    ∃ s, runFrom (LinkState.step renamedDelegation) .initial delegationUnregistered = some s ∧
      ¬ LinksMatch renamedDelegation s := by
  constructor
  · refine ⟨_, rfl, fun h => ?_⟩
    have hown := h.own _ (List.mem_cons_of_mem _ List.mem_cons_self) _ rfl
    exact absurd hown.1 (by decide)
  · refine ⟨_, rfl, fun h => ?_⟩
    obtain ⟨m, hm, -⟩ := (h.threads 0 trivial).2 _ List.mem_cons_self rfl
    simp at hm

end Agyn.CallLinking
