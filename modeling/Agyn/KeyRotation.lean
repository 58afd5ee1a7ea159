import Agyn.VirtualKeys

/-!
What becomes of the virtual keys of the LLM proxy, in every order of responses, timers and calls:
the key in use is the saved one and is never revoked before a shutdown, and every other key that
was given out has been asked to be revoked or could not be saved.
-/
namespace Agyn.VirtualKeys

variable {parse : String → Option ℤ} {w w' : World} {a : Action}

theorem clearRefreshTimer_eq (w : World) :
    ∃ timers, w.clearRefreshTimer = { w with timers, refreshTimer := none } := by
  unfold World.clearRefreshTimer
  split
  · rename_i hid
    exact ⟨w.timers, by rw [← hid]⟩
  · exact ⟨_, rfl⟩

theorem applyKeyState_eq (w : World) (now : ℤ) (state : VirtualKeyState) :
    ∃ timers refreshTimer nextTimer, w.applyKeyState now state =
      { w with currentKey := some state, timers, refreshTimer, nextTimer } := by
  obtain ⟨timers, hclear⟩ := clearRefreshTimer_eq { w with currentKey := some state }
  unfold World.applyKeyState World.scheduleRefresh
  rw [hclear]
  cases state.expiresAt with
  | none => exact ⟨_, _, _, rfl⟩
  | some expiresAt => exact ⟨_, _, _, rfl⟩

theorem foldl_setTimer_eq (attempts : List ℕ) (w : World) :
    ∃ timers refreshTimer nextTimer,
      attempts.foldl (fun w attempt => w.setTimer (attempt + 1) (World.retryDelay attempt)) w =
        { w with timers, refreshTimer, nextTimer } := by
  induction attempts generalizing w with
  | nil => exact ⟨_, _, _, rfl⟩
  | cons attempt attempts ih =>
    obtain ⟨timers, refreshTimer, nextTimer, heq⟩ :=
      ih (w.setTimer (attempt + 1) (World.retryDelay attempt))
    exact ⟨timers, refreshTimer, nextTimer, heq⟩

structure SameKeys (w w' : World) : Prop where
  persisted : w'.persisted = w.persisted
  currentKey : w'.currentKey = w.currentKey
  issued : w'.issued = w.issued
  deletes : ∀ k context, .key k context ∈ w'.deletes ↔ .key k context ∈ w.deletes

theorem sameKeys_rejectJob (w : World) : SameKeys w w.rejectJob ∧ w.rejectJob.job = none ∧
    w.rejectJob.unsaved = w.unsaved := by
  obtain ⟨timers, refreshTimer, nextTimer, heq⟩ := foldl_setTimer_eq w.scheduled
    { w with job := none, calls := w.calls.filter (!World.isWaiting ·), scheduled := [] }
  unfold World.rejectJob
  rw [heq]
  exact ⟨⟨rfl, rfl, rfl, fun _ _ => Iff.rfl⟩, rfl, rfl⟩

/-- After a failed attempt the job goes on with the same key before it, or it is over. -/
theorem attemptFailed_cases (w : World) (job : Job) (attempt : ℕ) :
    w.attemptFailed job attempt = { w with job := some { job with phase := .delayed attempt } } ∨
      w.attemptFailed job attempt = w.rejectJob := by
  unfold World.attemptFailed
  split_ifs
  · exact .inl rfl
  · exact .inr rfl

theorem nextAttempt_cases (w : World) (job : Job) (attempt : ℕ) :
    w.nextAttempt job attempt =
        { w with job := some { job with phase := .generating (attempt + 1) } } ∨
      w.nextAttempt job attempt = w.rejectJob := by
  unfold World.nextAttempt
  split_ifs
  · exact .inl rfl
  · exact .inr rfl

theorem refreshKey_cases (w : World) (trigger : ProvisionContext) :
    (∃ job, w.job = some job ∧ w.refreshKey trigger = w) ∨
      w.job = none ∧ w.refreshKey trigger =
        { w with job := some ⟨trigger, w.currentKey.map (·.key), .generating 1⟩ } := by
  unfold World.refreshKey
  cases hjob : w.job with
  | none => exact .inr ⟨rfl, rfl⟩
  | some job => exact .inl ⟨job, rfl, rfl⟩

/-- The proxy gives out keys that it has not given out before and was not asked to delete. -/
def Fresh (parse : String → Option ℤ) (w : World) : Action → Prop
  | .provisioned response => ∀ state, response.outcome parse = .key state →
    state.key ∉ w.issued ∧ ∀ context, .key state.key context ∉ w.deletes
  | _ => True

def Saving (w : World) (state : VirtualKeyState) : Prop :=
  ∃ trigger previousKey, w.job = some ⟨trigger, previousKey, .saving state⟩

structure Kept (w : World) : Prop where
  current : ∀ s, w.currentKey = some s → w.persisted = some s ∧ s.key ∈ w.issued ∧ s.key ≠ ""
  accounted : ∀ k ∈ w.issued, (∃ s, w.currentKey = some s ∧ s.key = k) ∨
    (∃ context, .key k context ∈ w.deletes) ∨ k ∈ w.unsaved ∨ ∃ s, Saving w s ∧ s.key = k
  active : ∀ k context, .key k context ∈ w.deletes → context ≠ .shutdown →
    ∀ s, w.currentKey = some s → s.key ≠ k
  saving : ∀ s, Saving w s → s.key ∈ w.issued ∧ s.key ≠ "" ∧
    (∀ context, .key s.key context ∉ w.deletes) ∧ ∀ c, w.currentKey = some c → c.key ≠ s.key
  previous : ∀ job, w.job = some job → job.phase ≠ .revoking →
    job.previousKey = w.currentKey.map (·.key)

/-- A step that leaves the keys, where nothing is being saved before or after. -/
theorem Kept.of_sameKeys (h : Kept w) (hsame : SameKeys w w') (hunsaved : w'.unsaved = w.unsaved)
    (hbefore : ∀ s, ¬ Saving w s) (hafter : ∀ s, ¬ Saving w' s)
    (hprevious : ∀ job, w'.job = some job → job.phase ≠ .revoking →
      job.previousKey = w.currentKey.map (·.key)) : Kept w' := by
  obtain ⟨hpersisted, hcurrent, hissued, hdeletes⟩ := hsame
  constructor
  · rw [hpersisted, hcurrent, hissued]
    exact h.current
  · rw [hcurrent, hissued, hunsaved]
    intro k hk
    obtain hk | ⟨context, hk⟩ | hk | ⟨s, hs, -⟩ := h.accounted k hk
    · exact .inl hk
    · exact .inr (.inl ⟨context, (hdeletes k context).mpr hk⟩)
    · exact .inr (.inr (.inl hk))
    · exact absurd hs (hbefore s)
  · intro k context hk
    rw [hcurrent]
    exact h.active k context ((hdeletes k context).mp hk)
  · exact fun s hs => absurd hs (hafter s)
  · rw [hcurrent]
    exact hprevious

/-- A step that leaves the keys and the job. -/
theorem Kept.of_sameJob (h : Kept w) (hsame : SameKeys w w') (hunsaved : w'.unsaved = w.unsaved)
    (hjob : w'.job = w.job) : Kept w' := by
  obtain ⟨hpersisted, hcurrent, hissued, hdeletes⟩ := hsame
  have hsaving : ∀ s, Saving w' s ↔ Saving w s := fun s => by rw [Saving, Saving, hjob]
  constructor
  · rw [hpersisted, hcurrent, hissued]
    exact h.current
  · rw [hcurrent, hissued, hunsaved]
    intro k hk
    obtain hk | ⟨context, hk⟩ | hk | ⟨s, hs, heq⟩ := h.accounted k hk
    · exact .inl hk
    · exact .inr (.inl ⟨context, (hdeletes k context).mpr hk⟩)
    · exact .inr (.inr (.inl hk))
    · exact .inr (.inr (.inr ⟨s, (hsaving s).mpr hs, heq⟩))
  · intro k context hk
    rw [hcurrent]
    exact h.active k context ((hdeletes k context).mp hk)
  · intro s hs
    obtain ⟨hin, hne, hdeleted, hother⟩ := h.saving s ((hsaving s).mp hs)
    rw [hissued, hcurrent]
    exact ⟨hin, hne, fun context hk => hdeleted context ((hdeletes _ _).mp hk), hother⟩
  · rw [hjob, hcurrent]
    exact h.previous

/-- The job is not saving a key. -/
theorem not_saving {trigger : ProvisionContext} {previousKey : Option String} {phase : Phase}
    (hjob : w.job = some ⟨trigger, previousKey, phase⟩) (hphase : ∀ s, phase ≠ .saving s)
    (s : VirtualKeyState) : ¬ Saving w s := by
  rintro ⟨trigger', previousKey', hsaving⟩
  have heq := Option.some.inj (hjob.symm.trans hsaving)
  exact hphase s (congrArg Job.phase heq)

theorem not_saving_none (hjob : w.job = none) (s : VirtualKeyState) : ¬ Saving w s := by
  rintro ⟨trigger, previousKey, hsaving⟩
  exact absurd (hjob.symm.trans hsaving).symm (Option.some_ne_none _)

theorem Kept.previous_eq (h : Kept w) {trigger : ProvisionContext} {previousKey : Option String}
    {phase : Phase} (hjob : w.job = some ⟨trigger, previousKey, phase⟩)
    (hphase : phase ≠ .revoking) : previousKey = w.currentKey.map (·.key) :=
  h.previous _ hjob hphase

theorem SameKeys.refl (w : World) : SameKeys w w := ⟨rfl, rfl, rfl, fun _ _ => Iff.rfl⟩

theorem mem_revokeKeyByAlias (w : World) (k : String) (context : RevokeContext) :
    .key k context ∈ w.revokeKeyByAlias.deletes ↔ .key k context ∈ w.deletes := by
  simp [World.revokeKeyByAlias]

/-- A job that moves on to a phase without a key, maybe after a request for the alias. -/
theorem Kept.move (h : Kept w) {trigger : ProvisionContext} {previousKey : Option String}
    {phase phase' : Phase} (hjob : w.job = some ⟨trigger, previousKey, phase⟩)
    (hphase : ∀ s, phase ≠ .saving s) (hrevoking : phase ≠ .revoking)
    (hphase' : ∀ s, phase' ≠ .saving s) (hsame : SameKeys w w') (hunsaved : w'.unsaved = w.unsaved)
    (hjob' : w'.job = some ⟨trigger, previousKey, phase'⟩) : Kept w' := by
  refine h.of_sameKeys hsame hunsaved (not_saving hjob hphase) (not_saving hjob' hphase') ?_
  intro job heq _
  obtain rfl := Option.some.inj (hjob'.symm.trans heq)
  exact h.previous_eq hjob hrevoking

theorem Kept.rejectJob (h : Kept w) (hbefore : ∀ s, ¬ Saving w s) : Kept w.rejectJob := by
  obtain ⟨hsame, hjob, hunsaved⟩ := sameKeys_rejectJob w
  refine h.of_sameKeys hsame hunsaved hbefore (not_saving_none hjob) ?_
  intro job heq
  exact absurd (hjob.symm.trans heq).symm (Option.some_ne_none job)

theorem Kept.refreshKey (h : Kept w) (trigger : ProvisionContext) :
    Kept (w.refreshKey trigger) := by
  obtain ⟨job, -, heq⟩ | ⟨hjob, heq⟩ := refreshKey_cases w trigger <;> rw [heq]
  · exact h
  · refine h.of_sameKeys ⟨rfl, rfl, rfl, fun _ _ => Iff.rfl⟩ rfl (not_saving_none hjob)
      (not_saving rfl (by simp)) ?_
    intro job' heq' _
    obtain rfl := Option.some.inj heq'
    rfl

theorem Kept.bootstrap (h : Kept w) (hjob : w.job = none) (hcurrent : w.currentKey = none) :
    Kept w.bootstrap := by
  have hpart : ∀ (started : Bool) (deletes : List DeleteRequest) (phase : Phase),
      (∀ s, phase ≠ .saving s) →
      (∀ k context, .key k context ∈ w.deletes → .key k context ∈ deletes) →
      Kept { w with started, deletes, job := some ⟨.startup, none, phase⟩ } := by
    intro started deletes phase hphase hdeletes
    refine ⟨?_, ?_, ?_, ?_, ?_⟩
    · exact h.current
    · intro k hk
      obtain hk | ⟨context, hk⟩ | hk | ⟨s, hs, -⟩ := h.accounted k hk
      · exact .inl hk
      · exact .inr (.inl ⟨context, hdeletes k context hk⟩)
      · exact .inr (.inr (.inl hk))
      · exact absurd hs (not_saving_none hjob s)
    · intro k context _ _ s hs
      exact absurd (hcurrent.symm.trans hs).symm (Option.some_ne_none s)
    · exact fun s hs => absurd hs (not_saving rfl hphase s)
    · intro job heq _
      obtain rfl := Option.some.inj heq
      show none = w.currentKey.map (·.key)
      rw [hcurrent]
      rfl
  unfold World.bootstrap
  dsimp only
  split
  · exact hpart true _ .clearingAlias (by simp) fun _ _ hk => List.mem_append_left _ hk
  · split_ifs
    · exact hpart true _ .clearingAlias (by simp) fun _ _ hk => List.mem_append_left _ hk
    · exact hpart true _ .revokingPersisted (by simp) fun _ _ hk => List.mem_append_left _ hk

theorem Kept.generated (h : Kept w) {trigger : ProvisionContext} {previousKey : Option String}
    {attempt : ℕ} {state : VirtualKeyState}
    (hjob : w.job = some ⟨trigger, previousKey, .generating attempt⟩) (hne : state.key ≠ "")
    (hissued : state.key ∉ w.issued) (hdeleted : ∀ context, .key state.key context ∉ w.deletes) :
    Kept { w with
      issued := w.issued ++ [state.key]
      job := some ⟨trigger, previousKey, .saving state⟩ } := by
  have hsaving : Saving { w with
      issued := w.issued ++ [state.key]
      job := some ⟨trigger, previousKey, .saving state⟩ } state := ⟨trigger, previousKey, rfl⟩
  refine ⟨?_, ?_, h.active, ?_, ?_⟩
  · intro s hs
    obtain ⟨hpersisted, hin, hkey⟩ := h.current s hs
    exact ⟨hpersisted, List.mem_append_left _ hin, hkey⟩
  · intro k hk
    obtain hk | hk := List.mem_append.mp hk
    · obtain hk | hk | hk | ⟨s, hs, -⟩ := h.accounted k hk
      · exact .inl hk
      · exact .inr (.inl hk)
      · exact .inr (.inr (.inl hk))
      · exact absurd hs (not_saving hjob (by simp) s)
    · exact .inr (.inr (.inr ⟨state, hsaving, (List.mem_singleton.mp hk).symm⟩))
  · rintro s ⟨trigger', previousKey', hs⟩
    obtain rfl : state = s := by
      have heq := Option.some.inj hs
      exact Phase.saving.inj (congrArg Job.phase heq)
    refine ⟨List.mem_append_right _ List.mem_cons_self, hne, hdeleted, fun c hc heq => ?_⟩
    exact hissued (heq ▸ (h.current c hc).2.1)
  · intro job heq _
    obtain rfl := Option.some.inj heq
    exact h.previous_eq hjob (by simp)

/-- The saved key takes the place of the one before, which is asked to be deleted. -/
theorem Kept.saved (h : Kept w) {trigger : ProvisionContext} {previousKey : Option String}
    {state : VirtualKeyState} (hjob : w.job = some ⟨trigger, previousKey, .saving state⟩)
    (now : ℤ) : Kept (w.saved now ⟨trigger, previousKey, .saving state⟩ state) := by
  have hsaving : Saving w state := ⟨trigger, previousKey, hjob⟩
  obtain ⟨hin, hne, hdeleted, hother⟩ := h.saving state hsaving
  have hprevious := h.previous_eq hjob (by simp)
  have honly : ∀ s, Saving w s → s = state := by
    rintro s ⟨trigger', previousKey', hs⟩
    have heq := Option.some.inj (hjob.symm.trans hs)
    exact (Phase.saving.inj (congrArg Job.phase heq)).symm
  -- where every key but the saved one was settled, or is settled by the added requests
  have hpart : ∀ w' : World, w'.persisted = some state → w'.currentKey = some state →
      w'.issued = w.issued → w'.unsaved = w.unsaved →
      (∀ d ∈ w.deletes, d ∈ w'.deletes) →
      (∀ c, w.currentKey = some c → ∃ context, .key c.key context ∈ w'.deletes) →
      (∀ context, .key state.key context ∉ w'.deletes) →
      (∀ job, w'.job = some job → job.phase = .revoking) → Kept w' := by
    intro w' hpersisted hcurrent hissued hunsaved hkept hold hnew hjob'
    refine ⟨?_, ?_, ?_, ?_, ?_⟩
    · rw [hcurrent, hpersisted, hissued]
      intro s hs
      obtain rfl := Option.some.inj hs
      exact ⟨rfl, hin, hne⟩
    · rw [hissued, hunsaved, hcurrent]
      intro k hk
      obtain ⟨c, hc, rfl⟩ | ⟨context, hk⟩ | hk | ⟨s, hs, rfl⟩ := h.accounted k hk
      · exact .inr (.inl (hold c hc))
      · exact .inr (.inl ⟨context, hkept _ hk⟩)
      · exact .inr (.inr (.inl hk))
      · exact .inl ⟨state, rfl, by rw [honly s hs]⟩
    · rw [hcurrent]
      intro k context hk _ s hs heq
      obtain rfl := Option.some.inj hs
      exact hnew context (heq ▸ hk)
    · rintro s ⟨trigger', previousKey', hs⟩
      exact absurd (hjob' _ hs) (by simp)
    · intro job heq hphase
      exact absurd (hjob' job heq) hphase
  obtain ⟨timers, refreshTimer, nextTimer, heq⟩ :=
    applyKeyState_eq { w with persisted := some state } now state
  unfold World.saved
  dsimp only
  rw [heq, hprevious]
  cases hc : w.currentKey with
  | none =>
    refine hpart _ rfl rfl rfl rfl (fun _ hd => hd) (fun c hcur => ?_) hdeleted fun job hj => ?_
    · exact absurd (hc.symm.trans hcur).symm (Option.some_ne_none c)
    · exact absurd hj.symm (Option.some_ne_none job)
  | some c =>
    have hkey := (h.current c hc).2.2
    simp only [Option.map_some, hkey, if_false]
    refine hpart _ rfl rfl rfl rfl (fun _ hd => List.mem_append_left _ hd) ?_ ?_ ?_
    · intro c' hc'
      obtain rfl := Option.some.inj (hc.symm.trans hc')
      exact ⟨_, List.mem_append_right _ List.mem_cons_self⟩
    · intro context hd
      obtain hd | hd := List.mem_append.mp hd
      · exact hdeleted context hd
      · have hsame := DeleteRequest.key.inj (List.mem_singleton.mp hd)
        exact hother c hc hsame.1.symm
    · intro job hj
      obtain rfl := Option.some.inj hj
      rfl

theorem Kept.saveFailed (h : Kept w) {trigger : ProvisionContext} {previousKey : Option String}
    {state : VirtualKeyState} (hjob : w.job = some ⟨trigger, previousKey, .saving state⟩) :
    Kept { w with unsaved := w.unsaved ++ [state.key] }.rejectJob := by
  obtain ⟨⟨hpersisted, hcurrent, hissued, hdeletes⟩, hnone, hunsaved⟩ :=
    sameKeys_rejectJob { w with unsaved := w.unsaved ++ [state.key] }
  refine ⟨?_, ?_, ?_, fun s hs => absurd hs (not_saving_none hnone s), ?_⟩
  · rw [hpersisted, hcurrent, hissued]
    exact h.current
  · rw [hcurrent, hissued, hunsaved]
    intro k hk
    obtain hk | ⟨context, hk⟩ | hk | ⟨s, ⟨trigger', previousKey', hs⟩, rfl⟩ := h.accounted k hk
    · exact .inl hk
    · exact .inr (.inl ⟨context, (hdeletes k context).mpr hk⟩)
    · exact .inr (.inr (.inl (List.mem_append_left _ hk)))
    · have heq := Option.some.inj (hjob.symm.trans hs)
      rw [← Phase.saving.inj (congrArg Job.phase heq)]
      exact .inr (.inr (.inl (List.mem_append_right _ List.mem_cons_self)))
  · intro k context hk
    rw [hcurrent]
    exact h.active k context ((hdeletes k context).mp hk)
  · intro job heq
    exact absurd (hnone.symm.trans heq).symm (Option.some_ne_none job)

theorem Kept.shutdown (h : Kept w) {deletes : List DeleteRequest} {shutdownHandlers : ℕ}
    (hdeletes : deletes = [] ∨ ∃ s, w.currentKey = some s ∧ deletes = [.key s.key .shutdown]) :
    Kept { w with deletes := w.deletes ++ deletes, shutdownHandlers } := by
  have hmem : ∀ k context, .key k context ∈ w.deletes ++ deletes →
      .key k context ∈ w.deletes ∨
        context = .shutdown ∧ ∃ s, w.currentKey = some s ∧ s.key = k := by
    intro k context hk
    obtain hk | hk := List.mem_append.mp hk
    · exact .inl hk
    · obtain rfl | ⟨s, hs, rfl⟩ := hdeletes
      · exact absurd hk List.not_mem_nil
      · have hsame := DeleteRequest.key.inj (List.mem_singleton.mp hk)
        exact .inr ⟨hsame.2, s, hs, hsame.1.symm⟩
  refine ⟨h.current, ?_, ?_, ?_, h.previous⟩
  · intro k hk
    obtain hk | ⟨context, hk⟩ | hk := h.accounted k hk
    · exact .inl hk
    · exact .inr (.inl ⟨context, List.mem_append_left _ hk⟩)
    · exact .inr (.inr hk)
  · intro k context hk hcontext
    obtain hk | ⟨hshutdown, -⟩ := hmem k context hk
    · exact h.active k context hk hcontext
    · exact absurd hshutdown hcontext
  · intro s hs
    obtain ⟨hin, hne, hdeleted, hother⟩ := h.saving s hs
    refine ⟨hin, hne, fun context hk => ?_, hother⟩
    obtain hk | ⟨-, c, hc, heq⟩ := hmem s.key context hk
    · exact hdeleted context hk
    · exact hother c hc heq

theorem outcome_key_ne_empty {response : ProvisionResponse} {state : VirtualKeyState}
    (h : response.outcome parse = .key state) : state.key ≠ "" := by
  unfold ProvisionResponse.outcome at h
  split at h
  · split at h
    · exact Outcome.noConfusion h
    · split_ifs at h with hempty
      rw [← Outcome.key.inj h]
      exact hempty
  · split_ifs at h
  · exact Outcome.noConfusion h

/-- Before `init` nothing is under way, and no key is in use. -/
def Unstarted (w : World) : Prop :=
  w.started = false → w.ready = false ∧ w.job = none ∧ w.currentKey = none ∧ w.timers = [] ∧
    w.calls = []

theorem kept_step (h : Kept w) (hunstarted : Unstarted w) (hfresh : Fresh parse w a)
    (hstep : step parse w a = some w') : Kept w' := by
  cases steps_of_step hstep with
  | initAgain => exact h
  | bootstrap hstarted =>
    obtain ⟨-, hjob, hcurrent, -⟩ := hunstarted hstarted
    exact h.bootstrap hjob hcurrent
  | generated hjob houtcome =>
    obtain ⟨hissued, hdeleted⟩ := hfresh _ houtcome
    exact h.generated hjob (outcome_key_ne_empty houtcome) hissued hdeleted
  | conflict hjob =>
    exact h.move hjob (by simp) (by simp) (by simp)
      ⟨rfl, rfl, rfl, mem_revokeKeyByAlias w⟩ rfl rfl
  | @attemptFailed _ _ _ attempt hjob =>
    obtain heq | heq := attemptFailed_cases w ⟨_, _, .generating attempt⟩ attempt <;> rw [heq]
    · exact h.move hjob (by simp) (by simp) (by simp) ⟨rfl, rfl, rfl, fun _ _ => Iff.rfl⟩ rfl rfl
    · exact h.rejectJob (not_saving hjob (by simp))
  | persistedRevoked hjob =>
    exact h.move hjob (by simp) (by simp) (by simp)
      ⟨rfl, rfl, rfl, mem_revokeKeyByAlias w⟩ rfl rfl
  | aliasCleared hjob =>
    exact h.move hjob (by simp) (by simp) (by simp) ⟨rfl, rfl, rfl, fun _ _ => Iff.rfl⟩ rfl rfl
  | @conflictCleared _ _ attempt hjob =>
    obtain heq | heq := nextAttempt_cases w ⟨_, _, .clearingConflict attempt⟩ attempt <;> rw [heq]
    · exact h.move hjob (by simp) (by simp) (by simp) ⟨rfl, rfl, rfl, fun _ _ => Iff.rfl⟩ rfl rfl
    · exact h.rejectJob (not_saving hjob (by simp))
  | previousRevoked hjob =>
    refine h.of_sameKeys ⟨rfl, rfl, rfl, fun _ _ => Iff.rfl⟩ rfl (not_saving hjob (by simp))
      (not_saving_none rfl) fun job heq => ?_
    exact absurd heq.symm (Option.some_ne_none job)
  | delayOver hjob =>
    exact h.move hjob (by simp) (by simp) (by simp) ⟨rfl, rfl, rfl, fun _ _ => Iff.rfl⟩ rfl rfl
  | @saved now _ _ _ hjob => exact h.saved hjob now
  | saveFailed hjob => exact h.saveFailed hjob
  | @fire i timer =>
    have hfired : Kept { w with timers := w.timers.eraseIdx i, refreshTimer := none } :=
      h.of_sameJob ⟨rfl, rfl, rfl, fun _ _ => Iff.rfl⟩ rfl rfl
    exact (hfired.refreshKey .refresh).of_sameJob ⟨rfl, rfl, rfl, fun _ _ => Iff.rfl⟩ rfl rfl
  | call => exact h.of_sameJob ⟨rfl, rfl, rfl, fun _ _ => Iff.rfl⟩ rfl rfl
  | refused =>
    exact (h.refreshKey .authError).of_sameJob ⟨rfl, rfl, rfl, fun _ _ => Iff.rfl⟩ rfl rfl
  | answered => exact h.of_sameJob ⟨rfl, rfl, rfl, fun _ _ => Iff.rfl⟩ rfl rfl
  | shutdown hdeletes => exact h.shutdown hdeletes
  | teardown =>
    obtain ⟨timers, heq⟩ := clearRefreshTimer_eq w
    rw [heq]
    exact h.of_sameJob ⟨rfl, rfl, rfl, fun _ _ => Iff.rfl⟩ rfl rfl

theorem started_rejectJob (w : World) : w.rejectJob.started = w.started := by
  obtain ⟨timers, refreshTimer, nextTimer, heq⟩ := foldl_setTimer_eq w.scheduled
    { w with job := none, calls := w.calls.filter (!World.isWaiting ·), scheduled := [] }
  unfold World.rejectJob
  rw [heq]

theorem started_refreshKey (w : World) (trigger : ProvisionContext) :
    (w.refreshKey trigger).started = w.started := by
  obtain ⟨job, -, heq⟩ | ⟨-, heq⟩ := refreshKey_cases w trigger <;> rw [heq]

theorem unstarted_step (h : Unstarted w) (hstep : step parse w a = some w') : Unstarted w' := by
  have hjobs : ∀ {trigger previousKey phase}, w.job = some ⟨trigger, previousKey, phase⟩ →
      w'.started = w.started → Unstarted w' := by
    intro trigger previousKey phase hjob hsame hstarted
    obtain ⟨-, hnone, -⟩ := h (hsame.symm.trans hstarted)
    exact absurd (hnone.symm.trans hjob).symm (Option.some_ne_none _)
  cases steps_of_step hstep with
  | initAgain => exact h
  | bootstrap =>
    intro hstarted
    have htrue : w.bootstrap.started = true := by
      unfold World.bootstrap
      dsimp only
      split
      · rfl
      · split_ifs <;> rfl
    exact absurd (htrue.symm.trans hstarted).symm Bool.false_ne_true
  | generated hjob => exact hjobs hjob rfl
  | conflict hjob => exact hjobs hjob rfl
  | @attemptFailed _ trigger previousKey attempt hjob =>
    refine hjobs hjob ?_
    obtain heq | heq :=
      attemptFailed_cases w ⟨trigger, previousKey, .generating attempt⟩ attempt <;> rw [heq]
    exact started_rejectJob w
  | persistedRevoked hjob => exact hjobs hjob rfl
  | aliasCleared hjob => exact hjobs hjob rfl
  | @conflictCleared trigger previousKey attempt hjob =>
    refine hjobs hjob ?_
    obtain heq | heq :=
      nextAttempt_cases w ⟨trigger, previousKey, .clearingConflict attempt⟩ attempt <;> rw [heq]
    exact started_rejectJob w
  | previousRevoked hjob => exact hjobs hjob rfl
  | delayOver hjob => exact hjobs hjob rfl
  | @saved now trigger previousKey state hjob =>
    refine hjobs hjob ?_
    obtain ⟨timers, refreshTimer, nextTimer, heq⟩ :=
      applyKeyState_eq { w with persisted := some state } now state
    unfold World.saved
    dsimp only
    rw [heq]
    cases previousKey with
    | none => rfl
    | some key =>
      dsimp only
      split_ifs <;> rfl
  | saveFailed hjob => exact hjobs hjob (started_rejectJob _)
  | @fire i timer hi =>
    intro hstarted
    have hsame := started_refreshKey
      { w with timers := w.timers.eraseIdx i, refreshTimer := none } .refresh
    obtain ⟨-, -, -, htimers, -⟩ := h (hsame.symm.trans hstarted)
    rw [htimers] at hi
    exact absurd hi.symm (Option.some_ne_none _)
  | call hready =>
    intro hstarted
    exact absurd ((h hstarted).1.symm.trans hready) Bool.false_ne_true
  | refused hi =>
    intro hstarted
    obtain ⟨-, -, -, -, hcalls⟩ := h ((started_refreshKey w .authError).symm.trans hstarted)
    rw [hcalls] at hi
    exact absurd hi.symm (Option.some_ne_none _)
  | answered hi =>
    intro hstarted
    obtain ⟨-, -, -, -, hcalls⟩ := h hstarted
    rw [hcalls] at hi
    exact absurd hi.symm (Option.some_ne_none _)
  | shutdown => exact h
  | teardown =>
    intro hstarted
    obtain ⟨timers, heq⟩ := clearRefreshTimer_eq w
    have hempty : w.clearRefreshTimer.timers = [] := by
      have hsame : w.started = false := by rw [heq] at hstarted; exact hstarted
      unfold World.clearRefreshTimer
      obtain ⟨-, -, -, htimers, -⟩ := h hsame
      cases w.refreshTimer with
      | none => exact htimers
      | some id =>
        show w.timers.filter _ = []
        rw [htimers, List.filter_nil]
    rw [heq] at hstarted hempty ⊢
    obtain ⟨hready, hjob, hcurrent, -, hcalls⟩ := h hstarted
    exact ⟨hready, hjob, hcurrent, hempty, hcalls⟩

theorem kept_start (persisted : Option VirtualKeyState) : Kept (World.start persisted) where
  current := fun s hs => absurd hs.symm (Option.some_ne_none s)
  accounted := fun _ hk => absurd hk List.not_mem_nil
  active := fun _ _ hk => absurd hk List.not_mem_nil
  saving := fun s hs => absurd hs (not_saving_none rfl s)
  previous := fun job heq => absurd heq.symm (Option.some_ne_none job)

theorem unstarted_start (persisted : Option VirtualKeyState) : Unstarted (World.start persisted) :=
  fun _ => ⟨rfl, rfl, rfl, rfl, rfl⟩

/-- The key in use is the one of the row, and no request to delete it was sent before a shutdown.
Each other key that the proxy gave out was asked to be deleted, or could not be saved. -/
theorem kept_of_reached {persisted : Option VirtualKeyState}
    (h : Reached (step parse) (Fresh parse) (World.start persisted) w) : Kept w := by
  have hboth : Kept w ∧ Unstarted w := by
    induction h with
    | init => exact ⟨kept_start persisted, unstarted_start persisted⟩
    | step a _ hok hstep ih => exact ⟨kept_step ih.1 ih.2 hok hstep, unstarted_step ih.2 hstep⟩
  exact hboth.1

def noon (_ : String) : Option ℤ := some 43200000

def startup : List Action :=
  [.init, .deleted, .provisioned (.ok (some "sk-1") (some "12:00")), .saved 0]

def rotation : List Action :=
  startup ++ [.call, .responded 0 401, .provisioned (.ok (some "sk-2") (some "12:00")), .saved 1]

theorem rotation_runs : (runFrom (step noon) (World.start none) rotation).isSome = true := rfl

/-- The second key is in use, and the first one is being revoked. -/
def rotated : World := (runFrom (step noon) (World.start none) rotation).get rotation_runs

example : rotated.deletes = [.alias, .key "sk-1" (.rotation .authError)] ∧
    rotated.timers = [⟨1, 0, 42899999⟩] := by decide

theorem fresh_of_key {w : World} {response : ProvisionResponse} {state : VirtualKeyState}
    (houtcome : response.outcome noon = .key state) (hissued : state.key ∉ w.issued)
    (hdeletes : w.deletes = [.alias]) : Fresh noon w (.provisioned response) := by
  intro state' h
  obtain rfl := Outcome.key.inj (houtcome.symm.trans h)
  refine ⟨hissued, fun context hk => ?_⟩
  rw [hdeletes] at hk
  exact DeleteRequest.noConfusion (List.mem_singleton.mp hk)

theorem kept_of_reached_rotated : Kept rotated := by
  have hmeets : StepsMeet (step noon) (Fresh noon) (World.start none) rotation := ?_
  · exact kept_of_reached (Reached.init.run hmeets (Option.some_get rotation_runs).symm)
  refine .cons trivial rfl (.cons trivial rfl (.cons ?_ rfl (.cons trivial rfl (.cons trivial rfl
    (.cons trivial rfl (.cons ?_ rfl (.cons trivial rfl trivial)))))))
  · exact fresh_of_key rfl (by decide) rfl
  · exact fresh_of_key rfl (by decide) rfl

end Agyn.VirtualKeys
