import Agyn.LinkProgress

/-!
Runs of calls and child runs. Each step either leaves the links right or breaks one, and which of
the two is decided by the action and by what the runs have persisted before it.
-/
namespace Agyn.ChildLinks

open CallLinking (CanonicalToolName canonicalizeToolName toolSearchNames linkableToolNames)

variable {s s' : State} {run run' : ChildRun} {event : Option ℕ}

/-- A step leaves the links right exactly if it meets the condition, and then all else is sound. -/
def Settles (s : State) (a : Action) (s' : State) : Prop :=
  (s'.Tracks ∧ s.Moves s' ↔ LinkedOnce s a) ∧ (LinkedOnce s a → Sound s')

variable (hs : Sound s) (ht : s.Tracks)

include hs ht

theorem settles_self {a : Action} (ha : LinkedOnce s a) : Settles s a s :=
  ⟨iff_of_true ⟨ht, .refl hs⟩ ha, fun _ => hs⟩

theorem settles_follow {a : Action} (hrun : run ∈ s.runs) (hid : run'.id = run.id)
    (hthread : run'.threadId = run.threadId) (hwf : run'.Wf)
    (ha : (s.Linked run.id → run.MayBecome run') ↔ LinkedOnce s a) :
    Settles s a (s.follow run') :=
  ⟨(follow_iff hs hrun hid hthread hwf ht).trans ha, fun _ => hs.follow hrun hid hthread hwf⟩

/-- A message that is passed on to the link. -/
theorem settles_message (a : Action) (b : Batch) {runId : String} {found : Option ToolEvent}
    (hrun : s.findRun runId = some run)
    (hfound : findParentEventByRun runId s.events event = some found) (hb : b.Wf)
    (hunused : s.Unused b.messages)
    (ha : (s.Linked run.id → run.MayBecome (run.persist b)) ↔ LinkedOnce s a) :
    Settles s a ⟨updateLink (onChildRunMessage runId b.reported) s.events found,
      s.saveRun (run.persist b)⟩ := by
  obtain ⟨hmem, rfl⟩ := State.findRun_eq_some hrun
  have hfollow := updateLink_follow (onChildRunMessage run.id b.reported) (run.persist b) hs hmem
    rfl hfound fun cur hcur => by
      rw [onChildRunMessage, hcur, ChildRun.link, ChildRun.link, ChildRun.reported_persist]
      rfl
  rw [hfollow]
  exact settles_follow hs ht hmem rfl rfl ((hs.wf run hmem).persist hmem hb hunused) ha

theorem settles_recordInjected {runId : String} {messages : List String}
    (h : step s (.recordInjected runId messages event) = some s') :
    Settles s (.recordInjected runId messages event) s' := by
  simp only [step] at h
  split at h
  · rename_i hnil
    obtain rfl := Option.some.inj h
    exact settles_self hs ht fun _ _ _ _ => by simp [hnil]
  · rename_i hne
    split at h
    · rename_i hunused
      obtain ⟨run, hrun, h⟩ := Option.bind_eq_some_iff.mp h
      obtain ⟨found, hfound, rfl⟩ := Option.map_eq_some_iff.mp h
      refine settles_message hs ht _ (.injected messages) hrun hfound trivial hunused ?_
      have hends : (run.persist (.injected messages)).EndsReported ↔ messages.length ≤ 1 :=
        ChildRun.endsReported_persist_of_ne hne
      obtain ⟨-, rfl⟩ := State.findRun_eq_some hrun
      simp [LinkedOnce, hrun, ChildRun.MayBecome, hends]
    · exact absurd h (by simp)

theorem settles_recordTransport {threadId runId message : String}
    (h : step s (.recordTransportAssistantMessage threadId runId message event) = some s') :
    Settles s (.recordTransportAssistantMessage threadId runId message event) s' := by
  simp only [step] at h
  split at h
  · rename_i hunused
    obtain ⟨run, hrun, h⟩ := Option.bind_eq_some_iff.mp h
    split at h
    · exact absurd h (by simp)
    · obtain ⟨found, hfound, rfl⟩ := Option.map_eq_some_iff.mp h
      refine settles_message hs ht (.recordTransportAssistantMessage ..) (.transport message) hrun
        hfound trivial hunused (iff_of_true (fun _ => ⟨.inr rfl, fun _ => ?_⟩) trivial)
      exact (ChildRun.endsReported_persist_of_ne (by simp [Batch.messages])).mpr trivial
  · exact absurd h (by simp)

theorem settles_completeRun {runId : String} {status : RunStatus}
    {outputs : List (MessageKind × String)}
    (h : step s (.completeRun runId status outputs event) = some s') :
    Settles s (.completeRun runId status outputs event) s' := by
  simp only [step] at h
  split at h
  · rename_i hguard
    obtain ⟨hended, hunused⟩ := hguard
    obtain ⟨run, hrun, h⟩ := Option.bind_eq_some_iff.mp h
    obtain ⟨found, hfound, rfl⟩ := Option.map_eq_some_iff.mp h
    obtain ⟨hmem, rfl⟩ := State.findRun_eq_some hrun
    let run' : ChildRun := { run.persist (.output (persistedOutputs outputs)) with status }
    have hreported : run'.reported = run.reported := ChildRun.reported_persist _
    have hfollow := updateLink_follow (onChildRunCompleted run.id status) run' hs hmem rfl hfound
      fun cur hcur => by
        rw [onChildRunCompleted, hcur, ChildRun.link, ChildRun.link, hreported]
        rfl
    rw [hfollow]
    have hwf : run'.Wf := (hs.wf run hmem).persist (b := .output _) hmem trivial hunused
    refine settles_follow hs ht hmem rfl rfl hwf ?_
    have hends : run'.EndsReported ↔ persistedOutputs outputs = [] ∧ run.EndsReported := by
      by_cases hnil : persistedOutputs outputs = []
      · exact (ChildRun.endsReported_persist_of_nil (b := .output _) hnil).trans (by simp [hnil])
      · refine (ChildRun.endsReported_persist_of_ne (b := .output _) hnil).trans ?_
        exact iff_of_false hnil fun h => hnil h.1
    have hmay : run.MayBecome run' ↔
        (run.status = .running ∨ run.status = status) ∧ run'.EndsReported :=
      and_congr_right fun _ => ⟨fun h => h hended, fun h _ => h⟩
    simp only [LinkedOnce, hrun, Option.mem_def, Option.some.injEq, forall_eq', hmay, hends]
  · exact absurd h (by simp)

theorem settles_startToolExecution {id : ℕ} {runId toolName : String} {startedAt ts : ℕ}
    (h : step s (.startToolExecution id runId toolName startedAt ts) = some s') :
    Settles s (.startToolExecution id runId toolName startedAt ts) s' := by
  simp only [step] at h
  split at h
  · exact absurd h (by simp)
  · rename_i hid
    obtain rfl := Option.some.inj h
    have hmem : ∀ e ∈ s.events ++ [⟨id, runId, toolName, startedAt, ts, none⟩],
        e ∈ s.events ∨ e.id = id ∧ e.metadata = none := by
      intro e he
      obtain he | he := List.mem_append.mp he
      · exact .inl he
      · rw [List.mem_singleton.mp he]
        exact .inr ⟨rfl, rfl⟩
    refine ⟨iff_of_true ⟨?_, ?_⟩ trivial, fun _ => ⟨?_, hs.runs, hs.wf, ?_, ?_⟩⟩
    · intro e he m hm
      obtain he | ⟨-, hnone⟩ := hmem e he
      · exact ht e he m hm
      · simp [hnone] at hm
    · intro e he e' he' hids
      obtain he' | ⟨hid', -⟩ := hmem e' he'
      · obtain rfl := List.inj_on_of_nodup_map hs.events he' he hids
        exact .refl
      · exact absurd (List.mem_map.mpr ⟨e, he, hids.symm.trans hid'⟩) hid
    · rw [List.map_append, List.map_singleton, ← List.concat_eq_append]
      exact hs.events.concat hid
    · intro e he m hm
      obtain he | ⟨-, hnone⟩ := hmem e he
      · exact hs.links e he m hm
      · simp [hnone] at hm
    · intro e he e' he' r hr hr'
      obtain he | ⟨-, hnone⟩ := hmem e he
      · obtain he' | ⟨-, hnone'⟩ := hmem e' he'
        · exact hs.apart e he e' he' r hr hr'
        · simp [ToolEvent.childRunId, hnone'] at hr'
      · simp [ToolEvent.childRunId, hnone] at hr

omit ht in
/-- A link of a run has a status that no event is linked anew from. -/
theorem linkMove_queued_iff {e : ToolEvent} {m' : LinkObject} (he : e ∈ s.events)
    (hm' : m'.childRun = queuedLink) :
    LinkMove e.metadata (some m') ↔ e.childRunId = none := by
  constructor
  · intro hmove
    by_contra hne
    obtain ⟨r, hr⟩ := Option.ne_none_iff_exists'.mp hne
    obtain ⟨m, hm, hmr⟩ := ToolEvent.childRunId_eq_some hr
    obtain ⟨-, hagrees, hlink⟩ := hs.links e he m hm
    rw [hm] at hmove
    rw [hagrees.id] at hmr
    obtain hqueued | ⟨run, -, hlink⟩ := hlink
    · simp [hqueued, queuedLink] at hmr
    · cases hmove with
      | linked hnone _ _ => simp [hnone m rfl] at hmr
      | started hqueued _ _ => simp [hlink.childRun, ChildRun.link] at hqueued
      | ended _ hended _ _ _ => simp [hm', queuedLink] at hended
      | stayed hsame _ _ => simp [hm', queuedLink, hlink.childRun, ChildRun.link] at hsame
  · intro hnone
    refine .linked (fun m hm => ?_) (by rw [hm']; rfl) (by rw [hm']; rfl)
    rw [← (hs.links e he m hm).2.1.id]
    exact ToolEvent.childRunId_eq_none_iff.mp hnone m hm

theorem settles_register {runId parentThreadId childThreadId toolName : String}
    (h : step s (.registerParentToolExecution runId parentThreadId childThreadId toolName event) =
      some s') :
    Settles s (.registerParentToolExecution runId parentThreadId childThreadId toolName event)
      s' := by
  simp only [step] at h
  split at h
  · rename_i htool
    obtain rfl := Option.some.inj h
    exact settles_self hs ht fun hsome => by simp [htool] at hsome
  · rename_i tool htool
    obtain ⟨found, hfound, h⟩ := Option.map_eq_some_iff.mp h
    cases found with
    | none =>
      obtain rfl := h
      refine settles_self hs ht fun _ e he hevent => ?_
      subst hevent
      simp [findLatestToolEvent, findFirst] at hfound
    | some e =>
      obtain ⟨he, hmatch, hevent⟩ := findFirst_some hfound
      obtain rfl := h
      let m' := serializeMetadata (buildInitialMetadata tool parentThreadId childThreadId)
      have hm' : m' = ⟨tool, parentThreadId, childThreadId, queuedLink, none, .queued, false,
          none⟩ := serializeMetadata_withChildRun _ _
      have hagrees : m'.Agrees := by
        rw [hm']
        exact ⟨rfl, rfl, rfl, rfl⟩
      have hqueued : m'.childRun = queuedLink := by rw [hm']
      have hone : LinkedOnce s
          (.registerParentToolExecution runId parentThreadId childThreadId toolName event) ↔
            e.childRunId = none := by
        simp only [LinkedOnce, htool, Option.isSome_some, forall_const, hevent]
        refine ⟨fun hall => hall e he rfl, fun hnone e' he' hids => ?_⟩
        rwa [List.inj_on_of_nodup_map hs.events he' he (Option.some.inj hids).symm]
      have hruns : ∀ run ∈ s.runs, run ∈ s.runs := fun _ hrun => hrun
      refine ⟨?_, fun _ => ?_⟩
      · refine (relink_iff hs he hruns ht ⟨hagrees, .inl ?_⟩).trans ?_
        · rw [hqueued]
          exact ⟨rfl, rfl⟩
        · exact (linkMove_queued_iff hs he hqueued).trans hone.symm
      · refine hs.relink he hruns ?_ hs.runs hs.wf ⟨hagrees, .inl hqueued⟩ fun e' _ r hr => ?_
        · have hname := (Bool.and_eq_true_iff.mp hmatch).2
          have hnames : ∀ name ∈ toolSearchNames tool, name ∈ linkableToolNames := by
            cases tool <;> decide
          exact hnames _ (List.contains_iff_mem.mp hname)
        · have hrunId : m'.childRunId = none := by rw [hm']
          exact absurd (hrunId.symm.trans hr) (by simp)

theorem settles_runs {a : Action} {runs : List ChildRun} (hruns : ∀ run ∈ s.runs, run ∈ runs)
    (hnodup : (runs.map ChildRun.id).Nodup) (hwf : ∀ run ∈ runs, run.Wf) (ha : LinkedOnce s a) :
    Settles s a ⟨s.events, runs⟩ := by
  refine ⟨iff_of_true ⟨fun e he m hm => ?_, .refl hs⟩ ha, fun _ => ?_⟩
  · exact (ht e he m hm).mono fun run hrun _ => hruns run hrun
  · refine ⟨hs.events, hnodup, hwf, fun e he m hm => ?_, hs.apart⟩
    obtain ⟨hname, hsound⟩ := hs.links e he m hm
    exact ⟨hname, hsound.mono fun run hrun _ => hruns run hrun⟩

omit ht in
/-- A run starts at an event that waits for one. -/
theorem linkMove_started_iff {e : ToolEvent} {m : LinkObject} {new : ChildRun} (he : e ∈ s.events)
    (hm : e.metadata = some m) (hstatus : new.status = .running)
    (hnew : new.id ∉ s.runs.map ChildRun.id) :
    LinkMove e.metadata (some (m.withChildRun new.link)) ↔ e.childRunId = none := by
  obtain ⟨-, hagrees, hlink⟩ := hs.links e he m hm
  have hrunId : e.childRunId = m.childRun.id := by
    rw [ToolEvent.childRunId, hm, Option.bind_some, hagrees.id]
  rw [hm, hrunId]
  obtain hqueued | ⟨run, hrun, hlink⟩ := hlink
  · refine iff_of_true (.started ?_ ?_ rfl) (by rw [hqueued]; rfl)
    · rw [hqueued]
      rfl
    · exact congrArg _ hstatus
  · have hne : run.id ≠ new.id := fun heq => hnew (heq ▸ List.mem_map_of_mem hrun)
    refine iff_of_false (fun hmove => ?_) (by simp [hlink.childRun, ChildRun.link])
    cases hmove with
    | linked _ hnone _ => simp [LinkObject.withChildRun, ChildRun.link] at hnone
    | started hqueued _ _ => simp [hlink.childRun, ChildRun.link] at hqueued
    | ended _ hended hne _ _ =>
      exact hne (ChildRunStatus.run.inj (hended.symm.trans (congrArg _ hstatus)))
    | stayed _ hsame _ =>
      rw [hlink.childRun] at hsame
      exact hne (Option.some.inj hsame).symm

omit ht in
/-- The runs with one that begins. -/
theorem nodup_begun {new : ChildRun} (hnew : new.id ∉ s.runs.map ChildRun.id) :
    ((s.runs ++ [new]).map ChildRun.id).Nodup := by
  rw [List.map_append, List.map_singleton, ← List.concat_eq_append]
  exact hs.runs.concat hnew

omit ht in
theorem wf_begun {new : ChildRun} {b : Batch} (hnew : new.batches = [b]) (hb : b.Wf)
    (hunused : b.messages.Nodup) : ∀ run ∈ s.runs ++ [new], run.Wf := by
  refine List.forall_mem_append.mpr ⟨hs.wf, List.forall_mem_singleton.mpr ⟨?_, ?_⟩⟩
  · simpa [ChildRun.messages, hnew] using hunused
  · rw [hnew]
    exact List.forall_mem_singleton.mpr hb

/-- A run that begins at the event that waits for it. -/
theorem settles_started {a : Action} {e : ToolEvent} {m : LinkObject} {new : ChildRun}
    (he : e ∈ s.events) (hm : e.metadata = some m) (hstatus : new.status = .running)
    (hnew : new.id ∉ s.runs.map ChildRun.id) (hwf : ∀ run ∈ s.runs ++ [new], run.Wf)
    (hlink : (m.withChildRun new.link).IsLinkOf new) (hone : LinkedOnce s a ↔ e.childRunId = none) :
    Settles s a ⟨s.events.map (ToolEvent.setLink e.id (m.withChildRun new.link)),
      s.runs ++ [new]⟩ := by
  have hruns : ∀ run ∈ s.runs, run ∈ s.runs ++ [new] := fun _ hrun => List.mem_append_left _ hrun
  have hmem : new ∈ s.runs ++ [new] := List.mem_append_right _ (List.mem_singleton_self _)
  have hagrees : (m.withChildRun new.link).Agrees := LinkObject.agrees_withChildRun _
  have htracks : (m.withChildRun new.link).Tracks (s.runs ++ [new]) :=
    hlink.tracks hagrees hmem fun hended => absurd hstatus hended
  refine ⟨?_, fun _ => ?_⟩
  · exact (relink_iff hs he hruns ht htracks).trans
      ((linkMove_started_iff hs he hm hstatus hnew).trans hone.symm)
  · refine hs.relink he hruns (hs.links e he m hm).1 (nodup_begun hs hnew) hwf
      ⟨hagrees, .inr ⟨new, hmem, hlink⟩⟩ fun e' he' r hr => ?_
    obtain rfl : new.id = r := Option.some.inj hr
    exact hs.childRunId_ne hnew he'

theorem settles_beginRunThread {threadId runId : String} {messages createdMessages : List String}
    (h : step s (.beginRunThread threadId runId messages createdMessages event) = some s') :
    Settles s (.beginRunThread threadId runId messages createdMessages event) s' := by
  simp only [step] at h
  split at h
  · rename_i hguard
    obtain ⟨⟨hnew, hunused⟩, hperm⟩ := hguard
    obtain ⟨found, hfound, rfl⟩ := Option.map_eq_some_iff.mp h
    let new : ChildRun := ⟨runId, threadId, .running, [.input messages createdMessages]⟩
    have hruns : ∀ run ∈ s.runs, run ∈ s.runs ++ [new] := fun _ hrun => List.mem_append_left _ hrun
    have hnodup : ((s.runs ++ [new]).map ChildRun.id).Nodup := nodup_begun hs hnew
    have hwf : ∀ run ∈ s.runs ++ [new], run.Wf := wf_begun hs rfl hperm hunused.1
    cases found with
    | none =>
      refine settles_runs hs ht hruns hnodup hwf fun e he hevent => ?_
      subst hevent
      simp [findParentEventByChildThread, findFirst] at hfound
    | some e =>
      obtain ⟨he, hmatch, hevent⟩ := findFirst_some hfound
      simp only [Bool.and_eq_true, Option.any_eq_true, decide_eq_true_eq] at hmatch
      obtain ⟨-, m, hm, hthread⟩ := hmatch
      have hone : LinkedOnce s (.beginRunThread threadId runId messages createdMessages event) ↔
          e.childRunId = none := by
        refine ⟨fun hall => hall e he hevent, fun hnone e' he' hevent' => ?_⟩
        have hids : e'.id = e.id := Option.some.inj (hevent'.symm.trans hevent)
        rwa [List.inj_on_of_nodup_map hs.events he' he hids]
      by_cases hids : m.parentThreadId ≠ "" ∧ m.childThreadId ≠ ""
      · have hupdate : ∀ cur, onChildRunStarted runId createdMessages.head? cur =
            cur.withChildRun new.link := by
          intro cur
          cases hhead : createdMessages.head? <;>
            simp [onChildRunStarted, ChildRun.link, new, ChildRun.reported, Batch.reported, hhead]
        rw [updateLink_some hs he hm hids.1 hids.2 fun cur _ => hupdate cur]
        exact settles_started hs ht he hm rfl hnew hwf ⟨hids.1, hids.2, hthread, rfl⟩ hone
      · have hnone : parseMetadata m = none := if_pos (by tauto)
        have hsame : updateLink (onChildRunStarted runId createdMessages.head?) s.events (some e) =
            s.events := by simp [updateLink, hm, hnone]
        rw [hsame]
        refine settles_runs hs ht hruns hnodup hwf (hone.mpr ?_)
        obtain ⟨-, hagrees, hqueued | ⟨run, -, hlink⟩⟩ := hs.links e he m hm
        · rw [ToolEvent.childRunId, hm, Option.bind_some, hagrees.id, hqueued]
          rfl
        · exact absurd ⟨hlink.parentThreadId, hlink.childThreadId⟩ hids
  · exact absurd h (by simp)

theorem settles_terminateRunningRuns :
    Settles s .terminateRunningRuns { s with runs := s.runs.map recover } := by
  have hid : ∀ run : ChildRun, (recover run).id = run.id := fun run => by
    unfold recover
    split <;> rfl
  have hkeep : ∀ run : ChildRun, run.status ≠ .running → recover run = run := fun run h => if_neg h
  constructor
  · constructor
    · rintro ⟨htracks, -⟩ run hrun hrunning ⟨e, he, hr⟩
      obtain ⟨m, hm, hmr⟩ := ToolEvent.childRunId_eq_some hr
      have hlink := hs.isLinkOf he hm hmr hrun
      obtain ⟨-, ⟨hnone, -⟩ | ⟨owner', howner', hid', -, hstatus, -⟩⟩ := htracks e he m hm
      · simp [hlink.childRun, ChildRun.link] at hnone
      · obtain ⟨owner, howner, rfl⟩ := List.mem_map.mp howner'
        rw [hlink.childRun, hid] at hid'
        obtain rfl := List.inj_on_of_nodup_map hs.runs hrun howner (Option.some.inj hid')
        rw [hlink.childRun, recover, if_pos hrunning] at hstatus
        exact absurd (hrunning.symm.trans (ChildRunStatus.run.inj hstatus)) (by simp)
    · intro hall
      refine ⟨fun e he m hm => ?_, .refl hs⟩
      have htracks := ht e he m hm
      refine htracks.mono fun run hrun hmr => List.mem_map.mpr ⟨run, hrun, hkeep run fun h => ?_⟩
      refine hall run hrun h ⟨e, he, ?_⟩
      rw [ToolEvent.childRunId, Option.mem_def.mp hm, Option.bind_some, htracks.1.id, hmr]
  · intro hall
    refine ⟨hs.events, ?_, ?_, fun e he m hm => ?_, hs.apart⟩
    · rw [List.map_map]
      exact (List.map_congr_left fun run _ => hid run) ▸ hs.runs
    · intro run' hrun'
      obtain ⟨run, hrun, rfl⟩ := List.mem_map.mp hrun'
      unfold recover
      split <;> exact hs.wf run hrun
    · obtain ⟨hname, hsound⟩ := hs.links e he m hm
      refine ⟨hname, hsound.mono fun run hrun hmr =>
        List.mem_map.mpr ⟨run, hrun, hkeep run fun h => hall run hrun h ⟨e, he, ?_⟩⟩⟩
      rw [ToolEvent.childRunId, Option.mem_def.mp hm, Option.bind_some, hsound.1.id, hmr]

/-- What a step does to the links, by its action. -/
theorem settles {a : Action} (h : step s a = some s') : Settles s a s' := by
  cases a with
  | startToolExecution => exact settles_startToolExecution hs ht h
  | registerParentToolExecution => exact settles_register hs ht h
  | beginRunThread => exact settles_beginRunThread hs ht h
  | recordInjected => exact settles_recordInjected hs ht h
  | recordTransportAssistantMessage => exact settles_recordTransport hs ht h
  | completeRun => exact settles_completeRun hs ht h
  | terminateRunningRuns =>
    obtain rfl := Option.some.inj h
    exact settles_terminateRunningRuns hs ht

omit hs ht

theorem tracks_of_run {as : List Action} {t : State} (hs : s.Tracks)
    (h : StepsMeet step LinksFollow s as) (hrun : runFrom step s as = some t) : t.Tracks := by
  induction as generalizing s with
  | nil => exact Option.some.inj hrun ▸ hs
  | cons a as ih =>
    obtain ⟨s', hstep, hrun⟩ := Option.bind_eq_some_iff.mp hrun
    exact ih (h.1 s' hstep).1 (h.2 s' hstep) hrun

theorem Sound.init : Sound State.init :=
  ⟨List.nodup_nil, List.nodup_nil, fun _ h => absurd h List.not_mem_nil,
    fun _ h => absurd h List.not_mem_nil, fun _ h => absurd h List.not_mem_nil⟩

/-- In a run of any calls and updates the links keep to their runs in every step exactly if every
step meets the condition. -/
theorem linksFollow_iff (as : List Action) (t : State) (hrun : runFrom step .init as = some t) :
    StepsMeet step LinksFollow .init as ↔ StepsMeet step LinkedOnce .init as := by
  refine stepsMeet_congr_of_run (fun s a s' (hinv : Sound s ∧ s.Tracks) h => ?_)
    (fun s a s' hinv ha h => ?_) ⟨Sound.init, fun _ h => absurd h List.not_mem_nil⟩ hrun
  · refine Iff.trans ⟨fun hall => hall s' h, fun hs' t' ht' => ?_⟩ (settles hinv.1 hinv.2 h).1
    exact Option.some.inj (h.symm.trans ht') ▸ hs'
  · obtain ⟨hiff, hsound⟩ := settles hinv.1 hinv.2 h
    exact ⟨hsound ha, (hiff.mpr ha).1⟩

/-- A call whose child run gets one input, two injections apart and an answer of its own, and
ends by a tool. -/
def answeredByTool : List Action :=
  [.startToolExecution 0 "parent" "call_agent" 1 1,
    .registerParentToolExecution "parent" "thread" "child" "call_agent" (some 0),
    .beginRunThread "child" "run" ["m1"] ["m1"] (some 0),
    .recordInjected "run" ["m2", "m3"] (some 0),
    .recordTransportAssistantMessage "child" "run" "m4" (some 0),
    .completeRun "run" .finished [(.tool, "t1")] (some 0)]

theorem answeredByTool_follows :
    ∃ t, runFrom step .init answeredByTool = some t ∧
      StepsMeet step LinkedOnce .init answeredByTool ∧
        StepsMeet step LinksFollow .init answeredByTool := by
  have hsome : (runFrom step .init answeredByTool).isSome := by decide +kernel
  obtain ⟨t, ht⟩ := Option.isSome_iff_exists.mp hsome
  have hmeet : StepsMeet step LinkedOnce .init answeredByTool := by decide +kernel
  exact ⟨t, ht, hmeet, (linksFollow_iff answeredByTool t ht).mpr hmeet⟩

/-- A child that answers: the answer is persisted by the completion, and the link still names the
input. -/
def answered : List Action :=
  [.startToolExecution 0 "parent" "call_agent" 1 1,
    .registerParentToolExecution "parent" "thread" "child" "call_agent" (some 0),
    .beginRunThread "child" "run" ["m1"] ["m1"] (some 0),
    .completeRun "run" .finished [(.assistant, "m2")] (some 0)]

theorem answer_not_named :
    ¬ ∀ as t, runFrom step .init as = some t → StepsMeet step LinksFollow .init as := by
  intro hall
  have hlost : ((runFrom step .init answered).any fun t => !decide t.Tracks) = true := by
    decide +kernel
  obtain ⟨t, hrun, ht⟩ := (Option.any_eq_true _ _).mp hlost
  have htracks := tracks_of_run (fun _ h => absurd h List.not_mem_nil) (hall answered t hrun) hrun
  simp [htracks] at ht

end Agyn.ChildLinks
