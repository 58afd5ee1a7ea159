import Mathlib.Data.List.Induction
import Mathlib.Data.List.Nodup
import Agyn.ChildLinks
import Agyn.GuardedRuns

/-!
How far the link of a child run follows the run. Its status and its run do so in every update,
but the message it names is the first one of a batch, not the last, and a completion persists
outputs without a word to the link. What a run has persisted is kept batch by batch, so that the
runs in which a link stays right can be told from the batches alone.
-/
namespace Agyn.ChildLinks

open CallLinking (CanonicalToolName canonicalizeToolName toolSearchNames linkableToolNames)

variable {s s' : State} {run run' : ChildRun} {e : ToolEvent} {m : LinkObject}

/-- The flat fields repeat the nested ones. -/
structure LinkObject.Agrees (m : LinkObject) : Prop where
  id : m.childRunId = m.childRun.id
  status : m.childRunStatus = m.childRun.status
  linkEnabled : m.childRunLinkEnabled = m.childRun.linkEnabled
  latestMessageId : m.childMessageId = m.childRun.latestMessageId

instance (m : LinkObject) : Decidable m.Agrees :=
  decidable_of_iff (m.childRunId = m.childRun.id ∧ m.childRunStatus = m.childRun.status ∧
      m.childRunLinkEnabled = m.childRun.linkEnabled ∧
        m.childMessageId = m.childRun.latestMessageId)
    ⟨fun ⟨h₁, h₂, h₃, h₄⟩ => ⟨h₁, h₂, h₃, h₄⟩, fun ⟨h₁, h₂, h₃, h₄⟩ => ⟨h₁, h₂, h₃, h₄⟩⟩

/-- The link is the one of a run of its child thread, with the status of the run and, once the
run has ended, its last message; or it waits for a run. -/
def LinkObject.Tracks (m : LinkObject) (runs : List ChildRun) : Prop :=
  m.Agrees ∧
    (m.childRun.id = none ∧ m.childRun.status = .queued ∨
      ∃ run ∈ runs, m.childRun.id = some run.id ∧ m.childThreadId = run.threadId ∧
        m.childRun.status = .run run.status ∧
        (run.status ≠ .running → m.childRun.latestMessageId = run.messages.getLast?))

instance (m : LinkObject) (runs : List ChildRun) : Decidable (m.Tracks runs) :=
  inferInstanceAs (Decidable (_ ∧ (_ ∨ ∃ _ ∈ _, _)))

/-- How the metadata of an event may change: it is linked to a call, the run starts, the run
ends. -/
inductive LinkMove : Option LinkObject → Option LinkObject → Prop where
  | unlinked : LinkMove none none
  | linked {before : Option LinkObject} {m : LinkObject} :
      (∀ m' ∈ before, m'.childRun.id = none) →
      m.childRun.id = none → m.childRun.status = .queued → LinkMove before (some m)
  | started {m m' : LinkObject} : m.childRun.status = .queued →
      m'.childRun.status = .run .running → m'.childThreadId = m.childThreadId →
      LinkMove (some m) (some m')
  | ended {m m' : LinkObject} {status : RunStatus} : m.childRun.status = .run .running →
      m'.childRun.status = .run status → status ≠ .running → m'.childRun.id = m.childRun.id →
      m'.childThreadId = m.childThreadId → LinkMove (some m) (some m')
  | stayed {m m' : LinkObject} : m'.childRun.status = m.childRun.status →
      m'.childRun.id = m.childRun.id → m'.childThreadId = m.childThreadId →
      LinkMove (some m) (some m')

def State.Tracks (s : State) : Prop :=
  ∀ e ∈ s.events, ∀ m ∈ e.metadata, m.Tracks s.runs

instance (s : State) : Decidable s.Tracks :=
  inferInstanceAs (Decidable (∀ e ∈ s.events, ∀ m ∈ e.metadata, m.Tracks s.runs))

def State.Moves (s s' : State) : Prop :=
  ∀ e ∈ s.events, ∀ e' ∈ s'.events, e'.id = e.id → LinkMove e.metadata e'.metadata

/-- After the step every link tracks its run, and no link made a move it must not make. -/
def LinksFollow (s : State) (a : Action) : Prop :=
  ∀ s', step s a = some s' → s'.Tracks ∧ s.Moves s'

def Batch.EndsReported : Batch → Prop
  | .input messages createdMessages => createdMessages.head? = messages.getLast?
  | .injected messages => messages.length ≤ 1
  | .transport _ => True
  | .output messages => messages = []

instance (b : Batch) : Decidable b.EndsReported := by
  cases b <;> unfold Batch.EndsReported <;> infer_instance

def ChildRun.EndsReported (run : ChildRun) : Prop :=
  ∀ b ∈ (run.batches.filter fun b => b.messages ≠ []).getLast?, b.EndsReported

instance (run : ChildRun) : Decidable run.EndsReported :=
  inferInstanceAs (Decidable (∀ _ ∈ List.getLast? _, _))

def ToolEvent.childRunId (e : ToolEvent) : Option String :=
  e.metadata.bind fun m => m.childRunId

def State.Linked (s : State) (runId : String) : Prop :=
  ∃ e ∈ s.events, e.childRunId = some runId

instance (s : State) (runId : String) : Decidable (s.Linked runId) :=
  inferInstanceAs (Decidable (∃ _ ∈ _, _))

/-- No event that is linked to a run is linked anew, and a linked run is completed once, with no
output to persist and by a last batch whose last message was passed on. -/
def LinkedOnce (s : State) : Action → Prop
  | .registerParentToolExecution _ _ _ toolName event =>
    (canonicalizeToolName toolName).isSome →
      ∀ e ∈ s.events, event = some e.id → e.childRunId = none
  | .beginRunThread _ _ _ _ event => ∀ e ∈ s.events, event = some e.id → e.childRunId = none
  | .recordInjected runId messages _ =>
    s.Linked runId → ∀ run ∈ s.findRun runId, run.status ≠ .running → messages.length ≤ 1
  | .completeRun runId status outputs _ =>
    s.Linked runId → ∀ run ∈ s.findRun runId,
      (run.status = .running ∨ run.status = status) ∧
        persistedOutputs outputs = [] ∧ run.EndsReported
  | .terminateRunningRuns => ∀ run ∈ s.runs, run.status = .running → ¬ s.Linked run.id
  | _ => True

instance (s : State) (a : Action) : Decidable (LinkedOnce s a) := by
  cases a <;> unfold LinkedOnce <;> infer_instance

def Batch.reported : Batch → Option String
  | .input _ createdMessages => createdMessages.head?
  | .injected messages => messages.head?
  | .transport message => some message
  | .output _ => none

def ChildRun.reported (run : ChildRun) : Option String :=
  (run.batches.filterMap Batch.reported).getLast?

def Batch.Wf : Batch → Prop
  | .input messages createdMessages => createdMessages.Perm messages
  | _ => True

def ChildRun.Wf (run : ChildRun) : Prop :=
  run.messages.Nodup ∧ ∀ b ∈ run.batches, b.Wf

theorem head?_eq_getLast?_iff {messages : List String} (h : messages.Nodup) :
    messages.head? = messages.getLast? ↔ messages.length ≤ 1 := by
  match messages, h with
  | [], _ => simp
  | [m], _ => simp
  | m :: m' :: ms, h =>
    have hlast : (m' :: ms).getLast? = some ((m' :: ms).getLast (by simp)) :=
      List.getLast?_eq_some_getLast _
    have hne : m ≠ (m' :: ms).getLast (by simp) := fun heq =>
      (List.nodup_cons.mp h).1 (heq ▸ List.getLast_mem _)
    rw [List.getLast?_cons_cons, hlast, List.head?_cons, Option.some.injEq]
    simp [hne]

theorem Batch.reported_mem {b : Batch} (hb : b.Wf) {x : String} (h : b.reported = some x) :
    x ∈ b.messages := by
  cases b with
  | input messages createdMessages => exact hb.mem_iff.mp (List.mem_of_head? h)
  | injected messages => exact List.mem_of_head? h
  | transport message =>
    obtain rfl := Option.some.inj h
    exact List.mem_singleton_self _
  | output messages => simp [reported] at h

theorem Batch.reported_of_nil {b : Batch} (hb : b.Wf) (h : b.messages = []) :
    b.reported = none := by
  refine Option.eq_none_iff_forall_ne_some.mpr fun x hx => ?_
  simpa [h] using reported_mem hb hx

/-- The batch passes its last message on exactly if its form says so. -/
theorem Batch.endsReported_iff {b : Batch} (hnodup : b.messages.Nodup) (hne : b.messages ≠ []) :
    b.EndsReported ↔ b.reported = b.messages.getLast? := by
  cases b with
  | input messages createdMessages => exact Iff.rfl
  | injected messages => exact (head?_eq_getLast?_iff hnodup).symm
  | transport message => simp [EndsReported, reported, messages]
  | output messages =>
    have : messages ≠ [] := hne
    simp [EndsReported, reported, Batch.messages, this, eq_comm]

namespace ChildRun

@[simp] theorem status_persist (b : Batch) : (run.persist b).status = run.status := rfl

@[simp] theorem messages_persist (b : Batch) :
    (run.persist b).messages = run.messages ++ b.messages := by
  simp [messages, persist]

@[simp] theorem reported_persist (b : Batch) :
    (run.persist b).reported = b.reported.or run.reported := by
  cases hb : b.reported <;> simp [reported, persist, List.filterMap_append, hb]

theorem endsReported_persist_of_nil {b : Batch} (h : b.messages = []) :
    (run.persist b).EndsReported ↔ run.EndsReported := by
  simp [EndsReported, persist, h]

theorem endsReported_persist_of_ne {b : Batch} (h : b.messages ≠ []) :
    (run.persist b).EndsReported ↔ b.EndsReported := by
  simp [EndsReported, persist, h]

theorem Wf.of_persist {b : Batch} (h : (run.persist b).Wf) : run.Wf := by
  obtain ⟨hnodup, hwf⟩ := h
  rw [messages_persist] at hnodup
  exact ⟨hnodup.of_append_left, fun b' hb' => hwf b' (List.mem_append_left _ hb')⟩

theorem reported_mem (h : run.Wf) {x : String} (hx : run.reported = some x) :
    x ∈ run.messages := by
  obtain ⟨b, hb, hbx⟩ := List.mem_filterMap.mp (List.mem_of_getLast? hx)
  exact List.mem_flatMap.mpr ⟨b, hb, Batch.reported_mem (h.2 b hb) hbx⟩

/-- The link names the last message exactly if the last batch that persisted one passed it on. -/
theorem reported_iff (h : run.Wf) :
    run.reported = run.messages.getLast? ↔ run.EndsReported := by
  obtain ⟨id, threadId, status, batches⟩ := run
  induction batches using List.reverseRecOn with
  | nil => simp [reported, messages, EndsReported]
  | append_singleton batches b ih =>
    change (persist ⟨id, threadId, status, batches⟩ b).Wf at h
    change (persist ⟨id, threadId, status, batches⟩ b).reported =
      (persist ⟨id, threadId, status, batches⟩ b).messages.getLast? ↔
        (persist ⟨id, threadId, status, batches⟩ b).EndsReported
    have hb : b.Wf := h.2 b (List.mem_append_right _ (List.mem_singleton_self b))
    have hnodup := h.1
    rw [messages_persist] at hnodup ⊢
    rw [reported_persist]
    by_cases hnil : b.messages = []
    · rw [endsReported_persist_of_nil hnil, ← ih h.of_persist, hnil,
        Batch.reported_of_nil hb hnil, Option.none_or, List.append_nil]
    · rw [endsReported_persist_of_ne hnil, List.getLast?_append_of_ne_nil _ hnil,
        Batch.endsReported_iff (List.nodup_append.mp hnodup).2.1 hnil]
      cases hreported : b.reported with
      | some x => simp
      | none =>
        -- an earlier message would have to come again at the end
        rw [Option.none_or, List.getLast?_eq_some_getLast hnil]
        refine iff_of_false (fun hlast => ?_) (by simp)
        exact (List.nodup_append.mp hnodup).2.2 _ (reported_mem h.of_persist hlast) _
          (List.getLast_mem hnil) rfl

end ChildRun

def ChildRun.link (run : ChildRun) : ChildRunLink :=
  ⟨some run.id, .run run.status, true, run.reported⟩

namespace LinkObject

def withChildRun (m : LinkObject) (childRun : ChildRunLink) : LinkObject :=
  { m with
    childRun
    childRunId := childRun.id
    childRunStatus := childRun.status
    childRunLinkEnabled := childRun.linkEnabled
    childMessageId := childRun.latestMessageId }

theorem agrees_withChildRun (l : ChildRunLink) : (m.withChildRun l).Agrees := ⟨rfl, rfl, rfl, rfl⟩

structure IsLinkOf (m : LinkObject) (run : ChildRun) : Prop where
  parentThreadId : m.parentThreadId ≠ ""
  childThreadId : m.childThreadId ≠ ""
  thread : m.childThreadId = run.threadId
  childRun : m.childRun = run.link

theorem IsLinkOf.withChildRun (h : m.IsLinkOf run) (hthread : run'.threadId = run.threadId) :
    (m.withChildRun run'.link).IsLinkOf run' :=
  ⟨h.parentThreadId, h.childThreadId, h.thread.trans hthread.symm, rfl⟩

def Sound (m : LinkObject) (runs : List ChildRun) : Prop :=
  m.Agrees ∧ (m.childRun = queuedLink ∨ ∃ run ∈ runs, m.IsLinkOf run)

end LinkObject

/-- What a run keeps as long as its steps meet the condition. -/
structure Sound (s : State) : Prop where
  events : (s.events.map ToolEvent.id).Nodup
  runs : (s.runs.map ChildRun.id).Nodup
  wf : ∀ run ∈ s.runs, run.Wf
  links : ∀ e ∈ s.events, ∀ m ∈ e.metadata, e.toolName ∈ linkableToolNames ∧ m.Sound s.runs
  apart : ∀ e ∈ s.events, ∀ e' ∈ s.events, ∀ r,
    e.childRunId = some r → e'.childRunId = some r → e = e'

theorem serializeMetadata_withChildRun (cur : CallAgentLinkMetadata) (l : ChildRunLink) :
    serializeMetadata (cur.withChildRun l) =
      ⟨cur.tool, cur.parentThreadId, cur.childThreadId, l, l.id, l.status, l.linkEnabled,
        l.latestMessageId⟩ := by
  simp [serializeMetadata, CallAgentLinkMetadata.withChildRun]

/-- Metadata with ids of threads is read as it was written. -/
theorem parseMetadata_of_agrees (h : m.Agrees) (hparent : m.parentThreadId ≠ "")
    (hchild : m.childThreadId ≠ "") :
    ∃ cur, parseMetadata m = some cur ∧ cur.childRun = m.childRun ∧
      ∀ l, serializeMetadata (cur.withChildRun l) = m.withChildRun l := by
  have hcur : parseMetadata m = some (CallAgentLinkMetadata.withChildRun
      ⟨m.tool, m.parentThreadId, m.childThreadId, m.childRun, none, none, none, none⟩
      m.childRun) := by
    simp [parseMetadata, hparent, hchild, h.id, h.status, h.linkEnabled, h.latestMessageId]
  exact ⟨_, hcur, rfl, fun l => serializeMetadata_withChildRun _ l⟩

theorem findFirst_some {matching : ToolEvent → Bool} {key : ToolEvent → ℕ}
    {events : List ToolEvent} {event : Option ℕ} {e : ToolEvent}
    (h : findFirst matching key events event = some (some e)) :
    e ∈ events ∧ matching e = true ∧ event = some e.id := by
  cases event with
  | none =>
    simp only [findFirst] at h
    split at h <;> simp at h
  | some event =>
    simp only [findFirst, Option.map_eq_some_iff, Option.some.injEq, exists_eq_right] at h
    have hmatch := List.find?_some h
    simp only [isLatest, Bool.and_eq_true, decide_eq_true_eq] at hmatch
    exact ⟨List.mem_of_find?_eq_some h, hmatch.2.1, congrArg some hmatch.1.symm⟩

theorem findFirst_none {matching : ToolEvent → Bool} {key : ToolEvent → ℕ}
    {events : List ToolEvent} {event : Option ℕ}
    (h : findFirst matching key events event = some none) :
    ∀ e ∈ events, matching e = false := by
  cases event with
  | none =>
    simp only [findFirst] at h
    split at h
    · simp at h
    · rename_i hany
      simpa using hany
  | some event => simp [findFirst] at h

def ToolEvent.setLink (event : ℕ) (m : LinkObject) (e : ToolEvent) : ToolEvent :=
  if e.id = event then { e with metadata := some m } else e

/-- An update rewrites the link of the event found, once this can be read. -/
theorem updateLink_some {update : CallAgentLinkMetadata → CallAgentLinkMetadata}
    {l : ChildRunLink} (hs : Sound s) (he : e ∈ s.events) (hm : e.metadata = some m)
    (hparent : m.parentThreadId ≠ "") (hchild : m.childThreadId ≠ "")
    (hupdate : ∀ cur, cur.childRun = m.childRun → update cur = cur.withChildRun l) :
    updateLink update s.events (some e) =
      s.events.map (ToolEvent.setLink e.id (m.withChildRun l)) := by
  have hagrees : m.Agrees := (hs.links e he m hm).2.1
  obtain ⟨cur, hcur, hrun, hserialize⟩ := parseMetadata_of_agrees hagrees hparent hchild
  simp only [updateLink, Option.bind_some, hm, hcur, Option.map_some, saveMetadata,
    hupdate cur hrun, hserialize]
  rfl

namespace ToolEvent

def follow (run : ChildRun) (e : ToolEvent) : ToolEvent :=
  if e.childRunId = some run.id then
    { e with metadata := e.metadata.map (·.withChildRun run.link) }
  else e

@[simp] theorem follow_id : (e.follow run).id = e.id := by
  unfold follow
  split <;> rfl

@[simp] theorem follow_toolName : (e.follow run).toolName = e.toolName := by
  unfold follow
  split <;> rfl

theorem childRunId_eq_some {r : String} (h : e.childRunId = some r) :
    ∃ m, e.metadata = some m ∧ m.childRunId = some r := by
  simpa [childRunId, Option.bind_eq_some_iff] using h

theorem childRunId_follow : (e.follow run).childRunId = e.childRunId := by
  unfold follow
  split
  · rename_i h
    obtain ⟨m, hm, hr⟩ := childRunId_eq_some h
    rw [h]
    simp [childRunId, hm, LinkObject.withChildRun, ChildRun.link]
  · rfl

end ToolEvent

def State.follow (s : State) (run : ChildRun) : State :=
  ⟨s.events.map (ToolEvent.follow run), s.saveRun run⟩

theorem State.mem_saveRun (hrun : run ∈ s.runs) (hid : run'.id = run.id) {r : ChildRun} :
    r ∈ s.saveRun run' ↔ r = run' ∨ r ∈ s.runs ∧ r.id ≠ run'.id := by
  simp only [saveRun, List.mem_map]
  constructor
  · rintro ⟨r, hr, rfl⟩
    split
    · exact .inl rfl
    · rename_i hne
      exact .inr ⟨hr, hne⟩
  · rintro (rfl | ⟨hr, hne⟩)
    · exact ⟨run, hrun, if_pos hid.symm⟩
    · exact ⟨r, hr, if_neg hne⟩

theorem State.map_id_saveRun : (s.saveRun run').map ChildRun.id = s.runs.map ChildRun.id := by
  simp only [saveRun, List.map_map]
  refine List.map_congr_left fun r _ => ?_
  simp only [Function.comp_apply]
  split
  · rename_i h
    exact h.symm
  · rfl

theorem State.map_id_follow :
    (s.follow run').events.map ToolEvent.id = s.events.map ToolEvent.id := by
  simp [follow, Function.comp_def]

theorem Sound.isLinkOf (hs : Sound s) (he : e ∈ s.events) (hm : e.metadata = some m)
    (hr : m.childRunId = some run.id) (hrun : run ∈ s.runs) : m.IsLinkOf run := by
  obtain ⟨-, hagrees, hqueued | ⟨owner, howner, hlink⟩⟩ := hs.links e he m hm
  · rw [hagrees.id, hqueued] at hr
    exact absurd hr (by simp [queuedLink])
  · rw [hagrees.id, hlink.childRun] at hr
    obtain rfl := List.inj_on_of_nodup_map hs.runs howner hrun (Option.some.inj hr)
    exact hlink

/-- No link has the id of a run that is not there. -/
theorem Sound.childRunId_ne (hs : Sound s) {r : String} (hr : r ∉ s.runs.map ChildRun.id)
    (he : e ∈ s.events) : e.childRunId ≠ some r := by
  intro her
  obtain ⟨m, hm, hmr⟩ := ToolEvent.childRunId_eq_some her
  obtain ⟨-, hagrees, hqueued | ⟨run, hrun, hlink⟩⟩ := hs.links e he m hm
  · simp [hagrees.id, hqueued, queuedLink] at hmr
  · rw [hagrees.id, hlink.childRun] at hmr
    exact hr (Option.some.inj hmr ▸ List.mem_map_of_mem hrun)

theorem LinkObject.IsLinkOf.tracks {runs : List ChildRun} (h : m.IsLinkOf run)
    (hagrees : m.Agrees) (hrun : run ∈ runs)
    (hlast : run.status ≠ .running → run.reported = run.messages.getLast?) : m.Tracks runs :=
  ⟨hagrees, .inr ⟨run, hrun, by rw [h.childRun]; rfl, h.thread, by rw [h.childRun]; rfl,
    fun hended => by rw [h.childRun]; exact hlast hended⟩⟩

theorem LinkObject.Tracks.reported_eq {runs : List ChildRun} (ht : m.Tracks runs)
    (h : m.IsLinkOf run) (hrun : run ∈ runs) (hnodup : (runs.map ChildRun.id).Nodup)
    (hended : run.status ≠ .running) : run.reported = run.messages.getLast? := by
  rw [LinkObject.Tracks, h.childRun] at ht
  obtain ⟨-, ⟨hnone, -⟩ | ⟨owner, howner, hid, -, -, hlast⟩⟩ := ht
  · exact absurd hnone (by simp [ChildRun.link])
  · obtain rfl := List.inj_on_of_nodup_map hnodup hrun howner (Option.some.inj hid)
    exact hlast hended

/-- Links keep their runs when the runs that they are of are kept. -/
theorem LinkObject.Tracks.mono {runs runs' : List ChildRun} (ht : m.Tracks runs)
    (h : ∀ run ∈ runs, m.childRun.id = some run.id → run ∈ runs') : m.Tracks runs' := by
  obtain ⟨hagrees, hqueued | ⟨run, hrun, hid, hrest⟩⟩ := ht
  · exact ⟨hagrees, .inl hqueued⟩
  · exact ⟨hagrees, .inr ⟨run, h run hrun hid, hid, hrest⟩⟩

theorem LinkObject.Sound.mono {runs runs' : List ChildRun} (hm : m.Sound runs)
    (h : ∀ run ∈ runs, m.childRun.id = some run.id → run ∈ runs') : m.Sound runs' := by
  obtain ⟨hagrees, hqueued | ⟨run, hrun, hlink⟩⟩ := hm
  · exact ⟨hagrees, .inl hqueued⟩
  · exact ⟨hagrees, .inr ⟨run, h run hrun (by rw [hlink.childRun]; rfl), hlink⟩⟩

/-- What a run of a link may come to: it ends once, with its last message reported. -/
def ChildRun.MayBecome (run run' : ChildRun) : Prop :=
  (run.status = .running ∨ run.status = run'.status) ∧
    (run'.status ≠ .running → run'.EndsReported)

theorem LinkMove.refl {before : Option LinkObject} : LinkMove before before := by
  cases before with
  | none => exact .unlinked
  | some m => exact .stayed rfl rfl rfl

theorem LinkMove.of_mayBecome (h : m.IsLinkOf run) (hid : run'.id = run.id)
    (hmay : run.MayBecome run') : LinkMove (some m) (some (m.withChildRun run'.link)) := by
  have hstatus : m.childRun.status = .run run.status := by rw [h.childRun]; rfl
  have hsame : (m.withChildRun run'.link).childRun.id = m.childRun.id := by
    rw [h.childRun]
    exact congrArg some hid
  by_cases heq : run.status = run'.status
  · exact .stayed (by rw [hstatus, heq]; rfl) hsame rfl
  · have hrunning := hmay.1.resolve_right heq
    exact .ended (hstatus.trans (congrArg _ hrunning)) rfl (fun h => heq (hrunning.trans h.symm))
      hsame rfl

theorem LinkMove.status_of_follow
    (hmove : LinkMove (some m) (some (m.withChildRun run'.link))) (h : m.IsLinkOf run) :
    run.status = .running ∨ run.status = run'.status := by
  have hstatus : m.childRun.status = .run run.status := by rw [h.childRun]; rfl
  cases hmove with
  | linked _ hnone _ => exact absurd hnone (by simp [LinkObject.withChildRun, ChildRun.link])
  | started hqueued _ _ => exact absurd (hstatus.symm.trans hqueued) (by simp)
  | ended hrunning _ _ _ _ => exact .inl (ChildRunStatus.run.inj (hstatus.symm.trans hrunning))
  | stayed hsame _ _ => exact .inr (ChildRunStatus.run.inj (hsame.trans hstatus)).symm

section Follow

variable (hs : Sound s) (hrun : run ∈ s.runs) (hid : run'.id = run.id)
  (hthread : run'.threadId = run.threadId) (hwf : run'.Wf)

include hs hrun hid hthread

/-- The metadata of an event after its run went on. -/
theorem metadata_follow (he : e ∈ s.events) :
    e.childRunId = some run'.id ∧
      (∃ m, e.metadata = some m ∧ m.IsLinkOf run ∧
        (e.follow run').metadata = some (m.withChildRun run'.link) ∧
        (m.withChildRun run'.link).IsLinkOf run') ∨
    e.childRunId ≠ some run'.id ∧ e.follow run' = e := by
  by_cases h : e.childRunId = some run'.id
  · obtain ⟨m, hm, hr⟩ := ToolEvent.childRunId_eq_some h
    have hlink := hs.isLinkOf he hm (hid ▸ hr) hrun
    refine .inl ⟨h, m, hm, hlink, ?_, hlink.withChildRun hthread⟩
    rw [ToolEvent.follow, if_pos h, hm, Option.map_some]
  · exact .inr ⟨h, if_neg h⟩

include hwf in
theorem Sound.follow : Sound (s.follow run') := by
  have hkeep : ∀ e ∈ s.events, ∀ m ∈ e.metadata, m.Sound s.runs →
      e.childRunId ≠ some run'.id → m.Sound (s.saveRun run') := by
    intro e he m hm hsound hne
    refine hsound.mono fun r hr hmr =>
      (State.mem_saveRun hrun hid).mpr (.inr ⟨hr, fun heq => hne ?_⟩)
    rw [ToolEvent.childRunId, Option.mem_def.mp hm, Option.bind_some, hsound.1.id, hmr, heq]
  constructor
  · rw [State.map_id_follow]
    exact hs.events
  · rw [State.follow, State.map_id_saveRun]
    exact hs.runs
  · intro r hr
    obtain rfl | ⟨hr, -⟩ := (State.mem_saveRun hrun hid).mp hr
    · exact hwf
    · exact hs.wf r hr
  · intro e' he' m' hm'
    obtain ⟨e, he, rfl⟩ := List.mem_map.mp he'
    rw [ToolEvent.follow_toolName]
    obtain ⟨-, m, hm, -, hfollow, hlink'⟩ | ⟨hne, hsame⟩ :=
      metadata_follow hs hrun hid hthread he
    · obtain rfl := Option.some.inj (hfollow.symm.trans hm')
      exact ⟨(hs.links e he m hm).1, LinkObject.agrees_withChildRun _,
        .inr ⟨run', (State.mem_saveRun hrun hid).mpr (.inl rfl), hlink'⟩⟩
    · rw [hsame] at hm'
      obtain ⟨hname, hsound⟩ := hs.links e he m' hm'
      exact ⟨hname, hkeep e he m' hm' hsound hne⟩
  · intro e₁' he₁' e₂' he₂' r h₁ h₂
    obtain ⟨e₁, he₁, rfl⟩ := List.mem_map.mp he₁'
    obtain ⟨e₂, he₂, rfl⟩ := List.mem_map.mp he₂'
    rw [ToolEvent.childRunId_follow] at h₁ h₂
    rw [hs.apart e₁ he₁ e₂ he₂ r h₁ h₂]

include hwf in
/-- The link of a run stays right exactly if the run, once it is linked, ends as it may. -/
theorem follow_iff (ht : s.Tracks) :
    (s.follow run').Tracks ∧ s.Moves (s.follow run') ↔ (s.Linked run.id → run.MayBecome run') := by
  have hmem' : run' ∈ (s.follow run').runs := (State.mem_saveRun hrun hid).mpr (.inl rfl)
  constructor
  · rintro ⟨htracks, hmoves⟩ ⟨e, he, hr⟩
    have he' : e.follow run' ∈ (s.follow run').events := List.mem_map_of_mem he
    obtain ⟨-, m, hm, hlink, hfollow, hlink'⟩ | ⟨hne, -⟩ :=
      metadata_follow hs hrun hid hthread he
    · have hmove := hmoves e he _ he' ToolEvent.follow_id
      rw [hm, hfollow] at hmove
      refine ⟨hmove.status_of_follow hlink, fun hended => (ChildRun.reported_iff hwf).mp ?_⟩
      exact (htracks _ he' _ hfollow).reported_eq hlink' hmem'
        (hs.follow hrun hid hthread hwf).runs hended
    · exact absurd (hid ▸ hr) hne
  · intro hmay
    constructor
    · intro e' he' m' hm'
      obtain ⟨e, he, rfl⟩ := List.mem_map.mp he'
      obtain ⟨hr, m, -, -, hfollow, hlink'⟩ | ⟨hne, hsame⟩ :=
        metadata_follow hs hrun hid hthread he
      · obtain rfl := Option.some.inj (hfollow.symm.trans hm')
        refine hlink'.tracks (LinkObject.agrees_withChildRun _) hmem' fun hended => ?_
        exact (ChildRun.reported_iff hwf).mpr ((hmay ⟨e, he, hid ▸ hr⟩).2 hended)
      · rw [hsame] at hm'
        have htracks := ht e he m' hm'
        refine htracks.mono fun r hr hmr =>
          (State.mem_saveRun hrun hid).mpr (.inr ⟨hr, fun heq => hne ?_⟩)
        rw [ToolEvent.childRunId, Option.mem_def.mp hm', Option.bind_some, htracks.1.id, hmr, heq]
    · intro e he e' he' hids
      obtain ⟨e₀, he₀, rfl⟩ := List.mem_map.mp he'
      rw [ToolEvent.follow_id] at hids
      obtain rfl := List.inj_on_of_nodup_map hs.events he₀ he hids
      obtain ⟨hr, m, hm, hlink, hfollow, -⟩ | ⟨-, hsame⟩ :=
        metadata_follow hs hrun hid hthread he
      · rw [hm, hfollow]
        exact .of_mayBecome hlink hid (hmay ⟨_, he, hid ▸ hr⟩)
      · rw [hsame]
        exact .refl

end Follow

theorem State.Moves.refl (hs : Sound s) {runs : List ChildRun} : s.Moves ⟨s.events, runs⟩ := by
  intro e he e' he' hid
  obtain rfl := List.inj_on_of_nodup_map hs.events he' he hid
  exact .refl

theorem ToolEvent.childRunId_eq_none_iff :
    e.childRunId = none ↔ ∀ m ∈ e.metadata, m.childRunId = none := by
  simp [childRunId]

theorem Sound.mem_linkable (hs : Sound s) (he : e ∈ s.events) {r : String}
    (hr : e.childRunId = some r) :
    (linkableToolNames.contains e.toolName &&
      e.metadata.any fun m => m.childRunId = some r) = true := by
  obtain ⟨m, hm, hmr⟩ := ToolEvent.childRunId_eq_some hr
  simp [hm, hmr, (hs.links e he m hm).1]

/-- An update of the link of a run, together with that of the run. -/
theorem updateLink_follow (update : CallAgentLinkMetadata → CallAgentLinkMetadata)
    (run' : ChildRun) {event : Option ℕ} {found : Option ToolEvent} (hs : Sound s)
    (hrun : run ∈ s.runs)
    (hid : run'.id = run.id) (hfound : findParentEventByRun run.id s.events event = some found)
    (hupdate : ∀ cur, cur.childRun = run.link → update cur = cur.withChildRun run'.link) :
    updateLink update s.events found = s.events.map (ToolEvent.follow run') := by
  cases found with
  | none =>
    have hnone := findFirst_none hfound
    have hsame : ∀ e ∈ s.events, ToolEvent.follow run' e = id e := by
      intro e he
      refine if_neg fun hr => ?_
      have := hnone e he
      rw [hs.mem_linkable he (hid ▸ hr)] at this
      contradiction
    rw [List.map_congr_left hsame, List.map_id]
    rfl
  | some e =>
    obtain ⟨he, hmatch, -⟩ := findFirst_some hfound
    simp only [Bool.and_eq_true, Option.any_eq_true, decide_eq_true_eq] at hmatch
    obtain ⟨-, m, hm, hr⟩ := hmatch
    have hlink := hs.isLinkOf he hm hr hrun
    have her : e.childRunId = some run.id := by rw [ToolEvent.childRunId, hm, Option.bind_some, hr]
    rw [updateLink_some hs he hm hlink.parentThreadId hlink.childThreadId
      fun cur hcur => hupdate cur (hcur.trans hlink.childRun)]
    refine List.map_congr_left fun e' he' => ?_
    rw [ToolEvent.follow, ToolEvent.setLink, hid]
    by_cases hids : e'.id = e.id
    · obtain rfl := List.inj_on_of_nodup_map hs.events he' he hids
      rw [if_pos rfl, if_pos her, hm, Option.map_some]
    · have hother : e'.childRunId ≠ some run.id := fun hr' =>
        hids (congrArg ToolEvent.id (hs.apart e' he' e he _ hr' her))
      rw [if_neg hids, if_neg hother]

theorem ChildRun.Wf.persist (h : run.Wf) {b : Batch} (hrun : run ∈ s.runs) (hb : b.Wf)
    (hunused : s.Unused b.messages) : (run.persist b).Wf := by
  refine ⟨?_, fun b' hb' => ?_⟩
  · rw [messages_persist]
    refine List.nodup_append.mpr ⟨h.1, hunused.1, fun x hx y hy hxy => ?_⟩
    exact hunused.2 run hrun y hy (hxy ▸ hx)
  · obtain hb' | hb' := List.mem_append.mp hb'
    · exact h.2 b' hb'
    · rwa [List.mem_singleton.mp hb']

theorem State.findRun_eq_some {runId : String} (h : s.findRun runId = some run) :
    run ∈ s.runs ∧ run.id = runId := by
  refine ⟨List.mem_of_find?_eq_some h, ?_⟩
  have hfind := List.find?_some (p := fun run : ChildRun => decide (run.id = runId)) h
  exact of_decide_eq_true hfind

section Relink

variable {m' : LinkObject} {runs : List ChildRun} (hs : Sound s) (he : e ∈ s.events)
  (hruns : ∀ run ∈ s.runs, run ∈ runs)

theorem ToolEvent.setLink_id (event : ℕ) (e : ToolEvent) : (e.setLink event m').id = e.id := by
  unfold setLink
  split <;> rfl

theorem ToolEvent.setLink_toolName (event : ℕ) (e : ToolEvent) :
    (e.setLink event m').toolName = e.toolName := by
  unfold setLink
  split <;> rfl

include hs he in
theorem setLink_cases (m' : LinkObject) {e' : ToolEvent} (he' : e' ∈ s.events) :
    e' = e ∧ (e'.setLink e.id m').metadata = some m' ∨ e' ≠ e ∧ e'.setLink e.id m' = e' := by
  by_cases hid : e'.id = e.id
  · refine .inl ⟨List.inj_on_of_nodup_map hs.events he' he hid, ?_⟩
    rw [ToolEvent.setLink, if_pos hid]
  · exact .inr ⟨fun heq => hid (congrArg ToolEvent.id heq), if_neg hid⟩

include hs he hruns

/-- A new link is right as such; what it replaces decides whether it may be written. -/
theorem relink_iff (ht : s.Tracks) (hm' : m'.Tracks runs) :
    State.Tracks ⟨s.events.map (ToolEvent.setLink e.id m'), runs⟩ ∧
      s.Moves ⟨s.events.map (ToolEvent.setLink e.id m'), runs⟩ ↔
        LinkMove e.metadata (some m') := by
  constructor
  · rintro ⟨-, hmoves⟩
    have hmove := hmoves e he _ (List.mem_map_of_mem he) (ToolEvent.setLink_id e.id e)
    rwa [ToolEvent.setLink, if_pos rfl] at hmove
  · intro hmove
    constructor
    · intro e₁' he₁' m₁ hm₁
      obtain ⟨e₁, he₁, rfl⟩ := List.mem_map.mp he₁'
      obtain ⟨-, hset⟩ | ⟨-, hset⟩ := setLink_cases hs he m' he₁
      · obtain rfl := Option.some.inj (hset.symm.trans hm₁)
        exact hm'
      · rw [hset] at hm₁
        exact (ht e₁ he₁ m₁ hm₁).mono fun run hrun _ => hruns run hrun
    · intro e₁ he₁ e₂' he₂' hid
      obtain ⟨e₂, he₂, rfl⟩ := List.mem_map.mp he₂'
      rw [ToolEvent.setLink_id] at hid
      obtain rfl := List.inj_on_of_nodup_map hs.events he₂ he₁ hid
      obtain ⟨rfl, hset⟩ | ⟨-, hset⟩ := setLink_cases hs he m' he₂
      · rw [hset]
        exact hmove
      · rw [hset]
        exact .refl

theorem Sound.relink (hname : e.toolName ∈ linkableToolNames)
    (hnodup : (runs.map ChildRun.id).Nodup) (hwf : ∀ run ∈ runs, run.Wf) (hm' : m'.Sound runs)
    (hnew : ∀ e' ∈ s.events, ∀ r, m'.childRunId = some r → e'.childRunId ≠ some r) :
    Sound ⟨s.events.map (ToolEvent.setLink e.id m'), runs⟩ := by
  have hrunId : ∀ e₁ ∈ s.events, ∀ r, (e₁.setLink e.id m').childRunId = some r →
      e₁ = e ∧ m'.childRunId = some r ∨ e₁.childRunId = some r := by
    intro e₁ he₁ r hr
    obtain ⟨heq, hset⟩ | ⟨-, hset⟩ := setLink_cases hs he m' he₁
    · rw [ToolEvent.childRunId, hset, Option.bind_some] at hr
      exact .inl ⟨heq, hr⟩
    · rw [hset] at hr
      exact .inr hr
  constructor
  · rw [List.map_map]
    exact (List.map_congr_left fun e₁ _ => ToolEvent.setLink_id e.id e₁) ▸ hs.events
  · exact hnodup
  · exact hwf
  · intro e₁' he₁' m₁ hm₁
    obtain ⟨e₁, he₁, rfl⟩ := List.mem_map.mp he₁'
    rw [ToolEvent.setLink_toolName]
    obtain ⟨rfl, hset⟩ | ⟨-, hset⟩ := setLink_cases hs he m' he₁
    · obtain rfl := Option.some.inj (hset.symm.trans hm₁)
      exact ⟨hname, hm'⟩
    · rw [hset] at hm₁
      obtain ⟨hname₁, hsound⟩ := hs.links e₁ he₁ m₁ hm₁
      exact ⟨hname₁, hsound.mono fun run hrun _ => hruns run hrun⟩
  · intro e₁' he₁' e₂' he₂' r h₁ h₂
    obtain ⟨e₁, he₁, rfl⟩ := List.mem_map.mp he₁'
    obtain ⟨e₂, he₂, rfl⟩ := List.mem_map.mp he₂'
    obtain ⟨rfl, h₁'⟩ | h₁' := hrunId e₁ he₁ r h₁ <;>
      obtain ⟨rfl, h₂'⟩ | h₂' := hrunId e₂ he₂ r h₂
    · rfl
    · exact absurd h₂' (hnew e₂ he₂ r h₁')
    · exact absurd h₁' (hnew e₁ he₁ r h₂')
    · rw [hs.apart e₁ he₁ e₂ he₂ r h₁' h₂']

end Relink

end Agyn.ChildLinks
