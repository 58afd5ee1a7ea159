import Agyn.MemoryCalls
import Agyn.MemoryContents
import Mathlib.Data.List.Perm.Basic

/-!
Appends and updates of one scope at the same time, one call of the repository after another: each
finds or creates its document in one call and writes the content it has computed in the next.
-/
namespace Agyn.MemoryWrites

open Memory EntityTable

/-- What a call does to a document, with the data of `append` or the two texts of `update`. -/
inductive Edit where
  | append (data : List Char)
  | update (oldStr newStr : List Char)
  deriving DecidableEq

structure Op where
  segments : List (List Char)
  edit : Edit
  deriving DecidableEq

/-- Where a call stands: before its first call of the repository, before `updateContent`, or
done. -/
inductive Phase where
  | waiting
  | writing (entityId : ℕ) (content : List Char)
  | settled
  deriving DecidableEq

/-- `update` up to its write: the content it writes, if it writes. -/
def updated (oldStr newStr value : List Char) : Option (List Char) :=
  if oldStr.length = 0 then none
  else
    let parts := splitText oldStr 0 value
    if parts.length - 1 = 0 then none else some (newStr.intercalate parts)

def Op.start (filter : RepoFilter) (t : EntityTable) (op : Op) : Phase × EntityTable :=
  match op.edit with
  | .append data =>
    match t.ensurePath filter op.segments with
    | (none, t) => (.settled, t)
    | (some entity, t) => (.writing entity.id (appended (entity.content.getD []) data), t)
  | .update oldStr newStr =>
    match resolvePath t.rows filter op.segments with
    | none => (.settled, t)
    | some entity =>
      match updated oldStr newStr (entity.content.getD []) with
      | none => (.settled, t)
      | some content => (.writing entity.id content, t)

structure State where
  table : EntityTable
  calls : List (Op × Phase)
  deriving DecidableEq

inductive Action where
  | start (i : ℕ)
  | write (i : ℕ)
  deriving DecidableEq

def step (filter : RepoFilter) (s : State) : Action → Option State
  | .start i =>
    match s.calls[i]? with
    | some (op, .waiting) =>
      let (phase, table) := op.start filter s.table
      some ⟨table, s.calls.set i (op, phase)⟩
    | _ => none
  | .write i =>
    match s.calls[i]? with
    | some (op, .writing entityId content) =>
      let table := (s.table.written (s.table.updateContent entityId content)).2
      some ⟨table, s.calls.set i (op, .settled)⟩
    | _ => none

def init (t : EntityTable) (ops : List Op) : State := ⟨t, ops.map fun op => (op, .waiting)⟩

def AllSettled (s : State) : Prop := ∀ call ∈ s.calls, call.2 = .settled

def Edit.apply (edit : Edit) (content : List Char) : List Char :=
  match edit with
  | .append data => appended content data
  | .update oldStr newStr => (updated oldStr newStr content).getD content

def Edit.writes (edit : Edit) (content : List Char) : Bool :=
  match edit with
  | .append _ => true
  | .update oldStr newStr => (updated oldStr newStr content).isSome

def Phase.isWriting : Phase → Bool
  | .writing _ _ => true
  | _ => false

/-- A call that is going to write begins while no other is about to write to the same document. -/
def WritesAlone (filter : RepoFilter) (s : State) : Action → Prop
  | .start i => ∀ op ∈ (s.calls[i]?).map (·.1),
      op.edit.writes (contentAt s.table.rows filter op.segments) →
        ∀ call ∈ s.calls, call.1.segments = op.segments → call.2.isWriting = false
  | .write _ => True

instance (filter : RepoFilter) : ∀ s a, Decidable (WritesAlone filter s a)
  | s, .start i => inferInstanceAs (Decidable (∀ op ∈ (s.calls[i]?).map (·.1),
      op.edit.writes (contentAt s.table.rows filter op.segments) →
        ∀ call ∈ s.calls, call.1.segments = op.segments → call.2.isWriting = false))
  | _, .write _ => isTrue trivial

/-- The edits of a document, one after the other. -/
def applyAll (segments : List (List Char)) (order : List Op) (content : List Char) : List Char :=
  (order.filter (·.segments = segments)).foldl (fun content op => op.edit.apply content) content

section Start

variable {filter : RepoFilter} {t t' : EntityTable} {op : Op} {phase : Phase}

theorem apply_of_not_writes {edit : Edit} {content : List Char} (h : edit.writes content = false) :
    edit.apply content = content := by
  cases edit with
  | append data => simp [Edit.writes] at h
  | update oldStr newStr =>
    have hnone : updated oldStr newStr content = none := by simpa [Edit.writes] using h
    rw [Edit.apply, hnone, Option.getD_none]

theorem updated_nil (oldStr newStr : List Char) : updated oldStr newStr [] = none := by
  simp [updated, splitText]

/-- Rows may have been added, and every content is the one of before. -/
structure Grown (filter : RepoFilter) (t t' : EntityTable) : Prop where
  wf : t'.Wf
  subset : ∀ row ∈ t.rows, row ∈ t'.rows
  contents : ∀ segments, segments ≠ [] →
    contentAt t'.rows filter segments = contentAt t.rows filter segments

/-- The document of an operation is there, and the content to write is the edit of its content. -/
structure Pending (filter : RepoFilter) (t : EntityTable) (op : Op) (entityId : ℕ)
    (content : List Char) : Prop where
  ne_nil : op.segments ≠ []
  found : ∃ row, resolvePath t.rows filter op.segments = some row ∧ row.id = entityId
  content_eq : content = op.edit.apply (contentAt t.rows filter op.segments)

theorem Pending.grown {entityId : ℕ} {content : List Char}
    (h : Pending filter t op entityId content) (hwf : t.Wf) (hgrown : Grown filter t t') :
    Pending filter t' op entityId content := by
  obtain ⟨row, hrow, hid⟩ := h.found
  have hfound := (resolvePath_iff_of_subset hwf hgrown.wf hgrown.subset h.ne_nil
    (resolvePath_mem h.ne_nil hrow)).mpr hrow
  refine ⟨h.ne_nil, ⟨row, hfound, hid⟩, ?_⟩
  rw [hgrown.contents _ h.ne_nil]
  exact h.content_eq

/-- An operation begins: it has nothing to write and is done, or it is ready to write. -/
theorem start_cases (h : t.Wf) (hstart : op.start filter t = (phase, t')) :
    phase = .settled ∧ t' = t ∧
        (op.segments ≠ [] → op.edit.writes (contentAt t.rows filter op.segments) = false) ∨
      ∃ entityId content, phase = .writing entityId content ∧
        op.edit.writes (contentAt t.rows filter op.segments) ∧
        Grown filter t t' ∧ Pending filter t' op entityId content := by
  obtain ⟨segments, edit⟩ := op
  cases edit with
  | append data =>
    by_cases hne : segments = []
    · subst hne
      obtain ⟨rfl, rfl⟩ := Prod.ext_iff.mp hstart
      exact .inl ⟨rfl, rfl, fun hne => absurd rfl hne⟩
    · right
      obtain ⟨hwf, ⟨added, hrows, hadded⟩, hfound⟩ : t.Created filter none none segments _ :=
        h.ensurePath_created
      have hsome : (traverseCreating filter t none none segments).1.isSome :=
        traverseCreating_isSome none none (.inr hne)
      unfold Op.start at hstart
      dsimp only at hstart
      cases hensured : t.ensurePath filter segments with
      | mk found t'' =>
        rw [hensured] at hstart hwf hrows hfound
        rw [← ensurePath, hensured] at hsome
        obtain ⟨entity, rfl⟩ := Option.isSome_iff_exists.mp hsome
        obtain ⟨rfl, rfl⟩ := Prod.ext_iff.mp hstart
        have hcontents : ∀ segments, segments ≠ [] →
            contentAt t''.rows filter segments = contentAt t.rows filter segments :=
          fun _ hne => contentAt_of_created h hwf hrows (fun row hrow => (hadded row hrow).2.1) hne
        refine ⟨_, _, rfl, rfl, ⟨hwf, fun row hrow => ?_, hcontents⟩, hne,
          ⟨entity, hfound, rfl⟩, ?_⟩
        · exact hrows ▸ List.mem_append_left added hrow
        · rw [contentAt, resolvePath, hfound]
          rfl
  | update oldStr newStr =>
    unfold Op.start at hstart
    dsimp only at hstart
    cases hres : resolvePath t.rows filter segments with
    | none =>
      rw [hres] at hstart
      obtain ⟨rfl, rfl⟩ := Prod.ext_iff.mp hstart
      refine .inl ⟨rfl, rfl, fun _ => ?_⟩
      simp [Edit.writes, contentAt, hres, updated_nil]
    | some entity =>
      have hcontent : contentAt t.rows filter segments = entity.content.getD [] := by
        rw [contentAt, hres, Option.bind_some]
      rw [hres] at hstart
      dsimp only at hstart
      cases hupdated : updated oldStr newStr (entity.content.getD []) with
      | none =>
        rw [hupdated] at hstart
        obtain ⟨rfl, rfl⟩ := Prod.ext_iff.mp hstart
        exact .inl ⟨rfl, rfl, fun _ => by simp [Edit.writes, hcontent, hupdated]⟩
      | some content =>
        rw [hupdated] at hstart
        obtain ⟨rfl, rfl⟩ := Prod.ext_iff.mp hstart
        refine .inr ⟨_, _, rfl, by simp [Edit.writes, hcontent, hupdated],
          ⟨h, fun _ hrow => hrow, fun _ _ => rfl⟩, ?_, ⟨entity, hres, rfl⟩,
          by simp [Edit.apply, hcontent, hupdated]⟩
        intro hnil
        simp [show segments = [] from hnil, resolvePath, Memory.traverse] at hres

end Start

/-- An operation that writes as soon as it has begun. -/
def Op.alone (filter : RepoFilter) (t : EntityTable) (op : Op) : EntityTable :=
  match op.start filter t with
  | (.writing entityId content, t) => (t.written (t.updateContent entityId content)).2
  | (_, t) => t

section Alone

variable {m : MemoryBinding} {filter : RepoFilter} {path : List Char}
  {segments : List (List Char)} {t : EntityTable} {op : Op} {s : State}

def Edit.call (m : MemoryBinding) (path : List Char) (t : EntityTable) : Edit → EntityTable
  | .append data => (t.append m path data).2
  | .update oldStr newStr => (t.update m path oldStr newStr).2

theorem Edit.call_eq_alone (edit : Edit) (h : located m path false = .ok (filter, segments)) :
    edit.call m path t = Op.alone filter t ⟨segments, edit⟩ := by
  cases edit with
  | append data =>
    rw [Edit.call, EntityTable.append, h, Op.alone, Op.start]
    cases segments with
    | nil => rfl
    | cons segment segments =>
      dsimp only
      cases t.ensurePath filter (segment :: segments) with
      | mk found t' => cases found <;> rfl
  | update oldStr newStr =>
    rw [Edit.call, EntityTable.update, h, Op.alone, Op.start]
    dsimp only
    cases resolvePath t.rows filter segments with
    | none => rfl
    | some entity =>
      dsimp only [updated]
      split_ifs <;> rfl

theorem start_ne_waiting (filter : RepoFilter) (t : EntityTable) (op : Op) :
    (op.start filter t).1 ≠ .waiting := by
  unfold Op.start
  cases op.edit with
  | append data =>
    dsimp only
    split <;> nofun
  | update oldStr newStr =>
    dsimp only
    split
    · nofun
    · split <;> nofun

/-- Where an operation is that runs on its own. -/
inductive Solo (filter : RepoFilter) (t : EntityTable) (op : Op) : State → Prop
  | waiting : Solo filter t op ⟨t, [(op, .waiting)]⟩
  | started {t' : EntityTable} {phase : Phase} (h : op.start filter t = (phase, t')) :
      Solo filter t op ⟨t', [(op, phase)]⟩
  | written {t' : EntityTable} {entityId : ℕ} {content : List Char}
      (h : op.start filter t = (.writing entityId content, t')) :
      Solo filter t op ⟨(t'.written (t'.updateContent entityId content)).2, [(op, .settled)]⟩

theorem Solo.step {s' : State} {a : Action} (h : Solo filter t op s)
    (hstep : step filter s a = some s') : Solo filter t op s' := by
  cases h with
  | waiting =>
    obtain ⟨_ | i⟩ | ⟨_ | i⟩ := a <;> simp [MemoryWrites.step] at hstep
    subst hstep
    exact .started rfl
  | started hstart =>
    rename_i t' phase
    obtain ⟨_ | i⟩ | ⟨_ | i⟩ := a <;> cases phase <;> simp [MemoryWrites.step] at hstep
    · exact absurd (congrArg Prod.fst hstart) (start_ne_waiting filter t op)
    · subst hstep
      exact .written hstart
  | written h =>
    obtain ⟨_ | i⟩ | ⟨_ | i⟩ := a <;> simp [MemoryWrites.step] at hstep

/-- A call of the service that no other one comes in between leaves the memory as its operation. -/
theorem call_of_settled {edit : Edit} (hlocated : located m path false = .ok (filter, segments))
    (h : Reached (MemoryWrites.step filter) (fun _ _ => True) (init t [⟨segments, edit⟩]) s)
    (hsettled : AllSettled s) : s.table = edit.call m path t := by
  have hsolo : Solo filter t ⟨segments, edit⟩ s :=
    h.invariant .waiting fun _ _ _ hsolo _ hstep => hsolo.step hstep
  rw [edit.call_eq_alone hlocated, Op.alone]
  cases hsolo with
  | waiting => exact nomatch hsettled _ List.mem_cons_self
  | started hstart =>
    obtain rfl := hsettled _ List.mem_cons_self
    rw [hstart]
  | written hstart => rw [hstart]

end Alone

section Order

variable {filter : RepoFilter} {t₀ t t' : EntityTable} {ops order : List Op} {op : Op}
  {phase : Phase} {calls rest : List (Op × Phase)} {segments : List (List Char)}

theorem applyAll_concat {content : List Char} :
    applyAll segments (order ++ [op]) content =
      if op.segments = segments then op.edit.apply (applyAll segments order content)
      else applyAll segments order content := by
  simp only [applyAll, List.filter_append, List.foldl_append]
  split_ifs with heq <;> simp [heq]

/-- The settled operations, in the order in which they were done, have made the contents; each
operation that is about to write has computed its content from the content that is there, and no two
of them write to the same document. -/
structure Ordered (filter : RepoFilter) (t₀ : EntityTable) (ops order : List Op) (t : EntityTable)
    (calls : List (Op × Phase)) : Prop where
  wf : t.Wf
  ops : (calls.map (·.1)).Perm ops
  settled : order.Perm ((calls.filter (·.2 = .settled)).map (·.1))
  contents : ∀ segments, segments ≠ [] → contentAt t.rows filter segments =
    applyAll segments order (contentAt t₀.rows filter segments)
  writing : ∀ op entityId content, (op, Phase.writing entityId content) ∈ calls →
    Pending filter t op entityId content
  alone : ((calls.filter (·.2.isWriting)).map (·.1.segments)).Nodup

theorem Ordered.perm (h : Ordered filter t₀ ops order t calls) {calls' : List (Op × Phase)}
    (hperm : calls'.Perm calls) : Ordered filter t₀ ops order t calls' where
  wf := h.wf
  ops := (hperm.map _).trans h.ops
  settled := h.settled.trans ((hperm.filter _).map _).symm
  contents := h.contents
  writing := fun op entityId content hmem => h.writing op entityId content (hperm.mem_iff.mp hmem)
  alone := ((hperm.filter _).map _).nodup_iff.mpr h.alone

/-- An operation is done as it begins, with nothing to write. -/
theorem Ordered.settle (h : Ordered filter t₀ ops order t ((op, .waiting) :: rest))
    (hnothing : op.segments ≠ [] → op.edit.writes (contentAt t.rows filter op.segments) = false) :
    Ordered filter t₀ ops (order ++ [op]) t ((op, .settled) :: rest) where
  wf := h.wf
  ops := h.ops
  settled := by
    have hsettled : order.Perm ((rest.filter (·.2 = .settled)).map (·.1)) := by
      simpa using h.settled
    simpa using (List.perm_append_singleton op order).trans (hsettled.cons op)
  contents := by
    intro segments hne
    rw [applyAll_concat]
    split_ifs with heq
    · subst heq
      rw [← h.contents _ hne, apply_of_not_writes (hnothing hne)]
    · exact h.contents segments hne
  writing := by
    intro op' entityId content hmem
    refine h.writing op' entityId content ?_
    simpa using hmem
  alone := by simpa [Phase.isWriting] using h.alone

/-- An operation becomes ready to write. -/
theorem Ordered.ready (h : Ordered filter t₀ ops order t ((op, .waiting) :: rest))
    {entityId : ℕ} {content : List Char} (hgrown : Grown filter t t')
    (hpending : Pending filter t' op entityId content)
    (halone : ∀ call ∈ rest, call.1.segments = op.segments → call.2.isWriting = false) :
    Ordered filter t₀ ops order t' ((op, .writing entityId content) :: rest) where
  wf := hgrown.wf
  ops := h.ops
  settled := by simpa using h.settled
  contents := fun segments hne => (hgrown.contents segments hne).trans (h.contents segments hne)
  writing := by
    intro op' entityId' content' hmem
    obtain heq | hmem := List.mem_cons.mp hmem
    · obtain ⟨rfl, rfl, rfl⟩ : op' = op ∧ entityId' = entityId ∧ content' = content := by
        simpa using heq
      exact hpending
    · exact (h.writing op' entityId' content' (List.mem_cons_of_mem _ hmem)).grown h.wf hgrown
  alone := by
    have hrest : ((rest.filter (·.2.isWriting)).map (·.1.segments)).Nodup := by
      simpa [Phase.isWriting] using h.alone
    rw [List.filter_cons_of_pos rfl, List.map_cons, List.nodup_cons]
    refine ⟨fun hmem => ?_, hrest⟩
    obtain ⟨call, hcall, heq⟩ := List.mem_map.mp hmem
    obtain ⟨hmem, hwriting⟩ := List.mem_filter.mp hcall
    simp [halone call hmem heq] at hwriting

/-- An operation writes what it has computed. -/
theorem Ordered.write {entityId : ℕ} {content : List Char}
    (h : Ordered filter t₀ ops order t ((op, .writing entityId content) :: rest)) :
    Ordered filter t₀ ops (order ++ [op])
      (t.written (t.updateContent entityId content)).2 ((op, .settled) :: rest) := by
  obtain ⟨hne, ⟨row, hrow, rfl⟩, hcontent⟩ := h.writing op entityId content (by simp)
  have hafter : ∀ segments, segments ≠ [] →
      contentAt (t.rows.map (setContent row.id content)) filter segments =
        if segments = op.segments then content else contentAt t.rows filter segments :=
    fun segments hne' => contentAt_setContent h.wf hne hne' hrow
  obtain ⟨hsegments, hrest⟩ := List.nodup_cons.mp h.alone
  rw [updateContent_of_mem (resolvePath_mem hne hrow)]
  refine ⟨h.wf.map_setContent, h.ops, ?_, fun segments hne' => ?_, ?_, hrest⟩
  · have hsettled : order.Perm ((rest.filter (·.2 = .settled)).map (·.1)) := by
      simpa using h.settled
    simpa using (List.perm_append_singleton op order).trans (hsettled.cons op)
  · rw [applyAll_concat, ← h.contents segments hne']
    refine (hafter segments hne').trans ?_
    by_cases heq : segments = op.segments
    · rw [if_pos heq, if_pos heq.symm, heq, hcontent]
    · rw [if_neg heq, if_neg (Ne.symm heq)]
  · intro op' entityId' content' hmem
    have hmem : (op', Phase.writing entityId' content') ∈ rest := by simpa using hmem
    obtain ⟨hne', ⟨row', hrow', hid⟩, hcontent'⟩ :=
      h.writing op' entityId' content' (List.mem_cons_of_mem _ hmem)
    have hother : op'.segments ≠ op.segments := fun heq =>
      hsegments (List.mem_map.mpr ⟨_, List.mem_filter.mpr ⟨hmem, rfl⟩, heq⟩)
    refine ⟨hne', ⟨setContent row.id content row', ?_, by simpa using hid⟩, ?_⟩
    · exact resolvePath_map_setContent.trans (congrArg _ hrow')
    · rw [hcontent']
      exact congrArg op'.edit.apply ((hafter _ hne').trans (if_neg hother)).symm

end Order

section Runs

variable {filter : RepoFilter} {t₀ : EntityTable} {ops order : List Op} {s s' : State}

theorem Ordered.init (h : t₀.Wf) : Ordered filter t₀ ops [] t₀ (init t₀ ops).calls where
  wf := h
  ops := by simp [MemoryWrites.init, Function.comp_def]
  settled := by simp [MemoryWrites.init, List.filter_map, Function.comp_def]
  contents := fun _ _ => rfl
  writing := by simp [MemoryWrites.init]
  alone := by simp [MemoryWrites.init, List.filter_map, Function.comp_def, Phase.isWriting]

/-- One step keeps the order, or adds the operation that it completes. -/
theorem Ordered.step (h : Ordered filter t₀ ops order s.table s.calls) {a : Action}
    (halone : WritesAlone filter s a) (hstep : step filter s a = some s') :
    ∃ order', Ordered filter t₀ ops order' s'.table s'.calls := by
  cases a with
  | start i =>
    rw [MemoryWrites.step] at hstep
    split at hstep
    next op hcall =>
      obtain ⟨hlt, hget⟩ := List.getElem?_eq_some_iff.mp hcall
      have hbefore := (List.getElem_cons_eraseIdx_perm hlt)
      rw [hget] at hbefore
      have hafter := fun x => List.set_perm_cons_eraseIdx hlt x
      have hmoved := h.perm hbefore
      cases hstart : op.start filter s.table with
      | mk phase table =>
        rw [hstart] at hstep
        obtain rfl := Option.some.inj hstep
        obtain ⟨rfl, rfl, hnothing⟩ | ⟨entityId, content, rfl, hwrites, hgrown, hpending⟩ :=
          start_cases h.wf hstart
        · exact ⟨_, (hmoved.settle hnothing).perm (hafter _)⟩
        · refine ⟨_, (hmoved.ready hgrown hpending fun call hmem heq => ?_).perm (hafter _)⟩
          exact halone op (by simp [hcall]) hwrites call (List.mem_of_mem_eraseIdx hmem) heq
    next => simp at hstep
  | write i =>
    rw [MemoryWrites.step] at hstep
    split at hstep
    next op entityId content hcall =>
      obtain ⟨hlt, hget⟩ := List.getElem?_eq_some_iff.mp hcall
      have hbefore := (List.getElem_cons_eraseIdx_perm hlt)
      rw [hget] at hbefore
      obtain rfl := Option.some.inj hstep
      exact ⟨_, (h.perm hbefore).write.perm (List.set_perm_cons_eraseIdx hlt _)⟩
    next => simp at hstep

def HasOrder (filter : RepoFilter) (t₀ : EntityTable) (ops : List Op) (s : State) : Prop :=
  ∃ order, Ordered filter t₀ ops order s.table s.calls

theorem hasOrder_of_reached (hwf : t₀.Wf)
    (h : Reached (step filter) (WritesAlone filter) (MemoryWrites.init t₀ ops) s) :
    HasOrder filter t₀ ops s :=
  h.invariant ⟨[], .init hwf⟩ fun _ _ _ ⟨_, hinv⟩ halone hstep => hinv.step halone hstep

theorem infix_appended (base data : List Char) :
    base <:+: appended base data ∧ data <:+: appended base data := by
  unfold appended
  dsimp only
  split_ifs with hnil
  · rw [List.length_eq_zero_iff.mp hnil]
    exact ⟨List.nil_infix, List.infix_rfl⟩
  · exact ⟨(List.prefix_append _ _).isInfix.trans (List.prefix_append _ _).isInfix,
      (List.suffix_append _ _).isInfix⟩
  · exact ⟨(List.prefix_append _ _).isInfix.trans (List.prefix_append _ _).isInfix,
      (List.suffix_append _ _).isInfix⟩

/-- What is appended stays, as long as nothing is replaced. -/
theorem infix_applyAll {segments : List (List Char)} (content : List Char)
    (happends : ∀ op ∈ order, op.segments = segments → ∃ data, op.edit = .append data) :
    content <:+: applyAll segments order content ∧
      ∀ data, ⟨segments, .append data⟩ ∈ order → data <:+: applyAll segments order content := by
  induction order using List.reverseRecOn with
  | nil => exact ⟨List.infix_rfl, by simp⟩
  | append_singleton order op ih =>
    obtain ⟨hcontent, hdata⟩ := ih fun op' hop' => happends op' (List.mem_append_left _ hop')
    rw [applyAll_concat]
    split_ifs with heq
    · obtain ⟨data, hedit⟩ := happends op (by simp) heq
      obtain ⟨hbase, hlast⟩ := infix_appended (applyAll segments order content) data
      rw [hedit, Edit.apply]
      refine ⟨hcontent.trans hbase, fun data' hmem => ?_⟩
      obtain hmem | hmem := List.mem_append.mp hmem
      · exact (hdata data' hmem).trans hbase
      · obtain rfl := List.mem_singleton.mp hmem
        obtain rfl : data' = data := by simpa using hedit
        exact hlast
    · refine ⟨hcontent, fun data' hmem => ?_⟩
      obtain hmem | hmem := List.mem_append.mp hmem
      · exact hdata data' hmem
      · exact absurd (congrArg Op.segments (List.mem_singleton.mp hmem)).symm heq

/-- The contents are those of the operations one after the other in some order; appended texts are
in documents that are only appended to. -/
structure Serial (filter : RepoFilter) (t₀ t : EntityTable) (ops : List Op) : Prop where
  contents : ∃ order, order.Perm ops ∧ ∀ segments, segments ≠ [] →
    contentAt t.rows filter segments =
      applyAll segments order (contentAt t₀.rows filter segments)
  appended : ∀ segments, segments ≠ [] →
    (∀ op ∈ ops, op.segments = segments → ∃ data, op.edit = .append data) →
    ∀ data, ⟨segments, .append data⟩ ∈ ops → data <:+: contentAt t.rows filter segments

/-- Operations that write alone, begun on a memory that calls have left, are serial once all of them
have settled. -/
theorem writes_serial (h₀ : Reached callStep (fun _ _ => True) EntityTable.empty t₀)
    (h : Reached (step filter) (WritesAlone filter) (init t₀ ops) s) (hsettled : AllSettled s) :
    Serial filter t₀ s.table ops := by
  obtain ⟨order, hordered⟩ := hasOrder_of_reached (wf_of_reached h₀) h
  have hall : s.calls.filter (·.2 = .settled) = s.calls :=
    List.filter_eq_self.mpr fun call hcall => by simpa using hsettled call hcall
  have hperm : order.Perm ops := by
    have hperm := hordered.settled
    rw [hall] at hperm
    exact hperm.trans hordered.ops
  refine ⟨⟨order, hperm, hordered.contents⟩, fun segments hne happends data hmem => ?_⟩
  rw [hordered.contents segments hne]
  refine (infix_applyAll _ fun op hop => happends op (hperm.mem_iff.mp hop)).2 data ?_
  exact hperm.mem_iff.mpr hmem

end Runs

/-- An append to the document `/log`. -/
def logged (data : String) : Op := ⟨["log".toList], .append data.toList⟩

def noted (data : String) : Op := ⟨["note".toList], .append data.toList⟩

/-- Two documents are written at the same time, and one of them again when it is written. -/
theorem writes_serial_apart :
    ∃ s, runFrom (step ⟨"memory", none⟩)
        (init EntityTable.empty [logged "x", noted "y", logged "z"])
        [.start 0, .start 1, .write 0, .start 2, .write 1, .write 2] = some s ∧
      Serial ⟨"memory", none⟩ EntityTable.empty s.table [logged "x", noted "y", logged "z"] := by
  have hrun : ∃ s, runFrom (step ⟨"memory", none⟩)
      (init EntityTable.empty [logged "x", noted "y", logged "z"])
      [.start 0, .start 1, .write 0, .start 2, .write 1, .write 2] = some s ∧ AllSettled s :=
    ⟨_, rfl, by unfold AllSettled; decide +kernel⟩
  obtain ⟨s, hs, hsettled⟩ := hrun
  have hmeet : StepsMeet (step ⟨"memory", none⟩) (WritesAlone ⟨"memory", none⟩)
      (init EntityTable.empty [logged "x", noted "y", logged "z"])
      [.start 0, .start 1, .write 0, .start 2, .write 1, .write 2] := by decide +kernel
  exact ⟨s, hs, writes_serial .init (Reached.init.run hmeet hs) hsettled⟩

/-- Two appends to one document, the second begun before the first has written. -/
theorem append_lost :
    ∃ s, Reached (step ⟨"memory", none⟩) (fun _ _ => True)
        (init EntityTable.empty [logged "x", logged "y"]) s ∧ AllSettled s ∧
      ¬Serial ⟨"memory", none⟩ EntityTable.empty s.table [logged "x", logged "y"] := by
  have hrun : ∃ s, runFrom (step ⟨"memory", none⟩) (init EntityTable.empty [logged "x", logged "y"])
      [.start 0, .start 1, .write 0, .write 1] = some s ∧ AllSettled s ∧
        contentAt s.table.rows ⟨"memory", none⟩ ["log".toList] = "y".toList :=
    ⟨_, rfl, by unfold AllSettled; decide +kernel, by decide +kernel⟩
  obtain ⟨s, hs, hsettled, hcontent⟩ := hrun
  refine ⟨s, .of_run hs, hsettled, fun hserial => ?_⟩
  have hin :=
    hserial.appended ["log".toList] (by simp) (by simp [logged]) "x".toList (by simp [logged])
  rw [hcontent] at hin
  exact absurd hin (by decide)

end Agyn.MemoryWrites
