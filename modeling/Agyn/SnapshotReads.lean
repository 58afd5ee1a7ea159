import Agyn.LockedReader
import Agyn.UpsertConcurrency

/-!
A `get` between the steps of concurrent upserts. It takes no lock and reads the root in
several steps, while an upsert takes the root away and puts another one there. When no
upsert does so while the `get` is under way, it returns one committed graph.
-/
namespace Agyn

open Prog FsGraphRepository

variable {ι J G : Type}

abbrev GetResult (J : Type) := Except String (Option (PersistedGraph J))

abbrev Reads (ι J G : Type) :=
  Watched ι Label (FsOp J) (UpsertResult J) (GetResult J) (Disk J G)

def swapRenames : List Label := [⟨.swap, 1⟩, ⟨.swap, 2⟩]

/-- The first read of the `get` finds the root in place, and no upsert executes a rename of
its swap between the first and the last read. -/
def Undisturbed (s : Reads ι J G) : Option ι → Prop
  | none => s.reader = .idle → (s.locked.store.tree .root).isSome
  | some i => ∀ p q l, s.reader = .reading p → p.next ≠ none →
      s.locked.calls i = .holding q → q.next = some l → l ∉ swapRenames

/-- A result of `get` that is the graph at the start or has its version, nodes, edges and
variables from one commit. Of edges with one id the commit has only the last. -/
def FromOneCommit (old : GraphTree J G) (commits : List (ι × PersistedGraph J))
    (name nowIso : String) (r : GetResult J) : Prop :=
  r = readTree (some old) name nowIso ∨
    ∃ e ∈ commits, ∃ g, r = .ok (some g) ∧ g.version = e.2.version ∧ g.nodes = e.2.nodes ∧
      g.edges = stored (filesOf (e.2.entities .edges)) ∧ (g.edges = [] ↔ e.2.edges = []) ∧
      g.vars = normalizeVariables (e.2.vars.getD [])

section Undisturbed

variable {calls : ι → UpsertCall J} {d : Disk J G} {old : GraphTree J G}

/-- Files of entities with ids hold no entity iff there is none. -/
theorem stored_filesOf_eq_nil {dir : EntityDir} {es : List (Entity J dir)}
    (hids : ∀ e ∈ es, e.id ≠ "") : stored (filesOf es) = [] ↔ es = [] := by
  constructor
  · intro hempty
    cases es with
    | nil => rfl
    | cons e rest =>
      have hkey : e.fileName ∈ (filesOf (e :: rest)).keys := by
        rw [filesOf, InsMap.mem_keys_ofEntries, List.map_map]
        exact List.mem_cons_self
      obtain ⟨content, hcontent⟩ := (InsMap.mem_keys_iff _ _).mp hkey
      obtain ⟨e', rfl, -⟩ := canonical_filesOf (e :: rest) hids _ _ hcontent
      have hvalue : some e' ∈ (filesOf (e :: rest)).values :=
        (InsMap.mem_values_iff _ _).mpr ⟨_, hcontent⟩
      have hmem : e' ∈ stored (filesOf (e :: rest)) :=
        List.mem_filterMap.mpr ⟨some e', hvalue, rfl⟩
      rw [hempty] at hmem
      cases hmem
  · intro hnil
    rw [hnil]
    rfl

/-- What a read of a committed tree returns. -/
theorem fromOneCommit_of_isCommitted {before : List (String × GraphTree J G)}
    {c : Upserts ι J G} {commits : List (ι × PersistedGraph J)} {t : GraphTree J G}
    (h : CommitHistory calls old before c commits) (ht : IsCommitted old commits t)
    (name nowIso : String) :
    FromOneCommit old commits name nowIso (readTree (some t) name nowIso) := by
  rcases ht with hold | ⟨e, he, hdocs⟩
  · left
    rw [← readTree_docs t, hold, readTree_docs]
  · right
    obtain ⟨existing, hplanned⟩ := h.counted.planned e he
    obtain ⟨hnodup, hids⟩ := validatePersistedGraph_ids (h.accepted e he)
    rw [← hplanned.node_ids] at hnodup
    have hhas := hplanned.hasIds hids
    refine ⟨e, he, ⟨e.2.name, e.2.version, e.2.updatedAt, stored (filesOf (e.2.entities .nodes)),
      stored (filesOf (e.2.entities .edges)), normalizeVariables (e.2.vars.getD [])⟩, ?_, rfl, ?_,
      rfl, ?_, rfl⟩
    · rw [← readTree_docs t, hdocs]
      exact readTree_stagedTree hhas none name nowIso
    · exact stored_filesOf (e.2.entities .nodes) hnodup
    · exact stored_filesOf_eq_nil (hhas .edges)

variable [DecidableEq ι] {c c' : Upserts ι J G}
  {es : List (Locked.Event ι Label (FsOp J) (UpsertResult J) (Disk J G))}

/-- An upsert on a working file system never undoes its swap or rolls back. -/
theorem holding_label (hd : Initialised d old) (hrun : UpsertRun calls d es c) {i : ι}
    {p : Fs J (UpsertResult J)} (hp : c.calls i = .holding p) {l : Label} (hl : p.next = some l) :
    l.site ≠ .undo ∧ l.site ≠ .rollback := by
  obtain ⟨log, d₁, hc⟩ := Locked.Serialized.run (startUpserts_starting calls d) hrun
  obtain ⟨t, hd₁, -⟩ := serial_commits calls hd hc.serial hc.nodup
  have hstops := Reaches.stops working (hc.holding hp).2.2
  rw [hl] at hstops
  rcases upsertLocked_stops hd₁ hstops with ⟨-, hsite⟩ | ⟨target, -, hpoint⟩
  · rw [hsite l rfl]
    simp
  · cases hpoint with
    | before hl =>
      rcases hl with hl | hl
      · simp only [List.mem_cons, List.not_mem_nil, or_false] at hl
        rcases hl with hl | hl <;> rw [hl] <;> simp
      · rcases List.mem_pair.mp hl with rfl | rfl <;> simp
    | between => simp
    | moving => simp
    | after hl =>
      rw [hl l rfl]
      simp

/-- Only the renames of a swap change the documents of the root. -/
theorem step_keeps_root (hd : Initialised d old) (hrun : UpsertRun calls d es c) {i : ι}
    (hstep : Locked.Step working (upsertBody calls) c i c')
    (hcalm : ∀ q l, c.calls i = .holding q → q.next = some l → l ∉ swapRenames) :
    rootDocs c'.store = rootDocs c.store := by
  cases hstep with
  | acquire => rfl
  | retry => rfl
  | timeout => rfl
  | release => rfl
  | @act β l o k hcall =>
    obtain ⟨log, d₁, hc⟩ := Locked.Serialized.run (startUpserts_starting calls d) hrun
    have hevery := (upsertLocked_every (G := G) (calls i).ctx (calls i).req).reaches
      (hc.holding hcall).2.2
    obtain ⟨hundo, hrollback⟩ := holding_label hd hrun hcall rfl
    cases hevery with
    | op ho _ =>
      rcases ho with (hsite | hsite | hrename) | hkeeps
      · exact absurd hsite hundo
      · exact absurd hsite hrollback
      · exact absurd hrename (hcalm _ _ hcall rfl)
      · exact hkeeps c.store

/-- The programs of a `get` and upserts, before any of them has taken a step. -/
def startReads (calls : ι → UpsertCall J) (d : Disk J G) : Reads ι J G :=
  ⟨startUpserts calls d, .idle⟩

/-- A run of a `get` between upserts whose steps all meet a condition. -/
abbrev ReadRun (calls : ι → UpsertCall J) (d : Disk J G) (name nowIso : String)
    (ok : Reads ι J G → Option ι → Prop) : Reads ι J G → Prop :=
  Watched.Run working (upsertBody calls) (FsGraphRepository.get name nowIso) ok
    (startReads calls d)

theorem get_sees (name nowIso : String) :
    (FsGraphRepository.get (J := J) name nowIso).Every
      (Sees (working : Handler Label (FsOp J) (Disk J G)) rootDocs) :=
  (get_every (G := G) name nowIso).mono fun _ _ _ h => ⟨fun d => h.2.1.exec_disk d, h.2.2⟩

/-- In every run in which the first read of the `get` finds the root in place and no upsert
renames the root between its first and its last read, it returns the graph of one commit, or
the one at the start; that graph was committed when the `get` began. -/
theorem undisturbed_get_fromOneCommit (calls : ι → UpsertCall J) (d : Disk J G)
    (old : GraphTree J G) (name nowIso : String) (s : Reads ι J G) (r : GetResult J)
    (hd : Initialised d old) (hrun : ReadRun calls d name nowIso Undisturbed s)
    (hr : s.reader = .finished r) :
    ∃ s₁ commits, ReadRun calls d name nowIso Undisturbed s₁ ∧
      Watched.Run working (upsertBody calls) (FsGraphRepository.get name nowIso) Undisturbed s₁ s ∧
      CommitHistory calls old d.installs s₁.locked commits ∧
      FromOneCommit old commits name nowIso r := by
  have hquery := get_sees (J := J) (G := G) name nowIso
  obtain ⟨s₁, hrun₁, hrest, hidle, hbegin, hanswers⟩ := hrun.steady hquery rfl (by
    intro s i p c hrun hok hreading hmore hstep
    obtain ⟨⟨es, hes⟩, -⟩ := hrun.calls hquery rfl
    exact step_keeps_root hd hes hstep fun q l hq hl => hok p q l hreading hmore hq hl)
      (by rw [hr]; simp)
  obtain ⟨⟨es, hes⟩, -⟩ := hrun₁.calls hquery rfl
  obtain ⟨commits, hhistory⟩ := run_commits hd hes
  refine ⟨s₁, commits, hrun₁, hrest, hhistory, ?_⟩
  unfold Watched.Answers at hanswers
  rw [hr] at hanswers
  obtain ⟨t, ht⟩ := Option.isSome_iff_exists.mp (hbegin hidle)
  rw [hanswers, working_eq_faulty, get_run, ht]
  exact fromOneCommit_of_isCommitted hhistory (hhistory.root t ht) name nowIso

end Undisturbed

section Samples

/-- One upsert has committed before the `get`; after its first read another one takes the lock
and begins to stage. -/
theorem get_while_staging_fromOneCommit : ∃ s r q,
    ReadRun sampleCalls (initialDisk none) "main" "later" Undisturbed s ∧
    s.locked.calls 0 = .settled (.ok (committedGraph 1)) ∧
    s.locked.calls 1 = .holding q ∧ q.next = some ⟨.staging, 2⟩ ∧
    s.reader = .finished r ∧ ∃ s₁ commits,
      ReadRun sampleCalls (initialDisk none) "main" "later" Undisturbed s₁ ∧
      Watched.Run working (upsertBody sampleCalls) (FsGraphRepository.get "main" "later")
        Undisturbed s₁ s ∧
      CommitHistory sampleCalls (initialTree none) [] s₁.locked commits ∧
      FromOneCommit (initialTree none) commits "main" "later" r := by
  obtain ⟨es, ⟨store, lock, calls⟩, hfirst, rfl, rfl, rfl⟩ :=
    (Locked.Run.start : UpsertRun sampleCalls (initialDisk none) [] _).settles (i := 0) rfl rfl
  have hcommitted : ReadRun sampleCalls (initialDisk none) "main" "later" Undisturbed _ :=
    Watched.Run.calls_go_on .start hfirst (by
      intro s' i hidle p q l hreading
      rw [hidle] at hreading
      cases hreading)
  have hbegun := hcommitted.step (show Undisturbed _ none from fun _ => rfl) (.look rfl)
  have hheld := hbegun.step (show Undisturbed _ (some 1) by
    intro p q l _ _ hholding
    cases hholding) (.call (.acquire (i := 1) rfl rfl))
  have hcalm : ∀ m < 7, ∀ l ∈ (after working m (upsertBody sampleCalls 1)
      ((upsertBody sampleCalls 0).run working (initialDisk none)).2).1.next, l ∉ swapRenames := by
    decide
  obtain ⟨s₂, hstaging, hcall, hstore, hreader, hothers⟩ :=
    hheld.holder_advances 7 (i := 1) (Locked.setCall_self _ 1 _) (by
      intro m hm s' _ hholding p q l _ _ hq hl
      rw [hholding] at hq
      cases hq
      exact hcalm m hm l hl)
  have hroot : (s₂.locked.store.tree .root).isSome := by
    rw [hstore]
    rfl
  have hprogram := congrArg (Reader.program (FsGraphRepository.get "main" "later")) hreader
  have hrest := (hstaging.calls (get_sees (J := Unit) (G := Unit) "main" "later") rfl).2 _ hprogram
  obtain ⟨s, hrun, hlocked, hr⟩ := Watched.Run.reader_finishes hrest (by
    intro s' hs' _
    rw [hs']
    exact hroot) hstaging hprogram
  refine ⟨s, _, _, hrun, ?_, by rw [hlocked]; exact hcall, rfl, hr,
    undisturbed_get_fromOneCommit sampleCalls (initialDisk none) (initialTree none) "main" "later"
      s _ (initialDisk_initialised none) hrun hr⟩
  rw [hlocked, hothers 0 (by decide)]
  rfl

/-- The holder of the lock comes to the point between the two renames. -/
theorem upsertLocked_reaches_window {ctx : CallContext} {req : PersistedGraphUpsertRequest J}
    {d : Disk J G} {old : GraphTree J G} {target : PersistedGraph J} (hd : Initialised d old)
    (hrun : ((upsertLocked ctx req).run working d).1 = .ok target) :
    ∃ q d₁, Reaches working (upsertLocked ctx req) d q d₁ ∧ d₁.tree .root = none := by
  have hswap := swappable_staged target hd.root (hd.fresh ctx)
  have hstop := upsertLocked_stops_in_swap hd hrun (swapSteps_stops_between hswap)
  obtain ⟨q, hreach, -⟩ := hstop.reaches
  exact ⟨q, _, hreach, Swappable.backedUp_root _ _ _⟩

/-- A `get` that comes between the two renames of a swap returns nothing. -/
theorem get_during_swap_returns_null : ∃ s,
    ReadRun sampleCalls (initialDisk none) "main" "now" (fun _ _ => True) s ∧
    s.reader = .finished (.ok none) ∧
    ∀ commits : List (Fin 3 × PersistedGraph Unit),
      ¬ FromOneCommit (initialTree none) commits "main" "now" (.ok none) := by
  have hd := initialDisk_initialised none
  obtain ⟨target, d', hcommit⟩ := sampleRequest_commits none ["a"] [] (by decide)
  rw [upsert_of_valid (by decide)] at hcommit
  obtain ⟨q, d₁, hreach, hgone⟩ := upsertLocked_reaches_window hd
    (show (Prog.run _ _ _).1 = _ by rw [hcommit])
  have hacquired : UpsertRun sampleCalls (initialDisk none) _ _ :=
    .step .start (.acquire (i := 0) rfl rfl)
  obtain ⟨es, c, hwindow, rfl, -, -⟩ := hacquired.reaches (Locked.setCall_self _ 0 _) hreach
  have hrun : ReadRun sampleCalls (initialDisk none) "main" "now" (fun _ _ => True) _ :=
    Watched.Run.calls_go_on .start hwindow fun _ _ _ => trivial
  obtain ⟨s', hrun', -, hr⟩ := Watched.Run.reader_finishes
    (get_sees (J := Unit) (G := Unit) "main" "now") (fun _ _ => trivial) hrun rfl
  rw [working_eq_faulty, get_run, hgone] at hr
  refine ⟨s', hrun', hr, ?_⟩
  intro commits h
  rcases h with hold | ⟨e, -, g, hg, -⟩
  · cases hold
  · cases hg

end Samples

end Agyn
