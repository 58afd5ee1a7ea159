import Agyn.LockedEffects
import Agyn.UpsertCommits

/-!
Optimistic concurrency of upserts, for every run of any number of calls. The commits
count the version up one at a time, a request that carries a version is committed only
on top of that version, and a call that is rejected leaves no trace.
-/
namespace Agyn

open Prog FsGraphRepository

variable {ι J G : Type}

section Runs

variable {calls : ι → UpsertCall J} {d : Disk J G} {old : GraphTree J G}
  {es : List (Locked.Event ι Label (FsOp J) (UpsertResult J) (Disk J G))} {c : Upserts ι J G}

/-- A call has committed the graph `g`: it has ended with it, or will. -/
def HasCommitted (c : Upserts ι J G) (i : ι) (g : PersistedGraph J) : Prop :=
  c.calls i = .settled (.ok g) ∨ ∃ p, c.calls i = .holding p ∧ (p.run working c.store).1 = .ok g

/-- The commits that have led to the state `c`: one for each successful call, and possibly one
for the holder of the lock. The root, if it is there, holds the graph of one of them, and
while nobody holds the lock it has the last version. -/
structure CommitHistory (calls : ι → UpsertCall J) (old : GraphTree J G)
    (before : List (String × GraphTree J G)) (c : Upserts ι J G)
    (commits : List (ι × PersistedGraph J)) : Prop where
  counted : Commits calls old.version before commits c.store.installs
  successful : ∀ i g, c.calls i = .settled (.ok g) → (i, g) ∈ commits
  committed : ∀ e ∈ commits, HasCommitted c e.1 e.2
  accepted : ∀ e ∈ commits,
    validatePersistedGraph (calls e.1).req (calls e.1).schema = .ok ()
  root : ∀ t, c.store.tree .root = some t → IsCommitted old commits t
  stored : c.lock = none →
    ∃ t, c.store.tree .root = some t ∧ t.version = old.version + commits.length

/-- Two calls with one version do not both succeed. -/
theorem CommitHistory.unique {before : List (String × GraphTree J G)}
    {commits : List (ι × PersistedGraph J)} (h : CommitHistory calls old before c commits)
    {i j : ι} {g g' : PersistedGraph J} {v : ℕ} (hi : c.calls i = .settled (.ok g))
    (hj : c.calls j = .settled (.ok g')) (hvi : (calls i).req.version = some v)
    (hvj : (calls j).req.version = some v) : i = j := by
  obtain ⟨k, hk⟩ := List.mem_iff_getElem?.mp (h.successful i g hi)
  obtain ⟨l, hl⟩ := List.mem_iff_getElem?.mp (h.successful j g' hj)
  have hki := h.counted.checked k _ hk v hvi
  have hlj := h.counted.checked l _ hl v hvj
  obtain rfl : k = l := by omega
  rw [hk] at hl
  exact (Prod.mk.inj (Option.some.inj hl)).1

section Settled

variable {log : List (ι × UpsertResult J)} {d₁ : Disk J G}

theorem settled_mem_successes
    (hc : Locked.Serialized working (upsertBody calls) (startUpserts calls d) log d₁ c) {i : ι}
    {g : PersistedGraph J} (hi : c.calls i = .settled (.ok g)) :
    (startUpserts calls d).calls i = .waiting ∧ (i, g) ∈ successes log := by
  have hcall := hc.calls i
  rw [hi] at hcall
  rcases hcall with ⟨hwait, hmem⟩ | hrefused
  · exact ⟨hwait, mem_successes.mpr hmem⟩
  · exact absurd hrefused startUpserts_settled

theorem successes_accepted
    (hc : Locked.Serialized working (upsertBody calls) (startUpserts calls d) log d₁ c) :
    ∀ e ∈ successes log, validatePersistedGraph (calls e.1).req (calls e.1).schema = .ok () :=
  fun _ he => startUpserts_waiting
    (settled_mem_successes hc (hc.logged _ (mem_successes.mp he))).1

/-- While the holder of the lock has not installed a tree, the successful calls are the
commits. -/
theorem successes_history
    (hc : Locked.Serialized working (upsertBody calls) (startUpserts calls d) log d₁ c)
    {before : List (String × GraphTree J G)} {t : GraphTree J G} (hd₁ : Initialised d₁ t)
    (hversion : t.version = old.version + (successes log).length)
    (htree : IsCommitted old (successes log) t)
    (hcommits : Commits calls old.version before (successes log) c.store.installs)
    (hroot : ∀ t', c.store.tree .root = some t' → t' = t) :
    CommitHistory calls old before c (successes log) := by
  refine ⟨hcommits, fun i g hi => (settled_mem_successes hc hi).2,
    fun e he => Or.inl (hc.logged _ (mem_successes.mp he)), successes_accepted hc, ?_,
    fun hlock => ⟨t, ?_, hversion⟩⟩
  · intro t' ht'
    rw [hroot t' ht']
    exact htree
  · rw [hc.idle hlock]
    exact hd₁.root

/-- When the holder of the lock has installed its tree its commit is the last one. -/
theorem holder_history
    (hc : Locked.Serialized working (upsertBody calls) (startUpserts calls d) log d₁ c)
    {before : List (String × GraphTree J G)} {i : ι} {p : Prog Label (FsOp J) (UpsertResult J)}
    {target : PersistedGraph J} (hp : c.calls i = .holding p)
    (hend : (p.run working c.store).1 = .ok target)
    (hcommits : Commits calls old.version before (successes log ++ [(i, target)])
      c.store.installs)
    (hroot : ∀ t, c.store.tree .root = some t → t.docs = (stagedTree target : GraphTree J G)) :
    CommitHistory calls old before c (successes log ++ [(i, target)]) := by
  obtain ⟨hwait, hlock, -⟩ := hc.holding hp
  refine ⟨hcommits, ?_, ?_, ?_, ?_, ?_⟩
  · exact fun j g hj => List.mem_append_left _ (settled_mem_successes hc hj).2
  · intro e he
    rcases List.mem_append.mp he with he | he
    · exact Or.inl (hc.logged _ (mem_successes.mp he))
    · rw [List.mem_singleton.mp he]
      exact Or.inr ⟨p, hp, hend⟩
  · intro e he
    rcases List.mem_append.mp he with he | he
    · exact successes_accepted hc e he
    · rw [List.mem_singleton.mp he]
      exact startUpserts_waiting hwait
  · intro t ht
    exact Or.inr ⟨(i, target), List.mem_append_right _ List.mem_cons_self, hroot t ht⟩
  · intro hnone
    rw [hlock] at hnone
    cases hnone

end Settled

variable [DecidableEq ι]

/-- A run of upserts that start on the disk `d`. -/
abbrev UpsertRun (calls : ι → UpsertCall J) (d : Disk J G) :
    List (Locked.Event ι Label (FsOp J) (UpsertResult J) (Disk J G)) → Upserts ι J G → Prop :=
  Locked.Run working (upsertBody calls) (startUpserts calls d)

/-- Every state of a run has its history of commits. -/
theorem run_commits (hd : Initialised d old) (hrun : UpsertRun calls d es c) :
    ∃ commits, CommitHistory calls old d.installs c commits := by
  obtain ⟨log, d₁, hc⟩ := Locked.Serialized.run (startUpserts_starting calls d) hrun
  obtain ⟨t, hd₁, hversion, htree, hcommits⟩ := serial_commits calls hd hc.serial hc.nodup
  have hown : c.store = d₁ → CommitHistory calls old d.installs c (successes log) := by
    intro hstore
    refine successes_history hc hd₁ hversion htree (by rw [hstore]; exact hcommits) ?_
    intro t' ht'
    rw [hstore, hd₁.root] at ht'
    exact (Option.some.inj ht').symm
  cases hlock : c.lock with
  | none => exact ⟨successes log, hown (hc.idle hlock)⟩
  | some i =>
    obtain ⟨p, hp⟩ := hc.owner i hlock
    obtain ⟨-, -, hreach⟩ := hc.holding hp
    rcases upsertLocked_stops hd₁ (Reaches.stops working hreach) with
      ⟨hstore, -⟩ | ⟨target, hresult, hpoint⟩
    · exact ⟨successes log, hown hstore⟩
    · rcases hpoint.cases with ⟨hinstalls, hroot⟩ | ⟨hinstalls, hroot⟩
      · exact ⟨successes log, successes_history hc hd₁ hversion htree
          (by rw [hinstalls]; exact hcommits) hroot⟩
      · have hfresh : i ∉ log.map Prod.fst := by
          intro hi
          obtain ⟨e, he, rfl⟩ := List.mem_map.mp hi
          have hlogged := hc.logged e he
          rw [hp] at hlogged
          cases hlogged
        rcases upsertLocked_step (calls i).ctx (calls i).req hd₁ with
          ⟨err, hrun'⟩ | ⟨target', d', hrun', htarget, hchecked, hplanned, -⟩
        · rw [hrun'] at hresult
          cases hresult
        · have hend : (p.run working c.store).1 = .ok target := by
            rw [Reaches.run working hreach]
            exact hresult
          rw [hrun'] at hresult
          cases hresult
          rw [hversion] at htarget hchecked
          refine ⟨successes log ++ [(i, target)], holder_history hc hp hend ?_ hroot⟩
          rw [hinstalls]
          exact hcommits.snoc (not_mem_successes hfresh) htarget hchecked hplanned

/-- The errors with which a call is rejected without an attempt to write. -/
def Rejected : UpsertResult J → Prop
  | .error (.persistFailed _) => False
  | .error _ => True
  | .ok _ => False

/-- A body that has written anything ends with a commit or a failure to persist. -/
theorem upsertLocked_quiet (ctx : CallContext) (req : PersistedGraphUpsertRequest J) :
    Quiet (working : Handler Label (FsOp J) (Disk J G)) Rejected (upsertLocked ctx req) := by
  refine Quiet.bind ?_ fun existing => ?_
  · refine (get_every (G := G) req.name ctx.nowIso).mono ?_
    intro β l o h d
    exact h.2.1.exec_disk d
  · cases existing with
    | error e => exact .ret _
    | ok existing =>
      dsimp only
      cases planUpsert ctx.nowIso req existing with
      | error e => exact .ret _
      | ok target =>
        refine Leaves.quiet ((leaves_true (persistGraph ctx target)).bind fun persisted _ => ?_)
        cases persisted with
        | ok u => exact .ret id
        | error msg =>
          exact (leaves_true (restoreWorkingTree existing ctx.nowIso)).bind fun _ _ => .ret id

/-- Optimistic concurrency in a state of a run: the versions of the commits count up from that
of `old`, each successful call has one commit, which found the version its request carries;
rejected calls have changed nothing, and no call has removed the lock of another. -/
structure Optimistic (calls : ι → UpsertCall J) (old : GraphTree J G)
    (before : List (String × GraphTree J G))
    (es : List (Locked.Event ι Label (FsOp J) (UpsertResult J) (Disk J G)))
    (c : Upserts ι J G) : Prop where
  history : ∃ commits, CommitHistory calls old before c commits
  unique : ∀ i j g g' v, c.calls i = .settled (.ok g) → c.calls j = .settled (.ok g') →
    (calls i).req.version = some v → (calls j).req.version = some v → i = j
  unchanged : ∀ i r, (c.calls i).result = some r → Rejected r → Locked.Unchanged i es
  lock : ∀ e ∈ es, ∀ j, e.before.lock = some j → j ≠ e.caller → e.after.lock = some j

/-- Every run of any number of upserts has optimistic concurrency in every state. -/
theorem upserts_optimistic (calls : ι → UpsertCall J) (d : Disk J G) (old : GraphTree J G)
    (es : List (Locked.Event ι Label (FsOp J) (UpsertResult J) (Disk J G))) (c : Upserts ι J G)
    (hd : Initialised d old) (hrun : UpsertRun calls d es c) :
    Optimistic calls old d.installs es c := by
  have hstart := startUpserts_starting calls d
  obtain ⟨commits, hhistory⟩ := run_commits hd hrun
  refine ⟨⟨commits, hhistory⟩, ?_, ?_, ?_⟩
  · intro i j g g' v hi hj hvi hvj
    exact hhistory.unique hi hj hvi hvj
  · intro i r hresult hrejected
    have hblameless := hrun.blameless (Q := Rejected)
      (fun i => upsertLocked_quiet (calls i).ctx (calls i).req) hstart i
    cases hcall : c.calls i with
    | waiting =>
      rw [hcall] at hresult
      cases hresult
    | holding p =>
      rw [hcall] at hresult
      cases hresult
    | settled r' =>
      rw [hcall] at hresult hblameless
      cases hresult
      exact hblameless hrejected
    | timedOut =>
      rw [hcall] at hblameless
      exact hblameless
  · intro e he j hlock hj
    exact hrun.keeps_lock hstart he hlock hj

/-- Upserts of one node, the first of the initial version, the others of the one after it. -/
def sampleCalls (i : Fin 3) : UpsertCall Unit :=
  ⟨sampleSchema, sampleContext,
    { sampleRequest ["a"] [] with version := some (if i = 0 then 0 else 1) }⟩

/-- The graph that the last of some commits of these calls has left. -/
def committedGraph (version : ℕ) : PersistedGraph Unit :=
  ⟨"main", version, "now", [⟨"a", "relay", none, none, none⟩], [], none⟩

/-- While the first call holds the lock the last one runs out of time; then two commit. -/
theorem two_commits_optimistic : ∃ es c,
    UpsertRun sampleCalls (initialDisk none) es c ∧
      (c.calls 0).result = some (.ok (committedGraph 1)) ∧
      (c.calls 1).result = some (.ok (committedGraph 2)) ∧
      (c.calls 2).result = some (.error .lockTimeout) ∧
      Optimistic sampleCalls (initialTree none) [] es c := by
  have hheld : UpsertRun sampleCalls (initialDisk none) _ _ :=
    .step (.step .start (.acquire (i := 0) rfl rfl)) (.timeout (i := 2) rfl rfl)
  obtain ⟨_, c₁, hfirst, hstore₁, hfree, hcalls₁⟩ := hheld.finishes (i := 0) rfl
  obtain ⟨es, c, hrun, -, -, hcalls⟩ := hfirst.settles (i := 1) (by rw [hcalls₁]; rfl) hfree
  refine ⟨es, c, hrun, ?_, ?_, ?_, upserts_optimistic sampleCalls (initialDisk none)
    (initialTree none) es c (initialDisk_initialised none) hrun⟩
  · rw [hcalls, hcalls₁]
    rfl
  · rw [hcalls, hstore₁]
    rfl
  · rw [hcalls, hcalls₁]
    rfl

end Runs

end Agyn
