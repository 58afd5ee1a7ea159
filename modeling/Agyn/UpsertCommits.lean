import Agyn.LockedCalls
import Agyn.StopPoints
import Agyn.UpsertRoundTrip

/-!
The commits of concurrent upserts on one store. Requests are validated before the lock
is taken. The bodies run one after the other, each from the disk that the one before it
left, so every commit finds the version that the last one wrote and adds one to it.
-/
namespace Agyn

open Prog FsGraphRepository

variable {ι J G : Type}

/-- A call of `upsert`. -/
structure UpsertCall (J : Type) where
  schema : List TemplateNodeSchema
  ctx : CallContext
  req : PersistedGraphUpsertRequest J

abbrev UpsertResult (J : Type) := Except (UpsertError J) (PersistedGraph J)

abbrev Upserts (ι J G : Type) := Locked ι Label (FsOp J) (UpsertResult J) (Disk J G)

def upsertBody (calls : ι → UpsertCall J) (i : ι) : Fs J (UpsertResult J) :=
  upsertLocked (calls i).ctx (calls i).req

/-- The calls before any of them has taken a step; an invalid request is refused at once. -/
def startUpserts (calls : ι → UpsertCall J) (d : Disk J G) : Upserts ι J G where
  store := d
  lock := none
  calls i :=
    match validatePersistedGraph (calls i).req (calls i).schema with
    | .error message => .settled (.error (.invalid message))
    | .ok _ => .waiting

/-- How a call ended, if it has. -/
def Call.result {L : Type} {Op : Type → Type} : Call L Op (UpsertResult J) → Option (UpsertResult J)
  | .settled r => some r
  | .timedOut => some (.error .lockTimeout)
  | _ => none

section Versions

def GraphTree.version (t : GraphTree J G) : ℕ := (t.metaFile.join.bind MetaDoc.version).getD 0

/-- The version an upsert checks is that of the meta file. -/
theorem storedVersion_of_read {t : GraphTree J G} {name nowIso : String}
    {existing : Option (PersistedGraph J)} (h : readTree (some t) name nowIso = .ok existing) :
    storedVersion existing = t.version := by
  unfold readTree at h
  unfold GraphTree.version
  dsimp only at h
  cases hmeta : t.metaFile.join with
  | none =>
    rw [hmeta] at h
    cases h
    rfl
  | some doc =>
    rw [hmeta] at h
    dsimp only at h
    split at h
    · cases h
    · cases h
      rfl

theorem startUpserts_starting (calls : ι → UpsertCall J) (d : Disk J G) :
    (startUpserts calls d).Starting where
  unlocked := rfl
  calls i := by
    unfold startUpserts
    dsimp only
    split
    · exact Or.inr ⟨_, rfl⟩
    · exact Or.inl rfl

/-- A call that waits for the lock has been validated. -/
theorem startUpserts_waiting {calls : ι → UpsertCall J} {d : Disk J G} {i : ι}
    (h : (startUpserts calls d).calls i = .waiting) :
    validatePersistedGraph (calls i).req (calls i).schema = .ok () := by
  unfold startUpserts at h
  dsimp only at h
  cases hvalid : validatePersistedGraph (calls i).req (calls i).schema with
  | error message =>
    rw [hvalid] at h
    cases h
  | ok u => rfl

/-- A call that is refused has not succeeded. -/
theorem startUpserts_settled {calls : ι → UpsertCall J} {d : Disk J G} {i : ι}
    {g : PersistedGraph J} :
    (startUpserts calls d).calls i ≠ .settled (.ok g) := by
  intro h
  unfold startUpserts at h
  dsimp only at h
  cases hvalid : validatePersistedGraph (calls i).req (calls i).schema with
  | error message =>
    rw [hvalid] at h
    cases h
  | ok u =>
    rw [hvalid] at h
    cases h

def successes (log : List (ι × UpsertResult J)) : List (ι × PersistedGraph J) :=
  log.filterMap fun e =>
    match e.2 with
    | .ok g => some (e.1, g)
    | .error _ => none

theorem mem_successes {log : List (ι × UpsertResult J)} {e : ι × PersistedGraph J} :
    e ∈ successes log ↔ (e.1, .ok e.2) ∈ log := by
  unfold successes
  rw [List.mem_filterMap]
  constructor
  · intro h
    obtain ⟨⟨i, r⟩, hmem, heq⟩ := h
    cases r with
    | error err => cases heq
    | ok g =>
      cases heq
      exact hmem
  · intro h
    exact ⟨_, h, rfl⟩

/-- `commits` are the commits that led from the version `v₀` to the given installs: the
versions count up by one, and a request with a version found just that one. -/
structure Commits (calls : ι → UpsertCall J) (v₀ : ℕ) (before : List (String × GraphTree J G))
    (commits : List (ι × PersistedGraph J)) (installs : List (String × GraphTree J G)) :
    Prop where
  callers : (commits.map Prod.fst).Nodup
  installs : installs =
    (commits.map fun e => ((calls e.1).ctx.stagingId, stagedTree e.2)).reverse ++ before
  versions : commits.map (fun e => e.2.version) = List.range' (v₀ + 1) commits.length
  checked : ∀ k e, commits[k]? = some e → ∀ v, (calls e.1).req.version = some v → v = v₀ + k
  planned : ∀ e ∈ commits, ∃ existing,
    Planned (calls e.1).ctx.nowIso (calls e.1).req existing e.2

theorem Commits.nil (calls : ι → UpsertCall J) (v₀ : ℕ)
    (installs : List (String × GraphTree J G)) : Commits calls v₀ installs [] installs where
  callers := List.nodup_nil
  installs := rfl
  versions := rfl
  checked k e he := by simp at he
  planned e he := absurd he List.not_mem_nil

/-- One more commit, by a call that has not committed yet. -/
theorem Commits.snoc {calls : ι → UpsertCall J} {v₀ : ℕ}
    {before installs : List (String × GraphTree J G)} {commits : List (ι × PersistedGraph J)}
    (h : Commits calls v₀ before commits installs) {i : ι} {g : PersistedGraph J}
    (hi : i ∉ commits.map Prod.fst) (hversion : g.version = v₀ + commits.length + 1)
    (hchecked : ∀ v, (calls i).req.version = some v → v = v₀ + commits.length)
    (hplanned : ∃ existing, Planned (calls i).ctx.nowIso (calls i).req existing g) :
    Commits calls v₀ before (commits ++ [(i, g)])
      (((calls i).ctx.stagingId, stagedTree g) :: installs) where
  callers := by
    rw [List.map_append, List.nodup_append]
    refine ⟨h.callers, List.pairwise_singleton _ i, ?_⟩
    intro j hj k hk hjk
    rw [hjk, List.mem_singleton.mp hk] at hj
    exact hi hj
  installs := by
    rw [h.installs, List.map_append, List.reverse_append]
    rfl
  versions := by
    rw [List.map_append, h.versions, List.length_append, List.length_singleton,
      List.range'_concat, List.map_singleton, hversion]
    simp
    omega
  checked := by
    intro k e he v hv
    rcases Nat.lt_trichotomy k commits.length with hlt | heq | hgt
    · rw [List.getElem?_append_left hlt] at he
      exact h.checked k e he v hv
    · subst heq
      rw [List.getElem?_concat_length] at he
      cases he
      exact hchecked v hv
    · have hlen : (commits ++ [(i, g)]).length ≤ k := by
        rw [List.length_append, List.length_singleton]
        omega
      rw [List.getElem?_eq_none hlen] at he
      cases he
  planned := by
    intro e he
    rcases List.mem_append.mp he with he | he
    · exact h.planned e he
    · rw [List.mem_singleton.mp he]
      exact hplanned

theorem not_mem_successes {log : List (ι × UpsertResult J)} {i : ι}
    (hi : i ∉ log.map Prod.fst) : i ∉ (successes log).map Prod.fst := by
  intro hmem
  obtain ⟨e, he, rfl⟩ := List.mem_map.mp hmem
  exact hi (List.mem_map.mpr ⟨_, mem_successes.mp he, rfl⟩)

/-- The critical section of an upsert, from an initialised disk: nothing changes, or the
version is checked, counted up and committed. -/
theorem upsertLocked_step (ctx : CallContext) (req : PersistedGraphUpsertRequest J)
    {d : Disk J G} {old : GraphTree J G} (hd : Initialised d old) :
    (∃ err, (upsertLocked ctx req).run working d = (.error err, d)) ∨
    ∃ target d', (upsertLocked ctx req).run working d = (.ok target, d') ∧
      target.version = old.version + 1 ∧
      (∀ v, req.version = some v → v = old.version) ∧
      (∃ existing, Planned ctx.nowIso req existing target) ∧ Committed d ctx target old d' := by
  rcases upsertLocked_working ctx req hd.root (hd.fresh ctx) with
    ⟨e, -, hrun⟩ | ⟨existing, hread, ⟨e, -, hrun⟩ | ⟨target, d', hplan, hrun, hcommitted⟩⟩
  · exact Or.inl ⟨_, hrun⟩
  · exact Or.inl ⟨e, hrun⟩
  · have hplanned := planUpsert_ok hplan
    have hstored := storedVersion_of_read hread
    refine Or.inr ⟨target, d', hrun, ?_, ?_, ⟨existing, hplanned⟩, hcommitted⟩
    · rw [hplanned.version, hstored]
    · intro v hv
      rw [← hstored, hplanned.checked v hv]

/-- Up to its `.git` entry, a tree is the one at the start or that of a commit. -/
def IsCommitted (old : GraphTree J G) (commits : List (ι × PersistedGraph J))
    (t : GraphTree J G) : Prop :=
  t.docs = old.docs ∨ ∃ e ∈ commits, t.docs = (stagedTree e.2 : GraphTree J G)

/-- After some calls have run one after the other, the disk is initialised again and holds
the graph of the last commit. -/
theorem serial_commits (calls : ι → UpsertCall J) {d₀ d : Disk J G} {old : GraphTree J G}
    (hd₀ : Initialised d₀ old) {log : List (ι × UpsertResult J)}
    (hserial : Serial working (upsertBody calls) d₀ log d) (hnodup : (log.map Prod.fst).Nodup) :
    ∃ t, Initialised d t ∧ t.version = old.version + (successes log).length ∧
      IsCommitted old (successes log) t ∧ Commits calls old.version d₀.installs
        (successes log) d.installs := by
  induction hserial with
  | nil => exact ⟨old, hd₀, rfl, Or.inl rfl, .nil calls _ _⟩
  | @snoc log d hlog i ih =>
    rw [List.map_append, List.nodup_append] at hnodup
    obtain ⟨hlogNodup, -, hdisjoint⟩ := hnodup
    obtain ⟨t, hd, hversion, htree, hcommits⟩ := ih hlogNodup
    have hfresh : i ∉ log.map Prod.fst := fun hi => hdisjoint i hi i (by simp) rfl
    rcases upsertLocked_step (calls i).ctx (calls i).req hd with
      ⟨err, hrun⟩ | ⟨target, d', hrun, htarget, hchecked, hplanned, hcommitted⟩
    · have hsame : successes (log ++ [(i, (.error err : UpsertResult J))]) = successes log := by
        simp [successes]
      rw [show (upsertBody calls i).run working d = (.error err, d) from hrun, hsame]
      exact ⟨t, hd, hversion, htree, hcommits⟩
    · have hsnoc : successes (log ++ [(i, (.ok target : UpsertResult J))]) =
          successes log ++ [(i, target)] := by
        simp [successes]
      rw [show (upsertBody calls i).run working d = (.ok target, d') from hrun, hsnoc]
      rw [hversion] at htarget hchecked
      refine ⟨_, hcommitted.initialised hd, ?_, ?_, ?_⟩
      · rw [List.length_append, List.length_singleton, ← Nat.add_assoc, ← htarget]
        rfl
      · exact Or.inr ⟨(i, target), List.mem_append_right _ List.mem_cons_self, rfl⟩
      · rw [hcommitted.installs]
        exact hcommits.snoc (not_mem_successes hfresh) htarget hchecked hplanned

end Versions

end Agyn
