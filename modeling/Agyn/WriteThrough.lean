import Mathlib.Data.List.Nodup
import Mathlib.Logic.Function.Basic
import Mathlib.Logic.Relation

/-!
Read-merge-write calls on the cells of a write-through cache. A call reads the cached
value of its cell, makes the next one from it, stores that durably and then publishes
it in the cache. As long as no call reads a cell that another call is working on, the
calls on a cell have the effect of running one after the other.
-/
namespace Agyn

namespace WriteThrough

variable {ι K S : Type}

inductive Phase (S : Type) where
  | idle
  | merged (next : S)
  | stored (next : S)
  | done
  | failed

/-- A call that has read its cell and not yet published, and what it will write. -/
def Phase.Writing (next : S) (p : Phase S) : Prop := p = .merged next ∨ p = .stored next

def Phase.InFlight (p : Phase S) : Prop := ∃ next, p.Writing next

/-- The calls: the cell of each, and what it makes of the value it reads. -/
structure Writers (ι K S : Type) where
  cell : ι → K
  apply : ι → S → S

structure Cells (ι K S : Type) where
  cached : K → S
  durable : K → S
  phase : ι → Phase S

/-- The value of a cell after some calls on it, in the given order. -/
def Writers.applied (w : Writers ι K S) (order : List ι) (v : S) : S :=
  order.foldl (fun v i => w.apply i v) v

theorem Writers.applied_concat (w : Writers ι K S) (order : List ι) (i : ι) (v : S) :
    w.applied (order ++ [i]) v = w.apply i (w.applied order v) := by
  simp [Writers.applied]

/-- No call is working on the cell `k`. -/
def Quiet (w : Writers ι K S) (c : Cells ι K S) (k : K) : Prop :=
  ∀ i, w.cell i = k → ¬ (c.phase i).InFlight

section Logs

variable [DecidableEq K] {w : Writers ι K S} {c₀ : Cells ι K S}

/-- The calls of the log on the cell `k`. -/
def Writers.on (w : Writers ι K S) (log : List ι) (k : K) : List ι :=
  log.filter fun i => w.cell i = k

structure Serialized (w : Writers ι K S) (c₀ c : Cells ι K S) (log : List ι) : Prop where
  nodup : log.Nodup
  done : ∀ i, i ∈ log ↔ c.phase i = .done
  cached : ∀ k, c.cached k = w.applied (w.on log k) (c₀.cached k)
  alone : ∀ i j, (c.phase i).InFlight → (c.phase j).InFlight → w.cell i = w.cell j → i = j
  next : ∀ i v, (c.phase i).Writing v → v = w.apply i (c.cached (w.cell i))
  ahead : ∀ i v, c.phase i = .stored v → c.durable (w.cell i) = v
  level : ∀ k, (∀ i v, w.cell i = k → c.phase i ≠ .stored v) →
    c.durable k = if w.on log k = [] then c₀.durable k else c.cached k

@[simp] theorem not_inFlight_idle : ¬ (Phase.idle : Phase S).InFlight := by
  simp [Phase.InFlight, Phase.Writing]

@[simp] theorem not_inFlight_done : ¬ (Phase.done : Phase S).InFlight := by
  simp [Phase.InFlight, Phase.Writing]

@[simp] theorem not_inFlight_failed : ¬ (Phase.failed : Phase S).InFlight := by
  simp [Phase.InFlight, Phase.Writing]

@[simp] theorem inFlight_merged (v : S) : (Phase.merged v).InFlight := ⟨v, Or.inl rfl⟩

@[simp] theorem inFlight_stored (v : S) : (Phase.stored v).InFlight := ⟨v, Or.inr rfl⟩

theorem on_concat (log : List ι) (i : ι) (k : K) :
    w.on (log ++ [i]) k = w.on log k ++ if w.cell i = k then [i] else [] := by
  unfold Writers.on
  rw [List.filter_append]
  by_cases hk : w.cell i = k
  · simp [hk]
  · simp [hk]

theorem Serialized.start (hidle : ∀ i, c₀.phase i = .idle) : Serialized w c₀ c₀ [] where
  nodup := List.nodup_nil
  done i := by simp [hidle i]
  cached k := rfl
  alone i j hi := by simp [hidle i] at hi
  next i v hi := by simp [hidle i, Phase.Writing] at hi
  ahead i v hi := by simp [hidle i] at hi
  level k hk := by simp [Writers.on]

end Logs

section Steps

variable [DecidableEq ι] [DecidableEq K]

/-- One step of a call. A cell is only read while no call is working on it. -/
inductive Step (w : Writers ι K S) : Cells ι K S → Cells ι K S → Prop
  | read {c : Cells ι K S} {i : ι} (hidle : c.phase i = .idle) (hquiet : Quiet w c (w.cell i)) :
    Step w c { c with
      phase := Function.update c.phase i (.merged (w.apply i (c.cached (w.cell i)))) }
  | store {c : Cells ι K S} {i : ι} {next : S} (hmerged : c.phase i = .merged next) :
    Step w c { c with
      durable := Function.update c.durable (w.cell i) next
      phase := Function.update c.phase i (.stored next) }
  | publish {c : Cells ι K S} {i : ι} {next : S} (hstored : c.phase i = .stored next) :
    Step w c { c with
      cached := Function.update c.cached (w.cell i) next
      phase := Function.update c.phase i .done }
  | fail {c : Cells ι K S} {i : ι} {next : S} (hmerged : c.phase i = .merged next) :
    Step w c { c with phase := Function.update c.phase i .failed }

abbrev Run (w : Writers ι K S) : Cells ι K S → Cells ι K S → Prop :=
  Relation.ReflTransGen (Step w)

variable {w : Writers ι K S} {c₀ c : Cells ι K S} {log : List ι}

theorem Serialized.read (h : Serialized w c₀ c log) {i : ι} (hidle : c.phase i = .idle)
    (hquiet : Quiet w c (w.cell i)) :
    Serialized w c₀ { c with
      phase := Function.update c.phase i (.merged (w.apply i (c.cached (w.cell i)))) } log where
  nodup := h.nodup
  done := by
    intro j
    by_cases hj : j = i
    · subst hj
      simp [h.done, hidle]
    · simp [h.done, hj]
  cached := h.cached
  alone := by
    intro j l hj hl hcell
    by_cases hji : j = i
    · by_cases hli : l = i
      · rw [hji, hli]
      · simp only [Function.update_of_ne hli] at hl
        subst hji
        exact absurd hl (hquiet l hcell.symm)
    · simp only [Function.update_of_ne hji] at hj
      by_cases hli : l = i
      · subst hli
        exact absurd hj (hquiet j hcell)
      · simp only [Function.update_of_ne hli] at hl
        exact h.alone j l hj hl hcell
  next := by
    intro j v hv
    by_cases hj : j = i
    · subst hj
      simpa [Phase.Writing, eq_comm] using hv
    · simp only [Function.update_of_ne hj] at hv
      exact h.next j v hv
  ahead := by
    intro j v hv
    by_cases hj : j = i
    · subst hj
      simp at hv
    · simp only [Function.update_of_ne hj] at hv
      exact h.ahead j v hv
  level := by
    intro k hk
    refine h.level k fun j v hcell hv => ?_
    have hj : j ≠ i := by
      intro hj
      subst hj
      rw [hidle] at hv
      cases hv
    exact hk j v hcell (by simpa [hj] using hv)

theorem Serialized.store (h : Serialized w c₀ c log) {i : ι} {next : S}
    (hmerged : c.phase i = .merged next) :
    Serialized w c₀ { c with
      durable := Function.update c.durable (w.cell i) next
      phase := Function.update c.phase i (.stored next) } log where
  nodup := h.nodup
  done := by
    intro j
    by_cases hj : j = i
    · subst hj
      simp [h.done, hmerged]
    · simp [h.done, hj]
  cached := h.cached
  alone := by
    have hinFlight : ∀ j, (Function.update c.phase i (.stored next) j).InFlight →
        (c.phase j).InFlight := by
      intro j hj
      by_cases hji : j = i
      · subst hji
        simp [hmerged]
      · simpa only [Function.update_of_ne hji] using hj
    intro j l hj hl hcell
    exact h.alone j l (hinFlight j hj) (hinFlight l hl) hcell
  next := by
    intro j v hv
    by_cases hj : j = i
    · subst hj
      refine h.next j v (Or.inl ?_)
      simpa [Phase.Writing, hmerged] using hv
    · simp only [Function.update_of_ne hj] at hv
      exact h.next j v hv
  ahead := by
    intro j v hv
    by_cases hj : j = i
    · subst hj
      simpa using hv
    · simp only [Function.update_of_ne hj] at hv
      have hcell : w.cell j ≠ w.cell i := by
        intro hcell
        exact hj (h.alone j i (by simp [hv]) (by simp [hmerged]) hcell)
      simpa [hcell] using h.ahead j v hv
  level := by
    intro k hk
    have hcell : k ≠ w.cell i := by
      intro hcell
      exact hk i next hcell.symm (by simp)
    have hlevel := h.level k fun j v hjk hv => by
      have hj : j ≠ i := fun hj => hcell (by rw [← hjk, hj])
      exact hk j v hjk (by simpa [hj] using hv)
    simpa [hcell] using hlevel

theorem Serialized.publish (h : Serialized w c₀ c log) {i : ι} {next : S}
    (hstored : c.phase i = .stored next) :
    Serialized w c₀ { c with
      cached := Function.update c.cached (w.cell i) next
      phase := Function.update c.phase i .done } (log ++ [i]) := by
  have hnext : next = w.apply i (c.cached (w.cell i)) := h.next i next (Or.inr hstored)
  have hfresh : i ∉ log := by simp [h.done, hstored]
  have hothers : ∀ j, (Function.update c.phase i .done j).InFlight →
      (c.phase j).InFlight ∧ w.cell j ≠ w.cell i := by
    intro j hj
    by_cases hji : j = i
    · subst hji
      simp at hj
    · simp only [Function.update_of_ne hji] at hj
      exact ⟨hj, fun hcell => hji (h.alone j i hj (by simp [hstored]) hcell)⟩
  refine ⟨?_, ?_, ?_, ?_, ?_, ?_, ?_⟩
  · rw [List.nodup_append]
    refine ⟨h.nodup, List.pairwise_singleton _ i, ?_⟩
    intro j hj l hl hjl
    rw [List.mem_singleton] at hl
    rw [hjl, hl] at hj
    exact hfresh hj
  · intro j
    by_cases hj : j = i
    · subst hj
      simp
    · simp [h.done, hj]
  · intro k
    by_cases hk : w.cell i = k
    · subst hk
      rw [on_concat, if_pos rfl, Writers.applied_concat, ← h.cached]
      simpa using hnext
    · rw [on_concat, if_neg hk, List.append_nil, ← h.cached]
      simp [Ne.symm hk]
  · intro j l hj hl hcell
    exact h.alone j l (hothers j hj).1 (hothers l hl).1 hcell
  · intro j v hv
    obtain ⟨-, hcell⟩ := hothers j ⟨v, hv⟩
    have hj : j ≠ i := fun hj => hcell (by rw [hj])
    simp only [Function.update_of_ne hj] at hv
    simpa [hcell] using h.next j v hv
  · intro j v hv
    have hj : j ≠ i := by
      intro hj
      simp [hj] at hv
    simp only [Function.update_of_ne hj] at hv
    exact h.ahead j v hv
  · intro k hk
    by_cases hcell : w.cell i = k
    · subst hcell
      rw [on_concat, if_pos rfl]
      simpa using h.ahead i next hstored
    · have hlevel := h.level k fun j v hjk hv => by
        have hj : j ≠ i := fun hj => hcell (by rw [← hj, hjk])
        exact hk j v hjk (by simpa [hj] using hv)
      rw [on_concat, if_neg hcell, List.append_nil]
      simpa [Ne.symm hcell] using hlevel

theorem Serialized.fail (h : Serialized w c₀ c log) {i : ι} {next : S}
    (hmerged : c.phase i = .merged next) :
    Serialized w c₀ { c with phase := Function.update c.phase i .failed } log := by
  have hothers : ∀ j, j ≠ i → Function.update c.phase i .failed j = c.phase j := fun j hj =>
    Function.update_of_ne hj _ _
  have hinFlight : ∀ j, (Function.update c.phase i .failed j).InFlight → j ≠ i := by
    intro j hj hji
    subst hji
    simp at hj
  refine ⟨h.nodup, ?_, h.cached, ?_, ?_, ?_, ?_⟩
  · intro j
    by_cases hj : j = i
    · subst hj
      simp [h.done, hmerged]
    · simp [h.done, hj]
  · intro j l hj hl hcell
    have hji := hinFlight j hj
    have hli := hinFlight l hl
    simp only [hothers j hji] at hj
    simp only [hothers l hli] at hl
    exact h.alone j l hj hl hcell
  · intro j v hv
    have hji := hinFlight j ⟨v, hv⟩
    simp only [hothers j hji] at hv
    exact h.next j v hv
  · intro j v hv
    have hji : j ≠ i := by
      intro hji
      simp [hji] at hv
    simp only [hothers j hji] at hv
    exact h.ahead j v hv
  · intro k hk
    refine h.level k fun j v hcell hv => ?_
    have hji : j ≠ i := by
      intro hji
      rw [hji, hmerged] at hv
      cases hv
    exact hk j v hcell (by simpa [hji] using hv)

theorem Serialized.step {c' : Cells ι K S} (h : Serialized w c₀ c log) (hstep : Step w c c') :
    ∃ log', Serialized w c₀ c' log' := by
  cases hstep with
  | read hidle hquiet => exact ⟨_, h.read hidle hquiet⟩
  | store hmerged => exact ⟨_, h.store hmerged⟩
  | publish hstored => exact ⟨_, h.publish hstored⟩
  | fail hmerged => exact ⟨_, h.fail hmerged⟩

/-- The calls that have been published are serialized in every state of a run. -/
theorem Serialized.run (hidle : ∀ i, c₀.phase i = .idle) (hrun : Run w c₀ c) :
    ∃ log, Serialized w c₀ c log := by
  induction hrun with
  | refl => exact ⟨[], .start hidle⟩
  | tail _ hstep ih =>
    obtain ⟨log, h⟩ := ih
    exact h.step hstep

/-- The cell `k` holds what the given calls have made of it, in that order. -/
structure Settled (w : Writers ι K S) (c₀ c : Cells ι K S) (k : K) (order : List ι) : Prop where
  nodup : order.Nodup
  calls : ∀ i, i ∈ order ↔ w.cell i = k ∧ c.phase i = .done
  cached : c.cached k = w.applied order (c₀.cached k)
  durable : c.durable k = if order = [] then c₀.durable k else c.cached k

/-- A cell on which no call is working holds what the published calls have made of it. -/
theorem settled_of_run (hidle : ∀ i, c₀.phase i = .idle) (hrun : Run w c₀ c) {k : K}
    (hquiet : Quiet w c k) : ∃ order, Settled w c₀ c k order := by
  obtain ⟨log, h⟩ := Serialized.run hidle hrun
  refine ⟨w.on log k, h.nodup.filter _, ?_, h.cached k, h.level k ?_⟩
  · intro i
    rw [Writers.on, List.mem_filter, h.done, decide_eq_true_eq, and_comm]
  · intro i v hcell hv
    exact hquiet i hcell (by simp [hv])

end Steps

end WriteThrough

end Agyn
