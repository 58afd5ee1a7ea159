import Agyn.RuntimeSteps

/-!
What reversing a list of recorded keys and disposing of a node do to the edge
structures. A reversal that throws leaves its record in place and is noted in
the journal; every other record of the list is gone afterwards. Both callers
swallow what is thrown, so these functions have no rejecting outcome.
-/
namespace Agyn.LiveGraph

open GraphRuntimeState

variable {V : Type} (env : RuntimeEnv V)

/-- No create or destroy method of an edge throws. -/
def EdgeMethodsSucceed : Prop := ∀ tick inst name arg, env.invoke tick inst name arg = .ok ()

theorem runReversal_ok (h : EdgeMethodsSucceed env) (r : Reversal) (w : World V) :
    (runReversal env r w).1 = .ok () := by
  unfold runReversal
  split
  · exact h _ _ _ _
  · split
    · exact h _ _ _ _
    · rfl

theorem reverseKey_cases (site : ReversalSite) (w : World V) (k : String) :
    (w.state.executedEdges.get k = none ∧ reverseKey env site w k = w) ∨
    (∃ rec, w.state.executedEdges.get k = some rec ∧ ¬ EdgeMethodsSucceed env ∧
      (reverseKey env site w k).state = w.state ∧
      (reverseKey env site w k).journal = .reversed site rec.key true :: w.journal) ∨
    (∃ rec, w.state.executedEdges.get k = some rec ∧
      (reverseKey env site w k).state = w.state.unregisterEdgeRecord rec ∧
      (reverseKey env site w k).journal =
        .assigned (w.state.unregisterEdgeRecord rec) :: .reversed site rec.key false ::
          w.journal) := by
  unfold reverseKey
  cases hrec : w.state.executedEdges.get k with
  | none => exact Or.inl ⟨rfl, rfl⟩
  | some rec =>
    refine Or.inr ?_
    have hquiet : Quiet w (if rec.reversible then runReversal env rec.reversal w
        else (.ok (), w)).2 := by
      split
      · exact runReversal_quiet env rec.reversal w
      · exact Quiet.refl w
    dsimp only
    unfold tryReverseAndUnregister
    dsimp only
    split
    · rename_i heq
      rw [heq] at hquiet
      refine Or.inl ⟨rec, rfl, ?_, hquiet.state_eq, ?_⟩
      · intro hsucc
        split at heq
        · have hok := runReversal_ok env hsucc rec.reversal w
          rw [heq] at hok
          cases hok
        · cases heq
      · rw [World.note, hquiet.journal_eq]
    · rename_i w₁ heq
      rw [heq] at hquiet
      refine Or.inr ⟨rec, rfl, ?_, ?_⟩
      · rw [World.assign, hquiet.state_eq]
      · rw [World.assign, World.note, hquiet.state_eq, hquiet.journal_eq]

/-- The effect of reversing the keys `ks`, with `new` the journal entries it made. -/
structure Reversed (site : ReversalSite) (ks : List String) (w w' : World V)
    (new : List (RuntimeEvent V)) : Prop where
  journal : w'.journal = new ++ w.journal
  index : w'.state.EdgeIndex
  nodes : w'.state.nodes = w.state.nodes
  lastGraph : w'.state.lastGraph = w.state.lastGraph
  executed : ∀ k rec, w'.state.executedEdges.get k = some rec ↔
    w.state.executedEdges.get k = some rec ∧ (k ∈ ks → .reversed site k true ∈ new)
  assigned : ∀ s, .assigned s ∈ new → s.EdgeIndex
  events : ∀ e ∈ new, (∃ s, e = .assigned s) ∨ ∃ k threw, k ∈ ks ∧ e = .reversed site k threw
  threw : ∀ k, .reversed site k true ∈ new →
    ∃ rec, w'.state.executedEdges.get k = some rec

section Reversing

variable {site : ReversalSite} {k : String} {rest : List String} {w w₁ w₂ : World V}
  {rec : ExecutedEdgeRecord} {new : List (RuntimeEvent V)}

theorem Reversed.events_cons (h : Reversed site rest w w₂ new) (k : String) {e : RuntimeEvent V}
    (he : e ∈ new) :
    (∃ s, e = .assigned s) ∨ ∃ k' threw, k' ∈ k :: rest ∧ e = .reversed site k' threw := by
  rcases h.events e he with hs | ⟨k', b, hmem, rfl⟩
  · exact Or.inl hs
  · exact Or.inr ⟨k', b, List.mem_cons_of_mem _ hmem, rfl⟩

theorem Reversed.skip (h : Reversed site rest w w₂ new)
    (hnone : w.state.executedEdges.get k = none) : Reversed site (k :: rest) w w₂ new := by
  refine ⟨h.journal, h.index, h.nodes, h.lastGraph, ?_, h.assigned,
    fun e he => h.events_cons k he, h.threw⟩
  intro k' r
  rw [h.executed]
  refine and_congr_right fun hr => ?_
  have hne : k' ≠ k := by
    rintro rfl
    rw [hnone] at hr
    cases hr
  simp [hne]

/-- When the reversal of `k` throws its record stays. -/
theorem Reversed.failed (h : Reversed site rest w₁ w₂ new) (hk : k ∉ rest)
    (hrec : w.state.executedEdges.get k = some rec) (hstate : w₁.state = w.state)
    (hjournal : w₁.journal = .reversed site k true :: w.journal) :
    Reversed site (k :: rest) w w₂ (new ++ [.reversed site k true]) := by
  have hkept : w₂.state.executedEdges.get k = some rec := by
    rw [h.executed, hstate]
    exact ⟨hrec, fun hmem => absurd hmem hk⟩
  refine ⟨?_, h.index, h.nodes.trans (by rw [hstate]), h.lastGraph.trans (by rw [hstate]), ?_, ?_,
    ?_, ?_⟩
  · rw [h.journal, hjournal]
    simp
  · intro k' r
    rw [h.executed, hstate]
    refine and_congr_right fun hr => ?_
    by_cases hne : k' = k
    · subst hne
      simp [hk]
    · simp [hne]
  · intro s hs
    rcases List.mem_append.mp hs with hs | hs
    · exact h.assigned s hs
    · simp at hs
  · intro e he
    rcases List.mem_append.mp he with he | he
    · exact h.events_cons k he
    · exact Or.inr ⟨k, true, List.mem_cons_self, List.mem_singleton.mp he⟩
  · intro k' hk'
    rcases List.mem_append.mp hk' with hk' | hk'
    · exact h.threw k' hk'
    · have heq : k' = k := by simpa using hk'
      exact ⟨rec, heq ▸ hkept⟩

/-- Otherwise its record is unregistered, and later reversals do not touch it. -/
theorem Reversed.unregistered (h : Reversed site rest w₁ w₂ new) (hk : k ∉ rest)
    (hindex : w₁.state.EdgeIndex) (hkey : rec.key = k)
    (hstate : w₁.state = w.state.unregisterEdgeRecord rec)
    (hjournal : w₁.journal = .assigned w₁.state :: .reversed site k false :: w.journal) :
    Reversed site (k :: rest) w w₂
      (new ++ [.assigned w₁.state, .reversed site k false]) := by
  have hget : ∀ k', w₁.state.executedEdges.get k' =
      if k' = k then none else w.state.executedEdges.get k' := by
    intro k'
    rw [hstate, unregisterEdgeRecord, InsMap.get_delete, hkey]
  have hquiet : .reversed site k true ∉ new := by
    intro hmem
    rcases h.events _ hmem with ⟨s, hs⟩ | ⟨k', b, hmem', heq⟩
    · cases hs
    · cases heq
      exact hk hmem'
  refine ⟨?_, h.index, h.nodes.trans (by rw [hstate, unregisterEdgeRecord]),
    h.lastGraph.trans (by rw [hstate, unregisterEdgeRecord]), ?_, ?_, ?_, ?_⟩
  · rw [h.journal, hjournal]
    simp
  · intro k' r
    rw [h.executed, hget]
    by_cases hne : k' = k
    · subst hne
      simp [hquiet]
    · simp [hne]
  · intro s hs
    rcases List.mem_append.mp hs with hs | hs
    · exact h.assigned s hs
    · have heq : s = w₁.state := by simpa using hs
      exact heq ▸ hindex
  · intro e he
    rcases List.mem_append.mp he with he | he
    · exact h.events_cons k he
    · rcases List.mem_cons.mp he with rfl | he
      · exact Or.inl ⟨_, rfl⟩
      · exact Or.inr ⟨k, false, List.mem_cons_self, List.mem_singleton.mp he⟩
  · intro k' hk'
    refine h.threw k' ?_
    simpa using hk'

end Reversing

theorem reverseKeys_spec (site : ReversalSite) (ks : List String) (hks : ks.Nodup) (w : World V)
    (hw : w.state.EdgeIndex) :
    ∃ new, Reversed site ks w (ks.foldl (reverseKey env site) w) new := by
  induction ks generalizing w with
  | nil =>
    exact ⟨[], rfl, hw, rfl, rfl, by simp, by simp, by simp, by simp⟩
  | cons k rest ih =>
    obtain ⟨hk, hrest⟩ := List.nodup_cons.mp hks
    rw [List.foldl_cons]
    rcases reverseKey_cases env site w k with
      ⟨hnone, hsame⟩ | ⟨rec, hrec, -, hstate, hjournal⟩ | ⟨rec, hrec, hstate, hjournal⟩
    · rw [hsame]
      obtain ⟨new, h⟩ := ih hrest w hw
      exact ⟨new, h.skip hnone⟩
    · have hkey : rec.key = k := hw.key_eq k rec hrec
      rw [hkey] at hjournal
      obtain ⟨new, h⟩ := ih hrest (reverseKey env site w k) (hstate ▸ hw)
      exact ⟨_, h.failed hk hrec hstate hjournal⟩
    · have hkey : rec.key = k := hw.key_eq k rec hrec
      have hindex : (reverseKey env site w k).state.EdgeIndex := by
        rw [hstate]
        exact hw.unregister rec (hkey ▸ hrec)
      rw [← hstate, hkey] at hjournal
      obtain ⟨new, h⟩ := ih hrest (reverseKey env site w k) hindex
      exact ⟨_, h.unregistered hk hindex hkey hstate hjournal⟩

/-- The effect of disposing of a live node, with `new` the reversals it journalled. -/
structure Disposed (id : String) (w w' : World V) (new : List (RuntimeEvent V)) : Prop where
  journal : w'.journal = .assigned w'.state :: (new ++ w.journal)
  nodes : w'.state.nodes = w.state.nodes.delete id
  lastGraph : w'.state.lastGraph = w.state.lastGraph
  executed : ∀ k rec, w'.state.executedEdges.get k = some rec ↔
    w.state.executedEdges.get k = some rec ∧
      (rec.Incident id → .reversed .disposal k true ∈ new)
  assigned : ∀ s, .assigned s ∈ new → s.EdgeIndex
  events : ∀ e ∈ new, (∃ s, e = .assigned s) ∨ ∃ k threw, e = .reversed .disposal k threw
  index : (∀ k, .reversed .disposal k true ∉ new) → w'.state.EdgeIndex
  dangling : ∀ k, .reversed .disposal k true ∈ new →
    ∃ rec, w'.state.executedEdges.get k = some rec ∧ rec.Incident id

theorem disposeNode_spec (id : String) (w : World V) (hw : w.state.EdgeIndex) :
    (¬ w.state.Live id ∧ disposeNode env id w = w) ∨
      (w.state.Live id ∧ ∃ new, Disposed id w (disposeNode env id w) new) := by
  unfold disposeNode
  cases hlive : w.state.nodes.get id with
  | none =>
    refine Or.inl ⟨?_, rfl⟩
    rintro ⟨live, h⟩
    rw [hlive] at h
    cases h
  | some live =>
    refine Or.inr ⟨⟨live, hlive⟩, ?_⟩
    obtain ⟨new, h⟩ := reverseKeys_spec env .disposal (w.state.edgeKeysOf id)
      (edgeKeysOf_nodup w.state id) w hw
    dsimp only
    generalize (w.state.edgeKeysOf id).foldl (reverseKey env .disposal) w = w₁ at h ⊢
    have hkeys : ∀ k rec, w.state.executedEdges.get k = some rec →
        (k ∈ w.state.edgeKeysOf id ↔ rec.Incident id) := by
      intro k rec hrec
      rw [hw.mem_edgeKeysOf]
      constructor
      · rintro ⟨rec', hrec', hinc⟩
        rw [hrec] at hrec'
        exact (Option.some.inj hrec') ▸ hinc
      · exact fun hinc => ⟨rec, hrec, hinc⟩
    have hexec : ∀ k rec, w₁.state.executedEdges.get k = some rec ↔
        w.state.executedEdges.get k = some rec ∧
          (rec.Incident id → .reversed .disposal k true ∈ new) := by
      intro k rec
      rw [h.executed]
      exact and_congr_right fun hrec => by rw [hkeys k rec hrec]
    refine ⟨new, ?_, ?_, h.lastGraph, hexec, h.assigned, ?_, ?_, ?_⟩
    · change RuntimeEvent.assigned _ :: w₁.journal = _
      rw [h.journal]
      rfl
    · change w₁.state.nodes.delete id = _
      rw [h.nodes]
    · intro e he
      rcases h.events e he with hs | ⟨k, b, -, rfl⟩
      · exact Or.inl hs
      · exact Or.inr ⟨k, b, rfl⟩
    · intro hnone
      apply h.index.deleteNode id
      intro k rec hrec hinc
      exact hnone k (((hexec k rec).mp hrec).2 hinc)
    · intro k hk
      obtain ⟨rec, hrec⟩ := h.threw k hk
      refine ⟨rec, hrec, ?_⟩
      rcases h.events _ hk with ⟨s, hs⟩ | ⟨k', b, hmem, heq⟩
      · cases hs
      · cases heq
        exact (hkeys k rec ((hexec k rec).mp hrec).1).mp hmem

end Agyn.LiveGraph
