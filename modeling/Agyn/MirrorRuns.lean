import Agyn.RuntimeMirror

/-!
One apply on an aligned runtime. Either it is interrupted before the snapshot is
replaced, or the runtime is aligned with the new graph, even when an added edge or the
provisioning of a node rejects it. Whole sequences of applies. As long as they resolve
the runtime stays aligned with the last graph, and it mirrors every graph of the
sequence exactly when no apply removes or recreates an endpoint of an edge that it
keeps. After the first rejection nothing more is applied, so what that call leaves is
what stays.
-/
namespace Agyn.LiveGraph

open GraphRuntimeState

section OneApply

variable {V : Type}

def snapshot (s : GraphRuntimeState V) : GraphDefinition V := s.lastGraph.getD ⟨[], []⟩

variable (env : RuntimeEnv V)

/-- Adding a new node has rejected the apply, and nothing of before is lost. -/
structure AddingFailed (next : GraphDefinition V) (e : Thrown) (w w' : World V) (n : NodeDef V) :
    Prop where
  mem : n ∈ next.nodes
  new : n.id ∉ (snapshot w.state).nodeIds
  rejected : ∃ w₁, instantiateNode env n w₁ = (.error e, w')
  executed : w'.state.executedEdges = w.state.executedEdges
  live : ∀ id, w.state.Live id → w'.state.Live id

/-- Recreating a node that `next` has under another template has rejected the apply. The
added nodes are live, and of the others at most this one is missing. -/
structure RecreationFailed (next : GraphDefinition V) (e : Thrown) (w w' : World V)
    (failed : String) : Prop where
  changed : ∃ p ∈ (snapshot w.state).nodes, ∃ n ∈ next.nodes, p.id = failed ∧ n.id = failed ∧
    p.data.template ≠ n.data.template
  rejected : ∃ w₁, recreateNode env next failed w₁ = (.error e, w')
  added : ∀ n ∈ next.nodes, n.id ∉ (snapshot w.state).nodeIds → w'.state.Live n.id
  live : ∀ id, w.state.Live id → id ≠ failed → w'.state.Live id

/-- What an apply leaves that rejects with `e` while nodes are added or recreated: nothing
but nodes of `next` is new, and only edges at nodes to be recreated are gone. -/
structure Interrupted (next : GraphDefinition V) (e : Thrown) (w w' : World V) : Prop where
  lastGraph : w'.state.lastGraph = w.state.lastGraph
  bound : ∀ id, w'.state.Live id → w.state.Live id ∨ id ∈ next.nodeIds
  kept : ∀ k rec, w'.state.executedEdges.get k = some rec →
    w.state.executedEdges.get k = some rec
  phase : (∃ n, AddingFailed env next e w w' n) ∨ ∃ failed, RecreationFailed env next e w w' failed
  lost : ∀ k rec, w.state.executedEdges.get k = some rec →
    w'.state.executedEdges.get k = some rec ∨
      ∃ p ∈ (snapshot w.state).nodes, ∃ n ∈ next.nodes, rec.Incident p.id ∧ n.id = p.id ∧
        p.data.template ≠ n.data.template

/-- What an apply leaves that gets past the snapshot. -/
structure Applied (next : GraphDefinition V) (s s' : GraphRuntimeState V) (resolved : Prop) :
    Prop where
  lastGraph : s'.lastGraph = some next
  aligned : Aligned s' next
  edges : resolved → ∀ k ∈ next.edgeKeys, (∃ rec, s'.executedEdges.get k = some rec) ↔
    k ∉ (snapshot s).edgeKeys ∨ ∃ rec, s.executedEdges.get k = some rec ∧ Kept s next rec

/-- A loop that rejects does so with the error of one of its steps, and stops there. -/
theorem exists_of_forEach_error {α : Type} {step : α → World V → Except Thrown Unit × World V}
    {as : List α} {w w' : World V} {e : Thrown} (h : forEach step as w = (.error e, w')) :
    ∃ a ∈ as, ∃ w₁, step a w₁ = (.error e, w') := by
  induction as generalizing w with
  | nil => cases h
  | cons a rest ih =>
    rw [forEach] at h
    split at h
    · rename_i e₁ w₁ hstep
      exact ⟨a, List.mem_cons_self, w, hstep.trans h⟩
    · obtain ⟨b, hb, hfailed⟩ := ih h
      exact ⟨b, List.mem_cons_of_mem a hb, hfailed⟩

theorem added_interrupted {next : GraphDefinition V} {w w' : World V} {e : Thrown}
    (h : Aligned w.state (snapshot w.state)) (hnext : next.WellFormed)
    (hadd : forEach (instantiateNode env) (computeDiff env (snapshot w.state) next).addedNodes w =
      (.error e, w')) : Interrupted env next e w w' := by
  obtain ⟨n, hn, hfailed⟩ := exists_of_forEach_error hadd
  obtain ⟨hmem, hnew⟩ := (mem_addedNodes env n).mp hn
  have hA := addedNodes_effect env h hnext
  rw [hadd] at hA
  have hlive : ∀ id, w.state.Live id → w'.state.Live id := by
    intro id hid
    rw [live_iff_label, hA.old id ((h.ids id).mp hid), ← live_iff_label]
    exact hid
  refine ⟨hA.lastGraph, ?_, ?_, Or.inl ⟨n, hmem, hnew, hfailed, hA.executed, hlive⟩, ?_⟩
  · intro id hid
    exact (hA.bound id hid).imp_left (h.ids id).mpr
  · intro k rec hrec
    rw [← hA.executed]
    exact hrec
  · intro k rec hrec
    rw [hA.executed]
    exact Or.inl hrec

theorem recreated_interrupted {next : GraphDefinition V} {w w₁ w' : World V} {e : Thrown}
    (h : Aligned w.state (snapshot w.state)) (hprev : (snapshot w.state).WellFormed)
    (hnext : next.WellFormed)
    (hadd : forEach (instantiateNode env) (computeDiff env (snapshot w.state) next).addedNodes w =
      (.ok (), w₁))
    (hrec : forEach (recreateNode env next)
      (computeDiff env (snapshot w.state) next).recreatedNodeIds w₁ = (.error e, w'))
    (hclean : Clean w') : Interrupted env next e w w' := by
  have hA := addedNodes_effect env h hnext
  rw [hadd] at hA
  have hfirst : w₁.state.executedEdges = w.state.executedEdges := hA.executed
  have hmem : ∀ id ∈ (computeDiff env (snapshot w.state) next).recreatedNodeIds,
      id ∈ (snapshot w.state).nodeIds ∧ id ∈ next.nodeIds := fun id hid =>
    recreated_mem_next env hprev hid
  have hR := recreateNodes_effect env next _ (recreatedNodeIds_nodup env _ hnext)
    (fun id hid => (hmem id hid).2) w₁ hA.index (by rw [hrec]; exact hclean)
  rw [hrec] at hR
  rcases hR.live with ⟨hok, -⟩ | ⟨failed, hfailed, hrejected, hlive⟩
  · cases hok
  refine ⟨hR.lastGraph.trans hA.lastGraph, ?_, ?_, Or.inr ⟨failed, ?_, hrejected, ?_, ?_⟩, ?_⟩
  · intro id hlive
    by_cases hid : id ∈ (computeDiff env (snapshot w.state) next).recreatedNodeIds
    · exact Or.inr (hmem id hid).2
    · rw [live_iff_label, hR.other id hid, ← live_iff_label] at hlive
      exact (hA.bound id hlive).imp_left (h.ids id).mpr
  · intro k rec hrec'
    rw [← hfirst]
    exact hR.kept k rec hrec'
  · exact (mem_recreatedNodeIds env hprev failed).mp hfailed
  · intro n hn hnew
    have hnot : n.id ∉ (computeDiff env (snapshot w.state) next).recreatedNodeIds := fun hid =>
      hnew (hmem n.id hid).1
    obtain ⟨inst, hlabel⟩ := hA.ok rfl n hn hnew
    exact (live_iff_label _ _).mpr ⟨_, by rw [hR.other n.id hnot]; exact hlabel⟩
  · intro id hid hne
    refine hlive id ?_ hne
    rw [live_iff_label, hA.old id ((h.ids id).mp hid), ← live_iff_label]
    exact hid
  · intro k rec hrec'
    by_cases hinc : ∃ id ∈ (computeDiff env (snapshot w.state) next).recreatedNodeIds,
        rec.Incident id
    · obtain ⟨id, hid, hinc⟩ := hinc
      obtain ⟨p, hp, n, hn, rfl, hnid, hne⟩ := (mem_recreatedNodeIds env hprev id).mp hid
      exact Or.inr ⟨p, hp, n, hn, hinc, hnid, hne⟩
    · push Not at hinc
      exact Or.inl (hR.lost k rec (by rw [hfirst]; exact hrec') hinc)

/-- Executing the added edges keeps the alignment, and adds every edge if it succeeds. -/
theorem executeAdded_applied {next : GraphDefinition V} {s s' : GraphRuntimeState V}
    {w₃ w₄ : World V} {r : Except Thrown Unit} {v : ℕ} {resolved : Prop}
    (h : Aligned s (snapshot s)) (hnext : next.WellFormed)
    (hC : Committed s next w₃.state)
    (hexec : forEach (executeEdge env) (computeDiff env (snapshot s) next).addedEdges w₃ =
      (r, w₄))
    (hs' : s' = { w₄.state with version := v }) (hok : resolved → r = .ok ()) :
    Applied next s s' resolved := by
  have hnew : ∀ e ∈ (computeDiff env (snapshot s) next).addedEdges,
      w₃.state.executedEdges.get (edgeKey e) = none := by
    intro e he
    have hkey := (mem_addedEdgeKeys env (edgeKey e)).mp (List.mem_map.mpr ⟨e, he, rfl⟩)
    rw [Option.eq_none_iff_forall_not_mem]
    intro rec hrec
    exact hkey.2 (h.keys _ rec ((hC.executed _ rec).mp hrec).1)
  have hE := executeEdges_effect env _ (addedEdgeKeys_nodup env) w₃ hC.index hnew
  rw [hexec] at hE
  have hlabel : label s' = label w₃.state := label_congr (by rw [hs']; exact hE.nodes)
  have hget : ∀ k, s'.executedEdges.get k = w₄.state.executedEdges.get k := fun k => by rw [hs']
  have hlive : ∀ id, s'.Live id ↔ id ∈ next.nodeIds := by
    intro id
    rw [live_iff_label, hlabel, ← live_iff_label]
    exact hC.ids id
  have hindex : s'.EdgeIndex := by
    rw [hs']
    exact hE.index.of_nodes rfl rfl rfl fun _ hl => hl
  refine ⟨?_, ⟨hindex, hlive, ?_, ?_, ?_⟩, ?_⟩
  · rw [hs']
    exact hE.lastGraph.trans hC.lastGraph
  · rw [hlabel]
    exact hC.templates
  · intro k rec hrec
    rw [hget] at hrec
    rcases hE.new k rec hrec with hold | ⟨hk, -⟩
    · exact ((hC.executed k rec).mp hold).2.1
    · exact ((mem_addedEdgeKeys env k).mp hk).1
  · intro k rec hrec
    rw [hget] at hrec
    rw [Current, hlabel]
    rcases hE.new k rec hrec with hold | ⟨-, hcur⟩
    · exact hC.current k rec hold
    · exact hcur
  · intro hres k hk
    constructor
    · rintro ⟨rec, hrec⟩
      rw [hget] at hrec
      rcases hE.new k rec hrec with hold | ⟨hadded, -⟩
      · obtain ⟨hbefore, -, hkept⟩ := (hC.executed k rec).mp hold
        exact Or.inr ⟨rec, hbefore, hkept⟩
      · exact Or.inl ((mem_addedEdgeKeys env k).mp hadded).2
    · rintro (hfresh | ⟨rec, hbefore, hkept⟩)
      · obtain ⟨e, he, rfl⟩ := List.mem_map.mp ((mem_addedEdgeKeys env k).mpr ⟨hk, hfresh⟩)
        obtain ⟨rec, hrec⟩ := hE.ok (hok hres) (fun e he => by
          have hends := hnext.endpoints e (addedEdges_subset env he)
          exact ⟨(hC.ids _).mpr hends.1, (hC.ids _).mpr hends.2⟩) e he
        exact ⟨rec, by rw [hget]; exact hrec⟩
      · exact ⟨rec, by rw [hget]; exact hE.old k rec ((hC.executed k rec).mpr ⟨hbefore, hk, hkept⟩)⟩

theorem applyGraphInternal_effect (next : GraphDefinition V) (w : World V)
    (h : Aligned w.state (snapshot w.state)) (hprev : (snapshot w.state).WellFormed)
    (hnext : next.WellFormed) (hclean : Clean (applyGraphInternal env next w).2) :
    (∃ e, (applyGraphInternal env next w).1 = .error e ∧
      Interrupted env next e w (applyGraphInternal env next w).2) ∨
    Applied next w.state (applyGraphInternal env next w).2.state
      (∃ result, (applyGraphInternal env next w).1 = .ok result) := by
  rcases applyGraphInternal_cases env next w _ rfl with
    ⟨e, w₁, hadd, heq⟩ | ⟨w₁, e, w₂, hadd, hrec, heq⟩ |
      ⟨w₁, w₂, w₃, r, w₄, v, hadd, hrec, hw₃, hexec, hrun, hstate, hok⟩
  · rw [heq]
    exact Or.inl ⟨e, rfl, added_interrupted env h hnext hadd⟩
  · rw [heq] at hclean ⊢
    exact Or.inl ⟨e, rfl, recreated_interrupted env h hprev hnext hadd hrec hclean⟩
  · have hexecRun := run_forEach (executeEdge_run env)
      (computeDiff env (snapshot w.state) next).addedEdges w₃
    have hclean₃ : Clean w₃ := by
      refine hclean.of_run (hexecRun.trans ?_)
      change Run env (forEach (executeEdge env)
        (computeDiff env (w.state.lastGraph.getD ⟨[], []⟩) next).addedEdges w₃).2 _
      rw [hexec]
      exact hrun
    rw [hw₃] at hclean₃
    have hC := commitNodes_committed env h hprev hnext hadd hrec hclean₃
    exact Or.inr (executeAdded_applied env h hnext (hw₃ ▸ hC) hexec hstate hok)

end OneApply

section Applies

variable {V : Type} (env : RuntimeEnv V)

section Sequences

theorem applyAll_append (gs gs' : List (GraphDefinition V)) (rt : Runtime V) :
    applyAll env (gs ++ gs') rt = applyAll env gs' (applyAll env gs rt) :=
  List.foldl_append

theorem applyAll_concat (gs : List (GraphDefinition V)) (g : GraphDefinition V) (rt : Runtime V) :
    applyAll env (gs ++ [g]) rt = (apply env g (applyAll env gs rt)).2 :=
  applyAll_append env gs [g] rt

theorem outcomes_append (gs gs' : List (GraphDefinition V)) (rt : Runtime V) :
    outcomes env (gs ++ gs') rt = outcomes env gs rt ++ outcomes env gs' (applyAll env gs rt) := by
  induction gs generalizing rt with
  | nil => rfl
  | cons g rest ih =>
    change _ :: outcomes env (rest ++ gs') _ = _ :: (outcomes env rest _ ++ _)
    rw [ih]
    rfl

theorem applyAll_run (gs : List (GraphDefinition V)) (rt : Runtime V) :
    Run env rt.world (applyAll env gs rt).world := by
  induction gs generalizing rt with
  | nil => exact .refl
  | cons g rest ih => exact (apply_run env g rt).trans (ih _)

/-- An apply that resolves is one step of the graph algorithm. -/
theorem apply_ok {g : GraphDefinition V} {rt : Runtime V} {r : GraphDiffResult}
    (h : (apply env g rt).1 = .ok r) :
    applyGraphInternal env g rt.world = (.ok r, (apply env g rt).2.world) := by
  have hnot : ¬ rt.Rejected := by
    intro hrej
    obtain ⟨-, e, he⟩ := apply_of_rejected env g rt hrej
    rw [h] at he
    cases he
  obtain ⟨hres, hworld⟩ := apply_of_not_rejected env g rt hnot
  rw [h] at hres
  rw [hres, hworld]

end Sequences

section Alignment

/-- The runtime is aligned with its own snapshot. -/
structure Consistent (s : GraphRuntimeState V) : Prop where
  wellFormed : (snapshot s).WellFormed
  aligned : Aligned s (snapshot s)

theorem initial_consistent : Consistent (GraphRuntimeState.initial : GraphRuntimeState V) :=
  ⟨empty_wellFormed, initial_aligned⟩

theorem Applied.consistent {next : GraphDefinition V} {s s' : GraphRuntimeState V}
    {resolved : Prop} (h : Applied next s s' resolved) (hnext : next.WellFormed) :
    Consistent s' := by
  have hsnap : snapshot s' = next := by
    rw [snapshot, h.lastGraph]
    rfl
  exact ⟨by rw [hsnap]; exact hnext, by rw [hsnap]; exact h.aligned⟩

/-- An apply that resolves, in a run where no reversal threw. -/
theorem apply_applied {g : GraphDefinition V} {rt : Runtime V} {r : GraphDiffResult}
    (h : Consistent rt.world.state) (hg : g.WellFormed) (hok : (apply env g rt).1 = .ok r)
    (hclean : Clean (apply env g rt).2.world) :
    Applied g rt.world.state (apply env g rt).2.world.state True := by
  have heq := apply_ok env hok
  have heffect := applyGraphInternal_effect env g rt.world h.aligned h.wellFormed hg
    (by rw [heq]; exact hclean)
  rw [heq] at heffect
  rcases heffect with ⟨e, he, -⟩ | happ
  · cases he
  · exact ⟨happ.lastGraph, happ.aligned, fun _ => happ.edges ⟨r, rfl⟩⟩

theorem applyAll_consistent (gs : List (GraphDefinition V)) (rt : Runtime V)
    (h : Consistent rt.world.state) (hwf : ∀ g ∈ gs, g.WellFormed)
    (hok : ∀ o ∈ outcomes env gs rt, ∃ r, o = .ok r)
    (hclean : Clean (applyAll env gs rt).world) :
    Consistent (applyAll env gs rt).world.state := by
  induction gs generalizing rt with
  | nil => exact h
  | cons g rest ih =>
    obtain ⟨r, hr⟩ := hok _ List.mem_cons_self
    have happ := apply_applied env h (hwf g List.mem_cons_self) hr
      (hclean.of_run (applyAll_run env rest (apply env g rt).2))
    exact ih (apply env g rt).2 (happ.consistent (hwf g List.mem_cons_self))
      (fun g' hg' => hwf g' (List.mem_cons_of_mem _ hg'))
      (fun o ho => hok o (List.mem_cons_of_mem _ ho)) hclean

end Alignment

section Mirror

/-- One apply that resolves, on a runtime that mirrors its snapshot. -/
theorem Applied.mirrors_iff {next : GraphDefinition V} {s s' : GraphRuntimeState V}
    (h : Applied next s s' True) (hs : Mirrors s (snapshot s)) :
    Mirrors s' next ↔ KeepsEndpoints s next := by
  rw [h.aligned.mirrors_iff]
  constructor
  · intro hall k rec hrec hk
    rcases (h.edges trivial k hk).mp (hall k hk) with hfresh | ⟨rec', hrec', hkept⟩
    · exact absurd ((hs.keys k).mp ⟨rec, hrec⟩) hfresh
    · rw [hrec] at hrec'
      exact (Option.some.inj hrec') ▸ hkept
  · intro hkeeps k hk
    rw [h.edges trivial k hk]
    by_cases hold : k ∈ (snapshot s).edgeKeys
    · obtain ⟨rec, hrec⟩ := (hs.keys k).mpr hold
      exact Or.inr ⟨rec, hrec, hkeeps k rec hrec hk⟩
    · exact Or.inl hold

/-- One apply of a sequence that resolves throughout, as a step between two states. -/
theorem prefix_applied {gs : List (GraphDefinition V)} (hwf : ∀ g ∈ gs, g.WellFormed)
    (hok : ∀ o ∈ outcomes env gs .initial, ∃ r, o = .ok r)
    (hclean : Clean (applyAll env gs .initial).world) {done : List (GraphDefinition V)}
    {g : GraphDefinition V} (hpre : done ++ [g] <+: gs) :
    Applied g (applyAll env done .initial).world.state
      (applyAll env (done ++ [g]) .initial).world.state True := by
  obtain ⟨rest, hgs⟩ := hpre
  have hmem : ∀ g' ∈ done ++ [g], g'.WellFormed := fun g' hg' =>
    hwf g' (hgs ▸ List.mem_append_left _ hg')
  have houts : ∀ o ∈ outcomes env (done ++ [g]) .initial, ∃ r, o = .ok r := by
    intro o ho
    apply hok o
    rw [← hgs, outcomes_append]
    exact List.mem_append_left _ ho
  have hafter : Clean (applyAll env (done ++ [g]) .initial).world := by
    have hrun : Run env (applyAll env (done ++ [g]) .initial).world
        (applyAll env gs .initial).world := by
      rw [← hgs, applyAll_append env (done ++ [g]) rest]
      exact applyAll_run env rest _
    exact hclean.of_run hrun
  rw [outcomes_append] at houts
  rw [applyAll_concat] at hafter ⊢
  have hcons := applyAll_consistent env done .initial initial_consistent
    (fun g' hg' => hmem g' (List.mem_append_left _ hg'))
    (fun o ho => houts o (List.mem_append_left _ ho)) (hafter.of_run (apply_run env g _))
  obtain ⟨r, hr⟩ := houts _ (List.mem_append_right _ List.mem_cons_self)
  exact apply_applied env hcons (hmem g (by simp)) hr hafter

/-- Before each apply of such a sequence the runtime mirrors its snapshot, when it
mirrors every graph applied before. -/
theorem prefix_mirrors {gs : List (GraphDefinition V)} (hwf : ∀ g ∈ gs, g.WellFormed)
    (hok : ∀ o ∈ outcomes env gs .initial, ∃ r, o = .ok r)
    (hclean : Clean (applyAll env gs .initial).world) {done : List (GraphDefinition V)}
    (hpre : done <+: gs)
    (hall : ∀ d a, d ++ [a] <+: done →
      Mirrors (applyAll env (d ++ [a]) .initial).world.state a) :
    Mirrors (applyAll env done .initial).world.state
      (snapshot (applyAll env done .initial).world.state) := by
  rcases List.eq_nil_or_concat done with rfl | ⟨d, a, rfl⟩
  · exact initial_aligned.mirrors_iff.mpr fun k hk => by cases hk
  · rw [List.concat_eq_append] at *
    have happ := prefix_applied env hwf hok hclean hpre
    have hsnap : snapshot (applyAll env (d ++ [a]) .initial).world.state = a := by
      rw [snapshot, happ.lastGraph]
      rfl
    rw [hsnap]
    exact hall d a List.prefix_rfl

/-- When no edge method throws and every apply resolves, the runtime mirrors each graph
after its apply iff each apply finds the endpoints of the edges it keeps unchanged. -/
theorem mirrors_iff_endpoints_kept (hsucc : EdgeMethodsSucceed env)
    (gs : List (GraphDefinition V)) (hwf : ∀ g ∈ gs, g.WellFormed)
    (hok : ∀ o ∈ outcomes env gs .initial, ∃ r, o = .ok r) :
    (∀ done g, done ++ [g] <+: gs →
        Mirrors (applyAll env (done ++ [g]) .initial).world.state g) ↔
      ∀ done g, done ++ [g] <+: gs →
        KeepsEndpoints (applyAll env done .initial).world.state g := by
  have hclean : Clean (applyAll env gs .initial).world :=
    run_clean env hsucc (applyAll_run env gs .initial) fun site k hmem => by cases hmem
  constructor
  · intro hall done g hpre
    have hdone : done <+: gs := (List.prefix_append done [g]).trans hpre
    have hm := prefix_mirrors env hwf hok hclean hdone fun d a hd => hall d a (hd.trans hdone)
    exact ((prefix_applied env hwf hok hclean hpre).mirrors_iff hm).mp (hall done g hpre)
  · intro hkeeps done
    -- induction on how many applies came before
    induction hn : done.length using Nat.strongRecOn generalizing done with
    | _ n ih =>
      intro g hpre
      have hdone : done <+: gs := (List.prefix_append done [g]).trans hpre
      have hm := prefix_mirrors env hwf hok hclean hdone fun d a hd => by
        have hlen := hd.length_le
        rw [List.length_append, List.length_singleton] at hlen
        exact ih d.length (by omega) d rfl a (hd.trans hdone)
      exact ((prefix_applied env hwf hok hclean hpre).mirrors_iff hm).mpr (hkeeps done g hpre)

theorem sampleEnv_methods_succeed : EdgeMethodsSucceed (sampleEnv fun _ _ => false) :=
  fun _ _ _ _ => rfl

def sampleGraph (template : String) : GraphDefinition Unit :=
  ⟨[sampleNode "a" "agent", sampleNode "b" template], [sampleEdge "a" "b"]⟩

theorem sampleGraph_wellFormed (template : String) : (sampleGraph template).WellFormed where
  ids_nodup := by
    change ["a", "b"].Nodup
    decide
  endpoints e he := by
    obtain rfl := List.mem_singleton.mp he
    exact ⟨List.mem_cons_self, List.mem_cons_of_mem _ List.mem_cons_self⟩

/-- Applying the same graph twice is mirrored, so it keeps the endpoints of its edge. -/
theorem mirrors_same_graph_twice :
    (∀ done g, done ++ [g] <+: [sampleGraph "shell", sampleGraph "shell"] →
        Mirrors (applyAll (sampleEnv fun _ _ => false) (done ++ [g]) .initial).world.state g) ↔
      ∀ done g, done ++ [g] <+: [sampleGraph "shell", sampleGraph "shell"] →
        KeepsEndpoints (applyAll (sampleEnv fun _ _ => false) done .initial).world.state g := by
  apply mirrors_iff_endpoints_kept (sampleEnv fun _ _ => false) sampleEnv_methods_succeed
  · intro g hg
    rcases List.mem_cons.mp hg with rfl | hg
    · exact sampleGraph_wellFormed "shell"
    · obtain rfl := List.mem_singleton.mp hg
      exact sampleGraph_wellFormed "shell"
  · intro o ho
    rcases List.mem_cons.mp ho with rfl | ho
    · exact ⟨_, rfl⟩
    · obtain rfl := List.mem_singleton.mp ho
      exact ⟨_, rfl⟩

/-- Node `b` changes its template while its edge stays in the graph. Both applies resolve,
but the edge is not executed again. -/
theorem recreated_node_loses_edge :
    (∀ o ∈ outcomes (sampleEnv fun _ _ => false) [sampleGraph "shell", sampleGraph "memory"]
      .initial, ∃ r, o = .ok r) ∧
    ¬ Mirrors (applyAll (sampleEnv fun _ _ => false)
        [sampleGraph "shell", sampleGraph "memory"] .initial).world.state
      (sampleGraph "memory") := by
  constructor
  · intro o ho
    rcases List.mem_cons.mp ho with rfl | ho
    · exact ⟨_, rfl⟩
    · obtain rfl := List.mem_singleton.mp ho
      exact ⟨_, rfl⟩
  · intro hm
    obtain ⟨rec, hrec⟩ := (hm.keys (edgeKey (sampleEdge "a" "b"))).mpr List.mem_cons_self
    cases hrec

end Mirror

section Rejection

/-- Once a call has rejected, the state stays as the first rejecting call left it. -/
theorem first_rejection (gs : List (GraphDefinition V)) (rt : Runtime V) (h : ¬ rt.Rejected)
    (hrej : (applyAll env gs rt).Rejected) :
    ∃ done next, done ++ [next] <+: gs ∧ ¬ (applyAll env done rt).Rejected ∧
      (∀ o ∈ outcomes env done rt, ∃ r, o = .ok r) ∧
      (apply env next (applyAll env done rt)).2 = applyAll env gs rt := by
  induction gs generalizing rt with
  | nil => exact absurd hrej h
  | cons g rest ih =>
    by_cases hg : (apply env g rt).2.Rejected
    · refine ⟨[], g, List.prefix_append [g] rest, h, fun o ho => (by cases ho), ?_⟩
      change (apply env g rt).2 = applyAll env rest (apply env g rt).2
      rw [applyAll_of_rejected env rest _ hg]
    · obtain ⟨done, next, hpre, hnot, houts, heq⟩ := ih (apply env g rt).2 hg hrej
      refine ⟨g :: done, next, List.cons_prefix_cons.mpr ⟨rfl, hpre⟩, hnot, ?_, heq⟩
      intro o ho
      rcases List.mem_cons.mp ho with rfl | ho
      · cases hres : (apply env g rt).1 with
        | ok r => exact ⟨r, rfl⟩
        | error e => exact absurd ((apply_rejected_iff env g rt).mpr ⟨e, hres⟩) hg
      · exact houts o ho

/-- After a rejection in a run where no reversal threw, the snapshot is either still that
of the last apply that resolved, with the live runtime interrupted on the way to `next`,
or it is `next`, and then at most edges of `next` are missing from the live runtime. -/
theorem rejected_interrupted_or_aligned (gs : List (GraphDefinition V))
    (hwf : ∀ g ∈ gs, g.WellFormed) (hclean : Clean (applyAll env gs .initial).world)
    (hrej : (applyAll env gs .initial).Rejected) :
    ∃ done next e, done ++ [next] <+: gs ∧ (∀ o ∈ outcomes env done .initial, ∃ r, o = .ok r) ∧
      (apply env next (applyAll env done .initial)).1 = .error e ∧
      (Consistent (applyAll env done .initial).world.state ∧
          Interrupted env next e (applyAll env done .initial).world
            (applyAll env gs .initial).world ∨
        (applyAll env gs .initial).world.state.lastGraph = some next ∧
          Aligned (applyAll env gs .initial).world.state next) := by
  obtain ⟨done, next, hpre, hnot, houts, heq⟩ :=
    first_rejection env gs .initial initial_not_rejected hrej
  obtain ⟨e, he⟩ := (apply_rejected_iff env next _).mp (heq ▸ hrej)
  refine ⟨done, next, e, hpre, houts, he, ?_⟩
  have hmem : ∀ g ∈ done ++ [next], g.WellFormed := fun g hg => hwf g (hpre.subset hg)
  rw [← heq] at hclean ⊢
  have hcons := applyAll_consistent env done .initial initial_consistent
    (fun g hg => hmem g (List.mem_append_left _ hg)) houts
    (hclean.of_run (apply_run env next _))
  obtain ⟨hres, hworld⟩ := apply_of_not_rejected env next _ hnot
  rw [hworld] at hclean ⊢
  rcases applyGraphInternal_effect env next _ hcons.aligned hcons.wellFormed
    (hmem next (by simp)) hclean with ⟨e', he', hint⟩ | happ
  · have hsame : e' = e := by
      rw [hres, he'] at he
      exact Except.error.inj he
    exact Or.inl ⟨hcons, hsame ▸ hint⟩
  · exact Or.inr ⟨happ.lastGraph, happ.aligned⟩

/-- Node `b` gets a template that is not known, so that its recreation rejects. -/
theorem rejected_interrupted_by_recreation :
    ∃ done next e, done ++ [next] <+: [sampleGraph "shell", sampleGraph "missing"] ∧
      (∀ o ∈ outcomes (sampleEnv fun _ _ => false) done .initial, ∃ r, o = .ok r) ∧
      (apply (sampleEnv fun _ _ => false) next
        (applyAll (sampleEnv fun _ _ => false) done .initial)).1 = .error e ∧
      (Consistent (applyAll (sampleEnv fun _ _ => false) done .initial).world.state ∧
          Interrupted (sampleEnv fun _ _ => false) next e
            (applyAll (sampleEnv fun _ _ => false) done .initial).world
            (applyAll (sampleEnv fun _ _ => false)
              [sampleGraph "shell", sampleGraph "missing"] .initial).world ∨
        (applyAll (sampleEnv fun _ _ => false)
            [sampleGraph "shell", sampleGraph "missing"] .initial).world.state.lastGraph =
              some next ∧
          Aligned (applyAll (sampleEnv fun _ _ => false)
            [sampleGraph "shell", sampleGraph "missing"] .initial).world.state next) := by
  apply rejected_interrupted_or_aligned
  · intro g hg
    rcases List.mem_cons.mp hg with rfl | hg
    · exact sampleGraph_wellFormed "shell"
    · obtain rfl := List.mem_singleton.mp hg
      exact sampleGraph_wellFormed "missing"
  · refine run_clean _ sampleEnv_methods_succeed (applyAll_run _ _ .initial) ?_
    intro site k hmem
    cases hmem
  · exact ⟨_, rfl⟩

/-- When the second of two added nodes has an unknown template, the rejection leaves the
first one live, which the empty snapshot does not list. -/
theorem rejection_leaves_added_node :
    (applyAll (sampleEnv fun _ _ => false)
        [⟨[sampleNode "a" "agent", sampleNode "b" "missing"], []⟩] .initial).Rejected ∧
      ¬ ∀ id, (applyAll (sampleEnv fun _ _ => false)
          [⟨[sampleNode "a" "agent", sampleNode "b" "missing"], []⟩]
            .initial).world.state.Live id ↔
        id ∈ (snapshot (applyAll (sampleEnv fun _ _ => false)
          [⟨[sampleNode "a" "agent", sampleNode "b" "missing"], []⟩]
            .initial).world.state).nodeIds := by
  refine ⟨⟨_, rfl⟩, fun h => ?_⟩
  have hmem := (h "a").mp ⟨_, rfl⟩
  cases hmem

end Rejection

end Applies

end Agyn.LiveGraph
