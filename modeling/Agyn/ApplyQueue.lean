import Agyn.LiveGraphRuntime

/-!
Applies are serialized on one promise, `applying`: a call chains its work behind
the promise of the call before it and becomes the new promise. A chained
callback does not run when the promise before it has rejected, so the first
rejection is handed to every later call. Calls queue up in call order, so the
settled promise before a call is all that the call sees of the calls before it.
-/
namespace Agyn.LiveGraph

variable {V : Type}

/-- The runtime between two settled calls. -/
structure Runtime (V : Type) where
  world : World V
  applying : Except Thrown (Option GraphDiffResult)

namespace Runtime

/-- `applying` starts as `Promise.resolve()`. -/
def initial : Runtime V := ⟨.initial, .ok none⟩

def Rejected (rt : Runtime V) : Prop := ∃ e, rt.applying = .error e

end Runtime

variable (env : RuntimeEnv V)

/-- `this.applying = this.applying.then(() => this._applyGraphInternal(graph))`. -/
def apply (graph : GraphDefinition V) (rt : Runtime V) :
    Except Thrown GraphDiffResult × Runtime V :=
  match rt.applying with
  | .error e => (.error e, rt)
  | .ok _ =>
    match applyGraphInternal env graph rt.world with
    | (.error e, w) => (.error e, ⟨w, .error e⟩)
    | (.ok r, w) => (.ok r, ⟨w, .ok (some r)⟩)

/-- The runtime after a sequence of applies. -/
def applyAll (gs : List (GraphDefinition V)) (rt : Runtime V) : Runtime V :=
  gs.foldl (fun rt g => (apply env g rt).2) rt

/-- What the promises of a sequence of applies settle to. -/
def outcomes : List (GraphDefinition V) → Runtime V → List (Except Thrown GraphDiffResult)
  | [], _ => []
  | g :: rest, rt => (apply env g rt).1 :: outcomes rest (apply env g rt).2

theorem apply_of_rejected (g : GraphDefinition V) (rt : Runtime V) (h : rt.Rejected) :
    (apply env g rt).2 = rt ∧ ∃ e, (apply env g rt).1 = .error e := by
  obtain ⟨e, he⟩ := h
  unfold apply
  rw [he]
  exact ⟨rfl, e, rfl⟩

theorem apply_of_not_rejected (g : GraphDefinition V) (rt : Runtime V) (h : ¬ rt.Rejected) :
    (apply env g rt).1 = (applyGraphInternal env g rt.world).1 ∧
      (apply env g rt).2.world = (applyGraphInternal env g rt.world).2 := by
  unfold apply
  cases happ : rt.applying with
  | error e => exact absurd ⟨e, happ⟩ h
  | ok prev =>
    dsimp only
    split
    · rename_i heq
      simp [heq]
    · rename_i heq
      simp [heq]

/-- A call leaves a rejected promise behind exactly when it rejects itself. -/
theorem apply_rejected_iff (g : GraphDefinition V) (rt : Runtime V) :
    (apply env g rt).2.Rejected ↔ ∃ e, (apply env g rt).1 = .error e := by
  unfold apply
  cases happ : rt.applying with
  | error e => exact ⟨fun _ => ⟨e, rfl⟩, fun _ => ⟨e, happ⟩⟩
  | ok prev =>
    dsimp only
    split
    · rename_i e w heq
      exact ⟨fun _ => ⟨e, rfl⟩, fun _ => ⟨e, rfl⟩⟩
    · constructor
      · rintro ⟨e, he⟩
        cases he
      · rintro ⟨e, he⟩
        cases he

theorem applyAll_of_rejected (gs : List (GraphDefinition V)) (rt : Runtime V)
    (h : rt.Rejected) : applyAll env gs rt = rt := by
  induction gs with
  | nil => rfl
  | cons g rest ih =>
    change applyAll env rest (apply env g rt).2 = rt
    rw [(apply_of_rejected env g rt h).1, ih]

/-- After a sequence of applies the promise is rejected iff one of them rejected. -/
theorem applyAll_rejected_iff (gs : List (GraphDefinition V)) (rt : Runtime V)
    (h : ¬ rt.Rejected) :
    (applyAll env gs rt).Rejected ↔ ∃ o ∈ outcomes env gs rt, ∃ e, o = .error e := by
  induction gs generalizing rt with
  | nil => exact ⟨fun hr => absurd hr h, fun ⟨o, ho, _⟩ => by cases ho⟩
  | cons g rest ih =>
    change (applyAll env rest (apply env g rt).2).Rejected ↔
      ∃ o ∈ (apply env g rt).1 :: outcomes env rest (apply env g rt).2, ∃ e, o = .error e
    by_cases hg : (apply env g rt).2.Rejected
    · rw [applyAll_of_rejected env rest _ hg]
      have herr := (apply_rejected_iff env g rt).mp hg
      exact ⟨fun _ => ⟨_, List.mem_cons_self, herr⟩, fun _ => hg⟩
    · have hok : ¬ ∃ e, (apply env g rt).1 = .error e := fun he =>
        hg ((apply_rejected_iff env g rt).mpr he)
      rw [ih _ hg]
      constructor
      · rintro ⟨o, ho, he⟩
        exact ⟨o, List.mem_cons_of_mem _ ho, he⟩
      · rintro ⟨o, ho, he⟩
        rcases List.mem_cons.mp ho with rfl | hrest
        · exact absurd he hok
        · exact ⟨o, hrest, he⟩

theorem initial_not_rejected : ¬ (Runtime.initial : Runtime V).Rejected := by
  rintro ⟨e, he⟩
  cases he

/-- After any sequence of applies, a call whose graph can be applied to the state at
hand resolves with that result, and its graph is applied, iff no call before it
rejected. -/
theorem apply_resolves_iff_none_rejected (gs : List (GraphDefinition V))
    (g : GraphDefinition V) (r : GraphDiffResult) (w : World V)
    (hown : applyGraphInternal env g (applyAll env gs .initial).world = (.ok r, w)) :
    ((apply env g (applyAll env gs .initial)).1 = .ok r ∧
        (apply env g (applyAll env gs .initial)).2.world = w) ↔
      ∀ o ∈ outcomes env gs .initial, ∃ earlier, o = .ok earlier := by
  have hrej := applyAll_rejected_iff env gs .initial initial_not_rejected
  constructor
  · rintro ⟨hres, _⟩ o ho
    cases o with
    | ok earlier => exact ⟨earlier, rfl⟩
    | error e =>
      have hrejected := hrej.mpr ⟨_, ho, e, rfl⟩
      obtain ⟨e', he'⟩ := (apply_of_rejected env g _ hrejected).2
      rw [hres] at he'
      cases he'
  · intro hall
    have hnot : ¬ (applyAll env gs .initial).Rejected := by
      rw [hrej]
      rintro ⟨o, ho, e, rfl⟩
      obtain ⟨earlier, hearlier⟩ := hall _ ho
      cases hearlier
    have happly := apply_of_not_rejected env g _ hnot
    rw [hown] at happly
    exact happly

/-- An environment with three templates whose ports all fit together; a node method
throws when `throws` says so for the tick of the call and the method's name. -/
def sampleEnv (throws : ℕ → String → Bool) : RuntimeEnv Unit where
  stringify cfg := String.join (cfg.map Prod.fst)
  getClass t := if t ∈ ["agent", "shell", "memory"] then some t else none
  create _ _ := .ok ()
  getPortConfig _ _ := .ok (some
    { sourcePorts := [("tools", .method "addTool" (some "removeTool"))]
      targetPorts := [("$self", .inst)] })
  isFunction _ _ _ := true
  resolveReferences _ _ cfg := .ok cfg
  setConfig _ _ _ := .ok ()
  setState _ _ _ := .ok ()
  invoke tick _ name _ := if throws tick name then .error (.error "thrown") else .ok ()
  provision _ _ := .ok ()

def sampleNode (id template : String) : NodeDef Unit := ⟨id, ⟨template, none, none⟩⟩

def sampleEdge (source target : String) : EdgeDef := ⟨source, "tools", target, "$self"⟩

/-- An apply of the empty graph resolves after an apply of a one-node graph. -/
theorem apply_resolves_after_resolved :
    ((apply (sampleEnv fun _ _ => false) ⟨[], []⟩
        (applyAll (sampleEnv fun _ _ => false) [⟨[sampleNode "a" "agent"], []⟩] .initial)).1 =
          .ok ⟨[], ["a"], [], [], [], [], [], 2⟩) ∧
      ∀ o ∈ outcomes (sampleEnv fun _ _ => false) [⟨[sampleNode "a" "agent"], []⟩] .initial,
        ∃ earlier, o = .ok earlier := by
  have hall : ∀ o ∈ outcomes (sampleEnv fun _ _ => false)
      [⟨[sampleNode "a" "agent"], []⟩] .initial, ∃ earlier, o = .ok earlier := by
    intro o ho
    exact ⟨_, List.mem_singleton.mp ho⟩
  exact ⟨((apply_resolves_iff_none_rejected (sampleEnv fun _ _ => false)
    [⟨[sampleNode "a" "agent"], []⟩] ⟨[], []⟩ _ _ rfl).mpr hall).1, hall⟩

/-- An unknown template rejects the first apply; the empty graph, which would apply
cleanly to the state it left, is then rejected too. -/
theorem apply_rejects_after_rejection :
    (applyGraphInternal (sampleEnv fun _ _ => false) ⟨[], []⟩
        (applyAll (sampleEnv fun _ _ => false) [⟨[sampleNode "a" "missing"], []⟩]
          .initial).world).1 = .ok ⟨[], [], [], [], [], [], [], 1⟩ ∧
      (apply (sampleEnv fun _ _ => false) ⟨[], []⟩
        (applyAll (sampleEnv fun _ _ => false) [⟨[sampleNode "a" "missing"], []⟩]
          .initial)).1 = .error (.graph (Errors.unknownTemplate "missing" "a")) := by
  exact ⟨rfl, rfl⟩

end Agyn.LiveGraph
