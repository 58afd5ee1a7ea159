import Mathlib.Data.List.Basic
import Agyn.References

/-!
What a walk visits, in order, and when the answers of its cache are those of the providers. The
walk of a value goes through the same states as a walk over the list of its visits.
-/
namespace Agyn.References

variable (providers : Providers) (options : ResolveOptions)

inductive Visit where
  | lookup (l : Lookup)
  | tooDeep (error : ResolveError)

def visit : Visit → Walk Json
  | .lookup l => resolveRef options l
  | .tooDeep error => throw error

mutual

def visits : Json → List String → ℕ → List Visit
  | .arr items, path, depth =>
    if options.maxDepth < depth then [.tooDeep (maxDepthError options path)]
    else visitsOfItems items path 0 depth
  | .obj entries, path, depth =>
    if options.maxDepth < depth then [.tooDeep (maxDepthError options path)]
    else
      match asSecretRef entries, asVariableRef entries with
      | some ref, _ =>
        [.lookup (secretLookup providers options ref (.obj entries)
          (buildPointer options.basePath path))]
      | none, some ref =>
        [.lookup (variableLookup providers options ref (.obj entries)
          (buildPointer options.basePath path))]
      | none, none => visitsOfEntries entries path depth
  | _, path, depth =>
    if options.maxDepth < depth then [.tooDeep (maxDepthError options path)] else []

def visitsOfItems : List Json → List String → ℕ → ℕ → List Visit
  | [], _, _, _ => []
  | item :: rest, path, index, depth =>
    visits item (path ++ [toString index]) (depth + 1) ++ visitsOfItems rest path (index + 1) depth

def visitsOfEntries : List (String × Json) → List String → ℕ → List Visit
  | [], _, _ => []
  | (key, value) :: rest, path, depth =>
    visits value (path ++ [key]) (depth + 1) ++ visitsOfEntries rest path depth

end

def dropResult {α : Type} (x : Walk α) : Walk Unit := (fun _ => ()) <$> x

/-- The visits one after the other, up to an error. -/
def visitAll (vs : List Visit) : Walk Unit := vs.forM fun v => dropResult (visit options v)

def Cached.ofResult : ProviderResult → Option Cached
  | .value text => some (.value text)
  | .missing => some .missing
  | .resolveError _ | .error _ _ => none

namespace Lookup

def outcome (l : Lookup) : Option Cached := l.provided.bind Cached.ofResult

def hasValue (l : Lookup) : Bool :=
  match l.provided with
  | some (.value _) => true
  | _ => false

def SharesKey (l l' : Lookup) : Prop := l.source = l'.source ∧ l.key = l'.key

end Lookup

/-- The references that a walk without a cache comes to: in strict mode up to the first one
without a value, and in every mode up to the first value that is too deep. -/
def reached (strict : Bool) : List Visit → List Lookup
  | [] => []
  | .tooDeep _ :: _ => []
  | .lookup l :: rest => l :: if strict && !l.hasValue then [] else reached strict rest

/-- Of any two references that are reached and share a cache key, the provider gives the same for
the second one as for the first one, if that leaves a cache entry. -/
def KeysDetermineValues (strict : Bool) (vs : List Visit) : Prop :=
  (reached strict vs).Pairwise fun l l' =>
    l.SharesKey l' → ∀ c, l.outcome = some c → l'.provided.isSome → l'.outcome = some c

abbrev Entries := ResolutionEventSource → Cache

/-- The cache after a reference. -/
def fill (κ : Entries) (l : Lookup) : Entries :=
  match κ l.source l.key, l.outcome with
  | none, some c => Function.update κ l.source (Function.update (κ l.source) l.key (some c))
  | _, _ => κ

/-- Every answer that the cache gives on the way is what the provider would give. -/
def Faithful (strict : Bool) (κ : Entries) : List Visit → Prop
  | [] => True
  | .tooDeep _ :: _ => True
  | .lookup l :: rest =>
    (l.provided.isSome → ∀ c, κ l.source l.key = some c → l.outcome = some c) ∧
      ((strict && !l.hasValue) = false → Faithful strict (fill κ l) rest)

def EntriesAgree (κ : Entries) (ls : List Lookup) : Prop :=
  ∀ l ∈ ls, l.provided.isSome → ∀ c, κ l.source l.key = some c → l.outcome = some c

theorem fill_self_or (κ : Entries) (l l' : Lookup) :
    fill κ l l'.source l'.key = κ l'.source l'.key ∨
      l.SharesKey l' ∧ κ l.source l.key = none ∧ fill κ l l'.source l'.key = l.outcome := by
  cases hold : κ l.source l.key with
  | some _ => exact Or.inl (by simp [fill, hold])
  | none =>
    cases hc : l.outcome with
    | none => exact Or.inl (by simp [fill, hold, hc])
    | some c =>
      by_cases hsource : l'.source = l.source
      · by_cases hkey : l'.key = l.key
        · exact Or.inr ⟨⟨hsource.symm, hkey.symm⟩, rfl, by simp [fill, hold, hc, hsource, hkey]⟩
        · exact Or.inl (by simp [fill, hold, hc, hsource, hkey])
      · exact Or.inl (by simp [fill, hold, hc, hsource])

theorem fill_of_sharesKey {κ : Entries} {l l' : Lookup} (hshares : l.SharesKey l') {c : Cached}
    (hnone : κ l.source l.key = none) (hc : l.outcome = some c) :
    fill κ l l'.source l'.key = some c := by
  simp [fill, hnone, hc, ← hshares.1, ← hshares.2]

theorem fill_of_some {κ : Entries} {l l' : Lookup} {c : Cached}
    (hc : κ l'.source l'.key = some c) : fill κ l l'.source l'.key = some c := by
  rcases fill_self_or κ l l' with heq | ⟨hshares, hnone, -⟩
  · rw [heq, hc]
  · rw [hshares.1, hshares.2, hc] at hnone
    simp at hnone

/-- The answers of a cache are right if they are for the entries that it starts with and any two
references with one key have one value. -/
theorem faithful_iff (strict : Bool) (κ : Entries) (vs : List Visit) :
    Faithful strict κ vs ↔
      EntriesAgree κ (reached strict vs) ∧ KeysDetermineValues strict vs := by
  induction vs generalizing κ with
  | nil => simp [Faithful, EntriesAgree, KeysDetermineValues, reached]
  | cons v rest ih =>
    cases v with
    | tooDeep e => simp [Faithful, EntriesAgree, KeysDetermineValues, reached]
    | lookup l =>
      unfold Faithful EntriesAgree KeysDetermineValues reached
      cases hstop : strict && !l.hasValue with
      | true => simp
      | false =>
        simp only [ih, forall_true_left, Bool.false_eq_true, if_false, List.forall_mem_cons,
          List.pairwise_cons]
        constructor
        · rintro ⟨hself, hrest, hpairs⟩
          refine ⟨⟨hself, fun l' hl' hsome c hc => ?_⟩, fun l' hl' hshares c hc hsome => ?_,
            hpairs⟩
          · exact hrest l' hl' hsome c (fill_of_some hc)
          · refine hrest l' hl' hsome c ?_
            cases hold : κ l.source l.key with
            | none => exact fill_of_sharesKey hshares hold hc
            | some c' =>
              have hprovided : l.provided.isSome := by
                cases hp : l.provided with
                | none => simp [Lookup.outcome, hp] at hc
                | some _ => rfl
              obtain rfl : c' = c := Option.some.inj ((hself hprovided c' hold).symm.trans hc)
              exact fill_of_some (by rw [← hshares.1, ← hshares.2, hold])
        · rintro ⟨⟨hself, hrest⟩, hfirst, hpairs⟩
          refine ⟨hself, fun l' hl' hsome c hc => ?_, hpairs⟩
          rcases fill_self_or κ l l' with heq | ⟨hshares, -, heq⟩
          · exact hrest l' hl' hsome c (heq ▸ hc)
          · exact hfirst l' hl' hshares c (heq ▸ hc) hsome

theorem visitAll_append (vs ws : List Visit) :
    visitAll options (vs ++ ws) = (do visitAll options vs; visitAll options ws) := by
  simp [visitAll, List.forM_append]

theorem dropResult_bind {α β γ : Type} (x : Walk α) (y : Walk β) (f : α → β → γ) :
    dropResult (do let a ← x; let b ← y; return f a b) = (do dropResult x; dropResult y) := by
  simp [dropResult]

mutual

/-- The walk of a value changes the state as its visits do. -/
theorem dropResult_traverse (value : Json) (path : List String) (depth : ℕ) :
    dropResult (traverse providers options value path depth) =
      visitAll options (visits providers options value path depth) := by
  cases value with
  | arr items =>
    unfold traverse visits
    split_ifs with hdeep
    · simp [visitAll, visit]
    · rw [← dropResult_traverseItems items path 0 depth]
      simp [dropResult]
  | obj entries =>
    unfold traverse visits
    split_ifs with hdeep
    · simp [visitAll, visit]
    · cases asSecretRef entries with
      | some ref => simp [visitAll, visit, resolveSecretRef, dropResult]
      | none =>
        cases asVariableRef entries with
        | some ref => simp [visitAll, visit, resolveVariableRef, dropResult]
        | none =>
          rw [← dropResult_traverseEntries entries path depth]
          simp [dropResult]
  | null | bool _ | num _ | str _ =>
    unfold traverse visits
    split_ifs with hdeep
    · simp [visitAll, visit]
    · simp [visitAll, dropResult]

theorem dropResult_traverseItems (items : List Json) (path : List String) (index depth : ℕ) :
    dropResult (traverseItems providers options items path index depth) =
      visitAll options (visitsOfItems providers options items path index depth) := by
  cases items with
  | nil => simp [traverseItems, visitsOfItems, visitAll, dropResult]
  | cons item rest =>
    rw [traverseItems, visitsOfItems, visitAll_append, ← dropResult_traverse item,
      ← dropResult_traverseItems rest, ← dropResult_bind]

theorem dropResult_traverseEntries (entries : List (String × Json)) (path : List String)
    (depth : ℕ) :
    dropResult (traverseEntries providers options entries path depth) =
      visitAll options (visitsOfEntries providers options entries path depth) := by
  cases entries with
  | nil => simp [traverseEntries, visitsOfEntries, visitAll, dropResult]
  | cons entry rest =>
    obtain ⟨key, value⟩ := entry
    rw [traverseEntries, visitsOfEntries, visitAll_append, ← dropResult_traverse value,
      ← dropResult_traverseEntries rest, ← dropResult_bind]

end

end Agyn.References
