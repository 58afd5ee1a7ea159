import Mathlib.Tactic.SplitIfs
import Agyn.ReferenceVisits

/-!
A memoized walk beside a plain one. The answers of the cache are right exactly when the cache
keys determine the values; and when they are right, both walks return and record the same.
-/
namespace Agyn.References

variable (providers : Providers) (options : ResolveOptions)

namespace TraverseState

def HasCaches (s : TraverseState) : Prop := s.secretCache.isSome ∧ s.variableCache.isSome

def NoCaches (s : TraverseState) : Prop := s.secretCache = none ∧ s.variableCache = none

/-- Every answer of the cache was what the provider gives for that reference. -/
def HitsRight (s : TraverseState) : Prop :=
  ∀ hit ∈ s.hits, Cached.ofResult hit.provided = some hit.cached

@[simp] theorem cached_count (s : TraverseState) (add : ResolutionCounts → ResolutionCounts) :
    (s.count add).cached = s.cached := rfl

@[simp] theorem hits_count (s : TraverseState) (add : ResolutionCounts → ResolutionCounts) :
    (s.count add).hits = s.hits := rfl

@[simp] theorem cached_recordEvent (s : TraverseState) (event : ResolutionEvent) :
    (s.recordEvent options event).cached = s.cached := by
  unfold recordEvent
  split_ifs <;> rfl

@[simp] theorem hits_recordEvent (s : TraverseState) (event : ResolutionEvent) :
    (s.recordEvent options event).hits = s.hits := by
  unfold recordEvent
  split_ifs <;> rfl

@[simp] theorem hits_setCached (s : TraverseState) (source : ResolutionEventSource)
    (key : String) (entry : Cached) : (s.setCached source key entry).hits = s.hits := by
  cases source <;> rfl

theorem cached_setCached {s : TraverseState} (hs : s.HasCaches) (source : ResolutionEventSource)
    (key : String) (entry : Cached) :
    (s.setCached source key entry).cached =
      Function.update s.cached source (Function.update (s.cached source) key (some entry)) := by
  obtain ⟨⟨c, hc⟩, ⟨c', hc'⟩⟩ := And.imp Option.isSome_iff_exists.mp Option.isSome_iff_exists.mp hs
  funext source'
  cases source <;> cases source' <;> simp [setCached, cached, hc, hc']

theorem hasCaches_initial : (initial true).HasCaches := ⟨rfl, rfl⟩

@[simp] theorem hasCaches_count (s : TraverseState)
    (add : ResolutionCounts → ResolutionCounts) : (s.count add).HasCaches ↔ s.HasCaches := Iff.rfl

@[simp] theorem hasCaches_recordEvent (s : TraverseState) (event : ResolutionEvent) :
    (s.recordEvent options event).HasCaches ↔ s.HasCaches := by
  unfold recordEvent
  split_ifs <;> rfl

@[simp] theorem hasCaches_setCached (s : TraverseState) (source : ResolutionEventSource)
    (key : String) (entry : Cached) :
    (s.setCached source key entry).HasCaches ↔ s.HasCaches := by
  cases source <;> simp [HasCaches, setCached]

end TraverseState

open TraverseState

def hitsOf (κ : Entries) (l : Lookup) : List CacheHit :=
  match l.provided, κ l.source l.key with
  | some result, some cached => [⟨result, cached⟩]
  | _, _ => []

variable {options}

theorem resolveRef_hits (l : Lookup) (s : TraverseState) :
    (resolveRef options l s).2.hits = s.hits ++ hitsOf s.cached l := by
  unfold resolveRef hitsOf
  cases l.provided with
  | none => cases hstrict : options.strict <;> simp [giveUp, hstrict]
  | some result =>
    cases hc : s.cached l.source l.key with
    | some cached =>
      cases cached <;> cases hstrict : options.strict <;> simp [hc, resolveCached, hstrict]
    | none =>
      cases result <;> cases hstrict : options.strict <;>
        simp [hc, resolveProvided, giveUp, hstrict]

theorem resolveRef_cached (l : Lookup) {s : TraverseState} (hs : s.HasCaches) :
    (resolveRef options l s).2.cached = fill s.cached l := by
  unfold resolveRef fill Lookup.outcome
  cases l.provided with
  | none => cases hstrict : options.strict <;> simp [giveUp, hstrict]
  | some result =>
    cases hc : s.cached l.source l.key with
    | some cached =>
      have hhit (hits : List CacheHit) : { s.count addTotal with hits }.cached = s.cached := rfl
      cases cached <;> cases hstrict : options.strict <;> simp [hc, resolveCached, hstrict, hhit]
    | none =>
      have hset := cached_setCached (s := s.count addTotal) hs l.source l.key
      cases result <;> cases hstrict : options.strict <;>
        simp [hc, resolveProvided, giveUp, hstrict, hset, Cached.ofResult]

theorem resolveRef_hasCaches (l : Lookup) (s : TraverseState) :
    (resolveRef options l s).2.HasCaches ↔ s.HasCaches := by
  unfold resolveRef
  cases l.provided with
  | none => cases hstrict : options.strict <;> simp [giveUp, hstrict]
  | some result =>
    cases hc : s.cached l.source l.key with
    | some cached =>
      have hhit (hits : List CacheHit) :
        { s.count addTotal with hits }.HasCaches ↔ s.HasCaches := Iff.rfl
      cases cached <;> cases hstrict : options.strict <;> simp [hc, resolveCached, hstrict, hhit]
    | none =>
      cases result <;> cases hstrict : options.strict <;>
        simp [hc, resolveProvided, giveUp, hstrict]

/-- If the cache answers as the provider does, only strict mode stops at a reference, and only at
one without a value. -/
theorem resolveRef_isOk {l : Lookup} {s : TraverseState}
    (hright : l.provided.isSome → ∀ c, s.cached l.source l.key = some c → l.outcome = some c) :
    (resolveRef options l s).1.isOk = !(options.strict && !l.hasValue) := by
  unfold resolveRef Lookup.hasValue
  unfold Lookup.outcome at hright
  cases hp : l.provided with
  | none => cases hstrict : options.strict <;> simp [giveUp, hstrict, Except.isOk, Except.toBool]
  | some result =>
    cases hc : s.cached l.source l.key with
    | some cached =>
      have hcached := hright (by simp [hp]) cached hc
      cases result <;> cases cached <;> cases hstrict : options.strict <;>
        simp_all [resolveCached, Cached.ofResult, Except.isOk, Except.toBool]
    | none =>
      cases result <;> cases hstrict : options.strict <;>
        simp [hc, resolveProvided, giveUp, hstrict, Except.isOk, Except.toBool]

/-- A walk that goes on after its first part, unless that part throws. -/
def goOn {α β : Type} (first : Except ResolveError α × TraverseState) (f : α → Walk β) :
    Except ResolveError β × TraverseState :=
  match first with
  | (.ok a, s) => f a s
  | (.error error, s) => (.error error, s)

theorem bind_apply {α β : Type} (x : Walk α) (f : α → Walk β) (s : TraverseState) :
    (x >>= f) s = goOn (x s) f := by
  change StateT.bind _ (ExceptT.bindCont f) s = _
  unfold StateT.bind goOn
  rcases x s with ⟨_ | _, s'⟩ <;> rfl

theorem throw_apply {α : Type} (error : ResolveError) (s : TraverseState) :
    (throw error : Walk α) s = (.error error, s) := rfl

theorem visitAll_cons (v : Visit) (vs : List Visit) (s : TraverseState) :
    visitAll options (v :: vs) s = goOn (visit options v s) fun _ => visitAll options vs := by
  have hcons : visitAll options (v :: vs) =
      (do let _ ← visit options v; visitAll options vs) := by
    simp [visitAll, dropResult]
  rw [hcons, bind_apply]

theorem hitsRight_resolveRef (l : Lookup) (s : TraverseState) :
    (resolveRef options l s).2.HitsRight ↔ s.HitsRight ∧
      (l.provided.isSome → ∀ c, s.cached l.source l.key = some c → l.outcome = some c) := by
  unfold HitsRight
  rw [resolveRef_hits]
  unfold hitsOf Lookup.outcome
  cases l.provided <;> cases s.cached l.source l.key <;> simp [or_imp, forall_and]

/-- The answers of the cache on the visits are right exactly when the cache is faithful to the
references on them. -/
theorem hitsRight_visitAll (vs : List Visit) {s : TraverseState} (hs : s.HasCaches) :
    (visitAll options vs s).2.HitsRight ↔
      s.HitsRight ∧ Faithful options.strict s.cached vs := by
  induction vs generalizing s with
  | nil =>
    have hnil : visitAll options [] s = (.ok (), s) := rfl
    simp [hnil, Faithful]
  | cons v rest ih =>
    rw [visitAll_cons]
    cases v with
    | tooDeep error =>
      rw [visit, throw_apply]
      simp [Faithful, goOn]
    | lookup l =>
      have hhits : (resolveRef options l s).2.HitsRight ↔ _ := hitsRight_resolveRef l s
      have hok : _ → (resolveRef options l s).1.isOk = _ := resolveRef_isOk
      have hcached : (resolveRef options l s).2.cached = _ := resolveRef_cached l hs
      have hcaches : (resolveRef options l s).2.HasCaches := (resolveRef_hasCaches l s).mpr hs
      simp only [visit, Faithful]
      generalize resolveRef options l s = r at *
      rcases r with ⟨error | output, s'⟩ <;> simp only [goOn]
      · rw [hhits]
        refine and_congr_right fun _ => ⟨fun hright => ⟨hright, fun hgo => ?_⟩, And.left⟩
        have hstop := hok hright
        simp [Except.isOk, Except.toBool, hgo] at hstop
      · rw [ih hcaches, hhits, hcached, and_assoc]
        refine and_congr_right fun _ => and_congr_right fun hright => ?_
        have hgo := hok hright
        cases hstop : options.strict && !l.hasValue with
        | true => simp [Except.isOk, Except.toBool, hstop] at hgo
        | false => simp

theorem dropResult_snd {α : Type} (x : Walk α) (s : TraverseState) :
    (dropResult x s).2 = (x s).2 := by
  have hdrop : dropResult x = (do let _ ← x; return ()) := by simp [dropResult]
  rw [hdrop, bind_apply]
  unfold goOn
  rcases x s with ⟨_ | _, s'⟩ <;> rfl

theorem faithful_initial (strict : Bool) (vs : List Visit) :
    Faithful strict (initial true).cached vs ↔ KeysDetermineValues strict vs := by
  have hempty (source : ResolutionEventSource) (key : String) :
      (initial true).cached source key = none := by cases source <;> rfl
  rw [faithful_iff]
  simp [EntriesAgree, hempty]

theorem hitsRight_traverse (input : Json) :
    (traverse providers options input [] 0 (.initial true)).2.HitsRight ↔
      KeysDetermineValues options.strict (visits providers options input [] 0) := by
  have hhits : (initial true).HitsRight := by simp [HitsRight, initial]
  rw [← dropResult_snd, dropResult_traverse, hitsRight_visitAll _ hasCaches_initial,
    faithful_initial]
  simp [hhits]

/-- What an event records for its reference, without the cache flag and the wording. -/
def ResolutionEvent.outcome (event : ResolutionEvent) :
    String × ResolutionEventSource × Bool × Option ResolutionErrorCode :=
  (event.path, event.source, event.resolved, event.error.map Prod.fst)

def ResolutionCounts.ofOutcomes (c : ResolutionCounts) : ℕ × ℕ × ℕ × ℕ :=
  (c.total, c.resolved, c.unresolved, c.errors)

/-- A memoized state beside a plain one: the same outcomes and counts, whatever the cache did. -/
structure Alongside (m p : TraverseState) : Prop where
  outcomes : m.events.map ResolutionEvent.outcome = p.events.map ResolutionEvent.outcome
  counts : m.counts.ofOutcomes = p.counts.ofOutcomes
  hasCaches : m.HasCaches
  noCaches : p.NoCaches

namespace Alongside

variable {m p : TraverseState}

protected theorem addTotal (h : Alongside m p) :
    Alongside (m.count addTotal) (p.count addTotal) :=
  ⟨h.outcomes, by simpa [ResolutionCounts.ofOutcomes, count, addTotal] using h.counts, h.hasCaches,
    h.noCaches⟩

protected theorem addResolved (h : Alongside m p) :
    Alongside (m.count addResolved) (p.count addResolved) :=
  ⟨h.outcomes,
    by simpa [ResolutionCounts.ofOutcomes, count, addResolved] using h.counts, h.hasCaches,
    h.noCaches⟩

protected theorem addUnresolved (h : Alongside m p) :
    Alongside (m.count addUnresolved) (p.count addUnresolved) :=
  ⟨h.outcomes, by simpa [ResolutionCounts.ofOutcomes, count, addUnresolved] using h.counts,
    h.hasCaches, h.noCaches⟩

protected theorem addError (h : Alongside m p) :
    Alongside (m.count addError) (p.count addError) :=
  ⟨h.outcomes, by simpa [ResolutionCounts.ofOutcomes, count, addError] using h.counts, h.hasCaches,
    h.noCaches⟩

protected theorem addCacheHit (h : Alongside m p) : Alongside (m.count addCacheHit) p :=
  ⟨h.outcomes, h.counts, h.hasCaches, h.noCaches⟩

protected theorem hit (h : Alongside m p) (hits : List CacheHit) :
    Alongside { m with hits } p :=
  ⟨h.outcomes, h.counts, h.hasCaches, h.noCaches⟩

protected theorem recordEvent (h : Alongside m p) {event event' : ResolutionEvent}
    (hevent : event.outcome = event'.outcome) :
    Alongside (m.recordEvent options event) (p.recordEvent options event') := by
  unfold TraverseState.recordEvent
  split_ifs
  · exact ⟨by simp [h.outcomes, hevent], h.counts, h.hasCaches, h.noCaches⟩
  · exact h

/-- A plain walk has no cache to set. -/
theorem setCached_plain (h : Alongside m p) (source : ResolutionEventSource) (key : String)
    (entry : Cached) : p.setCached source key entry = p := by
  obtain ⟨hsecret, hvariable⟩ := h.noCaches
  cases p
  cases source <;> simp_all [TraverseState.setCached]

protected theorem setCached (h : Alongside m p) (source : ResolutionEventSource) (key : String)
    (entry : Cached) :
    Alongside (m.setCached source key entry) (p.setCached source key entry) := by
  rw [h.setCached_plain]
  refine ⟨?_, ?_, (hasCaches_setCached ..).mpr h.hasCaches, h.noCaches⟩
  · cases source <;> exact h.outcomes
  · cases source <;> exact h.counts

theorem cached_plain (h : Alongside m p) (source : ResolutionEventSource) (key : String) :
    p.cached source key = none := by
  obtain ⟨hsecret, hvariable⟩ := h.noCaches
  cases source <;> simp [TraverseState.cached, hsecret, hvariable]

end Alongside

/-- Both walks of a part return the same on states that are alongside, or throw with the same code
at the same path. -/
def EndsAs {α : Type} (m p : Except ResolveError α × TraverseState) : Prop :=
  match m, p with
  | (.ok a, m), (.ok b, p) => a = b ∧ Alongside m p
  | (.error e, _), (.error e', _) => e.code = e'.code ∧ e.path = e'.path
  | _, _ => False

theorem giveUp_endsAs {l : Lookup} (error : ResolveError) {m p : TraverseState}
    (h : Alongside m p) : EndsAs (giveUp options l error m) (giveUp options l error p) := by
  unfold giveUp
  split_ifs
  · exact ⟨rfl, rfl⟩
  · exact ⟨rfl, h.addUnresolved⟩

theorem resolveProvided_endsAs (l : Lookup) (result : ProviderResult) {m p : TraverseState}
    (h : Alongside m p) :
    EndsAs (resolveProvided options l result m) (resolveProvided options l result p) := by
  cases result with
  | value text => exact ⟨rfl, (h.setCached ..).addResolved.recordEvent rfl⟩
  | missing =>
    unfold resolveProvided
    dsimp only
    split_ifs
    · exact ⟨rfl, rfl⟩
    · exact ⟨rfl, (h.setCached ..).addUnresolved.recordEvent rfl⟩
  | resolveError error => exact giveUp_endsAs _ (h.addError.recordEvent rfl)
  | error forbidden message => exact giveUp_endsAs _ (h.addError.recordEvent rfl)

/-- An answer of the cache beside the same answer of the provider. -/
theorem resolveCached_endsAs (l : Lookup) {result : ProviderResult} {cached : Cached}
    (hcached : Cached.ofResult result = some cached) {m p : TraverseState} (h : Alongside m p) :
    EndsAs (resolveCached options l cached m) (resolveProvided options l result p) := by
  cases result with
  | value text =>
    obtain rfl : Cached.value text = cached := by simpa [Cached.ofResult] using hcached
    simp only [resolveProvided, h.setCached_plain]
    exact ⟨rfl, h.addCacheHit.addResolved.recordEvent rfl⟩
  | missing =>
    obtain rfl : Cached.missing = cached := by simpa [Cached.ofResult] using hcached
    simp only [resolveProvided, resolveCached, h.setCached_plain]
    split_ifs
    · exact ⟨rfl, rfl⟩
    · exact ⟨rfl, h.addCacheHit.addUnresolved.recordEvent rfl⟩
  | resolveError _ | error _ _ => simp [Cached.ofResult] at hcached

/-- A reference, when the cache answers as the provider does. -/
theorem resolveRef_endsAs {l : Lookup} {m p : TraverseState} (h : Alongside m p)
    (hright : l.provided.isSome → ∀ c, m.cached l.source l.key = some c → l.outcome = some c) :
    EndsAs (resolveRef options l m) (resolveRef options l p) := by
  unfold resolveRef
  cases hp : l.provided with
  | none => exact giveUp_endsAs _ (h.addTotal.recordEvent rfl).addError
  | some result =>
    simp only [cached_count, h.cached_plain]
    cases hc : m.cached l.source l.key with
    | none => exact resolveProvided_endsAs l result h.addTotal
    | some cached =>
      have hcached : Cached.ofResult result = some cached := by
        simpa [Lookup.outcome, hp] using hright (by simp [hp]) cached hc
      exact resolveCached_endsAs l hcached (h.addTotal.hit _)

/-- On states that are alongside, with a cache that is faithful to the visits of the part and to
later ones, both walks of the part end the same, and the cache is faithful to the later visits. -/
def Agrees {α : Type} (options : ResolveOptions) (vs : List Visit) (x : Walk α) : Prop :=
  ∀ later m p, Alongside m p → Faithful options.strict m.cached (vs ++ later) →
    EndsAs (x m) (x p) ∧ ((x m).1.isOk → Faithful options.strict (x m).2.cached later)

theorem Agrees.pure {α : Type} (a : α) : Agrees options [] (Pure.pure a : Walk α) :=
  fun _ _ _ halong hfaith => ⟨⟨rfl, halong⟩, fun _ => hfaith⟩

theorem Agrees.throw {α : Type} (error : ResolveError) :
    Agrees options [.tooDeep error] (MonadExcept.throw error : Walk α) :=
  fun _ _ _ _ _ => ⟨⟨rfl, rfl⟩, fun hok => Bool.noConfusion hok⟩

theorem Agrees.resolveRef (l : Lookup) : Agrees options [.lookup l] (resolveRef options l) := by
  intro later m p halong ⟨hright, hgo⟩
  refine ⟨resolveRef_endsAs halong hright, fun hok => ?_⟩
  rw [resolveRef_cached l halong.hasCaches]
  rw [resolveRef_isOk hright] at hok
  exact hgo (by simpa only [Bool.not_eq_true'] using hok)

theorem Agrees.bind {α β : Type} {vs ws : List Visit} {x : Walk α} {f : α → Walk β}
    (hx : Agrees options vs x) (hf : ∀ a, Agrees options ws (f a)) :
    Agrees options (vs ++ ws) (x >>= f) := by
  intro later m p halong hfaith
  rw [List.append_assoc] at hfaith
  obtain ⟨hends, hlater⟩ := hx _ m p halong hfaith
  rw [bind_apply, bind_apply]
  generalize x m = r at *
  generalize x p = r' at *
  rcases r with ⟨_ | a, m'⟩ <;> rcases r' with ⟨_ | b, p'⟩ <;> simp only [EndsAs] at hends
  · exact ⟨hends, fun hok => Bool.noConfusion hok⟩
  · obtain ⟨rfl, halong'⟩ := hends
    exact hf a later m' p' halong' (hlater rfl)

mutual

theorem agrees_traverse (value : Json) (path : List String) (depth : ℕ) :
    Agrees options (visits providers options value path depth)
      (traverse providers options value path depth) := by
  cases value with
  | arr items =>
    unfold traverse visits
    split_ifs with hdeep
    · exact Agrees.throw _
    · simpa using (agrees_traverseItems items path 0 depth).bind
        fun items => Agrees.pure (Json.arr items)
  | obj entries =>
    unfold traverse visits
    split_ifs with hdeep
    · exact Agrees.throw _
    · cases asSecretRef entries with
      | some ref => exact Agrees.resolveRef _
      | none =>
        cases asVariableRef entries with
        | some ref => exact Agrees.resolveRef _
        | none =>
          simpa using (agrees_traverseEntries entries path depth).bind
            fun entries => Agrees.pure (Json.obj (assigned entries))
  | null | bool _ | num _ | str _ =>
    unfold traverse visits
    split_ifs with hdeep
    · exact Agrees.throw _
    · exact Agrees.pure _

theorem agrees_traverseItems (items : List Json) (path : List String) (index depth : ℕ) :
    Agrees options (visitsOfItems providers options items path index depth)
      (traverseItems providers options items path index depth) := by
  cases items with
  | nil => exact Agrees.pure _
  | cons item rest =>
    unfold traverseItems visitsOfItems
    refine (agrees_traverse item _ _).bind fun next => ?_
    simpa using (agrees_traverseItems rest path (index + 1) depth).bind
      fun rest => Agrees.pure (next :: rest)

theorem agrees_traverseEntries (entries : List (String × Json)) (path : List String)
    (depth : ℕ) :
    Agrees options (visitsOfEntries providers options entries path depth)
      (traverseEntries providers options entries path depth) := by
  cases entries with
  | nil => exact Agrees.pure _
  | cons entry rest =>
    obtain ⟨key, value⟩ := entry
    unfold traverseEntries visitsOfEntries
    refine (agrees_traverse value _ _).bind fun next => ?_
    simpa using (agrees_traverseEntries rest path depth).bind
      fun rest => Agrees.pure ((key, next) :: rest)

end

/-- Both return the same output with the same outcomes and counts, or throw with the same code at
the same path. -/
def SameResult : Except ResolveError ResolveResult → Except ResolveError ResolveResult → Prop
  | .ok r, .ok r' =>
    r.output = r'.output ∧
      r.events.map ResolutionEvent.outcome = r'.events.map ResolutionEvent.outcome ∧
      r.counts.ofOutcomes = r'.counts.ofOutcomes
  | .error e, .error e' => e.code = e'.code ∧ e.path = e'.path
  | _, _ => False

mutual

/-- Only the caches at the start of a walk depend on the option. -/
theorem traverse_memoize (memoize : Bool) (value : Json) (path : List String) (depth : ℕ) :
    traverse providers { options with memoize } value path depth =
      traverse providers options value path depth := by
  cases value with
  | arr items => simp only [traverse, traverseItems_memoize memoize items, maxDepthError]
  | obj entries =>
    simp only [traverse, traverseEntries_memoize memoize entries, maxDepthError]
    rfl
  | null | bool _ | num _ | str _ => rfl

theorem traverseItems_memoize (memoize : Bool) (items : List Json) (path : List String)
    (index depth : ℕ) :
    traverseItems providers { options with memoize } items path index depth =
      traverseItems providers options items path index depth := by
  cases items with
  | nil => rfl
  | cons item rest =>
    simp only [traverseItems, traverse_memoize memoize item, traverseItems_memoize memoize rest]

theorem traverseEntries_memoize (memoize : Bool) (entries : List (String × Json))
    (path : List String) (depth : ℕ) :
    traverseEntries providers { options with memoize } entries path depth =
      traverseEntries providers options entries path depth := by
  cases entries with
  | nil => rfl
  | cons entry rest =>
    simp only [traverseEntries, traverse_memoize memoize entry.2,
      traverseEntries_memoize memoize rest]

end

theorem walk_memoize (memoize : Bool) (input : Json) :
    walk providers { options with memoize } input =
      traverse providers options input [] 0 (.initial memoize) := by
  rw [walk, traverse_memoize]

theorem alongside_initial : Alongside (.initial true) (.initial false) :=
  ⟨rfl, rfl, hasCaches_initial, rfl, rfl⟩

/-- Memoized resolution is plain resolution, with only right answers of the cache, exactly when
the cache keys of the references that are reached determine what the providers give for them. -/
theorem memoized_agrees (providers : Providers) (options : ResolveOptions) (input : Json) :
    SameResult (resolveReferences providers { options with memoize := true } input)
          (resolveReferences providers { options with memoize := false } input) ∧
        (walk providers { options with memoize := true } input).2.HitsRight ↔
      KeysDetermineValues options.strict (visits providers options input [] 0) := by
  unfold resolveReferences
  rw [walk_memoize, walk_memoize, hitsRight_traverse]
  refine and_iff_right_of_imp fun hkeys => ?_
  have hfaith : Faithful options.strict (initial true).cached
      (visits providers options input [] 0 ++ []) := by
    rwa [List.append_nil, faithful_initial]
  obtain ⟨hends, -⟩ := agrees_traverse providers input [] 0 [] _ _ alongside_initial hfaith
  generalize traverse providers options input [] 0 (.initial true) = r at *
  generalize traverse providers options input [] 0 (.initial false) = r' at *
  rcases r with ⟨_ | a, m⟩ <;> rcases r' with ⟨_ | b, p⟩ <;> simp only [EndsAs] at hends
  · exact hends
  · exact ⟨hends.1, hends.2.outcomes, hends.2.counts⟩

def vaultRef (path key : String) : Json :=
  .obj [("kind", .str "vault"), ("path", .str path), ("key", .str key)]

/-- The secret `b:c` at `a` beside the secret `c` at `a:b`: both have the key `:a:b:c`. -/
def colonRefs : Json := .arr [vaultRef "a" "b:c", vaultRef "a:b" "c"]

def colonProviders : Providers :=
  ⟨some fun ref => .value (if ref.path = "a" then "first" else "second"), none⟩

def defaultOptions : ResolveOptions := ⟨true, true, 100, true, true, .keep, none⟩

/-- The consumer of the second secret is given the first one. -/
theorem colon_secret_shared :
    ¬ (SameResult
          (resolveReferences colonProviders { defaultOptions with memoize := true } colonRefs)
          (resolveReferences colonProviders { defaultOptions with memoize := false } colonRefs) ∧
        (walk colonProviders { defaultOptions with memoize := true } colonRefs).2.HitsRight) := by
  rintro ⟨-, hright⟩
  have hhits : (walk colonProviders { defaultOptions with memoize := true } colonRefs).2.hits =
      [⟨.value "second", .value "first"⟩] := by
    rfl
  unfold HitsRight at hright
  rw [hhits] at hright
  simp [Cached.ofResult] at hright

end Agyn.References
