import Agyn.ReferenceMemo

/-!
What a walk reports. Every reference that it comes to is counted once and answered once, by a value
or by its fallback, and the output is the input with the answers in place of the references; in
strict mode the walk stops at the first reference without a value.
-/
namespace Agyn.References

variable (providers : Providers) (options : ResolveOptions)

def isReference (entries : List (String × Json)) : Bool :=
  (asSecretRef entries).isSome || (asVariableRef entries).isSome

mutual

/-- The value with its references replaced, in order, by the first of `vals`, beside those that are
left; `keep` tells which entries of an object stay. -/
def replaceRefs (keep : List (String × Json) → List (String × Json)) :
    Json → List Json → Json × List Json
  | .arr items, vals =>
    let r := replaceInItems keep items vals
    (.arr r.1, r.2)
  | .obj entries, vals =>
    if isReference entries then (vals.headD .null, vals.tail)
    else
      let r := replaceInEntries keep entries vals
      (.obj (keep r.1), r.2)
  | value, vals => (value, vals)

def replaceInItems (keep : List (String × Json) → List (String × Json)) :
    List Json → List Json → List Json × List Json
  | [], vals => ([], vals)
  | item :: rest, vals =>
    let r := replaceRefs keep item vals
    let r' := replaceInItems keep rest r.2
    (r.1 :: r'.1, r'.2)

def replaceInEntries (keep : List (String × Json) → List (String × Json)) :
    List (String × Json) → List Json → List (String × Json) × List Json
  | [], vals => ([], vals)
  | (key, value) :: rest, vals =>
    let r := replaceRefs keep value vals
    let r' := replaceInEntries keep rest r.2
    ((key, r.1) :: r'.1, r'.2)

end

mutual

/-- An object that is not within a reference has a key `__proto__`. -/
def hasProtoKey : Json → Bool
  | .arr items => hasProtoKeyInItems items
  | .obj entries =>
    !isReference entries &&
      (entries.any (fun e => e.1 = "__proto__") || hasProtoKeyInEntries entries)
  | _ => false

def hasProtoKeyInItems : List Json → Bool
  | [] => false
  | item :: rest => hasProtoKey item || hasProtoKeyInItems rest

def hasProtoKeyInEntries : List (String × Json) → Bool
  | [] => false
  | (_, value) :: rest => hasProtoKey value || hasProtoKeyInEntries rest

end

section Output

variable {entries entries' : List (String × Json)}

theorem assigned_eq_self :
    assigned entries = entries ↔ entries.any (fun e => e.1 = "__proto__") = false := by
  rw [assigned, List.filter_eq_self, List.any_eq_false]
  simp

@[simp] theorem keys_replaceInEntries (keep : List (String × Json) → List (String × Json))
    (entries : List (String × Json)) (vals : List Json) :
    (replaceInEntries keep entries vals).1.map Prod.fst = entries.map Prod.fst := by
  induction entries generalizing vals with
  | nil => rfl
  | cons e rest ih =>
    obtain ⟨key, value⟩ := e
    rw [replaceInEntries, List.map_cons, List.map_cons, ih]

theorem any_proto_congr (h : entries.map Prod.fst = entries'.map Prod.fst) :
    entries.any (fun e => e.1 = "__proto__") = entries'.any (fun e => e.1 = "__proto__") := by
  have hkeys (es : List (String × Json)) :
      es.any (fun e => e.1 = "__proto__") = (es.map Prod.fst).any (· = "__proto__") := by
    rw [List.any_map]
    rfl
  rw [hkeys, hkeys, h]

/-- What stays of the entries has all their keys only if none is `__proto__`. -/
theorem assigned_eq_of_keys (hkeys : entries.map Prod.fst = entries'.map Prod.fst)
    (h : assigned entries = entries') : entries = entries' := by
  have hlength : (assigned entries).length = entries.length := by
    have hmap := congrArg List.length hkeys
    rw [List.length_map, List.length_map] at hmap
    rw [h, hmap]
  rw [← h, assigned]
  exact (List.filter_sublist.eq_of_length hlength).symm

mutual

theorem replaceRefs_assigned (value : Json) (vals : List Json) (h : hasProtoKey value = false) :
    replaceRefs assigned value vals = replaceRefs id value vals := by
  cases value with
  | arr items =>
    rw [hasProtoKey] at h
    rw [replaceRefs, replaceRefs, replaceInItems_assigned items vals h]
  | obj entries =>
    rw [replaceRefs, replaceRefs]
    split_ifs with href
    · rfl
    · simp only [hasProtoKey, href, Bool.not_false, Bool.true_and, Bool.or_eq_false_iff] at h
      obtain ⟨hkeys, hrest⟩ := h
      have hsame := any_proto_congr (keys_replaceInEntries id entries vals)
      simp only [replaceInEntries_assigned entries vals hrest,
        assigned_eq_self.mpr (hsame.trans hkeys), id]
  | null | bool _ | num _ | str _ => rfl

theorem replaceInItems_assigned (items : List Json) (vals : List Json)
    (h : hasProtoKeyInItems items = false) :
    replaceInItems assigned items vals = replaceInItems id items vals := by
  cases items with
  | nil => rfl
  | cons item rest =>
    rw [hasProtoKeyInItems, Bool.or_eq_false_iff] at h
    simp only [replaceInItems, replaceRefs_assigned item vals h.1,
      replaceInItems_assigned rest _ h.2]

theorem replaceInEntries_assigned (entries : List (String × Json)) (vals : List Json)
    (h : hasProtoKeyInEntries entries = false) :
    replaceInEntries assigned entries vals = replaceInEntries id entries vals := by
  cases entries with
  | nil => rfl
  | cons e rest =>
    obtain ⟨key, value⟩ := e
    rw [hasProtoKeyInEntries, Bool.or_eq_false_iff] at h
    simp only [replaceInEntries, replaceRefs_assigned value vals h.1,
      replaceInEntries_assigned rest _ h.2]

end

mutual

/-- Whatever the references are replaced by, a key `__proto__` is missing elsewhere. -/
theorem hasProtoKey_of_eq (value : Json) : ∀ vals vals',
    (replaceRefs assigned value vals).1 = (replaceRefs id value vals').1 →
      hasProtoKey value = false := by
  intro vals vals' h
  cases value with
  | arr items =>
    rw [replaceRefs, replaceRefs, Json.arr.injEq] at h
    exact hasProtoKeyInItems_of_eq items vals vals' h
  | obj entries =>
    rw [hasProtoKey]
    rw [replaceRefs, replaceRefs] at h
    cases href : isReference entries with
    | true => rfl
    | false =>
      simp only [href, Bool.false_eq_true, if_false, Json.obj.injEq, id] at h
      have hkeys : (replaceInEntries assigned entries vals).1.map Prod.fst =
          (replaceInEntries id entries vals').1.map Prod.fst := by
        rw [keys_replaceInEntries, keys_replaceInEntries]
      have heq := assigned_eq_of_keys hkeys h
      rw [← heq, assigned_eq_self, any_proto_congr (keys_replaceInEntries _ entries vals)] at h
      rw [h, hasProtoKeyInEntries_of_eq entries vals vals' heq]
      rfl
  | null | bool _ | num _ | str _ => rfl
termination_by structural value

theorem hasProtoKeyInItems_of_eq (items : List Json) : ∀ vals vals',
    (replaceInItems assigned items vals).1 = (replaceInItems id items vals').1 →
      hasProtoKeyInItems items = false := by
  intro vals vals' h
  cases items with
  | nil => rfl
  | cons item rest =>
    rw [replaceInItems, replaceInItems, List.cons.injEq] at h
    rw [hasProtoKeyInItems, hasProtoKey_of_eq item _ _ h.1, hasProtoKeyInItems_of_eq rest _ _ h.2]
    rfl
termination_by structural items

theorem hasProtoKeyInEntries_of_eq (entries : List (String × Json)) : ∀ vals vals',
    (replaceInEntries assigned entries vals).1 = (replaceInEntries id entries vals').1 →
      hasProtoKeyInEntries entries = false := by
  intro vals vals' h
  cases entries with
  | nil => rfl
  | cons e rest =>
    obtain ⟨key, value⟩ := e
    simp only [replaceInEntries, List.cons.injEq, Prod.mk.injEq, true_and] at h
    rw [hasProtoKeyInEntries, hasProtoKey_of_eq value _ _ h.1,
      hasProtoKeyInEntries_of_eq rest _ _ h.2]
    rfl
termination_by structural entries

end

end Output

def Visit.lookup? : Visit → Option Lookup
  | .lookup l => some l
  | .tooDeep _ => none

/-- What stands in the output for a reference, by the value that it is answered with. -/
def Lookup.put (l : Lookup) : Option String → Json
  | some text => .str text
  | none => l.fallback

/-- The part of an event that tells which reference it is for, and whether that has a value. -/
def ResolutionEvent.answered (event : ResolutionEvent) : String × ResolutionEventSource × Bool :=
  (event.path, event.source, event.resolved)

def Lookup.answered (l : Lookup) (answer : Option String) :
    String × ResolutionEventSource × Bool :=
  (l.pointer, l.source, answer.isSome)

/-- The references have been visited from `s` to `s'`, each with its answer. -/
structure Accounted (ls : List Lookup) (answers : List (Option String)) (s s' : TraverseState) :
    Prop where
  length : answers.length = ls.length
  visited : visitAll options (ls.map .lookup) s = (.ok (), s')
  total : s'.counts.total = s.counts.total + ls.length
  resolved : s'.counts.resolved = s.counts.resolved + answers.countP (·.isSome)
  unresolved : s'.counts.unresolved = s.counts.unresolved + answers.countP (·.isNone)
  events : s'.events.map ResolutionEvent.answered = s.events.map ResolutionEvent.answered ++
    if options.report then List.zipWith Lookup.answered ls answers else []

/-- The error is the reference's own or one that its provider has thrown. -/
def Lookup.Raises (l : Lookup) (error : ResolveError) : Prop :=
  error.path = l.pointer ∧ error.source = l.source ∨ l.provided = some (.resolveError error)

/-- The walk has come from `s` to the first reference without a value, which throws. -/
def StopsAt (ls : List Lookup) (s : TraverseState) (error : ResolveError) : Prop :=
  ∃ before l after answers s₁ s', ls = before ++ l :: after ∧
    Accounted options before answers s s₁ ∧ (∀ answer ∈ answers, answer.isSome) ∧
    resolveRef options l s₁ = (.error error, s') ∧ l.Raises error

/-- A walk over the visits `vs` that have no error of their own: it puts the answers where `out`
has them, or stops in strict mode. -/
def Accounts {α : Type} (vs : List Visit) (out : List Json → α × List Json) (x : Walk α) : Prop :=
  (∀ v ∈ vs, v.lookup?.isSome) → ∀ s,
    (∃ a answers s', x s = (.ok a, s') ∧
      Accounted options (vs.filterMap Visit.lookup?) answers s s' ∧
      (options.strict → ∀ answer ∈ answers, answer.isSome) ∧
      ∀ rest,
        out (List.zipWith Lookup.put (vs.filterMap Visit.lookup?) answers ++ rest) = (a, rest)) ∨
    options.strict ∧ ∃ error s', x s = (.error error, s') ∧
      StopsAt options (vs.filterMap Visit.lookup?) s error

section Accounts

variable {options} {ls ls' : List Lookup} {answers answers' : List (Option String)}
  {s s₁ s' : TraverseState} {vs ws : List Visit} {α β : Type}

theorem accounted_nil (s : TraverseState) : Accounted options [] [] s s :=
  ⟨rfl, rfl, rfl, rfl, rfl, by simp⟩

theorem Accounted.append (h : Accounted options ls answers s s₁)
    (h' : Accounted options ls' answers' s₁ s') :
    Accounted options (ls ++ ls') (answers ++ answers') s s' where
  length := by rw [List.length_append, List.length_append, h.length, h'.length]
  visited := by
    rw [List.map_append, visitAll_append, bind_apply, h.visited]
    exact h'.visited
  total := by rw [h'.total, h.total, List.length_append, Nat.add_assoc]
  resolved := by rw [h'.resolved, h.resolved, List.countP_append, Nat.add_assoc]
  unresolved := by rw [h'.unresolved, h.unresolved, List.countP_append, Nat.add_assoc]
  events := by
    rw [h'.events, h.events, List.append_assoc, List.zipWith_append h.length.symm]
    split_ifs <;> simp

@[simp] theorem counts_recordEvent (s : TraverseState) (event : ResolutionEvent) :
    (s.recordEvent options event).counts = s.counts := by
  unfold TraverseState.recordEvent
  split_ifs <;> rfl

theorem answered_recordEvent (s : TraverseState) (event : ResolutionEvent) :
    (s.recordEvent options event).events.map ResolutionEvent.answered =
      s.events.map ResolutionEvent.answered ++
        if options.report then [event.answered] else [] := by
  unfold TraverseState.recordEvent
  split_ifs <;> simp

@[simp] theorem counts_setCached (s : TraverseState) (source : ResolutionEventSource)
    (key : String) (entry : Cached) : (s.setCached source key entry).counts = s.counts := by
  cases source <;> rfl

@[simp] theorem events_setCached (s : TraverseState) (source : ResolutionEventSource)
    (key : String) (entry : Cached) : (s.setCached source key entry).events = s.events := by
  cases source <;> rfl

@[simp] theorem counts_count (s : TraverseState) (add : ResolutionCounts → ResolutionCounts) :
    (s.count add).counts = add s.counts := rfl

@[simp] theorem events_count (s : TraverseState) (add : ResolutionCounts → ResolutionCounts) :
    (s.count add).events = s.events := rfl

/-- One reference has been counted and answered, apart from the total. -/
structure Answered (options : ResolveOptions) (l : Lookup) (answer : Option String)
    (s s' : TraverseState) : Prop where
  total : s'.counts.total = s.counts.total
  resolved : s'.counts.resolved = s.counts.resolved + [answer].countP (·.isSome)
  unresolved : s'.counts.unresolved = s.counts.unresolved + [answer].countP (·.isNone)
  events : s'.events.map ResolutionEvent.answered = s.events.map ResolutionEvent.answered ++
    if options.report then [l.answered answer] else []

/-- How a reference ends: with an answer, or with an error in strict mode. -/
def EndsWith (options : ResolveOptions) (l : Lookup) (s : TraverseState)
    (r : Except ResolveError Json × TraverseState) : Prop :=
  (∃ answer, r.1 = .ok (l.put answer) ∧ Answered options l answer s r.2 ∧
    (options.strict → answer.isSome)) ∨
  options.strict ∧ ∃ error, r.1 = .error error ∧ l.Raises error

theorem Answered.record {l : Lookup} {answer : Option String} {s s₁ : TraverseState}
    {event : ResolutionEvent} (hevent : event.answered = l.answered answer)
    (htotal : s₁.counts.total = s.counts.total)
    (hresolved : s₁.counts.resolved = s.counts.resolved + [answer].countP (·.isSome))
    (hunresolved : s₁.counts.unresolved = s.counts.unresolved + [answer].countP (·.isNone))
    (hevents : s₁.events = s.events) :
    Answered options l answer s (s₁.recordEvent options event) := by
  refine ⟨?_, ?_, ?_, ?_⟩
  · rw [counts_recordEvent, htotal]
  · rw [counts_recordEvent, hresolved]
  · rw [counts_recordEvent, hunresolved]
  · rw [answered_recordEvent, hevent, hevents]

/-- An error that has been recorded and counted is thrown, or leaves the reference unresolved. -/
theorem giveUp_endsWith {l : Lookup} {error : ResolveError} (hraises : l.Raises error)
    {s s₁ : TraverseState} (htotal : s₁.counts.total = s.counts.total)
    (hresolved : s₁.counts.resolved = s.counts.resolved)
    (hunresolved : s₁.counts.unresolved = s.counts.unresolved)
    (hevents : s₁.events.map ResolutionEvent.answered = s.events.map ResolutionEvent.answered ++
      if options.report then [l.answered none] else []) :
    EndsWith options l s (giveUp options l error s₁) := by
  unfold giveUp
  split_ifs with hstrict
  · exact .inr ⟨hstrict, error, rfl, hraises⟩
  · exact .inl ⟨none, rfl, ⟨htotal, hresolved, congrArg (· + 1) hunresolved, hevents⟩,
      fun h => absurd h hstrict⟩

theorem resolveCached_endsWith (l : Lookup) (cached : Cached) (s : TraverseState)
    (hits : List CacheHit) :
    EndsWith options l s (resolveCached options l cached { s with hits }) := by
  unfold resolveCached
  cases cached with
  | missing =>
    dsimp only
    split_ifs with hstrict
    · exact .inr ⟨hstrict, _, rfl, .inl ⟨rfl, rfl⟩⟩
    · exact .inl ⟨none, rfl, .record rfl rfl rfl rfl rfl, fun h => absurd h hstrict⟩
  | value text => exact .inl ⟨some text, rfl, .record rfl rfl rfl rfl rfl, fun _ => rfl⟩

theorem resolveProvided_endsWith (l : Lookup) {result : ProviderResult}
    (hresult : l.provided = some result) (s : TraverseState) :
    EndsWith options l s (resolveProvided options l result s) := by
  unfold resolveProvided
  cases result with
  | value text =>
    refine .inl ⟨some text, rfl, .record rfl ?_ ?_ ?_ ?_, fun _ => rfl⟩ <;>
      simp [addResolved]
  | missing =>
    dsimp only
    split_ifs with hstrict
    · exact .inr ⟨hstrict, _, rfl, .inl ⟨rfl, rfl⟩⟩
    · refine .inl ⟨none, rfl, .record rfl ?_ ?_ ?_ ?_, fun h => absurd h hstrict⟩ <;>
        simp [addUnresolved]
  | resolveError error =>
    exact giveUp_endsWith (.inr hresult) (by simp [addError]) (by simp [addError])
      (by simp [addError]) (answered_recordEvent _ _)
  | error forbidden message =>
    exact giveUp_endsWith (.inl ⟨rfl, rfl⟩) (by simp [addError]) (by simp [addError])
      (by simp [addError]) (answered_recordEvent _ _)

theorem resolveRef_endsWith (l : Lookup) (s : TraverseState) :
    EndsWith options l (s.count addTotal) (resolveRef options l s) := by
  unfold resolveRef
  cases hprovided : l.provided with
  | none =>
    exact giveUp_endsWith (.inl ⟨rfl, rfl⟩) (by simp [addError]) (by simp [addError])
      (by simp [addError]) (answered_recordEvent _ _)
  | some result =>
    dsimp only
    cases (s.count addTotal).cached l.source l.key with
    | some cached => exact resolveCached_endsWith l cached _ _
    | none => exact resolveProvided_endsWith l hprovided _

/-- A reference is counted and answered, or throws in strict mode. -/
theorem resolveRef_cases (l : Lookup) (s : TraverseState) :
    (∃ answer s', resolveRef options l s = (.ok (l.put answer), s') ∧
      Accounted options [l] [answer] s s' ∧ (options.strict → answer.isSome)) ∨
    options.strict ∧ ∃ error s', resolveRef options l s = (.error error, s') ∧ l.Raises error := by
  have hends : EndsWith options l _ (resolveRef options l s) := resolveRef_endsWith l s
  generalize hr : resolveRef options l s = r at hends
  obtain ⟨result, s'⟩ := r
  rcases hends with ⟨answer, hok, hanswered, hsome⟩ | ⟨hstrict, error, herror, hraises⟩
  · obtain rfl : result = _ := hok
    refine .inl ⟨answer, s', rfl, ⟨rfl, ?_, ?_, ?_, ?_, ?_⟩, hsome⟩
    · rw [List.map_singleton, visitAll_cons, visit, hr]
      rfl
    · exact hanswered.total
    · exact hanswered.resolved
    · exact hanswered.unresolved
    · exact hanswered.events
  · obtain rfl : result = _ := herror
    exact .inr ⟨hstrict, error, s', rfl, hraises⟩

theorem accounts_pure (a : α) :
    Accounts options [] (fun vals => (a, vals)) (Pure.pure a : Walk α) :=
  fun _ s => .inl ⟨a, [], s, rfl, accounted_nil s, by simp, fun _ => rfl⟩

theorem accounts_throw (error : ResolveError) (out : List Json → α × List Json) :
    Accounts options [.tooDeep error] out (MonadExcept.throw error : Walk α) := by
  intro hdepth
  simp [Visit.lookup?] at hdepth

theorem accounts_resolveRef (l : Lookup) :
    Accounts options [.lookup l] (fun vals => (vals.headD .null, vals.tail))
      (resolveRef options l) := by
  intro _ s
  rcases resolveRef_cases l s with ⟨answer, s', hok, haccounted, hsome⟩ |
    ⟨hstrict, error, s', herror, hraises⟩
  · exact .inl ⟨_, [answer], s', hok, haccounted, by simpa using hsome, fun _ => rfl⟩
  · exact .inr ⟨hstrict, error, s', herror, [], l, [], [], s, s', rfl, accounted_nil s, by simp,
      herror, hraises⟩

theorem StopsAt.append_right {error : ResolveError} (h : StopsAt options ls s error)
    (ls' : List Lookup) : StopsAt options (ls ++ ls') s error := by
  obtain ⟨before, l, after, answers, s₁, s', rfl, hrest⟩ := h
  exact ⟨before, l, after ++ ls', answers, s₁, s', by simp, hrest⟩

theorem StopsAt.append_left {error : ResolveError} (h : StopsAt options ls' s₁ error)
    (hbefore : Accounted options ls answers s s₁) (hsome : ∀ answer ∈ answers, answer.isSome) :
    StopsAt options (ls ++ ls') s error := by
  obtain ⟨before, l, after, answers', s₂, s', rfl, haccounted, hsome', hrest⟩ := h
  refine ⟨ls ++ before, l, after, answers ++ answers', s₂, s', by simp,
    hbefore.append haccounted, fun answer hmem => ?_, hrest⟩
  exact (List.mem_append.mp hmem).elim (hsome answer) (hsome' answer)

theorem Accounts.bind {x : Walk α} {f : α → Walk β} {out : List Json → α × List Json}
    {out' : α → List Json → β × List Json} (hx : Accounts options vs out x)
    (hf : ∀ a, Accounts options ws (out' a) (f a)) :
    Accounts options (vs ++ ws) (fun vals => out' (out vals).1 (out vals).2) (x >>= f) := by
  intro hdepth s
  obtain ⟨hvs, hws⟩ := List.forall_mem_append.mp hdepth
  rw [List.filterMap_append, bind_apply]
  rcases hx hvs s with ⟨a, answers, s₁, hok, haccounted, hsome, hout⟩ |
    ⟨hstrict, error, s', herror, hstops⟩
  · rw [hok, goOn]
    rcases hf a hws s₁ with ⟨b, answers', s', hok', haccounted', hsome', hout'⟩ |
      ⟨hstrict, error, s', herror, hstops⟩
    · refine .inl ⟨b, answers ++ answers', s', hok', haccounted.append haccounted',
        fun hstrict answer hmem => ?_, fun rest => ?_⟩
      · exact (List.mem_append.mp hmem).elim (hsome hstrict answer) (hsome' hstrict answer)
      · rw [List.zipWith_append haccounted.length.symm, List.append_assoc]
        dsimp only
        rw [hout]
        exact hout' rest
    · exact .inr ⟨hstrict, error, s', herror, hstops.append_left haccounted (hsome hstrict)⟩
  · exact .inr ⟨hstrict, error, s', by rw [herror, goOn], hstops.append_right _⟩

theorem Accounts.map {x : Walk α} {out : List Json → α × List Json} (h : Accounts options vs out x)
    (g : α → β) : Accounts options vs (fun vals => (g (out vals).1, (out vals).2)) (g <$> x) := by
  have hbind := h.bind fun a => accounts_pure (g a)
  rwa [List.append_nil, bind_pure_comp] at hbind

end Accounts

mutual

/-- A walk of a value that has its references within the depth accounts for all of them. -/
theorem accounts_traverse (value : Json) (path : List String) (depth : ℕ) :
    Accounts options (visits providers options value path depth) (replaceRefs assigned value)
      (traverse providers options value path depth) := by
  cases value with
  | arr items =>
    unfold traverse visits
    split_ifs with hdeep
    · exact accounts_throw _ _
    · have hitems := (accounts_traverseItems items path 0 depth).map Json.arr
      rwa [← bind_pure_comp] at hitems
  | obj entries =>
    unfold traverse visits
    split_ifs with hdeep
    · exact accounts_throw _ _
    · have hout (href : isReference entries) : replaceRefs assigned (.obj entries) =
          fun vals => (vals.headD .null, vals.tail) := by
        funext vals
        rw [replaceRefs, if_pos href]
      cases hsecret : asSecretRef entries with
      | some ref =>
        rw [hout (by simp [isReference, hsecret])]
        exact accounts_resolveRef _
      | none =>
        cases hvariable : asVariableRef entries with
        | some ref =>
          rw [hout (by simp [isReference, hvariable])]
          exact accounts_resolveRef _
        | none =>
          have hentries := (accounts_traverseEntries entries path depth).map
            fun entries => Json.obj (assigned entries)
          rw [← bind_pure_comp] at hentries
          have hout : replaceRefs assigned (.obj entries) = fun vals =>
              (.obj (assigned (replaceInEntries assigned entries vals).1),
                (replaceInEntries assigned entries vals).2) := by
            funext vals
            rw [replaceRefs, if_neg (by simp [isReference, hsecret, hvariable])]
          rw [hout]
          exact hentries
  | null | bool _ | num _ | str _ =>
    unfold traverse visits
    split_ifs with hdeep
    · exact accounts_throw _ _
    · exact accounts_pure _

theorem accounts_traverseItems (items : List Json) (path : List String) (index depth : ℕ) :
    Accounts options (visitsOfItems providers options items path index depth)
      (replaceInItems assigned items)
      (traverseItems providers options items path index depth) := by
  cases items with
  | nil => exact accounts_pure _
  | cons item rest =>
    unfold traverseItems visitsOfItems
    have hrest := fun next => (accounts_traverseItems rest path (index + 1) depth).map (next :: ·)
    simp only [← bind_pure_comp] at hrest
    exact (accounts_traverse item _ _).bind hrest

theorem accounts_traverseEntries (entries : List (String × Json)) (path : List String)
    (depth : ℕ) :
    Accounts options (visitsOfEntries providers options entries path depth)
      (replaceInEntries assigned entries)
      (traverseEntries providers options entries path depth) := by
  cases entries with
  | nil => exact accounts_pure _
  | cons entry rest =>
    obtain ⟨key, value⟩ := entry
    unfold traverseEntries visitsOfEntries
    have hrest := fun next => (accounts_traverseEntries rest path depth).map ((key, next) :: ·)
    simp only [← bind_pure_comp] at hrest
    exact (accounts_traverse value _ _).bind hrest

end

variable {providers options} {input : Json}

end Agyn.References
