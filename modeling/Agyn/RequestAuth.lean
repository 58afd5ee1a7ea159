import Agyn.ContainerEvents
import Agyn.GuardedRuns
import Mathlib.Algebra.Order.Ring.Rat
import Mathlib.Data.Nat.Cast.Order.Ring
import Mathlib.Tactic.Linarith

/-!
The authentication of requests to the runner: the cache of nonces and `verifyAuthHeaders`. A request
is stamped by its sender; its nonce is kept for a time that starts when it is accepted. Times are in
milliseconds, and each reading of the clock in a call is a reading of its own.
-/
namespace Agyn.RequestAuth

open ContainerEvents (truthy toUpperCase)

inductive HeaderValue where
  | one (value : String)
  | many (values : List String)
  deriving DecidableEq

structure SignatureHeaders where
  timestamp : String
  nonce : String
  signature : String
  deriving DecidableEq

structure VerifyHeadersInput (β : Type) where
  headers : String → Option HeaderValue
  method : String
  path : String
  body : β
  secret : String

/-- What is not of this program: the hash and the signature, the text of a body and the number of a
string, which is none unless it is finite. -/
structure Primitives (β : Type) where
  hashBody : String → String
  signPayload : String → String → String
  canonicalBodyString : β → String
  number : String → Option ℚ

structure Options where
  ttlMs : Option ℚ
  maxEntries : Option ℚ
  clockSkewMs : Option ℚ

def Options.ttl (o : Options) : ℚ := o.ttlMs.getD 60000

def Options.max (o : Options) : ℚ := o.maxEntries.getD 1000

def Options.skew (o : Options) : ℚ := o.clockSkewMs.getD 60000

/-- The readings of the clock in one call: for the skew, in `has`, and twice in `add`. -/
structure Readings where
  verify : ℚ
  has : ℚ
  evict : ℚ
  set : ℚ
  deriving DecidableEq

/-- The entries of the map in the order of their insertion. -/
abbrev NonceCache := List (String × ℚ)

def evictExpired (ttl now : ℚ) (store : NonceCache) : NonceCache :=
  store.filter fun entry => !(decide (ttl < now - entry.2))

def hasNonce (store : NonceCache) (nonce : String) : Bool := store.any (·.1 = nonce)

/-- The first entry is deleted when the map is full; a name that is empty is not deleted. -/
def makeRoom (max : ℚ) (store : NonceCache) : NonceCache :=
  if max ≤ store.length then
    match store with
    | [] => []
    | entry :: rest => if entry.1 = "" then store else rest
  else store

/-- `Map.set`: an entry keeps its place. -/
def setNonce (store : NonceCache) (nonce : String) (now : ℚ) : NonceCache :=
  if hasNonce store nonce then
    store.map fun entry => if entry.1 = nonce then (nonce, now) else entry
  else store ++ [(nonce, now)]

variable {β : Type} (prim : Primitives β) (options : Options)

def extractHeader (headers : String → Option HeaderValue) (name : String) : Option String :=
  match headers name with
  | some (.one value) => some value
  | some (.many values) => values.head?
  | none => none

/-- The three headers, none of them empty. -/
def signatureHeaders (headers : String → Option HeaderValue) : Option SignatureHeaders :=
  match truthy (extractHeader headers "x-dr-timestamp"),
    truthy (extractHeader headers "x-dr-nonce"),
    truthy (extractHeader headers "x-dr-signature") with
  | some timestamp, some nonce, some signature => some ⟨timestamp, nonce, signature⟩
  | _, _, _ => none

def buildSignaturePayload (method path timestamp nonce bodyHash : String) : String :=
  toUpperCase method ++ "\n" ++ path ++ "\n" ++ timestamp ++ "\n" ++ nonce ++ "\n" ++ bodyHash

def expectedSignature (input : VerifyHeadersInput β) (h : SignatureHeaders) : String :=
  prim.signPayload input.secret (buildSignaturePayload input.method input.path h.timestamp h.nonce
    (prim.hashBody (prim.canonicalBodyString input.body)))

inductive Reply where
  | ok
  | error (code message : String)
  /-- `timingSafeEqual` on signatures of different lengths. -/
  | thrown
  deriving DecidableEq

def verifyAuthHeaders (input : VerifyHeadersInput β) (now : Readings) (store : NonceCache) :
    Reply × NonceCache :=
  match signatureHeaders input.headers with
  | none => (.error "missing_headers" "Authentication headers missing", store)
  | some h =>
    match prim.number h.timestamp with
    | none => (.error "invalid_timestamp" "Timestamp invalid", store)
    | some timestamp =>
      if options.skew < |now.verify - timestamp| then
        (.error "timestamp_out_of_range" "Timestamp outside allowed skew", store)
      else
        let store := evictExpired options.ttl now.has store
        if hasNonce store h.nonce then (.error "replayed_nonce" "Nonce already used", store)
        else
          let expected := expectedSignature prim input h
          if h.signature.utf8ByteSize ≠ expected.utf8ByteSize then (.thrown, store)
          else if h.signature ≠ expected then
            (.error "invalid_signature" "Signature mismatch", store)
          else
            let store := evictExpired options.ttl now.evict store
            (.ok, setNonce (makeRoom options.max store) h.nonce now.set)

/-- A request that has been accepted, with the time of its stamp. -/
structure Accepted where
  headers : SignatureHeaders
  timestamp : ℚ
  deriving DecidableEq

structure State where
  store : NonceCache
  clock : ℚ
  accepted : List Accepted
  deriving DecidableEq

structure Request (β : Type) where
  input : VerifyHeadersInput β
  now : Readings

def acceptedOf (input : VerifyHeadersInput β) (reply : Reply) : List Accepted :=
  match reply, signatureHeaders input.headers with
  | .ok, some h => (prim.number h.timestamp).toList.map fun timestamp => ⟨h, timestamp⟩
  | _, _ => []

/-- The clock does not go back, within a call and between calls. -/
def step (s : State) (r : Request β) : Option State :=
  if s.clock ≤ r.now.verify ∧ r.now.verify ≤ r.now.has ∧ r.now.has ≤ r.now.evict ∧
      r.now.evict ≤ r.now.set then
    let out := verifyAuthHeaders prim options r.input r.now s.store
    some ⟨out.2, r.now.set, s.accepted ++ acceptedOf prim r.input out.1⟩
  else none

def init : State := ⟨[], 0, []⟩

def Accepted.until (skew : ℚ) (a : Accepted) : ℚ := a.timestamp + skew

/-- A request that `verifyAuthHeaders` accepts: its stamp is within the skew, its nonce is not in
the cache and its signature is the expected one. -/
structure Admitted (s : State) (r : Request β) (h : SignatureHeaders) (timestamp : ℚ) : Prop where
  headers : signatureHeaders r.input.headers = some h
  number : prim.number h.timestamp = some timestamp
  skew : |r.now.verify - timestamp| ≤ options.skew
  fresh : hasNonce (evictExpired options.ttl r.now.has s.store) h.nonce = false
  signature : h.signature = expectedSignature prim r.input h

/-- The nonce of a request lasts as long as its stamp: the stamp is not so far ahead that it
outlives the nonce, an earlier entry of the nonce had expired when the skew was tested, and the
entry deleted for room is one whose stamps are past. -/
structure NonceLasts (s : State) (r : Request β) (h : SignatureHeaders) (timestamp : ℚ) : Prop where
  stamp : timestamp + options.skew ≤ r.now.set + options.ttl
  reading : ∀ entry ∈ s.store, entry.1 = h.nonce → options.ttl < r.now.verify - entry.2
  room : ∀ entry ∈ (evictExpired options.ttl r.now.evict s.store).head?,
    options.max ≤ (evictExpired options.ttl r.now.evict s.store).length →
      ∀ a ∈ s.accepted, a.headers.nonce = entry.1 → a.until options.skew < r.now.set

def KeepsNonces (s : State) (r : Request β) : Prop :=
  ∀ h ∈ signatureHeaders r.input.headers, ∀ timestamp ∈ prim.number h.timestamp,
    Admitted prim options s r h timestamp → NonceLasts options s r h timestamp

instance (s : State) (r : Request β) (h : SignatureHeaders) (timestamp : ℚ) :
    Decidable (Admitted prim options s r h timestamp) :=
  decidable_of_iff
    (signatureHeaders r.input.headers = some h ∧ prim.number h.timestamp = some timestamp ∧
      |r.now.verify - timestamp| ≤ options.skew ∧
      hasNonce (evictExpired options.ttl r.now.has s.store) h.nonce = false ∧
      h.signature = expectedSignature prim r.input h)
    ⟨fun ⟨a, b, c, d, e⟩ => ⟨a, b, c, d, e⟩, fun ⟨a, b, c, d, e⟩ => ⟨a, b, c, d, e⟩⟩

instance (s : State) (r : Request β) (h : SignatureHeaders) (timestamp : ℚ) :
    Decidable (NonceLasts options s r h timestamp) :=
  decidable_of_iff
    (timestamp + options.skew ≤ r.now.set + options.ttl ∧
      (∀ entry ∈ s.store, entry.1 = h.nonce → options.ttl < r.now.verify - entry.2) ∧
      ∀ entry ∈ (evictExpired options.ttl r.now.evict s.store).head?,
        options.max ≤ (evictExpired options.ttl r.now.evict s.store).length →
          ∀ a ∈ s.accepted, a.headers.nonce = entry.1 → a.until options.skew < r.now.set)
    ⟨fun ⟨a, b, c⟩ => ⟨a, b, c⟩, fun ⟨a, b, c⟩ => ⟨a, b, c⟩⟩

instance (s : State) (r : Request β) : Decidable (KeepsNonces prim options s r) :=
  inferInstanceAs (Decidable (∀ h ∈ signatureHeaders r.input.headers,
    ∀ timestamp ∈ prim.number h.timestamp,
      Admitted prim options s r h timestamp → NonceLasts options s r h timestamp))

variable {prim options} {store : NonceCache} {entry : String × ℚ} {ttl now now' max : ℚ}

theorem mem_evictExpired :
    entry ∈ evictExpired ttl now store ↔ entry ∈ store ∧ now - entry.2 ≤ ttl := by
  simp [evictExpired]

/-- What has expired stays expired. -/
theorem evictExpired_evictExpired (h : now ≤ now') :
    evictExpired ttl now' (evictExpired ttl now store) = evictExpired ttl now' store := by
  rw [evictExpired, evictExpired, evictExpired, List.filter_filter]
  apply List.filter_congr
  intro entry _
  by_cases hexpired : ttl < now' - entry.2
  · simp [hexpired]
  · have hkept : ¬ ttl < now - entry.2 := by linarith
    simp [hexpired, hkept]

theorem mem_makeRoom (h : entry ∈ store) :
    entry ∈ makeRoom max store ∨ store.head? = some entry ∧ max ≤ store.length := by
  unfold makeRoom
  split_ifs with hfull
  · match store, h with
    | first :: rest, h =>
      by_cases hname : first.1 = ""
      · exact .inl (by simpa [hname] using h)
      · obtain rfl | hrest := List.mem_cons.mp h
        · exact .inr ⟨rfl, hfull⟩
        · exact .inl (by simpa [hname] using hrest)
  · exact .inl h

theorem mem_of_mem_makeRoom (h : entry ∈ makeRoom max store) : entry ∈ store := by
  unfold makeRoom at h
  split_ifs at h
  · match store, h with
    | first :: rest, h =>
      by_cases hname : first.1 = ""
      · simpa [hname] using h
      · exact List.mem_cons_of_mem _ (by simpa [hname] using h)
  · exact h

theorem hasNonce_eq_false {nonce : String} :
    hasNonce store nonce = false ↔ ∀ entry ∈ store, entry.1 ≠ nonce := by
  simp [hasNonce]

/-- A nonce that the cache does not have is put at the end. -/
theorem setNonce_of_fresh {nonce : String} (h : hasNonce store nonce = false) :
    setNonce store nonce now = store ++ [(nonce, now)] := by
  rw [setNonce, h]
  rfl

variable {s s' : State} {r : Request β}

/-- What an accepted request leaves: its nonce at the end of a cache that may have been emptied of
what has expired and of its first entry. -/
def State.accept (options : Options) (s : State) (now : Readings) (h : SignatureHeaders)
    (timestamp : ℚ) : State :=
  ⟨makeRoom options.max (evictExpired options.ttl now.evict s.store) ++ [(h.nonce, now.set)],
    now.set, s.accepted ++ [⟨h, timestamp⟩]⟩

/-- The clock goes on and the request is refused, with or without an eviction, or accepted. -/
theorem step_cases (hstep : step prim options s r = some s') :
    (s.clock ≤ r.now.verify ∧ r.now.verify ≤ r.now.has ∧ r.now.has ≤ r.now.evict ∧
      r.now.evict ≤ r.now.set) ∧
    (s' = ⟨s.store, r.now.set, s.accepted⟩ ∨
      s' = ⟨evictExpired options.ttl r.now.has s.store, r.now.set, s.accepted⟩ ∨
      ∃ h timestamp, Admitted prim options s r h timestamp ∧
        s' = s.accept options r.now h timestamp) := by
  rw [step] at hstep
  split_ifs at hstep with hclock
  refine ⟨hclock, ?_⟩
  have hs' := Option.some.inj hstep
  subst hs'
  rw [verifyAuthHeaders]
  cases hheaders : signatureHeaders r.input.headers with
  | none => exact .inl (by simp [acceptedOf])
  | some h =>
    dsimp only
    cases hnumber : prim.number h.timestamp with
    | none => exact .inl (by simp [acceptedOf])
    | some timestamp =>
      dsimp only
      split_ifs with hskew hhas hsize hsignature
      · exact .inl (by simp [acceptedOf])
      · exact .inr (.inl (by simp [acceptedOf]))
      · exact .inr (.inl (by simp [acceptedOf]))
      · exact .inr (.inl (by simp [acceptedOf]))
      · rw [Bool.not_eq_true] at hhas
        have hmatch : h.signature = expectedSignature prim r.input h := not_not.mp hsignature
        refine .inr (.inr ⟨h, timestamp, ⟨hheaders, hnumber, not_lt.mp hskew, hhas, hmatch⟩, ?_⟩)
        have hfresh : hasNonce (makeRoom options.max
            (evictExpired options.ttl r.now.evict s.store)) h.nonce = false := by
          refine hasNonce_eq_false.mpr fun entry hentry => ?_
          obtain ⟨hmem, hlive⟩ := mem_evictExpired.mp (mem_of_mem_makeRoom hentry)
          refine hasNonce_eq_false.mp hhas entry (mem_evictExpired.mpr ⟨hmem, ?_⟩)
          linarith [hclock.2.2.1]
        rw [evictExpired_evictExpired hclock.2.2.1, setNonce_of_fresh hfresh]
        simp [acceptedOf, hheaders, hnumber, State.accept]

/-- Each request is accepted once, and the stamp of one that has been accepted is past or its nonce
is kept at least as long. -/
structure Guarded (prim : Primitives β) (options : Options) (s : State) : Prop where
  once : (s.accepted.map (·.headers)).Nodup
  number : ∀ a ∈ s.accepted, prim.number a.headers.timestamp = some a.timestamp
  kept : ∀ a ∈ s.accepted, a.until options.skew < s.clock ∨
    ∃ t, (a.headers.nonce, t) ∈ s.store ∧ a.until options.skew ≤ t + options.ttl

theorem Guarded.evict (hinv : Guarded prim options s) (hclock : s.clock ≤ now')
    (hnow : now ≤ now') :
    Guarded prim options ⟨evictExpired options.ttl now s.store, now', s.accepted⟩ := by
  refine ⟨hinv.once, hinv.number, fun a ha => ?_⟩
  obtain hpast | ⟨t, hmem, huntil⟩ := hinv.kept a ha
  · exact .inl (lt_of_lt_of_le hpast hclock)
  · by_cases hlive : now - t ≤ options.ttl
    · exact .inr ⟨t, mem_evictExpired.mpr ⟨hmem, hlive⟩, huntil⟩
    · left
      show a.until options.skew < now'
      linarith

/-- The headers of a request that is accepted have not been accepted before. -/
theorem Guarded.headers_new (hinv : Guarded prim options s) {h : SignatureHeaders} {timestamp : ℚ}
    (hclock : s.clock ≤ r.now.verify) (hadmitted : Admitted prim options s r h timestamp)
    (hlasts : NonceLasts options s r h timestamp) : h ∉ s.accepted.map (·.headers) := by
  intro hmem
  obtain ⟨a, ha, rfl⟩ := List.mem_map.mp hmem
  have hstamp : a.timestamp = timestamp :=
    Option.some.inj ((hinv.number a ha).symm.trans hadmitted.number)
  have hwithin : r.now.verify ≤ a.until options.skew := by
    have := (abs_le.mp hadmitted.skew).2
    rw [Accepted.until, hstamp]
    linarith
  obtain hpast | ⟨t, hentry, huntil⟩ := hinv.kept a ha
  · linarith
  · have := hlasts.reading _ hentry rfl
    linarith

theorem Guarded.accept (hinv : Guarded prim options s) {h : SignatureHeaders} {timestamp : ℚ}
    (hclock : s.clock ≤ r.now.verify) (hset : r.now.verify ≤ r.now.set)
    (hevict : r.now.evict ≤ r.now.set) (hadmitted : Admitted prim options s r h timestamp)
    (hlasts : NonceLasts options s r h timestamp) :
    Guarded prim options (s.accept options r.now h timestamp) := by
  refine ⟨?_, ?_, ?_⟩
  · rw [State.accept, List.map_append]
    refine List.nodup_append.mpr ⟨hinv.once, List.nodup_singleton _, ?_⟩
    rintro x hx y hy rfl
    obtain rfl := List.mem_singleton.mp hy
    exact hinv.headers_new hclock hadmitted hlasts hx
  · intro a ha
    obtain ha | ha := List.mem_append.mp ha
    · exact hinv.number a ha
    · obtain rfl := List.mem_singleton.mp ha
      exact hadmitted.number
  · intro a ha
    obtain ha | ha := List.mem_append.mp ha
    · obtain hpast | ⟨t, hmem, huntil⟩ :=
        (hinv.evict (le_trans hclock hset) hevict).kept a ha
      · exact .inl hpast
      · obtain hroom | ⟨hhead, hfull⟩ := mem_makeRoom hmem
        · exact .inr ⟨t, List.mem_append_left _ hroom, huntil⟩
        · exact .inl (hlasts.room _ hhead hfull a ha rfl)
    · obtain rfl := List.mem_singleton.mp ha
      exact .inr ⟨r.now.set, List.mem_append_right _ (List.mem_singleton_self _), hlasts.stamp⟩

theorem Guarded.step (hinv : Guarded prim options s) (hkeeps : KeepsNonces prim options s r)
    (hstep : RequestAuth.step prim options s r = some s') : Guarded prim options s' := by
  obtain ⟨⟨hverify, hhas, hevict, hset⟩, rfl | rfl | ⟨h, timestamp, hadmitted, rfl⟩⟩ :=
    step_cases hstep
  · refine ⟨hinv.once, hinv.number, fun a ha => ?_⟩
    obtain hpast | hentry := hinv.kept a ha
    · exact .inl (show a.until options.skew < r.now.set by linarith)
    · exact .inr hentry
  · exact hinv.evict (by linarith) (by linarith)
  · exact hinv.accept hverify (by linarith) hset hadmitted
      (hkeeps h hadmitted.headers timestamp hadmitted.number hadmitted)

/-- As long as nonces last as long as their stamps, a request with given headers is accepted at most
once, whatever other requests there are. -/
theorem accepted_once (h : Reached (step prim options) (KeepsNonces prim options) init s) :
    (s.accepted.map (·.headers)).Nodup :=
  have hinit : Guarded prim options init := ⟨.nil, nofun, nofun⟩
  (h.invariant hinit fun _ _ _ hinv hkeeps hstep => hinv.step hkeeps hstep).once

/-- The hash, the signatures and the numbers of two requests without a body, signed with one
secret. -/
def readyPrimitives : Primitives Unit where
  hashBody _ := "47DEQpj8HBSa+/TImW+5JCeuQeRkm5NMpJWZG3hSuFU="
  signPayload _ payload :=
    if payload = "GET\n/v1/ready\n1700000000000\nn-1\n47DEQpj8HBSa+/TImW+5JCeuQeRkm5NMpJWZG3hSuFU="
    then "Zcjt7Q4IkUuEIhpJGmQE2aYi9ohCnFTR73DAjVbApj8="
    else "A1y6O7oukTmrfBFEztmHI3F+oZ8yqZ+X7oer1M64eOY="
  canonicalBodyString _ := ""
  number text :=
    if text = "1700000000000" then some 1700000000000
    else if text = "1700000060000" then some 1700000060000 else none

def readyInput (timestamp signature : String) : VerifyHeadersInput Unit where
  headers name :=
    if name = "x-dr-timestamp" then some (.one timestamp)
    else if name = "x-dr-nonce" then some (.one "n-1")
    else if name = "x-dr-signature" then some (.one signature) else none
  method := "GET"
  path := "/v1/ready"
  body := ()
  secret := "secret"

def sentTwice : List (Request Unit) :=
  let input := readyInput "1700000000000" "Zcjt7Q4IkUuEIhpJGmQE2aYi9ohCnFTR73DAjVbApj8="
  [⟨input, ⟨1700000000000, 1700000000000, 1700000000001, 1700000000001⟩⟩,
    ⟨input, ⟨1700000030000, 1700000030000, 1700000030000, 1700000030000⟩⟩]

theorem accepted_once_sent_twice :
    ∃ s, runFrom (step readyPrimitives ⟨none, none, none⟩) init sentTwice = some s ∧
      s.accepted.length = 1 ∧ (s.accepted.map (·.headers)).Nodup := by
  have hmeet : StepsMeet (step readyPrimitives ⟨none, none, none⟩)
      (KeepsNonces readyPrimitives ⟨none, none, none⟩) init sentTwice := by
    decide +kernel
  have hlength : (runFrom (step readyPrimitives ⟨none, none, none⟩) init sentTwice).map
      (·.accepted.length) = some 1 := by
    decide +kernel
  obtain ⟨s, hs, hlength⟩ := Option.map_eq_some_iff.mp hlength
  exact ⟨s, hs, hlength, accepted_once (Reached.init.run hmeet hs)⟩

/-- A request stamped a minute ahead, sent again when the nonce has expired. -/
def sentAhead : List (Request Unit) :=
  let input := readyInput "1700000060000" "A1y6O7oukTmrfBFEztmHI3F+oZ8yqZ+X7oer1M64eOY="
  [⟨input, ⟨1700000000000, 1700000000000, 1700000000000, 1700000000000⟩⟩,
    ⟨input, ⟨1700000060001, 1700000060001, 1700000060001, 1700000060001⟩⟩]

theorem accepted_twice :
    ∃ s, Reached (step readyPrimitives ⟨none, none, none⟩) (fun _ _ => True) init s ∧
      ¬ (s.accepted.map (·.headers)).Nodup := by
  have htwice : ((runFrom (step readyPrimitives ⟨none, none, none⟩) init sentAhead).any
      fun s => decide ¬ (s.accepted.map (·.headers)).Nodup) = true := by
    decide +kernel
  obtain ⟨s, hs, htwice⟩ := (Option.any_eq_true _ _).mp htwice
  exact ⟨s, .of_run hs, of_decide_eq_true htwice⟩

end Agyn.RequestAuth
