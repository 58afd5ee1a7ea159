import Mathlib.Data.Int.Order.Basic
import Mathlib.Order.Lattice
import Agyn.InsertionMap
import Agyn.SessionUse

/-!
The sessions of terminals, and the connections that use them. A session is created for a workspace,
and any number of connections may come in with its id. The detection of the shell is left out, and
so are the sizes in columns and rows that are no integers.
-/
namespace Agyn.TerminalSessions

open TerminalGateway (Connection Effect Held Use TerminalSessionRecord)

inductive SessionState where
  | pending
  | connected
  deriving DecidableEq

structure SessionRecord where
  sessionId : String
  token : String
  workspaceId : String
  shell : String
  cols : ℤ
  rows : ℤ
  createdAt : ℤ
  lastActivityAt : ℤ
  idleTimeoutMs : ℤ
  maxDurationMs : ℤ
  state : SessionState
  deriving DecidableEq

abbrev Sessions := InsMap String SessionRecord

def defaultIdleTimeoutMs : ℤ := 5 * 60 * 1000

def defaultMaxDurationMs : ℤ := 30 * 60 * 1000

def clamp (value low high : ℤ) : ℤ := max low (min high value)

def createSession (now : ℤ) (sessionId token workspaceId shell : String) (cols rows : Option ℤ) :
    SessionRecord where
  sessionId
  token
  workspaceId
  shell
  cols := clamp (cols.getD 120) 40 400
  rows := clamp (rows.getD 32) 10 200
  createdAt := now
  lastActivityAt := now
  idleTimeoutMs := defaultIdleTimeoutMs
  maxDurationMs := defaultMaxDurationMs
  state := .pending

namespace SessionRecord

def expired (now : ℤ) (record : SessionRecord) : Bool :=
  record.maxDurationMs ≤ now - record.createdAt

def idle (now : ℤ) (record : SessionRecord) : Bool :=
  record.idleTimeoutMs ≤ now - record.lastActivityAt

def view (record : SessionRecord) : TerminalSessionRecord :=
  ⟨record.workspaceId, record.createdAt, record.idleTimeoutMs, record.maxDurationMs⟩

end SessionRecord

namespace Sessions

def validate (sessions : Sessions) (now : ℤ) (sessionId token : String) :
    Sessions × Except String SessionRecord :=
  match sessions.get sessionId with
  | none => (sessions, .error "session_not_found")
  | some record =>
    if record.token ≠ token then (sessions, .error "invalid_token")
    else if record.expired now then (sessions.delete sessionId, .error "session_expired")
    else if record.idle now then (sessions.delete sessionId, .error "session_idle_timeout")
    else (sessions, .ok record)

def markConnected (sessions : Sessions) (now : ℤ) (sessionId : String) : Except String Sessions :=
  match sessions.get sessionId with
  | none => .error "session_not_found"
  | some record =>
    if record.state = .connected then .error "session_already_connected"
    else .ok (sessions.set sessionId { record with state := .connected, lastActivityAt := now })

def touch (sessions : Sessions) (now : ℤ) (sessionId : String) : Sessions :=
  match sessions.get sessionId with
  | none => sessions
  | some record => sessions.set sessionId { record with lastActivityAt := now }

def close (sessions : Sessions) (sessionId : String) : Sessions := sessions.delete sessionId

def prune (sessions : Sessions) (now : ℤ) : Sessions where
  entries := sessions.entries.filter fun entry => !(entry.2.expired now || entry.2.idle now)
  nodup := sessions.nodup.sublist (List.filter_sublist.map _)

def perform (now : ℤ) (sessionId : String) (sessions : Sessions) : Effect → Sessions
  | .touchSession => sessions.touch now sessionId
  | .closeSession => sessions.close sessionId
  | .markConnected => (sessions.markConnected now sessionId).toOption.getD sessions
  | _ => sessions

end Sessions

/-- A connection with the parameters of its query. -/
structure Client where
  sessionId : String
  token : String
  connection : Connection

structure World where
  now : ℤ
  sessions : Sessions
  /-- The sessions as they were created. -/
  issued : List SessionRecord
  clients : List Client

def World.start (now : ℤ) : World := ⟨now, .empty, [], []⟩

inductive Action where
  | createSession (sessionId token workspaceId shell : String) (cols rows : Option ℤ)
  | connect (sessionId token : String) (socket : TerminalGateway.Socket)
      (workspaceIdParam : Option String) (validQuery : Bool)
  /-- A step of a connection, with what the sessions service answers it. -/
  | connection (i : ℕ) (a : TerminalGateway.Action)
  | prune
  | wait (ms : ℕ)

/-- The failure of `markConnected`, if it fails. -/
def World.markFailure (w : World) (client : Client) : Option String :=
  match w.sessions.markConnected w.now client.sessionId with
  | .ok _ => none
  | .error code => some code

/-- The step as it is with the answers of the service. -/
def World.resolve (w : World) (client : Client) : TerminalGateway.Action → TerminalGateway.Action
  | .validated _ => .validated
      ((w.sessions.validate w.now client.sessionId client.token).2.map SessionRecord.view)
  | .markConnected _ => .markConnected (w.markFailure client)
  | .startTimers _ => .startTimers w.now
  | a => a

/-- The sessions once the service was asked; a handler that has started asks it no more. -/
def World.consulted (w : World) (client : Client) : TerminalGateway.Action → Sessions
  | .validated _ =>
    if client.connection.started then w.sessions
    else (w.sessions.validate w.now client.sessionId client.token).1
  | _ => w.sessions

def step (w : World) : Action → Option World
  | .createSession sessionId token workspaceId shell cols rows =>
    -- `randomUUID` gives an id that there has not been
    if sessionId ∈ w.issued.map SessionRecord.sessionId then none
    else
      let record := createSession w.now sessionId token workspaceId shell cols rows
      some { w with
        sessions := w.sessions.set sessionId record
        issued := w.issued ++ [record] }
  | .connect sessionId token socket workspaceIdParam validQuery =>
    let connection := Connection.handleConnection socket workspaceIdParam validQuery
    some { w with
      sessions := connection.effects.foldl (Sessions.perform w.now sessionId) w.sessions
      clients := w.clients ++ [⟨sessionId, token, connection⟩] }
  | .connection i a =>
    w.clients[i]?.bind fun client =>
      (TerminalGateway.step client.connection (w.resolve client a)).map fun connection =>
        { w with
          sessions := (connection.effects.drop client.connection.effects.length).foldl
            (Sessions.perform w.now client.sessionId) (w.consulted client a)
          clients := w.clients.set i { client with connection } }
  | .prune => some { w with sessions := w.sessions.prune w.now }
  | .wait ms => some { w with now := w.now + ms }

/-- What a step does; the effects of a connection are those that it adds. -/
inductive Steps (w : World) : Action → World → Prop
  | createSession {sessionId token workspaceId shell cols rows}
    (hfresh : sessionId ∉ w.issued.map SessionRecord.sessionId) :
    Steps w (.createSession sessionId token workspaceId shell cols rows) { w with
      sessions := w.sessions.set sessionId
        (createSession w.now sessionId token workspaceId shell cols rows)
      issued := w.issued ++ [createSession w.now sessionId token workspaceId shell cols rows] }
  | connect {connection} (sessionId token : String) (socket : TerminalGateway.Socket)
    (workspaceIdParam : Option String) (validQuery : Bool)
    (hfresh : TerminalGateway.Fresh connection) :
    Steps w (.connect sessionId token socket workspaceIdParam validQuery) { w with
      sessions := connection.effects.foldl (Sessions.perform w.now sessionId) w.sessions
      clients := w.clients ++ [⟨sessionId, token, connection⟩] }
  | connection {i client connection es} (a : TerminalGateway.Action)
    (hi : w.clients[i]? = some client)
    (hstep : TerminalGateway.step client.connection (w.resolve client a) = some connection)
    (heffects : connection.effects = client.connection.effects ++ es) :
    Steps w (.connection i a) { w with
      sessions := es.foldl (Sessions.perform w.now client.sessionId) (w.consulted client a)
      clients := w.clients.set i { client with connection } }
  | prune : Steps w .prune { w with sessions := w.sessions.prune w.now }
  | wait (ms : ℕ) : Steps w (.wait ms) { w with now := w.now + ms }

variable {w w' : World} {a : Action} {now : ℤ}

theorem steps_of_step (hheld : ∀ client ∈ w.clients, Held client.connection)
    (h : step w a = some w') : Steps w a w' := by
  cases a <;> simp only [step] at h
  case createSession sessionId token workspaceId shell cols rows =>
    split_ifs at h with hissued
    exact Option.some.inj h ▸ .createSession hissued
  case connect sessionId token socket workspaceIdParam validQuery =>
    exact Option.some.inj h ▸ .connect sessionId token socket workspaceIdParam validQuery
      (TerminalGateway.fresh_handleConnection socket workspaceIdParam validQuery)
  case connection i a =>
    obtain ⟨client, hi, h⟩ := Option.bind_eq_some_iff.mp h
    obtain ⟨connection, hstep, rfl⟩ := Option.map_eq_some_iff.mp h
    have huse := (TerminalGateway.step_use hstep (hheld client (List.mem_of_getElem? hi))).2
    obtain ⟨es, heffects, -⟩ := huse.effects
    rw [heffects, List.drop_left]
    exact .connection a hi hstep heffects
  case prune => exact Option.some.inj h ▸ .prune
  case wait ms => exact Option.some.inj h ▸ .wait ms

variable {sessions sessions' sessions'' : Sessions} {sessionId token id : String}
  {record : SessionRecord}

/-- What is there was there, and waits for its connection only if it did. -/
def Shrinks (sessions sessions' : Sessions) : Prop :=
  ∀ id r', sessions'.get id = some r' → ∃ r, sessions.get id = some r ∧ r.token = r'.token ∧
    r.workspaceId = r'.workspaceId ∧ (r'.state = .pending → r.state = .pending)

theorem Shrinks.refl (sessions : Sessions) : Shrinks sessions sessions :=
  fun _ r h => ⟨r, h, rfl, rfl, id⟩

theorem Shrinks.trans (h : Shrinks sessions sessions') (h' : Shrinks sessions' sessions'') :
    Shrinks sessions sessions'' := by
  intro id r'' hr''
  obtain ⟨r', hr', htoken', hworkspace', hstate'⟩ := h' id r'' hr''
  obtain ⟨r, hr, htoken, hworkspace, hstate⟩ := h id r' hr'
  exact ⟨r, hr, htoken.trans htoken', hworkspace.trans hworkspace', fun hp => hstate (hstate' hp)⟩

theorem shrinks_delete (sessions : Sessions) (sessionId : String) :
    Shrinks sessions (sessions.delete sessionId) := by
  intro id r hr
  rw [InsMap.get_delete] at hr
  split_ifs at hr
  exact ⟨r, hr, rfl, rfl, fun hp => hp⟩

theorem shrinks_set {r' : SessionRecord} (h : sessions.get sessionId = some record)
    (htoken : record.token = r'.token) (hworkspace : record.workspaceId = r'.workspaceId)
    (hstate : r'.state = .pending → record.state = .pending) :
    Shrinks sessions (sessions.set sessionId r') := by
  intro id r hr
  rw [InsMap.get_set] at hr
  split_ifs at hr with hid
  · obtain rfl := Option.some.inj hr
    exact ⟨record, hid ▸ h, htoken, hworkspace, hstate⟩
  · exact ⟨r, hr, rfl, rfl, fun hp => hp⟩

theorem shrinks_markConnected (h : sessions.markConnected now sessionId = .ok sessions') :
    Shrinks sessions sessions' := by
  unfold Sessions.markConnected at h
  split at h
  · cases h
  · rename_i record hget
    split_ifs at h
    obtain rfl := Except.ok.inj h
    exact shrinks_set hget rfl rfl SessionState.noConfusion

theorem shrinks_perform (sessions : Sessions) (now : ℤ) (sessionId : String) (e : Effect) :
    Shrinks sessions (sessions.perform now sessionId e) := by
  cases e with
  | touchSession =>
    unfold Sessions.perform Sessions.touch
    dsimp only
    split
    · exact .refl sessions
    · rename_i record hget
      exact shrinks_set hget rfl rfl fun hp => hp
  | closeSession => exact shrinks_delete sessions sessionId
  | markConnected =>
    unfold Sessions.perform
    cases hmark : sessions.markConnected now sessionId with
    | error code => exact .refl sessions
    | ok sessions' => exact shrinks_markConnected hmark
  | _ => exact .refl sessions

theorem shrinks_foldl (sessions : Sessions) (now : ℤ) (sessionId : String) (es : List Effect) :
    Shrinks sessions (es.foldl (Sessions.perform now sessionId) sessions) := by
  induction es generalizing sessions with
  | nil => exact .refl sessions
  | cons e es ih => exact (shrinks_perform sessions now sessionId e).trans (ih _)

theorem shrinks_validate (sessions : Sessions) (now : ℤ) (sessionId token : String) :
    Shrinks sessions (sessions.validate now sessionId token).1 := by
  unfold Sessions.validate
  split
  · exact .refl sessions
  · split_ifs
    · exact .refl sessions
    · exact shrinks_delete sessions sessionId
    · exact shrinks_delete sessions sessionId
    · exact .refl sessions

theorem get_prune (sessions : Sessions) (now : ℤ) (id : String) (record : SessionRecord) :
    (sessions.prune now).get id = some record ↔
      sessions.get id = some record ∧ (record.expired now || record.idle now) = false := by
  rw [InsMap.get_eq_some_iff, InsMap.get_eq_some_iff, Sessions.prune, List.mem_filter]
  simp

theorem shrinks_consulted (w : World) (client : Client) (a : TerminalGateway.Action) :
    Shrinks w.sessions (w.consulted client a) := by
  unfold World.consulted
  split
  · split_ifs
    · exact .refl w.sessions
    · exact shrinks_validate _ _ _ _
  · exact .refl w.sessions

/-- A session that is found valid is there with the token that was given. -/
theorem of_validate (h : (sessions.validate now sessionId token).2 = .ok record) :
    sessions.get sessionId = some record ∧ record.token = token := by
  unfold Sessions.validate at h
  split at h
  · cases h
  · rename_i found hget
    split_ifs at h with htoken
    obtain rfl := Except.ok.inj h
    exact ⟨hget, not_not.mp htoken⟩

structure Exclusive (w : World) : Prop where
  ids : (w.issued.map SessionRecord.sessionId).Nodup
  known : ∀ id r, w.sessions.get id = some r →
    ∃ s ∈ w.issued, s.sessionId = id ∧ s.token = r.token ∧ s.workspaceId = r.workspaceId
  held : ∀ client ∈ w.clients, Held client.connection
  validated : ∀ client ∈ w.clients, ∀ v, client.connection.session = some v →
    ∃ s ∈ w.issued, s.sessionId = client.sessionId ∧ s.token = client.token ∧
      s.workspaceId = v.workspaceId
  pending : ∀ id r, w.sessions.get id = some r → r.state = .pending → ∀ client ∈ w.clients,
    client.sessionId = id → client.connection.sessionMarkedConnected = false
  unique : ∀ (i j : ℕ) (client client' : Client),
    w.clients[i]? = some client → w.clients[j]? = some client' →
    client.sessionId = client'.sessionId → client.connection.sessionMarkedConnected = true →
    client'.connection.sessionMarkedConnected = true → i = j

theorem exclusive_start (now : ℤ) : Exclusive (World.start now) where
  ids := List.nodup_nil
  known := fun _ r h => absurd h.symm (Option.some_ne_none r)
  held := fun _ h => absurd h List.not_mem_nil
  validated := fun _ h => absurd h List.not_mem_nil
  pending := fun _ r h => absurd h.symm (Option.some_ne_none r)
  unique := fun _ _ client _ h => absurd h.symm (Option.some_ne_none client)

/-- A connection is marked only if its session was there and had no connection. -/
theorem pending_of_markFailure {client : Client} (h : w.markFailure client = none) :
    ∃ r, w.sessions.get client.sessionId = some r ∧ r.state = .pending ∧
      w.sessions.perform w.now client.sessionId .markConnected =
        w.sessions.set client.sessionId
          { r with state := .connected, lastActivityAt := w.now } := by
  unfold World.markFailure at h
  split at h
  · rename_i marked hmark
    have hperform : w.sessions.perform w.now client.sessionId .markConnected = marked := by
      rw [Sessions.perform, hmark]
      rfl
    rw [hperform]
    unfold Sessions.markConnected at hmark
    split at hmark
    · cases hmark
    · rename_i r hget
      split_ifs at hmark with hstate
      refine ⟨r, hget, ?_, (Except.ok.inj hmark).symm⟩
      cases hstate' : r.state with
      | pending => rfl
      | connected => exact absurd hstate' hstate
  · cases h

theorem Exclusive.shrinks (h : Exclusive w) (hsessions : Shrinks w.sessions sessions') :
    Exclusive { w with sessions := sessions' } where
  ids := h.ids
  known := fun id r' hr' => by
    obtain ⟨r, hr, htoken, hworkspace, -⟩ := hsessions id r' hr'
    rw [← htoken, ← hworkspace]
    exact h.known id r hr
  held := h.held
  validated := h.validated
  pending := fun id r' hr' hp client hclient hid => by
    obtain ⟨r, hr, -, -, hstate⟩ := hsessions id r' hr'
    exact h.pending id r hr (hstate hp) client hclient hid
  unique := h.unique

theorem Exclusive.createSession (h : Exclusive w) {workspaceId shell : String}
    {cols rows : Option ℤ} (hfresh : sessionId ∉ w.issued.map SessionRecord.sessionId)
    (hrecord : createSession w.now sessionId token workspaceId shell cols rows = record) :
    Exclusive { w with
      sessions := w.sessions.set sessionId record
      issued := w.issued ++ [record] } := by
  have hid : record.sessionId = sessionId := by rw [← hrecord]; rfl
  have hold : ∀ {P : SessionRecord → Prop}, (∃ s ∈ w.issued, P s) →
      ∃ s ∈ w.issued ++ [record], P s :=
    fun ⟨s, hs, hP⟩ => ⟨s, List.mem_append_left _ hs, hP⟩
  have hunmarked : ∀ client ∈ w.clients, client.sessionId = sessionId →
      client.connection.sessionMarkedConnected = false := by
    intro client hclient heq
    cases hmarked : client.connection.sessionMarkedConnected with
    | false => rfl
    | true =>
      obtain ⟨v, hv, -⟩ := (h.held client hclient).checked (.inr hmarked)
      obtain ⟨s, hs, hsession, -⟩ := h.validated client hclient v hv
      exact absurd (List.mem_map.mpr ⟨s, hs, hsession.trans heq⟩) hfresh
  refine ⟨?_, fun id r hr => ?_, h.held,
    fun client hclient v hv => hold (h.validated client hclient v hv),
    fun id r hr hp client hclient heq => ?_, h.unique⟩
  · rw [List.map_append, List.map_singleton, hid]
    exact List.nodup_append.mpr ⟨h.ids, List.nodup_singleton _, fun a ha b hb heq =>
      hfresh (List.mem_singleton.mp hb ▸ heq ▸ ha)⟩
  · rw [InsMap.get_set] at hr
    split_ifs at hr with heq
    · obtain rfl := Option.some.inj hr
      have hmem := List.mem_append_right w.issued (List.mem_singleton_self record)
      exact ⟨record, hmem, hid.trans heq.symm, rfl, rfl⟩
    · exact hold (h.known id r hr)
  · rw [InsMap.get_set] at hr
    split_ifs at hr with hnew
    · exact hunmarked client hclient (heq.trans hnew)
    · exact h.pending id r hr hp client hclient heq

theorem Exclusive.connect (h : Exclusive w) {connection : Connection} (sessionId token : String)
    (hfresh : TerminalGateway.Fresh connection) :
    Exclusive { w with clients := w.clients ++ [⟨sessionId, token, connection⟩] } := by
  have hunmarked : connection.sessionMarkedConnected = false := by
    have hholds := hfresh.holds
    rw [Connection.holds, Bool.or_eq_false_iff] at hholds
    exact hholds.1
  have hcases : ∀ {P : Client → Prop}, (∀ client ∈ w.clients, P client) →
      P ⟨sessionId, token, connection⟩ →
      ∀ client ∈ w.clients ++ [⟨sessionId, token, connection⟩], P client := by
    intro P hold hnew client hclient
    obtain hclient | hclient := List.mem_append.mp hclient
    · exact hold client hclient
    · exact List.mem_singleton.mp hclient ▸ hnew
  have hget : ∀ {i : ℕ} {client : Client},
      (w.clients ++ [⟨sessionId, token, connection⟩])[i]? = some client →
      client.connection.sessionMarkedConnected = true → w.clients[i]? = some client := by
    intro i client hi hmarked
    rw [List.getElem?_append] at hi
    split_ifs at hi with hlt
    · exact hi
    · have hnew := List.mem_singleton.mp (List.mem_of_getElem? hi)
      rw [hnew, hunmarked] at hmarked
      exact absurd hmarked Bool.false_ne_true
  refine ⟨h.ids, h.known, hcases h.held hfresh.held, hcases h.validated fun v hv => ?_,
    fun id r hr hp => hcases (h.pending id r hr hp) fun _ => hunmarked,
    fun i j client client' hi hj hid hmarked hmarked' =>
      h.unique i j client client' (hget hi hmarked) (hget hj hmarked') hid hmarked hmarked'⟩
  exact absurd (hfresh.session.symm.trans hv).symm (Option.some_ne_none v)

/-- The session that a connection is given was issued with the token of its query. -/
theorem of_resolve_validated {client : Client} {a : TerminalGateway.Action}
    {v : TerminalSessionRecord} (h : w.resolve client a = .validated (.ok v)) :
    ∃ r, w.sessions.get client.sessionId = some r ∧ r.token = client.token ∧
      r.workspaceId = v.workspaceId := by
  cases a <;> simp only [World.resolve] at h <;>
    try exact absurd h TerminalGateway.Action.noConfusion
  have hvalid := TerminalGateway.Action.validated.inj h
  cases hresult : (w.sessions.validate w.now client.sessionId client.token).2 with
  | error code =>
    rw [hresult] at hvalid
    cases hvalid
  | ok r =>
    rw [hresult] at hvalid
    obtain ⟨hget, htoken⟩ := of_validate hresult
    exact ⟨r, hget, htoken, congrArg TerminalSessionRecord.workspaceId (Except.ok.inj hvalid)⟩

theorem of_resolve_markConnected {client : Client} {a : TerminalGateway.Action}
    (h : w.resolve client a = .markConnected none) :
    w.markFailure client = none ∧ w.consulted client a = w.sessions := by
  cases a <;> simp only [World.resolve] at h <;>
    try exact absurd h TerminalGateway.Action.noConfusion
  exact ⟨TerminalGateway.Action.markConnected.inj h, rfl⟩

theorem Exclusive.connection (h : Exclusive w) {i : ℕ} {client : Client} {connection : Connection}
    {es : List Effect} {a : TerminalGateway.Action} (hi : w.clients[i]? = some client)
    (hstep : TerminalGateway.step client.connection (w.resolve client a) = some connection)
    (heffects : connection.effects = client.connection.effects ++ es) :
    Exclusive { w with
      sessions := es.foldl (Sessions.perform w.now client.sessionId) (w.consulted client a)
      clients := w.clients.set i { client with connection } } := by
  have hclient := List.mem_of_getElem? hi
  obtain ⟨hheld, huse⟩ := TerminalGateway.step_use hstep (h.held client hclient)
  have hshrinks := (shrinks_consulted w client a).trans
    (shrinks_foldl (w.consulted client a) w.now client.sessionId es)
  -- a connection that is newly marked has found its session waiting, and leaves it connected
  have hmarks : connection.sessionMarkedConnected = client.connection.sessionMarkedConnected ∨
      (∃ r, w.sessions.get client.sessionId = some r ∧ r.state = .pending) ∧
        ∀ r, (es.foldl (Sessions.perform w.now client.sessionId) (w.consulted client a)).get
          client.sessionId = some r → r.state = .connected := by
    refine huse.marked.imp_right fun hmarked => ?_
    obtain ⟨hresolve, -, hmark⟩ := hmarked
    obtain ⟨hfailure, hconsulted⟩ := of_resolve_markConnected hresolve
    obtain ⟨r, hget, hpending, hperform⟩ := pending_of_markFailure hfailure
    obtain rfl : es = [.markConnected] := List.append_cancel_left (heffects.symm.trans hmark)
    refine ⟨⟨r, hget, hpending⟩, fun r' hr' => ?_⟩
    rw [List.foldl_cons, List.foldl_nil, hconsulted, hperform, InsMap.get_set_self] at hr'
    exact Option.some.inj hr' ▸ rfl
  have hcases : ∀ {x : Client}, x ∈ w.clients.set i { client with connection } →
      x ∈ w.clients ∨ x = { client with connection } := fun hx => List.mem_or_eq_of_mem_set hx
  obtain ⟨hids, hknown, hheld', hvalidated, hpending, hunique⟩ := h.shrinks hshrinks
  refine ⟨hids, hknown, fun x hx => ?_, fun x hx v hv => ?_, fun id r hr hp x hx hid => ?_, ?_⟩
  · obtain hx | rfl := hcases hx
    · exact h.held x hx
    · exact hheld
  · obtain hx | rfl := hcases hx
    · exact h.validated x hx v hv
    · obtain hsame | ⟨v', hresolve, hsession⟩ := huse.session
      · exact h.validated client hclient v (hsame.symm.trans hv)
      · obtain rfl : v' = v := Option.some.inj (hsession.symm.trans hv)
        obtain ⟨r, hget, htoken, hworkspace⟩ := of_resolve_validated hresolve
        rw [← htoken, ← hworkspace]
        exact h.known client.sessionId r hget
  · obtain hx | rfl := hcases hx
    · exact hpending id r hr hp x hx hid
    · obtain hsame | ⟨-, hconnected⟩ := hmarks
      · exact hsame.trans (hpending id r hr hp client hclient hid)
      · subst hid
        exact absurd ((hconnected r hr).symm.trans hp) SessionState.noConfusion
  · have hnew : ∀ (j : ℕ) (other : Client), w.clients[j]? = some other →
        client.sessionId = other.sessionId → connection.sessionMarkedConnected = true →
        other.connection.sessionMarkedConnected = true → i = j := by
      intro j other hj hid hmarked hother
      obtain hsame | ⟨⟨r, hget, hpending⟩, -⟩ := hmarks
      · exact h.unique i j client other hi hj hid (hsame ▸ hmarked) hother
      · have hunmarked := h.pending _ r hget hpending other (List.mem_of_getElem? hj) hid.symm
        exact absurd (hunmarked.symm.trans hother) Bool.false_ne_true
    have hget : ∀ {j : ℕ} {x : Client},
        (w.clients.set i { client with connection })[j]? = some x →
        i = j ∧ x = { client with connection } ∨ w.clients[j]? = some x := by
      intro j x hj
      rw [List.getElem?_set] at hj
      split_ifs at hj with hij
      · exact .inl ⟨hij, (Option.some.inj hj).symm⟩
      · exact .inr hj
    intro j k x y hj hk hid hx hy
    obtain ⟨rfl, rfl⟩ | hj := hget hj <;> obtain ⟨hik, rfl⟩ | hk := hget hk
    · exact hik
    · exact hnew k y hk hid hx hy
    · exact hik ▸ (hnew j x hj hid.symm hy hx).symm
    · exact h.unique j k x y hj hk hid hx hy

theorem exclusive_of_step (h : step w a = some w') (hw : Exclusive w) : Exclusive w' := by
  cases steps_of_step hw.held h with
  | createSession hfresh => exact hw.createSession hfresh rfl
  | connect sessionId token socket workspaceIdParam validQuery hfresh =>
    exact (hw.shrinks (shrinks_foldl _ _ _ _)).connect sessionId token hfresh
  | connection a hi hstep heffects => exact hw.connection hi hstep heffects
  | prune =>
    refine hw.shrinks fun id r hr => ?_
    exact ⟨r, ((get_prune _ _ id r).mp hr).1, rfl, rfl, fun hp => hp⟩
  | wait ms => exact ⟨hw.ids, hw.known, hw.held, hw.validated, hw.pending, hw.unique⟩

theorem exclusive_of_run {start : ℤ} {ok : World → Action → Prop}
    (h : Reached step ok (World.start start) w) : Exclusive w :=
  h.invariant (exclusive_start start) fun _ _ _ hw _ hstep => exclusive_of_step hstep hw

/-- In every interleaving of connections, at most one connection of a session is ever served by its
terminal, and it has shown the token of the session on the route of its workspace. -/
theorem exclusive_of_reached {start : ℤ}
    (h : Reached step (fun _ _ => True) (World.start start) w) {i : ℕ} {client : Client}
    (hi : w.clients[i]? = some client) (hlive : client.connection.live = true) :
    (∃ s ∈ w.issued, s.sessionId = client.sessionId ∧ s.token = client.token ∧
      s.workspaceId = client.connection.workspaceIdParam ∧
      ∀ s' ∈ w.issued, s'.sessionId = s.sessionId → s' = s) ∧
    ∀ (j : ℕ) (other : Client), w.clients[j]? = some other →
      other.sessionId = client.sessionId → other.connection.live = true → j = i := by
  have hw := exclusive_of_run h
  have hclient := List.mem_of_getElem? hi
  have hmarked := (hw.held client hclient).live hlive
  constructor
  · obtain ⟨v, hv, hparam⟩ := (hw.held client hclient).checked (.inr hmarked)
    obtain ⟨s, hs, hid, htoken, hworkspace⟩ := hw.validated client hclient v hv
    refine ⟨s, hs, hid, htoken, hworkspace.trans hparam.symm, fun s' hs' heq => ?_⟩
    exact List.inj_on_of_nodup_map hw.ids hs' hs heq
  · intro j other hj hid hother
    have hmarked' := (hw.held other (List.mem_of_getElem? hj)).live hother
    exact hw.unique j i other client hj hi hid hmarked' hmarked

/-- Two connections come in with one session; both open an exec, and the first is marked. -/
def twoClients : List Action :=
  [.createSession "session" "token" "workspace" "/bin/sh" none none,
    .connect "session" "token" .open (some "workspace") true,
    .connect "session" "token" .open (some "workspace") true,
    .connection 0 .earlyTimeout, .connection 1 .earlyTimeout,
    .connection 0 (.validated (.error "")), .connection 1 (.validated (.error "")),
    .connection 0 (.startTimers 0), .connection 1 (.startTimers 0),
    .connection 0 (.opened TerminalGateway.plainExec),
    .connection 1 (.opened TerminalGateway.plainExec), .connection 0 (.markConnected none),
    .connection 1 (.markConnected none), .connection 0 .running, .connection 0 .resized]

theorem exclusive_of_reached_twoClients : ∃ (w : World) (client : Client),
    w.clients[0]? = some client ∧ client.connection.live = true ∧
      ∀ (j : ℕ) (other : Client), w.clients[j]? = some other →
        other.sessionId = client.sessionId → other.connection.live = true → j = 0 := by
  have hrun : ((runFrom step (World.start 0) twoClients).any fun w =>
      (w.clients[0]?).any fun client => client.connection.live) = true := by
    decide +kernel
  obtain ⟨w, hw, hlive⟩ := (Option.any_eq_true _ _).mp hrun
  obtain ⟨client, hi, hlive⟩ := (Option.any_eq_true _ _).mp hlive
  exact ⟨w, client, hi, hlive, (exclusive_of_reached (Reached.of_run hw) hi hlive).2⟩

def Waits (sessions : Sessions) (s : SessionRecord) : Prop :=
  ∃ r, sessions.get s.sessionId = some r ∧ r.state = .pending ∧ r.token = s.token ∧
    r.createdAt = s.createdAt ∧ r.idleTimeoutMs = defaultIdleTimeoutMs ∧
    r.maxDurationMs = defaultMaxDurationMs ∧ s.createdAt ≤ r.lastActivityAt

variable {s : SessionRecord}

theorem kept_of_young {r : SessionRecord} (hyoung : now < s.createdAt + defaultIdleTimeoutMs)
    (hcreated : r.createdAt = s.createdAt) (hidle : r.idleTimeoutMs = defaultIdleTimeoutMs)
    (hmax : r.maxDurationMs = defaultMaxDurationMs) (hactive : s.createdAt ≤ r.lastActivityAt) :
    r.expired now = false ∧ r.idle now = false := by
  rw [SessionRecord.expired, SessionRecord.idle, hcreated, hidle, hmax, decide_eq_false_iff_not,
    decide_eq_false_iff_not]
  unfold defaultIdleTimeoutMs at hyoung ⊢
  unfold defaultMaxDurationMs
  omega

theorem Waits.validate (h : Waits sessions s) (hyoung : now < s.createdAt + defaultIdleTimeoutMs)
    (id token : String) : Waits (sessions.validate now id token).1 s := by
  obtain ⟨r, hget, hp, htoken, hcreated, hidle, hmax, hactive⟩ := h
  obtain ⟨hexpired, hnotIdle⟩ := kept_of_young hyoung hcreated hidle hmax hactive
  refine ⟨r, ?_, hp, htoken, hcreated, hidle, hmax, hactive⟩
  have hdelete : id ≠ s.sessionId → (sessions.delete id).get s.sessionId = some r := fun hne =>
    (InsMap.get_delete_ne _ (Ne.symm hne)).trans hget
  by_cases hid : id = s.sessionId
  · subst hid
    unfold Sessions.validate
    simp only [hget, hexpired, hnotIdle, Bool.false_eq_true, if_false]
    split_ifs <;> exact hget
  · unfold Sessions.validate
    split
    · exact hget
    · split_ifs
      · exact hget
      · exact hdelete hid
      · exact hdelete hid
      · exact hget

/-- Only the connections of a session touch it. -/
theorem get_perform_ne (sessions : Sessions) (now : ℤ) {sessionId : String} (e : Effect)
    (hne : id ≠ sessionId) : (sessions.perform now sessionId e).get id = sessions.get id := by
  cases e with
  | touchSession =>
    unfold Sessions.perform Sessions.touch
    dsimp only
    split
    · rfl
    · exact InsMap.get_set_ne _ _ hne
  | closeSession => exact InsMap.get_delete_ne _ hne
  | markConnected =>
    unfold Sessions.perform Sessions.markConnected
    dsimp only
    split
    · rfl
    · split_ifs
      · rfl
      · exact InsMap.get_set_ne _ _ hne
  | _ => rfl

theorem Waits.perform (h : Waits sessions s) (hnow : s.createdAt ≤ now) {sessionId : String}
    {e : Effect} (hkeeps : sessionId = s.sessionId → e ≠ .closeSession ∧ e ≠ .markConnected) :
    Waits (sessions.perform now sessionId e) s := by
  by_cases hid : s.sessionId = sessionId
  · obtain ⟨hclose, hmark⟩ := hkeeps hid.symm
    cases e with
    | closeSession => exact absurd rfl hclose
    | markConnected => exact absurd rfl hmark
    | touchSession =>
      obtain ⟨r, hget, hp, htoken, hcreated, hidle, hmax, -⟩ := h
      subst hid
      refine ⟨{ r with lastActivityAt := now }, ?_, hp, htoken, hcreated, hidle, hmax, hnow⟩
      unfold Sessions.perform Sessions.touch
      simp only [hget]
      exact InsMap.get_set_self _ _ _
    | _ => exact h
  · obtain ⟨r, hget, hrest⟩ := h
    exact ⟨r, (get_perform_ne sessions now e hid).trans hget, hrest⟩

theorem Waits.foldl (h : Waits sessions s) (hnow : s.createdAt ≤ now) {sessionId : String}
    {es : List Effect}
    (hkeeps : sessionId = s.sessionId → .closeSession ∉ es ∧ .markConnected ∉ es) :
    Waits (es.foldl (Sessions.perform now sessionId) sessions) s := by
  induction es generalizing sessions with
  | nil => exact h
  | cons e es ih =>
    refine ih (h.perform hnow fun hid => ?_) fun hid => ?_
    · obtain ⟨hclose, hmark⟩ := hkeeps hid
      exact ⟨fun heq => hclose (heq ▸ List.mem_cons_self),
        fun heq => hmark (heq ▸ List.mem_cons_self)⟩
    · exact (hkeeps hid).imp (fun hclose hmem => hclose (List.mem_cons_of_mem e hmem))
        fun hmark hmem => hmark (List.mem_cons_of_mem e hmem)

def World.Unheld (w : World) (s : SessionRecord) : Prop :=
  ∀ client ∈ w.clients, client.sessionId = s.sessionId → client.connection.holds = false

/-- A young session that no connection holds waits. -/
def Present (w : World) : Prop :=
  ∀ s ∈ w.issued, s.createdAt ≤ w.now ∧
    (w.now < s.createdAt + defaultIdleTimeoutMs → w.Unheld s → Waits w.sessions s)

theorem present_of_step (h : step w a = some w') (hw : Exclusive w) (hpresent : Present w) :
    Present w' := by
  cases steps_of_step hw.held h with
  | @createSession sessionId token workspaceId shell cols rows hfresh =>
    intro s hs
    obtain hs | hs := List.mem_append.mp hs
    · refine ⟨(hpresent s hs).1, fun hyoung hunheld => ?_⟩
      obtain ⟨r, hget, hrest⟩ := (hpresent s hs).2 hyoung hunheld
      have hne : s.sessionId ≠ sessionId := fun heq => hfresh (List.mem_map.mpr ⟨s, hs, heq⟩)
      exact ⟨r, (InsMap.get_set_ne _ _ hne).trans hget, hrest⟩
    · obtain rfl := List.mem_singleton.mp hs
      refine ⟨le_refl _, fun _ _ => ?_⟩
      exact ⟨_, InsMap.get_set_self _ _ _, rfl, rfl, rfl, rfl, rfl, le_refl _⟩
  | @connect connection sessionId token _ _ _ hfresh =>
    refine fun s hs => ⟨(hpresent s hs).1, fun hyoung hunheld => ?_⟩
    have hold : w.Unheld s := fun client hclient => hunheld client (List.mem_append_left _ hclient)
    exact ((hpresent s hs).2 hyoung hold).foldl (hpresent s hs).1 fun _ => hfresh.effects
  | @connection i client connection es a hi hstep heffects =>
    intro s hs
    refine ⟨(hpresent s hs).1, fun hyoung hunheld => ?_⟩
    have hclient := List.mem_of_getElem? hi
    have huse := (TerminalGateway.step_use hstep (hw.held client hclient)).2
    have hnew : client.sessionId = s.sessionId → connection.holds = false := by
      refine hunheld { client with connection } ?_
      exact List.mem_set (List.getElem?_eq_some_iff.mp hi).1 _
    have hold : w.Unheld s := by
      intro other hother hid
      obtain ⟨j, hj⟩ := List.mem_iff_getElem?.mp hother
      by_cases hij : i = j
      · obtain rfl := Option.some.inj (hi.symm.trans (hij ▸ hj))
        cases hholds : client.connection.holds with
        | false => rfl
        | true => exact absurd (huse.holds hholds) (hnew hid ▸ Bool.false_ne_true)
      · refine hunheld other (List.mem_iff_getElem?.mpr ⟨j, ?_⟩) hid
        rw [List.getElem?_set_ne hij]
        exact hj
    have hwaits := (hpresent s hs).2 hyoung hold
    have hconsulted : Waits (w.consulted client a) s := by
      unfold World.consulted
      split
      · split_ifs
        · exact hwaits
        · exact hwaits.validate hyoung _ _
      · exact hwaits
    refine hconsulted.foldl (hpresent s hs).1 fun hid => ?_
    obtain ⟨es', heffects', hheld⟩ := huse.effects
    obtain rfl := List.append_cancel_left (heffects.symm.trans heffects')
    have hnone : ¬ (.closeSession ∈ es ∨ .markConnected ∈ es) := fun hmem =>
      absurd (hheld hmem) (hnew hid ▸ Bool.false_ne_true)
    exact not_or.mp hnone
  | prune =>
    refine fun s hs => ⟨(hpresent s hs).1, fun hyoung hunheld => ?_⟩
    obtain ⟨r, hget, hp, htoken, hcreated, hidle, hmax, hactive⟩ :=
      (hpresent s hs).2 hyoung hunheld
    obtain ⟨hexpired, hnotIdle⟩ := kept_of_young hyoung hcreated hidle hmax hactive
    refine ⟨r, (get_prune _ _ _ r).mpr ⟨hget, ?_⟩, hp, htoken, hcreated, hidle, hmax, hactive⟩
    rw [hexpired, hnotIdle]
    rfl
  | wait ms =>
    refine fun s hs => ⟨?_, fun hyoung hunheld => (hpresent s hs).2 ?_ hunheld⟩
    · exact (hpresent s hs).1.trans (Int.le_add_of_nonneg_right (Int.natCast_nonneg ms))
    · exact lt_of_le_of_lt (Int.le_add_of_nonneg_right (Int.natCast_nonneg ms)) hyoung

/-- A session of which no connection has opened an exec or been marked is valid for its token and
without a connection until it is idle for too long, whatever other connections come and go. -/
theorem valid_of_reached {start : ℤ}
    (h : Reached step (fun _ _ => True) (World.start start) w) (hs : s ∈ w.issued)
    (hyoung : w.now < s.createdAt + defaultIdleTimeoutMs) (hunheld : w.Unheld s) :
    ∃ r, w.sessions.validate w.now s.sessionId s.token = (w.sessions, .ok r) ∧
      r.state = .pending := by
  have hpresent : Present w := by
    clear hs hyoung hunheld
    induction h with
    | init => exact fun _ hs => absurd hs List.not_mem_nil
    | step a hreached _ hstep ih => exact present_of_step hstep (exclusive_of_run hreached) ih
  obtain ⟨r, hget, hp, htoken, hcreated, hidle, hmax, hactive⟩ := (hpresent s hs).2 hyoung hunheld
  obtain ⟨hexpired, hnotIdle⟩ := kept_of_young hyoung hcreated hidle hmax hactive
  refine ⟨r, ?_, hp⟩
  unfold Sessions.validate
  simp only [hget, htoken, hexpired, hnotIdle, ne_eq, not_true_eq_false, Bool.false_eq_true,
    if_false]

/-- A connection leaves before its exec is opened, another one comes with a wrong token. -/
def leftEarly : List Action :=
  [.createSession "session" "token" "workspace" "/bin/sh" none none,
    .connect "session" "token" .open (some "workspace") true, .wait 1000,
    .connection 0 .earlyTimeout, .connection 0 (.validated (.error "")),
    .connection 0 .socketClosing, .connection 0 .socketClosed,
    .connect "session" "guess" .open (some "workspace") true, .connection 1 .earlyTimeout,
    .connection 1 (.validated (.error "")), .prune]

theorem valid_of_reached_leftEarly : ∃ (w : World) (s : SessionRecord), s ∈ w.issued ∧
    ∃ r, w.sessions.validate w.now s.sessionId s.token = (w.sessions, .ok r) ∧
      r.state = .pending := by
  have hrun : ((runFrom step (World.start 0) leftEarly).any fun w => w.issued.any fun s =>
      decide (w.now < s.createdAt + defaultIdleTimeoutMs) && w.clients.all fun client =>
        !client.connection.holds) = true := by
    decide +kernel
  obtain ⟨w, hw, hissued⟩ := (Option.any_eq_true _ _).mp hrun
  obtain ⟨s, hs, hholds⟩ := List.any_eq_true.mp hissued
  obtain ⟨hyoung, hunheld⟩ := (Bool.and_eq_true _ _).mp hholds
  refine ⟨w, s, hs, valid_of_reached (Reached.of_run hw) hs (of_decide_eq_true hyoung) ?_⟩
  exact fun client hclient _ => by simpa using List.all_eq_true.mp hunheld client hclient

end Agyn.TerminalSessions
