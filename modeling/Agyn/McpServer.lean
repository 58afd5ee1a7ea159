import Agyn.ContainerEvents
import Agyn.GuardedRuns
import Agyn.NodeRequests
import Mathlib.Algebra.Order.Ring.Rat

/-!
The life cycle of a local MCP server node. `provision` discovers the tools in a promise of its own
that swallows its failures; `deprovision` and `setState` run to their end at once and may come
wherever that work waits. What of the configuration, of the attached services and of the tool
schemas matters here does not change in a run.
-/
namespace Agyn.McpServer

open ContainerEvents (truthy)
open NodeLifecycle (NodeStatusState)

structure McpTool where
  name : String
  description : Option String
  deriving DecidableEq

structure LocalMCPServerTool where
  name : String
  description : String
  deriving DecidableEq

/-- The node's configuration and what is attached to it. -/
structure Host where
  configNamespace : Option String
  command : Option String
  staleTimeoutMs : Option ℚ
  mcpToolsStaleTimeoutMs : Option ℚ
  containerProvider : Bool
  nodeStateService : Bool
  /-- `jsonSchemaToZod` takes the schema of the tool. -/
  converts : McpTool → Bool

/-- What the work of `provision` waits for, from the workspace of the discovery on. The last three
say whether the tools have been found, by this discovery or before it. -/
inductive Phase where
  | providing
  | resolving
  | connecting
  | listing
  | persisting
  | closing (found : Bool)
  | returning (found : Bool)
  | starting (found : Bool)
  deriving DecidableEq

/-- How a node came to be ready: with its tools found by the start, or with tools in its cache. -/
structure Readied where
  found : Bool
  cached : Bool
  deriving DecidableEq

structure LocalMCPServerNode where
  status : NodeStatusState
  started : Bool
  toolsCache : Option (List LocalMCPServerTool)
  toolsDiscovered : Bool
  lastToolsUpdatedAt : Option ℚ
  lastEnabledTools : Option (List String)
  provInFlight : Option Phase
  /-- `deprovision` has been called since the last call of `provision`. -/
  deprovisioned : Bool
  /-- Each time the status was set to ready. -/
  readied : List Readied
  deriving DecidableEq

structure PersistedMcpState where
  tools : Option (List McpTool)
  /-- The time that a number, a date or a string says, if it is finite. -/
  toolsUpdatedAt : Option ℚ
  enabledTools : Option (List String)

namespace LocalMCPServerNode

variable (host : Host)

def init : LocalMCPServerNode := ⟨.notReady, false, none, false, none, none, none, false, []⟩

def createLocalTool (tool : McpTool) : Option LocalMCPServerTool :=
  if host.converts tool then some ⟨tool.name, (truthy tool.description).getD "MCP tool"⟩ else none

def createLocalTools (tools : List McpTool) : Option (List LocalMCPServerTool) :=
  tools.mapM (createLocalTool host)

def preloadCachedTools (tools : List McpTool) (updatedAt : Option ℚ) (n : LocalMCPServerNode) :
    LocalMCPServerNode :=
  match createLocalTools host tools with
  | none => n
  | some created =>
    { n with
      toolsCache := some created
      toolsDiscovered := true
      lastToolsUpdatedAt := updatedAt <|> n.lastToolsUpdatedAt }

/-- A state without the field `mcp` enables no tools. -/
def setState (state : Option PersistedMcpState) (n : LocalMCPServerNode) : LocalMCPServerNode :=
  let n := match state.bind (·.tools) with
    | none => n
    | some tools => n.preloadCachedTools host tools (state.bind (·.toolsUpdatedAt))
  { n with lastEnabledTools := state.bind (·.enabledTools) }

def isStale (now : ℚ) (n : LocalMCPServerNode) : Bool :=
  let staleTimeout := (host.staleTimeoutMs <|> host.mcpToolsStaleTimeoutMs).getD 0
  if staleTimeout = 0 then false
  else
    let last := n.lastToolsUpdatedAt.getD 0
    decide (last ≤ 0) || decide (staleTimeout < now - last)

/-- `discoverTools` up to the first thing it waits for; a throw is caught by `startOnce`. -/
def discoverTools (n : LocalMCPServerNode) : Phase :=
  if host.containerProvider = false ∨ truthy host.command = none then .starting false
  else if n.toolsDiscovered ∧ n.toolsCache.isSome then .returning true
  else .providing

def startOnce (now : ℚ) (n : LocalMCPServerNode) : LocalMCPServerNode :=
  if !n.toolsDiscovered || n.isStale host now then
    { n with provInFlight := some (n.discoverTools host) }
  else { n with started := true, provInFlight := some (.starting true) }

def provision (now : ℚ) (n : LocalMCPServerNode) : LocalMCPServerNode :=
  if n.status = .ready then n
  else if n.provInFlight.isSome then n
  else if n.started then n
  else if host.containerProvider = false ∨ truthy host.command = none then
    { n with status := .provisioningError }
  else { n with status := .provisioning }.startOnce host now

def deprovision (n : LocalMCPServerNode) : LocalMCPServerNode :=
  if n.status = .notReady then n
  else
    { n with
      started := false
      toolsCache := none
      toolsDiscovered := false
      status := .notReady }

/-- The answer of the server to `tools/list`: the tools are kept before the state is persisted. -/
def listed (tools : Option (List McpTool)) (now : ℚ) (n : LocalMCPServerNode) :
    LocalMCPServerNode :=
  match tools.bind (createLocalTools host) with
  | none => { n with provInFlight := some (.closing false) }
  | some created =>
    { n with
      toolsCache := some created
      toolsDiscovered := true
      lastToolsUpdatedAt := some now
      provInFlight := some (if host.nodeStateService then .persisting else .closing true) }

/-- `startOnce` has returned to `provision`. -/
def finish (found : Bool) (n : LocalMCPServerNode) : LocalMCPServerNode :=
  if n.started then
    { n with
      status := .ready
      provInFlight := none
      readied := n.readied ++ [⟨found, n.toolsDiscovered⟩] }
  else { n with provInFlight := none }

def toRuntimeName (name : String) : String :=
  let ns := host.configNamespace.getD "mcp"
  let start := if ns = "" then "" else ns ++ "_"
  if start = "" then name
  else if start.toList.isPrefixOf name.toList then name else start ++ name

def runtimeName (tool : LocalMCPServerTool) : String :=
  match truthy host.configNamespace with
  | some ns => ns ++ "_" ++ tool.name
  | none => tool.name

/-- The cached tools that are enabled, in the state of the node if there is one. -/
def listTools (snapshot : Option (List String)) (n : LocalMCPServerNode) :
    List LocalMCPServerTool :=
  match snapshot <|> n.lastEnabledTools with
  | none => []
  | some enabledList =>
    let wanted := enabledList.map (toRuntimeName host)
    (n.toolsCache.getD []).filter fun tool => wanted.contains (runtimeName host tool)

end LocalMCPServerNode

inductive Action where
  | provision (now : ℚ)
  | deprovision
  | setState (state : Option PersistedMcpState)
  /-- The workspace of the discovery, and then its environment, has been made or not. -/
  | provided (success : Bool)
  | resolved (success : Bool)
  | connected (success : Bool)
  | listed (tools : Option (List McpTool)) (now : ℚ)
  | persisted
  /-- The client, the transport and the workspace are closed, whatever that says. -/
  | closed
  | returned
  | finished

/-- What the work waits for next, where nothing but that changes. -/
def Phase.next : Phase → Action → Option Phase
  | .providing, .provided success => some (if success then .resolving else .starting false)
  | .resolving, .resolved success => some (if success then .connecting else .starting false)
  | .connecting, .connected success => some (if success then .listing else .closing false)
  | .persisting, .persisted => some (.closing true)
  | .closing found, .closed => some (.returning found)
  | _, _ => none

def advance (n : LocalMCPServerNode) (a : Action) : Option LocalMCPServerNode :=
  (n.provInFlight.bind fun phase => phase.next a).map fun next =>
    { n with provInFlight := some next }

def step (host : Host) (n : LocalMCPServerNode) : Action → Option LocalMCPServerNode
  | .provision now => some { n.provision host now with deprovisioned := false }
  | .deprovision => some { n.deprovision with deprovisioned := true }
  | .setState state => some (n.setState host state)
  | .listed tools now =>
    if n.provInFlight = some .listing then some (n.listed host tools now) else none
  | .returned =>
    match n.provInFlight with
    | some (.returning found) =>
      some { n with started := true, provInFlight := some (.starting found) }
    | _ => none
  | .finished =>
    match n.provInFlight with
    | some (.starting found) => some (n.finish found)
    | _ => none
  | a => advance n a

def preloaded (host : Host) (state : Option PersistedMcpState) : List LocalMCPServerTool :=
  ((state.bind (·.tools)).bind (LocalMCPServerNode.createLocalTools host)).getD []

/-- A start goes on after a discovery only with tools, and while the node is to be provisioned; a
node that is to be deprovisioned is given no tools, and one that is not ready has none to clear. -/
def Orderly (host : Host) (n : LocalMCPServerNode) : Action → Prop
  | .returned => n.deprovisioned = false ∧
      (n.provInFlight = some (.returning false) → n.toolsDiscovered = true)
  | .setState state => n.deprovisioned = true → preloaded host state = []
  | .deprovision => n.status = .notReady → n.started = false ∧ n.toolsCache.getD [] = []
  | _ => True

instance (host : Host) (n : LocalMCPServerNode) (a : Action) : Decidable (Orderly host n a) := by
  cases a <;> unfold Orderly <;> infer_instance

/-- The work has tools to give, or has not come to the end of the discovery that it makes. -/
def Phase.discovered : Phase → Bool
  | .persisting | .closing _ | .returning _ => true
  | _ => false

def Phase.isStarting : Phase → Bool
  | .starting _ => true
  | _ => false

/-- What holds throughout: a node that is to be deprovisioned is down, with tools at most while a
discovery still has to come back, and a start that has succeeded has its tools. -/
structure Consistent (n : LocalMCPServerNode) : Prop where
  down : n.deprovisioned = true → n.status = .notReady ∧ n.started = false
  cleared : n.deprovisioned = true → (∀ phase ∈ n.provInFlight, phase.discovered = false) →
    n.toolsCache.getD [] = []
  working : ∀ phase ∈ n.provInFlight, phase.isStarting = false → n.started = false
  earned : n.provInFlight = some (.starting false) → n.started = true → n.toolsDiscovered = true
  readied : ∀ r ∈ n.readied, r.found = true ∨ r.cached = true

variable {host : Host} {n n' : LocalMCPServerNode}

theorem consistent_init : Consistent .init :=
  ⟨nofun, fun _ _ => rfl, nofun, nofun, nofun⟩

theorem Consistent.provision (h : Consistent n) (now : ℚ) :
    Consistent { n.provision host now with deprovisioned := false } := by
  rw [LocalMCPServerNode.provision]
  split_ifs with hready hflight hstarted hdeps
  · exact ⟨nofun, nofun, h.working, h.earned, h.readied⟩
  · exact ⟨nofun, nofun, h.working, h.earned, h.readied⟩
  · exact ⟨nofun, nofun, h.working, h.earned, h.readied⟩
  · exact ⟨nofun, nofun, h.working, h.earned, h.readied⟩
  · have hstopped : n.started = false := by simpa using hstarted
    rw [LocalMCPServerNode.startOnce]
    split_ifs with hdiscover
    · refine ⟨nofun, nofun, fun _ _ _ => hstopped, fun _ hstart => ?_, h.readied⟩
      exact absurd (hstopped.symm.trans hstart) Bool.false_ne_true
    · refine ⟨nofun, nofun, fun phase hphase hstarting => ?_, nofun, h.readied⟩
      obtain rfl := Option.some.inj hphase
      cases hstarting

theorem Consistent.deprovision (h : Consistent n)
    (hclear : n.status = .notReady → n.started = false ∧ n.toolsCache.getD [] = []) :
    Consistent { n.deprovision with deprovisioned := true } := by
  rw [LocalMCPServerNode.deprovision]
  split_ifs with hstatus
  · exact ⟨fun _ => ⟨hstatus, (hclear hstatus).1⟩, fun _ _ => (hclear hstatus).2, h.working,
      h.earned, h.readied⟩
  · exact ⟨fun _ => ⟨rfl, rfl⟩, fun _ _ => rfl, fun _ _ _ => rfl, nofun, h.readied⟩

theorem Consistent.setState (h : Consistent n) (state : Option PersistedMcpState)
    (hempty : n.deprovisioned = true → preloaded host state = []) :
    Consistent (n.setState host state) := by
  have hkept : Consistent { n with lastEnabledTools := state.bind (·.enabledTools) } :=
    ⟨h.down, h.cleared, h.working, h.earned, h.readied⟩
  rw [LocalMCPServerNode.setState]
  cases htools : state.bind (·.tools) with
  | none => exact hkept
  | some tools =>
    dsimp only
    rw [LocalMCPServerNode.preloadCachedTools]
    cases hcreated : LocalMCPServerNode.createLocalTools host tools with
    | none => exact hkept
    | some created =>
      refine ⟨h.down, fun hdown _ => ?_, h.working, fun _ _ => rfl, h.readied⟩
      have hnone := hempty hdown
      rw [preloaded, htools, Option.bind_some, hcreated] at hnone
      exact hnone

/-- Work goes on to a next phase before the start, with nothing but the tools changed. -/
theorem Consistent.goOn (h : Consistent n) {phase next : Phase}
    (hphase : n.provInFlight = some phase) (hstarting : phase.isStarting = false)
    (hdiscovered : phase.discovered = true → next.discovered = true) :
    Consistent { n with provInFlight := some next } := by
  have hstopped : n.started = false := h.working phase hphase hstarting
  refine ⟨h.down, fun hdown hnext => h.cleared hdown fun phase' hphase' => ?_,
    fun _ _ _ => hstopped, fun _ hstart => ?_, h.readied⟩
  · obtain rfl : phase = phase' := Option.some.inj (hphase.symm.trans hphase')
    by_contra hfound
    have hnot := hnext next rfl
    rw [hdiscovered (by simpa using hfound)] at hnot
    cases hnot
  · exact absurd (hstopped.symm.trans hstart) Bool.false_ne_true

theorem Phase.next_spec {phase next : Phase} {a : Action} (h : phase.next a = some next) :
    phase.isStarting = false ∧ (phase.discovered = true → next.discovered = true) := by
  unfold Phase.next at h
  split at h
  · exact ⟨rfl, nofun⟩
  · exact ⟨rfl, nofun⟩
  · exact ⟨rfl, nofun⟩
  · obtain rfl := Option.some.inj h
    exact ⟨rfl, fun _ => rfl⟩
  · obtain rfl := Option.some.inj h
    exact ⟨rfl, fun _ => rfl⟩
  · cases h

theorem Consistent.advance (h : Consistent n) {a : Action}
    (hstep : McpServer.advance n a = some n') : Consistent n' := by
  obtain ⟨next, hnext, rfl⟩ := Option.map_eq_some_iff.mp hstep
  obtain ⟨phase, hphase, hnext⟩ := Option.bind_eq_some_iff.mp hnext
  obtain ⟨hstarting, hdiscovered⟩ := Phase.next_spec hnext
  exact h.goOn hphase hstarting hdiscovered

theorem Consistent.listed (h : Consistent n) (hphase : n.provInFlight = some .listing)
    (tools : Option (List McpTool)) (now : ℚ) : Consistent (n.listed host tools now) := by
  have hstopped : n.started = false := h.working _ hphase rfl
  rw [LocalMCPServerNode.listed]
  cases tools.bind (LocalMCPServerNode.createLocalTools host) with
  | none => exact h.goOn hphase rfl nofun
  | some created =>
    refine ⟨h.down, fun _ hphase' => ?_, fun _ _ _ => hstopped, fun _ _ => rfl, h.readied⟩
    have hfound := hphase' _ rfl
    split_ifs at hfound
    · cases hfound
    · cases hfound

theorem Consistent.finish (h : Consistent n) {found : Bool}
    (hphase : n.provInFlight = some (.starting found)) : Consistent (n.finish found) := by
  have hcleared : n.deprovisioned = true → n.toolsCache.getD [] = [] := fun hdown => by
    refine h.cleared hdown fun phase hphase' => ?_
    obtain rfl := Option.some.inj (hphase.symm.trans hphase')
    rfl
  rw [LocalMCPServerNode.finish]
  split_ifs with hstarted
  · refine ⟨fun hdown => ?_, fun hdown _ => hcleared hdown, nofun, nofun, fun r hr => ?_⟩
    · exact absurd ((h.down hdown).2.symm.trans hstarted) Bool.false_ne_true
    · obtain hr | hr := List.mem_append.mp hr
      · exact h.readied r hr
      · obtain rfl := List.mem_singleton.mp hr
        cases found with
        | true => exact .inl rfl
        | false => exact .inr (h.earned hphase hstarted)
  · exact ⟨h.down, fun hdown _ => hcleared hdown, nofun, nofun, h.readied⟩

theorem Consistent.returned (h : Consistent n) {found : Bool}
    (hphase : n.provInFlight = some (.returning found)) (horderly : Orderly host n .returned) :
    Consistent { n with started := true, provInFlight := some (.starting found) } := by
  have hup : ¬ n.deprovisioned = true := by simp [horderly.1]
  refine ⟨fun hdown => absurd hdown hup, fun hdown => absurd hdown hup,
    fun phase hphase' hstarting => ?_, fun hstarting _ => ?_, h.readied⟩
  · obtain rfl := Option.some.inj hphase'
    cases hstarting
  · obtain rfl : found = false := by simpa using hstarting
    exact horderly.2 hphase

theorem Consistent.step (h : Consistent n) {a : Action} (horderly : Orderly host n a)
    (hstep : McpServer.step host n a = some n') : Consistent n' := by
  cases a with
  | provision now =>
    obtain rfl := Option.some.inj hstep
    exact h.provision now
  | deprovision =>
    obtain rfl := Option.some.inj hstep
    exact h.deprovision horderly
  | setState state =>
    obtain rfl := Option.some.inj hstep
    exact h.setState state horderly
  | listed tools now =>
    rw [McpServer.step] at hstep
    split_ifs at hstep with hphase
    obtain rfl := Option.some.inj hstep
    exact h.listed hphase tools now
  | returned =>
    rw [McpServer.step] at hstep
    split at hstep
    · next hphase =>
      obtain rfl := Option.some.inj hstep
      exact h.returned hphase horderly
    · cases hstep
  | finished =>
    rw [McpServer.step] at hstep
    split at hstep
    · next hphase =>
      obtain rfl := Option.some.inj hstep
      exact h.finish hphase
    · cases hstep
  | provided | resolved | connected | persisted | closed => exact h.advance hstep

/-- A node without cached tools lists none, whatever is enabled. -/
theorem listTools_eq_nil (h : n.toolsCache.getD [] = []) (snapshot : Option (List String)) :
    n.listTools host snapshot = [] := by
  rw [LocalMCPServerNode.listTools, h]
  cases snapshot <|> n.lastEnabledTools <;> rfl

/-- In orderly runs a node is ready only with tools found or cached, and once a deprovision after
the last provision has returned and no work is in flight, it is down and lists no tools. -/
theorem ready_and_down (h : Reached (step host) (Orderly host) .init n) :
    (∀ r ∈ n.readied, r.found = true ∨ r.cached = true) ∧
      (n.deprovisioned = true → n.provInFlight = none →
        n.status = .notReady ∧ n.started = false ∧
          ∀ snapshot, n.listTools host snapshot = []) := by
  have hconsistent : Consistent n := h.invariant consistent_init
    fun _ _ _ hinv horderly hstep => hinv.step horderly hstep
  refine ⟨hconsistent.readied, fun hdown hidle => ?_⟩
  have hempty := hconsistent.cleared hdown (by simp [hidle])
  exact ⟨(hconsistent.down hdown).1, (hconsistent.down hdown).2, listTools_eq_nil hempty⟩

/-- A server with a command, a workspace and a state service. -/
def plainHost : Host := ⟨some "ns", some "mcp start --stdio", none, none, true, true, fun _ => true⟩

def searchTool : McpTool := ⟨"search", none⟩

/-- The node is provisioned, discovers a tool, is given its state and is deprovisioned. -/
def upAndDown : List Action :=
  [.provision 0, .provided true, .resolved true, .connected true,
    .listed (some [searchTool]) 1,
    .setState (some ⟨some [searchTool], some 1, some ["search"]⟩), .persisted, .closed, .returned,
    .finished, .deprovision]

theorem ready_and_down_up_and_down :
    ∃ n, runFrom (step plainHost) .init upAndDown = some n ∧ n.readied = [⟨true, true⟩] ∧
      n.status = .notReady ∧ n.listTools plainHost (some ["search"]) = [] := by
  have hmeet : StepsMeet (step plainHost) (Orderly plainHost) .init upAndDown := by
    decide +kernel
  have hrun : (runFrom (step plainHost) .init upAndDown).map
      (fun n => (n.readied, n.deprovisioned, n.provInFlight)) =
        some ([⟨true, true⟩], true, none) := by
    decide +kernel
  obtain ⟨n, hn, heq⟩ := Option.map_eq_some_iff.mp hrun
  obtain ⟨hreadied, hrest⟩ := Prod.mk.inj heq
  obtain ⟨hdown, hidle⟩ := Prod.mk.inj hrest
  have hresult := (ready_and_down (Reached.init.run hmeet hn)).2 hdown hidle
  exact ⟨n, hn, hreadied, hresult.1, hresult.2.2 _⟩

/-- The server does not answer, and then the node is ready. -/
def failedDiscovery : List Action :=
  [.provision 0, .provided true, .resolved true, .connected false, .closed, .returned, .finished]

def deprovisionedEarly : List Action :=
  [.provision 0, .provided true, .deprovision, .resolved true, .connected true,
    .listed (some [searchTool]) 1, .persisted, .closed, .returned, .finished]

theorem ready_without_tools :
    (∃ n, Reached (step plainHost) (fun _ _ => True) .init n ∧
      ∃ r ∈ n.readied, r.found = false ∧ r.cached = false) ∧
      ∃ n, Reached (step plainHost) (fun _ _ => True) .init n ∧ n.deprovisioned = true ∧
        n.provInFlight = none ∧ n.status = .ready ∧ n.started = true ∧
          n.listTools plainHost (some ["search"]) ≠ [] := by
  constructor
  · have hrun : (runFrom (step plainHost) .init failedDiscovery).map (·.readied) =
        some [⟨false, false⟩] := by
      decide +kernel
    obtain ⟨n, hn, hreadied⟩ := Option.map_eq_some_iff.mp hrun
    exact ⟨n, .of_run hn, _, hreadied ▸ List.mem_singleton_self _, rfl, rfl⟩
  · have hrun : ((runFrom (step plainHost) .init deprovisionedEarly).any fun n =>
        decide (n.deprovisioned = true ∧ n.provInFlight = none ∧ n.status = .ready ∧
          n.started = true ∧ n.listTools plainHost (some ["search"]) ≠ [])) = true := by
      decide +kernel
    obtain ⟨n, hn, heq⟩ := (Option.any_eq_true _ _).mp hrun
    exact ⟨n, .of_run hn, of_decide_eq_true heq⟩

end Agyn.McpServer
