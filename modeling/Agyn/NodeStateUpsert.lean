import Agyn.AcceptedGraphs
import Agyn.KeyedLists
import Agyn.StoredGraphs
import Agyn.UpsertCommits

/-!
The repository's update of one node state: read the graph, put the state into it and
upsert it with the version that was read. The upsert fails when the stored version has
changed since the read or the new graph is refused, and on an accepted graph only then. A
node that the graph lacks is added under the template `unknown`.
-/
namespace Agyn

open Prog

variable {J G : Type}

namespace FsGraphRepository

def withNodeState (nodes : List (PersistedGraphNode J)) (nodeId : String) (patch : J) :
    List (PersistedGraphNode J) :=
  let idx := nodes.findIdx fun n => n.id = nodeId
  if idx < nodes.length then nodes.modify idx fun n => { n with state := some patch }
  else nodes ++ [⟨nodeId, "unknown", none, some patch, none⟩]

def nodeStateRequest (name nodeId : String) (patch : J) (base : PersistedGraph J) :
    PersistedGraphUpsertRequest J where
  name := name
  version := some base.version
  nodes := withNodeState base.nodes nodeId patch
  edges := base.edges
  vars := none

/-- The rest of `upsertNodeState`, from the outcome of its read. -/
def upsertFetched (schema : List TemplateNodeSchema) (ctx : CallContext) (name nodeId : String)
    (patch : J) (current : Except String (Option (PersistedGraph J))) :
    Fs J (Except (UpsertError J) Unit) :=
  match current with
  | .error e => ret (.error (.readError e))
  | .ok current =>
    let base := current.getD (emptyGraph name ctx.nowIso none)
    (upsert schema ctx (nodeStateRequest name nodeId patch base)).bind fun result =>
      ret (result.map fun _ => ())

def upsertNodeState (schema : List TemplateNodeSchema) (readIso : String) (ctx : CallContext)
    (name nodeId : String) (patch : J) : Fs J (Except (UpsertError J) Unit) :=
  (get name readIso).bind (upsertFetched schema ctx name nodeId patch)

end FsGraphRepository

open FsGraphRepository

def stateOf (nodes : List (PersistedGraphNode J)) (id : String) : Option J :=
  (nodes.find? fun n => n.id = id).bind PersistedGraphNode.state

section Nodes

/-- Only the node in question is found differently, and it keeps its template. -/
theorem find?_withNodeState (nodes : List (PersistedGraphNode J)) (nodeId : String) (patch : J)
    (id : String) :
    if id = nodeId then
      ∃ n, ((withNodeState nodes nodeId patch).find? fun m => m.id = id) = some n ∧
        n.state = some patch ∧
        ∀ old, (nodes.find? fun m => m.id = id) = some old → n.template = old.template
    else ((withNodeState nodes nodeId patch).find? fun m => m.id = id) =
      nodes.find? fun m => m.id = id := by
  unfold withNodeState
  dsimp only
  by_cases hmem : nodeId ∈ nodes.map PersistedGraphNode.id
  · rw [if_pos ((findIdx_lt_iff PersistedGraphNode.id nodes nodeId).mpr hmem),
      find?_modify_findIdx (by simp)]
    by_cases hid : id = nodeId
    · obtain ⟨old, hold⟩ := exists_find?_key hmem
      rw [if_pos hid, if_pos hid, hid, hold]
      refine ⟨_, rfl, rfl, fun old' hold' => ?_⟩
      cases hold'
      rfl
    · rw [if_neg hid, if_neg hid]
  · have hlt := (findIdx_lt_iff PersistedGraphNode.id nodes nodeId).not.mpr hmem
    rw [if_neg hlt, List.find?_append]
    by_cases hid : id = nodeId
    · rw [if_pos hid, hid, find?_key_eq_none hmem]
      refine ⟨⟨nodeId, "unknown", none, some patch, none⟩, by simp, rfl, fun old hold => ?_⟩
      cases hold
    · rw [if_neg hid]
      simp [Ne.symm hid]

theorem stateOf_withNodeState (nodes : List (PersistedGraphNode J)) (nodeId : String) (patch : J)
    (id : String) :
    stateOf (withNodeState nodes nodeId patch) id =
      if id = nodeId then some patch else stateOf nodes id := by
  have hfind := find?_withNodeState nodes nodeId patch id
  unfold stateOf
  by_cases hid : id = nodeId
  · rw [if_pos hid] at hfind
    obtain ⟨n, hn, hstate, -⟩ := hfind
    rw [if_pos hid, hn, Option.bind_some, hstate]
  · rw [if_neg hid] at hfind
    rw [if_neg hid, hfind]

theorem keepsTemplates_withNodeState (nodes : List (PersistedGraphNode J)) (nodeId : String)
    (patch : J) : KeepsTemplates nodes (withNodeState nodes nodeId patch) := by
  intro id n hn
  have hfind := find?_withNodeState nodes nodeId patch id
  by_cases hid : id = nodeId
  · rw [if_pos hid] at hfind
    obtain ⟨m, hm, -, htemplate⟩ := hfind
    exact ⟨m, hm, htemplate n hn⟩
  · rw [if_neg hid] at hfind
    exact ⟨n, by rw [hfind, hn], rfl⟩

/-- The ids stay, but for that of a new node. -/
theorem ids_withNodeState (nodes : List (PersistedGraphNode J)) (nodeId : String) (patch : J) :
    (withNodeState nodes nodeId patch).map PersistedGraphNode.id =
      nodes.map PersistedGraphNode.id ++
        if nodeId ∈ nodes.map PersistedGraphNode.id then [] else [nodeId] := by
  unfold withNodeState
  dsimp only
  by_cases hmem : nodeId ∈ nodes.map PersistedGraphNode.id
  · rw [if_pos ((findIdx_lt_iff PersistedGraphNode.id nodes nodeId).mpr hmem), if_pos hmem,
      List.append_nil]
    exact map_key_modify (by simp) nodes _
  · have hlt := (findIdx_lt_iff PersistedGraphNode.id nodes nodeId).not.mpr hmem
    rw [if_neg hlt, if_neg hmem, List.map_append]
    rfl

/-- Every node is one from before, with its state, or has the new state. -/
theorem mem_withNodeState {nodes : List (PersistedGraphNode J)} {nodeId : String} {patch : J}
    {n : PersistedGraphNode J} (h : n ∈ withNodeState nodes nodeId patch) :
    n ∈ nodes ∨ n.state = some patch ∧
      ((∃ old ∈ nodes, n.id = old.id ∧ n.template = old.template) ∨
        nodeId ∉ nodes.map PersistedGraphNode.id ∧ n.id = nodeId ∧ n.template = "unknown") := by
  unfold withNodeState at h
  dsimp only at h
  by_cases hmem : nodeId ∈ nodes.map PersistedGraphNode.id
  · rw [if_pos ((findIdx_lt_iff PersistedGraphNode.id nodes nodeId).mpr hmem)] at h
    rcases mem_modify h with hold | ⟨old, hold, rfl⟩
    · exact Or.inl hold
    · exact Or.inr ⟨rfl, Or.inl ⟨old, hold, rfl, rfl⟩⟩
  · have hlt := (findIdx_lt_iff PersistedGraphNode.id nodes nodeId).not.mpr hmem
    rw [if_neg hlt, List.mem_append, List.mem_singleton] at h
    rcases h with hold | rfl
    · exact Or.inl hold
    · exact Or.inr ⟨rfl, Or.inr ⟨hmem, rfl, rfl⟩⟩

/-- A node whose state can be updated: it is there, or it can be added. -/
def Updatable (schema : List TemplateNodeSchema) (nodes : List (PersistedGraphNode J))
    (nodeId : String) : Prop :=
  nodeId ∈ nodes.map PersistedGraphNode.id ∨
    nodeId ≠ "" ∧ "unknown" ∈ schema.map TemplateNodeSchema.name

end Nodes

section Requests

variable {schema : List TemplateNodeSchema} {nodes : List (PersistedGraphNode J)}
  {edges : List PersistedGraphEdge}

/-- Nodes that pass validation still do so with another state of one of them. -/
theorem Accepted.withNodeState (h : Accepted schema nodes edges) {nodeId : String}
    (hnode : Updatable schema nodes nodeId) (patch : J) :
    Accepted schema (FsGraphRepository.withNodeState nodes nodeId patch) edges where
  validNodes := by
    obtain ⟨hnodup, hnodes⟩ := (validateNodes_iff schema [] nodes).mp h.validNodes
    rw [validateNodes_iff, ids_withNodeState]
    refine ⟨?_, ?_⟩
    · by_cases hmem : nodeId ∈ nodes.map PersistedGraphNode.id
      · rw [if_pos hmem, List.append_nil]
        exact hnodup
      · rw [if_neg hmem, ← List.concat_eq_append]
        exact List.Nodup.concat hmem hnodup
    · intro n hn
      rcases mem_withNodeState hn with hold | ⟨-, hold | hnew⟩
      · exact hnodes n hold
      · obtain ⟨old, hold, hid, htemplate⟩ := hold
        rw [hid, htemplate]
        exact hnodes old hold
      · obtain ⟨hnot, hid, htemplate⟩ := hnew
        rw [hid, htemplate]
        rcases hnode with hmem | hknown
        · exact absurd hmem hnot
        · exact ⟨List.not_mem_nil, hknown⟩
  validEdges := by
    rw [validateEdges_iff]
    intro e he
    exact (validateEdges_iff.mp h.validEdges e he).keeps
      (keepsTemplates_withNodeState nodes nodeId patch)
  named := h.named

/-- A request that passes validation leads to an accepted graph. -/
theorem Accepted.of_valid {g : PersistedGraph J} (h : Accepted schema g.nodes g.edges)
    {name nodeId : String} {patch : J}
    (hvalid : validatePersistedGraph (nodeStateRequest name nodeId patch g) schema = .ok ()) :
    Accepted schema (FsGraphRepository.withNodeState g.nodes nodeId patch) g.edges :=
  have hchecked := (validatePersistedGraph_iff rfl).mp hvalid
  ⟨hchecked.1, hchecked.2, h.named⟩

theorem Accepted.valid {g : PersistedGraph J} (h : Accepted schema g.nodes g.edges)
    {nodeId : String} (hnode : Updatable schema g.nodes nodeId) (name : String) (patch : J) :
    validatePersistedGraph (nodeStateRequest name nodeId patch g) schema = .ok () :=
  have hnext := h.withNodeState hnode patch
  (validatePersistedGraph_iff rfl).mpr ⟨hnext.validNodes, hnext.validEdges⟩

/-- Nodes that are written back without a state have none. -/
theorem normalizeNode_withNodeState {g : PersistedGraph J}
    (hnodup : (g.nodes.map PersistedGraphNode.id).Nodup) (nodeId : String) (patch : J) :
    (FsGraphRepository.withNodeState g.nodes nodeId patch).map (normalizeNode (some g)) =
      FsGraphRepository.withNodeState g.nodes nodeId patch := by
  refine (List.map_congr_left fun n hn => ?_).trans (List.map_id _)
  unfold normalizeNode
  cases hstate : n.state with
  | some s => rfl
  | none =>
    dsimp only
    cases hfind : g.nodes.find? fun m => m.id = n.id with
    | none => rfl
    | some prev =>
      rcases mem_withNodeState hn with hold | ⟨hnew, -⟩
      · have hprev : prev = n := by
          refine List.inj_on_of_nodup_map hnodup (List.mem_of_find?_eq_some hfind) hold ?_
          simpa using List.find?_some hfind
        rw [hprev]
        rfl
      · rw [hnew] at hstate
        cases hstate

end Requests

section Stores

/-- The disk is initialised and its tree is read as the graph `g`. -/
structure Stores (d : Disk J G) (t : GraphTree J G) (g : PersistedGraph J) : Prop where
  init : Initialised d t
  shows : Shows t g g.nodes g.edges

theorem Stores.version {d : Disk J G} {t : GraphTree J G} {g : PersistedGraph J}
    (h : Stores d t g) : t.version = g.version := by
  obtain ⟨doc, hdoc, hversion⟩ := h.shows.meta_doc
  unfold GraphTree.version
  rw [hdoc]
  cases hv : doc.version with
  | none => simpa [hv] using hversion
  | some v => simpa [hv] using hversion

/-- What a read returns, up to the name and the time that stand for missing ones. -/
theorem Stores.get {d : Disk J G} {t : GraphTree J G} {g : PersistedGraph J}
    (h : Stores d t g) (name nowIso : String) :
    ∃ g', (FsGraphRepository.get name nowIso).run working d = (.ok (some g'), d) ∧
      Stores d t g' ∧ g'.nodes = g.nodes ∧ g'.edges = g.edges ∧ g'.version = g.version := by
  obtain ⟨g', hread, hnodes, hedges, -, hversion⟩ := h.shows.read name nowIso
  refine ⟨g', ?_, ⟨h.init, shows_of_read hread⟩, hnodes, hedges, hversion⟩
  rw [working_eq_faulty, get_run, h.init.root, hread]

/-- What is read from the files of some entities is among them. -/
theorem mem_of_mem_stored {dir : EntityDir} {es : List (Entity J dir)} {e : Entity J dir}
    (h : e ∈ stored (filesOf es)) : e ∈ es := by
  obtain ⟨content, hcontent, heq⟩ := List.mem_filterMap.mp h
  obtain ⟨file, hget⟩ := (InsMap.mem_values_iff _ _).mp hcontent
  obtain ⟨e', he', hpair⟩ := List.mem_map.mp (InsMap.mem_of_get_ofEntries _ _ _ hget)
  cases hpair
  cases heq
  exact he'

/-- A commit stores the graph it was planned for, but for edges that share an id. -/
theorem Committed.stores {d d' : Disk J G} {ctx : CallContext} {target : PersistedGraph J}
    {old : GraphTree J G} (h : Committed d ctx target old d') (hd : Initialised d old)
    (hids : target.HasIds) (hnodup : (target.nodes.map PersistedGraphNode.id).Nodup) :
    ∃ t g, Stores d' t g ∧ g.nodes = target.nodes ∧ g.version = target.version ∧
      ∀ e ∈ g.edges, e ∈ target.edges := by
  have hread := readTree_stagedTree hids old.git target.name target.updatedAt
  refine ⟨_, _, ⟨h.initialised hd, shows_of_read hread⟩, ?_, rfl, ?_⟩
  · exact stored_filesOf (target.entities .nodes) hnodup
  · intro e he
    exact mem_of_mem_stored he

end Stores

section Update

variable {schema : List TemplateNodeSchema} {d : Disk J G} {t : GraphTree J G}
  {g base : PersistedGraph J}

/-- The upsert of a state on top of the graph that was read goes through when the new graph
passes validation. -/
theorem upsertFetched_current (hstores : Stores d t g) (haccepted : Accepted schema g.nodes g.edges)
    {name nodeId : String} {patch : J} (hnodes : base.nodes = g.nodes)
    (hedges : base.edges = g.edges) (hversion : base.version = g.version)
    (hvalid : validatePersistedGraph (nodeStateRequest name nodeId patch base) schema = .ok ())
    (ctx : CallContext) :
    ∃ d' t' g', (upsertFetched schema ctx name nodeId patch (.ok (some base))).run working d =
        (.ok (), d') ∧ Stores d' t' g' ∧ g'.version = g.version + 1 ∧
      g'.nodes = withNodeState g.nodes nodeId patch ∧ Accepted schema g'.nodes g'.edges := by
  obtain ⟨g₁, hget, hstores₁, hnodes₁, hedges₁, hversion₁⟩ := hstores.get name ctx.nowIso
  rw [← hnodes₁, ← hedges₁] at haccepted
  rw [← hnodes₁] at hnodes ⊢
  rw [← hedges₁] at hedges
  rw [← hversion₁] at hversion ⊢
  have hreq : nodeStateRequest name nodeId patch base = nodeStateRequest name nodeId patch g₁ := by
    rw [nodeStateRequest, hnodes, hedges, hversion]
    rfl
  rw [hreq] at hvalid
  have hnext := haccepted.of_valid hvalid
  have hread : readTree (some t) name ctx.nowIso = .ok (some g₁) := by
    rw [working_eq_faulty, get_run, hstores.init.root] at hget
    exact (Prod.mk.inj hget).1
  unfold upsertFetched
  dsimp only [Option.getD_some]
  rw [hreq, run_bind, upsert_of_valid hvalid]
  rcases upsertLocked_working ctx (nodeStateRequest name nodeId patch g₁) hstores.init.root
    (hstores.init.fresh ctx) with ⟨e, herror, -⟩ | ⟨existing, hexisting, hplan⟩
  · rw [show (nodeStateRequest name nodeId patch g₁).name = name from rfl, hread] at herror
    cases herror
  · rw [show (nodeStateRequest name nodeId patch g₁).name = name from rfl, hread] at hexisting
    cases hexisting
    rcases hplan with ⟨e, hplan, -⟩ | ⟨target, d', hplan, hrun, hcommitted⟩
    · obtain ⟨es, hes⟩ := normalizeEdges_of_named (J := J) hnext.named
      have hchecked : ∀ v, (nodeStateRequest name nodeId patch g₁).version = some v →
          storedVersion (some g₁) = v := fun v hv => Option.some.inj hv
      obtain ⟨target, htarget⟩ := planUpsert_of_checked ctx.nowIso hchecked hes
      rw [htarget] at hplan
      cases hplan
    · have hplanned := planUpsert_ok hplan
      have htarget : target.nodes = withNodeState g₁.nodes nodeId patch := by
        rw [hplanned.nodes]
        exact normalizeNode_withNodeState haccepted.nodes_nodup nodeId patch
      have hids := hplanned.hasIds (validatePersistedGraph_ids hvalid).2
      obtain ⟨t', g', hstores', hnodes', hversion', hedges'⟩ :=
        hcommitted.stores hstores.init hids (by rw [htarget]; exact hnext.nodes_nodup)
      refine ⟨d', t', g', ?_, hstores', ?_, ?_, ?_⟩
      · rw [hrun]
        rfl
      · rw [hversion', hplanned.version]
        rfl
      · rw [hnodes', htarget]
      · rw [hnodes', htarget]
        refine ⟨hnext.validNodes, ?_, ?_⟩
        · rw [validateEdges_iff]
          intro e he
          have hmem := hedges' e he
          rw [hplanned.edges] at hmem
          obtain ⟨f, hf, rfl⟩ := List.mem_map.mp hmem
          exact validateEdges_iff.mp hnext.validEdges f hf
        · intro e he
          have hmem := hedges' e he
          rw [hplanned.edges] at hmem
          obtain ⟨f, hf, rfl⟩ := List.mem_map.mp hmem
          exact Or.inr rfl

/-- An upsert that does not pass validation changes nothing. -/
theorem upsertFetched_refused {name nodeId : String} {patch : J}
    (hrefused : validatePersistedGraph (nodeStateRequest name nodeId patch base) schema ≠ .ok ())
    (ctx : CallContext) (d : Disk J G) :
    ∃ e, (upsertFetched schema ctx name nodeId patch (.ok (some base))).run working d =
      (.error e, d) := by
  unfold upsertFetched
  dsimp only [Option.getD_some]
  rw [run_bind]
  cases hvalid : validatePersistedGraph (nodeStateRequest name nodeId patch base) schema with
  | error message =>
    rw [upsert, hvalid]
    exact ⟨_, rfl⟩
  | ok u => exact absurd hvalid hrefused

/-- An upsert on top of another version than the stored one changes nothing. -/
theorem upsertFetched_stale (hstores : Stores d t g) (hstale : base.version ≠ g.version)
    (ctx : CallContext) (name nodeId : String) (patch : J) :
    ∃ e, (upsertFetched schema ctx name nodeId patch (.ok (some base))).run working d =
      (.error e, d) := by
  by_cases hvalid :
      validatePersistedGraph (nodeStateRequest name nodeId patch base) schema = .ok ()
  · unfold upsertFetched
    dsimp only [Option.getD_some]
    rw [run_bind, upsert_of_valid hvalid]
    rcases upsertLocked_step ctx (nodeStateRequest name nodeId patch base) hstores.init with
      ⟨e, hrun⟩ | ⟨target, d', -, -, hchecked, -⟩
    · rw [hrun]
      exact ⟨e, rfl⟩
    · have hversion := hchecked base.version rfl
      rw [hstores.version] at hversion
      exact absurd hversion hstale
  · exact upsertFetched_refused hvalid ctx d

end Update

end Agyn
