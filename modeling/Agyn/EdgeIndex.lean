import Agyn.LiveGraphRuntime

/-!
The three edge structures of the runtime state. `EdgesAgree` is the relation
between the executed edges and the two index maps; `EdgeIndex` is the invariant
behind it, one statement for each map. Registering an edge between live nodes,
unregistering a record and forgetting a node without edges keep `EdgeIndex`.
-/
namespace Agyn

open GraphRuntimeState

variable {V : Type}

section Index

theorem mem_keysAt_addKey (m : InsMap String (InsSet String)) (id k id' k' : String) :
    k' ∈ (keysAt (addKey m id k) id').keys ↔
      (id' = id ∧ k' = k) ∨ k' ∈ (keysAt m id').keys := by
  unfold addKey
  rw [keysAt, InsMap.get_set]
  by_cases h : id' = id
  · subst h
    rw [if_pos rfl, Option.getD_some, InsSet.mem_keys_add]
    tauto
  · rw [if_neg h]
    simp [h, keysAt]

theorem mem_keysAt_dropKey (m : InsMap String (InsSet String)) (id k id' k' : String) :
    k' ∈ (keysAt (dropKey m id k) id').keys ↔
      k' ∈ (keysAt m id').keys ∧ ¬ (id' = id ∧ k' = k) := by
  unfold dropKey
  split
  · rename_i hnone
    constructor
    · intro h
      refine ⟨h, ?_⟩
      rintro ⟨rfl, rfl⟩
      rw [keysAt, hnone] at h
      simp at h
    · exact fun h => h.1
  · rename_i ks hks
    rw [keysAt, InsMap.get_set]
    by_cases h : id' = id
    · subst h
      rw [if_pos rfl, Option.getD_some, InsSet.mem_keys_delete]
      simp only [keysAt, hks, Option.getD_some, true_and]
      tauto
    · rw [if_neg h]
      simp [h, keysAt]

theorem mem_keysAt_delete (m : InsMap String (InsSet String)) (id id' k : String) :
    k ∈ (keysAt (m.delete id) id').keys ↔ id' ≠ id ∧ k ∈ (keysAt m id').keys := by
  rw [keysAt, InsMap.get_delete]
  by_cases h : id' = id
  · simp [h]
  · simp [h, keysAt]

def Indexes (m : InsMap String (InsSet String)) (executed : InsMap String ExecutedEdgeRecord)
    (endpoint : ExecutedEdgeRecord → String) : Prop :=
  ∀ a k, k ∈ (keysAt m a).keys ↔ ∃ rec, executed.get k = some rec ∧ endpoint rec = a

variable {m : InsMap String (InsSet String)} {executed : InsMap String ExecutedEdgeRecord}
  {endpoint : ExecutedEdgeRecord → String}

theorem Indexes.add (h : Indexes m executed endpoint) (rec : ExecutedEdgeRecord)
    (hold : ∀ old, executed.get rec.key = some old → endpoint old = endpoint rec) :
    Indexes (addKey m (endpoint rec) rec.key) (executed.set rec.key rec) endpoint := by
  intro a k
  rw [mem_keysAt_addKey, InsMap.get_set]
  by_cases hk : k = rec.key
  · subst hk
    rw [if_pos rfl]
    constructor
    · rintro (⟨rfl, -⟩ | hmem)
      · exact ⟨rec, rfl, rfl⟩
      · obtain ⟨old, hget, ha⟩ := (h a rec.key).mp hmem
        exact ⟨rec, rfl, by rw [← hold old hget, ha]⟩
    · rintro ⟨r, hr, ha⟩
      rw [← Option.some.inj hr] at ha
      exact Or.inl ⟨ha.symm, rfl⟩
  · rw [if_neg hk]
    simp only [hk, and_false, false_or]
    exact h a k

theorem Indexes.drop (h : Indexes m executed endpoint) (rec : ExecutedEdgeRecord)
    (hrec : executed.get rec.key = some rec) :
    Indexes (dropKey m (endpoint rec) rec.key) (executed.delete rec.key) endpoint := by
  intro a k
  rw [mem_keysAt_dropKey, InsMap.get_delete]
  by_cases hk : k = rec.key
  · subst hk
    rw [if_pos rfl]
    constructor
    · rintro ⟨hmem, hne⟩
      obtain ⟨r, hr, ha⟩ := (h a rec.key).mp hmem
      rw [hrec] at hr
      rw [← Option.some.inj hr] at ha
      exact absurd ⟨ha.symm, rfl⟩ hne
    · rintro ⟨r, hr, -⟩
      cases hr
  · rw [if_neg hk]
    simp only [hk, and_false, not_false_eq_true, and_true]
    exact h a k

theorem Indexes.delete (h : Indexes m executed endpoint) (id : String)
    (hfree : ∀ k rec, executed.get k = some rec → endpoint rec ≠ id) :
    Indexes (m.delete id) executed endpoint := by
  intro a k
  rw [mem_keysAt_delete]
  constructor
  · rintro ⟨-, hmem⟩
    exact (h a k).mp hmem
  · rintro ⟨rec, hrec, ha⟩
    exact ⟨ha ▸ hfree k rec hrec, (h a k).mpr ⟨rec, hrec, ha⟩⟩

end Index

namespace GraphRuntimeState

def Live (s : GraphRuntimeState V) (id : String) : Prop := ∃ live, s.nodes.get id = some live

/-- Key `k` is recorded as an executed edge from `a` to `b`. -/
def Executed (s : GraphRuntimeState V) (k a b : String) : Prop :=
  ∃ rec, s.executedEdges.get k = some rec ∧ rec.source = a ∧ rec.target = b

def Outbound (s : GraphRuntimeState V) (a k : String) : Prop :=
  k ∈ (keysAt s.outboundEdges a).keys

def Inbound (s : GraphRuntimeState V) (b k : String) : Prop :=
  k ∈ (keysAt s.inboundEdges b).keys

/-- A key is executed from `a` to `b` exactly when it is in the outbound set of `a`
and the inbound set of `b`, in no other node's set, and both are live. -/
def EdgesAgree (s : GraphRuntimeState V) : Prop :=
  ∀ k a b, s.Executed k a b ↔
    s.Outbound a k ∧ s.Inbound b k ∧ (∀ c, c ≠ a → ¬ s.Outbound c k) ∧
      (∀ c, c ≠ b → ¬ s.Inbound c k) ∧ s.Live a ∧ s.Live b

structure EdgeIndex (s : GraphRuntimeState V) : Prop where
  key_eq : ∀ k rec, s.executedEdges.get k = some rec → rec.key = k
  outbound : Indexes s.outboundEdges s.executedEdges ExecutedEdgeRecord.source
  inbound : Indexes s.inboundEdges s.executedEdges ExecutedEdgeRecord.target
  live : ∀ k rec, s.executedEdges.get k = some rec → s.Live rec.source ∧ s.Live rec.target

theorem EdgeIndex.agree {s : GraphRuntimeState V} (h : s.EdgeIndex) : s.EdgesAgree := by
  intro k a b
  constructor
  · rintro ⟨rec, hrec, rfl, rfl⟩
    refine ⟨(h.outbound _ _).mpr ⟨rec, hrec, rfl⟩, (h.inbound _ _).mpr ⟨rec, hrec, rfl⟩,
      ?_, ?_, (h.live k rec hrec).1, (h.live k rec hrec).2⟩
    · intro c hc hout
      obtain ⟨rec', hrec', hsource⟩ := (h.outbound c k).mp hout
      rw [hrec] at hrec'
      exact hc (by rw [← hsource, Option.some.inj hrec'])
    · intro c hc hin
      obtain ⟨rec', hrec', htarget⟩ := (h.inbound c k).mp hin
      rw [hrec] at hrec'
      exact hc (by rw [← htarget, Option.some.inj hrec'])
  · rintro ⟨hout, hin, -, -, -, -⟩
    obtain ⟨rec, hrec, hsource⟩ := (h.outbound a k).mp hout
    obtain ⟨rec', hrec', htarget⟩ := (h.inbound b k).mp hin
    rw [hrec] at hrec'
    exact ⟨rec, hrec, hsource, by rw [Option.some.inj hrec', htarget]⟩

theorem initial_edgeIndex : (GraphRuntimeState.initial : GraphRuntimeState V).EdgeIndex where
  key_eq k rec h := by simp [initial] at h
  outbound a k := by simp [keysAt, initial]
  inbound b k := by simp [keysAt, initial]
  live k rec h := by simp [initial] at h

/-- Two states with the same executed edges and index maps, where no node is lost. -/
theorem EdgeIndex.of_nodes {s t : GraphRuntimeState V} (h : s.EdgeIndex)
    (hex : t.executedEdges = s.executedEdges) (hout : t.outboundEdges = s.outboundEdges)
    (hin : t.inboundEdges = s.inboundEdges) (hlive : ∀ id, s.Live id → t.Live id) :
    t.EdgeIndex where
  key_eq k rec hrec := h.key_eq k rec (hex ▸ hrec)
  outbound := by
    rw [hout, hex]
    exact h.outbound
  inbound := by
    rw [hin, hex]
    exact h.inbound
  live k rec hrec := by
    have hl := h.live k rec (hex ▸ hrec)
    exact ⟨hlive _ hl.1, hlive _ hl.2⟩

theorem live_set_node (s : GraphRuntimeState V) (id : String) (n : LiveNode V) (id' : String) :
    ({ s with nodes := s.nodes.set id n } : GraphRuntimeState V).Live id' ↔
      id' = id ∨ s.Live id' := by
  simp only [Live, InsMap.get_set]
  by_cases h : id' = id <;> simp [h]

theorem EdgeIndex.set_node {s : GraphRuntimeState V} (h : s.EdgeIndex) (id : String)
    (n : LiveNode V) : ({ s with nodes := s.nodes.set id n } : GraphRuntimeState V).EdgeIndex :=
  h.of_nodes rfl rfl rfl fun id' hid => (live_set_node s id n id').mpr (Or.inr hid)

/-- A record may replace an older one of its key only between the same endpoints. -/
theorem EdgeIndex.register {s : GraphRuntimeState V} (h : s.EdgeIndex)
    (rec : ExecutedEdgeRecord) (hsource : s.Live rec.source) (htarget : s.Live rec.target)
    (hold : ∀ old, s.executedEdges.get rec.key = some old →
      old.source = rec.source ∧ old.target = rec.target) :
    (s.registerEdgeRecord rec).EdgeIndex where
  key_eq k r hr := by
    rw [registerEdgeRecord, InsMap.get_set] at hr
    by_cases hk : k = rec.key
    · rw [if_pos hk] at hr
      rw [hk, ← Option.some.inj hr]
    · rw [if_neg hk] at hr
      exact h.key_eq k r hr
  outbound := h.outbound.add rec fun old hget => (hold old hget).1
  inbound := h.inbound.add rec fun old hget => (hold old hget).2
  live k r hr := by
    rw [registerEdgeRecord, InsMap.get_set] at hr
    by_cases hk : k = rec.key
    · rw [if_pos hk] at hr
      rw [← Option.some.inj hr]
      exact ⟨hsource, htarget⟩
    · rw [if_neg hk] at hr
      exact h.live k r hr

theorem EdgeIndex.unregister {s : GraphRuntimeState V} (h : s.EdgeIndex)
    (rec : ExecutedEdgeRecord) (hrec : s.executedEdges.get rec.key = some rec) :
    (s.unregisterEdgeRecord rec).EdgeIndex where
  key_eq k r hr := by
    rw [unregisterEdgeRecord, InsMap.get_delete] at hr
    by_cases hk : k = rec.key
    · rw [if_pos hk] at hr
      cases hr
    · rw [if_neg hk] at hr
      exact h.key_eq k r hr
  outbound := h.outbound.drop rec hrec
  inbound := h.inbound.drop rec hrec
  live k r hr := by
    rw [unregisterEdgeRecord, InsMap.get_delete] at hr
    by_cases hk : k = rec.key
    · rw [if_pos hk] at hr
      cases hr
    · rw [if_neg hk] at hr
      exact h.live k r hr

/-- Forgetting a node keeps the index when no executed edge touches the node. -/
theorem EdgeIndex.deleteNode {s : GraphRuntimeState V} (h : s.EdgeIndex) (id : String)
    (hfree : ∀ k rec, s.executedEdges.get k = some rec → ¬ rec.Incident id) :
    (s.deleteNode id).EdgeIndex where
  key_eq k r hr := h.key_eq k r hr
  outbound := h.outbound.delete id fun k rec hrec hs => hfree k rec hrec (Or.inl hs)
  inbound := h.inbound.delete id fun k rec hrec ht => hfree k rec hrec (Or.inr ht)
  live k rec hrec := by
    have hl := h.live k rec hrec
    have hne := hfree k rec hrec
    simp only [ExecutedEdgeRecord.Incident, not_or] at hne
    constructor
    · obtain ⟨live, hlive⟩ := hl.1
      exact ⟨live, by rw [GraphRuntimeState.deleteNode, InsMap.get_delete_ne _ hne.1, hlive]⟩
    · obtain ⟨live, hlive⟩ := hl.2
      exact ⟨live, by rw [GraphRuntimeState.deleteNode, InsMap.get_delete_ne _ hne.2, hlive]⟩

/-- The keys walked by a disposal are those of the records at the node. -/
theorem EdgeIndex.mem_edgeKeysOf {s : GraphRuntimeState V} (h : s.EdgeIndex) (id k : String) :
    k ∈ s.edgeKeysOf id ↔ ∃ rec, s.executedEdges.get k = some rec ∧ rec.Incident id := by
  rw [edgeKeysOf, InsSet.mem_keys_ofList, List.mem_append]
  rw [h.inbound id k, h.outbound id k]
  constructor
  · rintro (⟨rec, hrec, ht⟩ | ⟨rec, hrec, hs⟩)
    · exact ⟨rec, hrec, Or.inr ht⟩
    · exact ⟨rec, hrec, Or.inl hs⟩
  · rintro ⟨rec, hrec, hs | ht⟩
    · exact Or.inr ⟨rec, hrec, hs⟩
    · exact Or.inl ⟨rec, hrec, ht⟩

theorem edgeKeysOf_nodup (s : GraphRuntimeState V) (id : String) : (s.edgeKeysOf id).Nodup :=
  InsSet.keys_nodup _

/-- A record at a node that is not live contradicts the agreement. -/
theorem not_edgesAgree_of_dangling {s : GraphRuntimeState V} {k id : String}
    {rec : ExecutedEdgeRecord} (hrec : s.executedEdges.get k = some rec)
    (hinc : rec.Incident id) (hdead : ¬ s.Live id) : ¬ s.EdgesAgree := by
  intro hagree
  obtain ⟨-, -, -, -, hs, ht⟩ := (hagree k rec.source rec.target).mp ⟨rec, hrec, rfl, rfl⟩
  rcases hinc with h | h
  · exact hdead (h ▸ hs)
  · exact hdead (h ▸ ht)

/-- Replacing a record by one between other endpoints leaves the key in an old set. -/
theorem not_edgesAgree_of_clash {s : GraphRuntimeState V} (h : s.EdgeIndex)
    {old rec : ExecutedEdgeRecord} (hold : s.executedEdges.get rec.key = some old)
    (hne : old.source ≠ rec.source ∨ old.target ≠ rec.target) :
    ¬ (s.registerEdgeRecord rec).EdgesAgree := by
  intro hagree
  have hexec : (s.registerEdgeRecord rec).Executed rec.key rec.source rec.target :=
    ⟨rec, InsMap.get_set_self _ _ _, rfl, rfl⟩
  obtain ⟨-, -, hout, hin, -, -⟩ := (hagree rec.key rec.source rec.target).mp hexec
  rcases hne with hs | ht
  · apply hout old.source hs
    rw [Outbound, registerEdgeRecord, mem_keysAt_addKey]
    exact Or.inr ((h.outbound _ _).mpr ⟨old, hold, rfl⟩)
  · apply hin old.target ht
    rw [Inbound, registerEdgeRecord, mem_keysAt_addKey]
    exact Or.inr ((h.inbound _ _).mpr ⟨old, hold, rfl⟩)

end GraphRuntimeState

end Agyn
