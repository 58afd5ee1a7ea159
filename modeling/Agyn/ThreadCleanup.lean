import Agyn.Forests
import Agyn.InsertionMap

/-!
Closing a thread with all threads below it. The threads are collected level by level and put in
post-order; all of them are closed first, and then each is cleaned up: its reminders, its runs, its
containers and its volume. A failed update ends the cascade, a failed step of a cleanup does not.
A query of the threads that fails ends it before anything is done, and is left out.
-/
namespace Agyn.ThreadCleanup

variable {ι : Type}

inductive ThreadStatus where
  | isOpen
  | closed
  deriving DecidableEq

structure ThreadNode (ι : Type) where
  id : ι
  parentId : Option ι
  status : ThreadStatus
  createdAt : ℤ
  deriving DecidableEq

/-- The references of a volume in the registry of containers. -/
structure VolumeRef (ι : Type) where
  containerId : String
  threadId : Option ι
  stopped : Bool

/-- A thread is closed, or the update fails before or after it has. -/
inductive UpdateOutcome where
  | closed
  | failed
  | closedAndFailed
  deriving DecidableEq

/-- What the services answer; `none` stands for an error. -/
structure Services (ι : Type) where
  updateThread : ι → UpdateOutcome
  listRunningRuns : ι → Option (List String)
  listContainersByVolume : ι → Option (List String)
  findByVolume : ι → Option (List (VolumeRef ι))
  removeVolume : ι → Bool

/-- What the cascade does to a thread. -/
inductive Effect (ι : Type) where
  | close (threadId : ι)
  | cancelThreadReminders (threadId : ι)
  | activateTerminate (threadId : ι) (runId : String)
  | terminateByThread (threadId : ι)
  | sweepSelective (threadId : ι)
  | removeVolume (threadId : ι)
  | markStopped (threadId : ι) (containerId : String)
  | emitThreadMetrics (threadId : ι)

def Effect.thread : Effect ι → ι
  | .close id => id
  | .cancelThreadReminders id => id
  | .activateTerminate id _ => id
  | .terminateByThread id => id
  | .sweepSelective id => id
  | .removeVolume id => id
  | .markStopped id _ => id
  | .emitThreadMetrics id => id

def Effect.isCleanup : Effect ι → Bool
  | .close _ => false
  | _ => true

variable [DecidableEq ι]

def childrenIn (rows : List (ThreadNode ι)) (id : ι) : List ι :=
  (rows.filter fun row => row.parentId = some id).map ThreadNode.id

structure ThreadTable (ι : Type) [DecidableEq ι] where
  rows : List (ThreadNode ι)
  ids : (rows.map ThreadNode.id).Nodup
  parents : ∀ row ∈ rows, ∀ p ∈ row.parentId, ∃ parent ∈ rows, parent.id = p
  acyclic : ∀ id, ¬Relation.TransGen (Child (childrenIn rows)) id id

/-- The table with the query for the children of some threads, which come in any order. -/
structure ThreadDb (ι : Type) [DecidableEq ι] extends ThreadTable ι where
  findChildren : List ι → List (ThreadNode ι)
  findChildren_perm : ∀ frontier,
    (findChildren frontier).Perm (rows.filter fun row => row.parentId.any (· ∈ frontier))

/-- The loop of `collectThreadNodes`, with fuel. -/
def collectLevels (db : ThreadDb ι) :
    ℕ → List ι → InsMap ι (ThreadNode ι) → Option (InsMap ι (ThreadNode ι))
  | _, [], nodes => some nodes
  | 0, _ :: _, _ => none
  | n + 1, id :: ids, nodes =>
    let children := db.findChildren (id :: ids)
    collectLevels db n (children.map ThreadNode.id)
      (children.foldl (fun nodes child => nodes.set child.id child) nodes)

def postOrder (nodes : InsMap ι (ThreadNode ι)) (fuel : ℕ) (rootId : ι) :
    Option (List (ThreadNode ι)) :=
  (visit (childrenIn nodes.values) nodes.get fuel rootId ([], [])).map Prod.snd

def collectThreadNodes (db : ThreadDb ι) (fuel : ℕ) (rootId : ι) : Option (List (ThreadNode ι)) :=
  match db.rows.find? fun row => row.id = rootId with
  | none => some []
  | some root =>
    (collectLevels db fuel [root.id] (InsMap.empty.set root.id root)).bind fun nodes =>
      postOrder nodes fuel root.id

/-- The threads are closed one after the other; the result tells whether no update has failed. -/
def closeThreads (env : Services ι) : List (ThreadNode ι) → List (Effect ι) × Bool
  | [] => ([], true)
  | node :: nodes =>
    if node.status = .closed then closeThreads env nodes
    else
      match env.updateThread node.id with
      | .failed => ([], false)
      | .closedAndFailed => ([.close node.id], false)
      | .closed =>
        let (log, ok) := closeThreads env nodes
        (.close node.id :: log, ok)

def deleteWorkspaceVolume (env : Services ι) (threadId : ι) : List (Effect ι) :=
  match env.listContainersByVolume threadId with
  | none => []
  | some (_ :: _) => []
  | some [] =>
    match env.findByVolume threadId with
    | none => []
    | some registryRefs =>
      let staleRefs := registryRefs.filter fun ref => ref.threadId = some threadId && !ref.stopped
      .removeVolume threadId ::
        if env.removeVolume threadId then
          staleRefs.map fun ref => .markStopped threadId ref.containerId
        else []

def runCleanupPipeline (env : Services ι) (node : ThreadNode ι) : List (Effect ι) :=
  [.cancelThreadReminders node.id] ++
    ((env.listRunningRuns node.id).getD []).map (.activateTerminate node.id) ++
    [.terminateByThread node.id, .sweepSelective node.id] ++
    deleteWorkspaceVolume env node.id ++ [.emitThreadMetrics node.id]

def closeThreadWithCascade (db : ThreadDb ι) (env : Services ι) (fuel : ℕ) (threadId : ι) :
    Option (List (Effect ι)) :=
  (collectThreadNodes db fuel threadId).map fun nodes =>
    let (log, ok) := closeThreads env nodes
    if ok then log ++ nodes.flatMap (runCleanupPipeline env) else log

def Effect.apply (rows : List (ThreadNode ι)) : Effect ι → List (ThreadNode ι)
  | .close id => rows.map fun row => if row.id = id then { row with status := .closed } else row
  | _ => rows

def rowsAfter (rows : List (ThreadNode ι)) (log : List (Effect ι)) : List (ThreadNode ι) :=
  log.foldl Effect.apply rows

def ClosedIn (rows : List (ThreadNode ι)) (id : ι) : Prop :=
  ∀ row ∈ rows, row.id = id → row.status = .closed

variable {db : ThreadDb ι} {nodes : InsMap ι (ThreadNode ι)} {row node : ThreadNode ι}
  {S : ι → Prop} {rootId : ι} {n : ℕ}

theorem mem_childrenIn {rows : List (ThreadNode ι)} {a c : ι} :
    c ∈ childrenIn rows a ↔ ∃ row ∈ rows, row.parentId = some a ∧ row.id = c := by
  simp [childrenIn, and_assoc]

theorem ThreadTable.eq_of_id (t : ThreadTable ι) (hrow : row ∈ t.rows) (hnode : node ∈ t.rows)
    (hid : row.id = node.id) : row = node :=
  List.inj_on_of_nodup_map t.ids hrow hnode hid

theorem ThreadTable.exists_forest (t : ThreadTable ι) :
    ∃ rank, Forest (childrenIn t.rows) rank t.rows.length := by
  have hnodes : ∀ a, ∀ c ∈ childrenIn t.rows a,
      a ∈ t.rows.map ThreadNode.id ∧ c ∈ t.rows.map ThreadNode.id := by
    intro a c hc
    obtain ⟨row, hrow, hparent, rfl⟩ := mem_childrenIn.mp hc
    obtain ⟨parent, hmem, rfl⟩ := t.parents row hrow a hparent
    exact ⟨List.mem_map_of_mem hmem, List.mem_map_of_mem hrow⟩
  have hparent : ∀ a b c, c ∈ childrenIn t.rows a → c ∈ childrenIn t.rows b → a = b := by
    intro a b c ha hb
    obtain ⟨row, hrow, hparent, rfl⟩ := mem_childrenIn.mp ha
    obtain ⟨row', hrow', hparent', hid⟩ := mem_childrenIn.mp hb
    rw [t.eq_of_id hrow' hrow hid, hparent] at hparent'
    exact Option.some.inj hparent'
  obtain ⟨rank, hforest⟩ := Agyn.exists_forest hnodes
    (fun a => t.ids.sublist (List.filter_sublist.map _)) hparent t.acyclic
  exact ⟨rank, by simpa using hforest⟩

def NodesOf (db : ThreadDb ι) (S : ι → Prop) (nodes : InsMap ι (ThreadNode ι)) : Prop :=
  ∀ id node, nodes.get id = some node ↔ node ∈ db.rows ∧ node.id = id ∧ S id

theorem NodesOf.congr {S' : ι → Prop} (h : NodesOf db S nodes) (hS : ∀ id, S id ↔ S' id) :
    NodesOf db S' nodes := fun id node => by rw [h id node, hS id]

theorem NodesOf.set (h : NodesOf db S nodes) (hrow : row ∈ db.rows) :
    NodesOf db (fun id => S id ∨ id = row.id) (nodes.set row.id row) := by
  intro id node
  rw [InsMap.get_set]
  by_cases hid : id = row.id
  · subst hid
    rw [if_pos rfl, Option.some.injEq]
    constructor
    · rintro rfl
      exact ⟨hrow, rfl, Or.inr rfl⟩
    · rintro ⟨hnode, hid, -⟩
      exact db.eq_of_id hrow hnode hid.symm
  · rw [if_neg hid, h id node]
    simp [hid]

theorem NodesOf.setAll {rows : List (ThreadNode ι)} (h : NodesOf db S nodes)
    (hrows : ∀ row ∈ rows, row ∈ db.rows) :
    NodesOf db (fun id => S id ∨ id ∈ rows.map ThreadNode.id)
      (rows.foldl (fun nodes child => nodes.set child.id child) nodes) := by
  induction rows generalizing nodes S with
  | nil => simpa using h
  | cons row rows ih =>
    obtain ⟨hrow, hrows⟩ := List.forall_mem_cons.mp hrows
    refine (ih (h.set hrow) hrows).congr fun id => ?_
    rw [List.map_cons, List.mem_cons, or_assoc]

theorem mem_findChildren {frontier : List ι} :
    row ∈ db.findChildren frontier ↔
      row ∈ db.rows ∧ ∃ a ∈ frontier, row.parentId = some a := by
  rw [(db.findChildren_perm frontier).mem_iff, List.mem_filter]
  cases row.parentId <;> simp

/-- The loop adds what is below the children of the frontier. -/
theorem collectLevels_spec {rank : ι → ℕ} {bound : ℕ}
    (hforest : Forest (childrenIn db.rows) rank bound) {frontier : List ι}
    (hdeep : ∀ a ∈ frontier, bound < n + rank a) (h : NodesOf db S nodes) :
    ∃ nodes', collectLevels db n frontier nodes = some nodes' ∧
      NodesOf db (fun id => S id ∨ ∃ a ∈ frontier, ∃ c ∈ childrenIn db.rows a,
        Below (childrenIn db.rows) c id) nodes' := by
  induction n generalizing frontier nodes S with
  | zero =>
    cases frontier with
    | nil => exact ⟨nodes, rfl, by simpa using h⟩
    | cons a frontier =>
      have hle := hforest.rank_le a
      have hlt := hdeep a List.mem_cons_self
      omega
  | succ n ih =>
    cases frontier with
    | nil => exact ⟨nodes, rfl, by simpa using h⟩
    | cons a frontier =>
      have hids : ∀ c, c ∈ (db.findChildren (a :: frontier)).map ThreadNode.id ↔
          ∃ b ∈ a :: frontier, c ∈ childrenIn db.rows b := by
        intro c
        simp only [List.mem_map, mem_findChildren, mem_childrenIn]
        constructor
        · rintro ⟨row, ⟨hrow, b, hb, hparent⟩, rfl⟩
          exact ⟨b, hb, row, hrow, hparent, rfl⟩
        · rintro ⟨b, hb, row, hrow, hparent, rfl⟩
          exact ⟨row, ⟨hrow, b, hb, hparent⟩, rfl⟩
      obtain ⟨nodes', hcollect, hnodes⟩ := ih
        (fun c hc => by
          obtain ⟨b, hb, hchild⟩ := (hids c).mp hc
          have hlt := hforest.rank_lt hchild
          have hlevel := hdeep b hb
          omega)
        (h.setAll fun row hrow => (mem_findChildren.mp hrow).1)
      refine ⟨nodes', hcollect, hnodes.congr fun id => ?_⟩
      rw [or_assoc]
      refine or_congr_right ⟨?_, ?_⟩
      · rintro (hid | ⟨c, hc, d, hd, hbelow⟩)
        · obtain ⟨b, hb, hchild⟩ := (hids id).mp hid
          exact ⟨b, hb, id, hchild, .refl⟩
        · obtain ⟨b, hb, hchild⟩ := (hids c).mp hc
          exact ⟨b, hb, c, hchild, below_iff.mpr (Or.inr ⟨d, hd, hbelow⟩)⟩
      · rintro ⟨b, hb, c, hchild, hbelow⟩
        have hc := (hids c).mpr ⟨b, hb, hchild⟩
        rcases below_iff.mp hbelow with rfl | ⟨d, hd, hbelow⟩
        · exact Or.inl hc
        · exact Or.inr ⟨c, hc, d, hd, hbelow⟩

/-- The collected threads: the rows below the root, each once and after its children. -/
structure Collected (db : ThreadDb ι) (rootId : ι) (order : List (ThreadNode ι)) : Prop where
  nodup : order.Nodup
  mem : ∀ row, row ∈ order ↔ row ∈ db.rows ∧ Below (childrenIn db.rows) rootId row.id
  childrenFirst : order.Pairwise fun a b => b.parentId ≠ some a.id

/-- The children in the map are those in the table, below the root. -/
theorem mem_childrenIn_values (h : NodesOf db (Below (childrenIn db.rows) rootId) nodes)
    {a c : ι} : c ∈ childrenIn nodes.values a ↔
      c ∈ childrenIn db.rows a ∧ Below (childrenIn db.rows) rootId c := by
  have hmem : ∀ row, row ∈ nodes.values ↔
      row ∈ db.rows ∧ Below (childrenIn db.rows) rootId row.id := by
    intro row
    simp only [InsMap.mem_values_iff, h _ row]
    constructor
    · rintro ⟨id, hrow, rfl, hbelow⟩
      exact ⟨hrow, hbelow⟩
    · rintro ⟨hrow, hbelow⟩
      exact ⟨row.id, hrow, rfl, hbelow⟩
  simp only [mem_childrenIn, hmem]
  constructor
  · rintro ⟨row, ⟨hrow, hbelow⟩, hparent, rfl⟩
    exact ⟨⟨row, hrow, hparent, rfl⟩, hbelow⟩
  · rintro ⟨⟨row, hrow, hparent, rfl⟩, hbelow⟩
    exact ⟨row, ⟨hrow, hbelow⟩, hparent, rfl⟩

theorem below_values_iff (h : NodesOf db (Below (childrenIn db.rows) rootId) nodes) {x : ι} :
    Below (childrenIn nodes.values) rootId x ↔ Below (childrenIn db.rows) rootId x := by
  constructor
  · intro hbelow
    induction hbelow with
    | refl => exact .refl
    | tail _ hchild ih => exact ih.tail ((mem_childrenIn_values h).mp hchild).1
  · intro hbelow
    induction hbelow with
    | refl => exact .refl
    | tail hbelow hchild ih =>
      exact ih.tail ((mem_childrenIn_values h).mpr ⟨hchild, hbelow.tail hchild⟩)

/-- The ids of the values of the map are its keys. -/
theorem nodup_ids_values (h : NodesOf db S nodes) :
    (nodes.values.map ThreadNode.id).Nodup := by
  have hkeys : nodes.values.map ThreadNode.id = nodes.keys := by
    rw [InsMap.values, InsMap.keys, List.map_map]
    refine List.map_congr_left fun e he => ?_
    exact ((h e.1 e.2).mp ((InsMap.get_eq_some_iff nodes e.1 e.2).mpr he)).2.1
  rw [hkeys]
  exact nodes.nodup

/-- A thread with one below it, or itself, is in the table when that one is. -/
theorem ThreadTable.exists_root (t : ThreadTable ι) {rootId : ι}
    (hbelow : Below (childrenIn t.rows) rootId row.id) (hrow : row ∈ t.rows) :
    ∃ root ∈ t.rows, root.id = rootId := by
  rcases below_iff.mp hbelow with hid | ⟨c, hc, -⟩
  · exact ⟨row, hrow, hid⟩
  · obtain ⟨child, hchild, hparent, -⟩ := mem_childrenIn.mp hc
    exact t.parents child hchild rootId hparent

/-- Every id below the root is a key of the map. -/
theorem NodesOf.exists_get (h : NodesOf db (Below (childrenIn db.rows) rootId) nodes)
    {root : ThreadNode ι} (hroot : root ∈ db.rows) (hid : root.id = rootId) {x : ι}
    (hbelow : Below (childrenIn db.rows) rootId x) :
    ∃ row, nodes.get x = some row ∧ row.id = x := by
  rcases hbelow.cases_tail with rfl | ⟨a, -, hchild⟩
  · exact ⟨root, (h _ root).mpr ⟨hroot, hid, hbelow⟩, hid⟩
  · obtain ⟨row, hrow, -, rfl⟩ := mem_childrenIn.mp hchild
    exact ⟨row, (h _ row).mpr ⟨hrow, rfl, hbelow⟩, rfl⟩

theorem map_id_filterMap_get {ids : List ι}
    (h : ∀ x ∈ ids, ∃ row, nodes.get x = some row ∧ row.id = x) :
    (ids.filterMap nodes.get).map ThreadNode.id = ids := by
  induction ids with
  | nil => rfl
  | cons x ids ih =>
    obtain ⟨⟨row, hget, hid⟩, hrest⟩ := List.forall_mem_cons.mp h
    rw [List.filterMap_cons_some hget, List.map_cons, hid, ih hrest]

theorem postOrder_spec {rank : ι → ℕ} {bound : ℕ}
    (hforest : Forest (childrenIn db.rows) rank bound) (hn : bound < n)
    (h : NodesOf db (Below (childrenIn db.rows) rootId) nodes) {root : ThreadNode ι}
    (hroot : root ∈ db.rows) (hid : root.id = rootId) :
    ∃ order, postOrder nodes n rootId = some order ∧ Collected db rootId order := by
  have hvalues : Forest (childrenIn nodes.values) rank bound := by
    refine ⟨fun a => ?_, fun {a b c} ha hb => ?_, fun {a c} hc => ?_, hforest.rank_le⟩
    · exact (nodup_ids_values h).sublist (List.filter_sublist.map _)
    · exact hforest.parent ((mem_childrenIn_values h).mp ha).1 ((mem_childrenIn_values h).mp hb).1
    · exact hforest.rank_lt ((mem_childrenIn_values h).mp hc).1
  have hdeep : bound < n + rank rootId := by omega
  obtain ⟨visited, hvisit, -⟩ := hvalues.visit_eq hdeep nodes.get [] []
    fun x _ => List.not_mem_nil
  have hmem : ∀ x, x ∈ Agyn.postOrder (childrenIn nodes.values) n rootId ↔
      Below (childrenIn db.rows) rootId x := fun x =>
    (hvalues.mem_postOrder hdeep).trans (below_values_iff h)
  have hids := map_id_filterMap_get fun x hx => h.exists_get hroot hid ((hmem x).mp hx)
  refine ⟨_, by rw [postOrder, hvisit]; rfl, ?_, fun row => ?_, ?_⟩
  · refine List.Nodup.of_map ThreadNode.id ?_
    rw [List.nil_append, hids]
    exact hvalues.nodup_postOrder hdeep
  · simp only [List.nil_append, List.mem_filterMap, hmem]
    constructor
    · rintro ⟨x, hbelow, hget⟩
      obtain ⟨hrow, rfl, -⟩ := (h x row).mp hget
      exact ⟨hrow, hbelow⟩
    · rintro ⟨hrow, hbelow⟩
      exact ⟨row.id, hbelow, (h row.id row).mpr ⟨hrow, rfl, hbelow⟩⟩
  · have hpairs := hvalues.pairwise_postOrder hdeep
    rw [← hids, List.pairwise_map] at hpairs
    rw [List.nil_append]
    refine hpairs.imp_of_mem fun {a b} _ hb hnot hparent => ?_
    obtain ⟨x, hx, hget⟩ := List.mem_filterMap.mp hb
    refine hnot (mem_childrenIn.mpr ⟨b, ?_, hparent, rfl⟩)
    exact (InsMap.mem_values_iff nodes b).mpr ⟨x, hget⟩

/-- The threads below the root are collected when the fuel is more than their number. -/
theorem collectThreadNodes_spec (db : ThreadDb ι) (rootId : ι) (hn : db.rows.length < n) :
    ∃ order, collectThreadNodes db n rootId = some order ∧ Collected db rootId order := by
  obtain ⟨rank, hforest⟩ := db.exists_forest
  unfold collectThreadNodes
  cases hfind : db.rows.find? fun row => row.id = rootId with
  | none =>
    have hnone : ∀ row ∈ db.rows, row.id ≠ rootId := by simpa using hfind
    refine ⟨[], rfl, List.nodup_nil, fun row => ⟨by simp, fun ⟨hrow, hbelow⟩ => ?_⟩, .nil⟩
    obtain ⟨root, hroot, hid⟩ := db.exists_root hbelow hrow
    exact absurd hid (hnone root hroot)
  | some root =>
    have hroot : root ∈ db.rows := List.mem_of_find?_eq_some hfind
    have hid : root.id = rootId := by simpa using List.find?_some hfind
    have hfirst : NodesOf db (fun id => id = root.id) (InsMap.empty.set root.id root) := by
      have hempty : NodesOf db (fun _ => False) InsMap.empty := fun id node => by simp
      exact (hempty.set hroot).congr fun id => by simp
    have hdeep : ∀ a ∈ [root.id], db.rows.length < n + rank a := fun a _ => by omega
    obtain ⟨nodes, hcollect, hnodes⟩ := collectLevels_spec hforest hdeep hfirst
    have hbelow : NodesOf db (Below (childrenIn db.rows) root.id) nodes :=
      hnodes.congr fun id => by rw [below_iff]; simp
    obtain ⟨order, horder, hcollected⟩ := postOrder_spec hforest hn hbelow hroot rfl
    subst hid
    exact ⟨order, by simp [hcollect, horder], hcollected⟩

def closes (log : List (Effect ι)) : List ι :=
  (log.filter fun effect => !effect.isCleanup).map Effect.thread

omit [DecidableEq ι] in
theorem closes_append (log log' : List (Effect ι)) :
    closes (log ++ log') = closes log ++ closes log' := by
  simp [closes]

omit [DecidableEq ι] in
theorem closes_of_cleanup {log : List (Effect ι)} (h : ∀ effect ∈ log, effect.isCleanup = true) :
    closes log = [] := by
  rw [closes, List.map_eq_nil_iff, List.filter_eq_nil_iff]
  intro effect heffect
  simp [h effect heffect]

theorem rowsAfter_eq (rows : List (ThreadNode ι)) (log : List (Effect ι)) :
    rowsAfter rows log =
      rows.map fun row => if row.id ∈ closes log then { row with status := .closed } else row := by
  induction log generalizing rows with
  | nil => simp [rowsAfter, closes]
  | cons effect log ih =>
    have hstep : rowsAfter rows (effect :: log) = rowsAfter (effect.apply rows) log := rfl
    rw [hstep, ih]
    cases effect with
    | close id =>
      rw [Effect.apply, List.map_map]
      refine List.map_congr_left fun row _ => ?_
      have hcloses : closes (.close id :: log) = id :: closes log := rfl
      by_cases hid : row.id = id
      · simp [hid, hcloses]
      · simp [hid, hcloses]
    | _ => rfl

theorem closedIn_rowsAfter {rows : List (ThreadNode ι)} {log : List (Effect ι)} {id : ι} :
    ClosedIn (rowsAfter rows log) id ↔ id ∈ closes log ∨ ClosedIn rows id := by
  rw [rowsAfter_eq]
  unfold ClosedIn
  constructor
  · intro h
    by_cases hid : id ∈ closes log
    · exact Or.inl hid
    · refine Or.inr fun row hrow heq => ?_
      have hsame := h _ (List.mem_map_of_mem hrow)
      rw [if_neg (heq ▸ hid)] at hsame
      exact hsame heq
  · intro h row hrow heq
    obtain ⟨old, hold, rfl⟩ := List.mem_map.mp hrow
    split_ifs at heq ⊢ with hclosed
    · rfl
    · rcases h with hid | hrows
      · exact absurd (heq ▸ hid) hclosed
      · exact hrows old hold heq

variable {env : Services ι} {order : List (ThreadNode ι)}

omit [DecidableEq ι] in
/-- Threads are closed in their order, and all of them when no update fails. -/
theorem closeThreads_log (env : Services ι) (order : List (ThreadNode ι)) :
    (∀ effect ∈ (closeThreads env order).1, effect.isCleanup = false) ∧
      (closes (closeThreads env order).1).Sublist (order.map ThreadNode.id) ∧
      ((closeThreads env order).2 = true → ∀ node ∈ order,
        node.status = .closed ∨ node.id ∈ closes (closeThreads env order).1) := by
  induction order with
  | nil => simp [closeThreads, closes]
  | cons node order ih =>
    obtain ⟨hclose, hsub, hall⟩ := ih
    rw [closeThreads]
    by_cases hstatus : node.status = .closed
    · rw [if_pos hstatus]
      exact ⟨hclose, hsub.cons _, fun hok => List.forall_mem_cons.mpr ⟨Or.inl hstatus, hall hok⟩⟩
    · rw [if_neg hstatus]
      cases env.updateThread node.id with
      | failed => simp [closes]
      | closedAndFailed => simp [closes, Effect.isCleanup, Effect.thread]
      | closed =>
        refine ⟨List.forall_mem_cons.mpr ⟨rfl, hclose⟩, hsub.cons_cons _, fun hok => ?_⟩
        refine List.forall_mem_cons.mpr ⟨Or.inr List.mem_cons_self, fun m hm => ?_⟩
        exact (hall hok m hm).imp_right (List.mem_cons_of_mem _)

omit [DecidableEq ι] in
/-- The threads before one that is closed are closed. -/
theorem closeThreads_before {pre post : List (Effect ι)} {id : ι}
    (h : (closeThreads env order).1 = pre ++ .close id :: post) :
    ∃ before node after, order = before ++ node :: after ∧ node.id = id ∧
      ∀ m ∈ before, m.status = .closed ∨ m.id ∈ closes pre := by
  induction order generalizing pre with
  | nil => simp [closeThreads] at h
  | cons node order ih =>
    rw [closeThreads] at h
    by_cases hstatus : node.status = .closed
    · rw [if_pos hstatus] at h
      obtain ⟨before, m, after, rfl, hid, hbefore⟩ := ih h
      exact ⟨node :: before, m, after, rfl, hid,
        List.forall_mem_cons.mpr ⟨Or.inl hstatus, hbefore⟩⟩
    · rw [if_neg hstatus] at h
      cases hupdate : env.updateThread node.id with
      | failed => simp [hupdate] at h
      | closedAndFailed =>
        rw [hupdate] at h
        rcases List.cons_eq_append_iff.mp h with ⟨rfl, heq⟩ | ⟨pre', -, hnil⟩
        · exact ⟨[], node, order, rfl, by simpa [eq_comm] using (List.cons.inj heq).1, by simp⟩
        · simp at hnil
      | closed =>
        rw [hupdate] at h
        rcases List.cons_eq_append_iff.mp h with ⟨rfl, heq⟩ | ⟨pre', rfl, hrest⟩
        · exact ⟨[], node, order, rfl, by simpa [eq_comm] using (List.cons.inj heq).1, by simp⟩
        · obtain ⟨before, m, after, rfl, hid, hbefore⟩ := ih hrest
          refine ⟨node :: before, m, after, rfl, hid,
            List.forall_mem_cons.mpr ⟨Or.inr List.mem_cons_self, fun k hk => ?_⟩⟩
          exact (hbefore k hk).imp_right (List.mem_cons_of_mem _)

/-- What the pipeline of a thread does is a cleanup of that thread. -/
theorem isCleanup_of_mem_runCleanupPipeline {effect : Effect ι}
    (h : effect ∈ runCleanupPipeline env node) :
    effect.isCleanup = true ∧ effect.thread = node.id := by
  have hvolume : ∀ effect ∈ deleteWorkspaceVolume env node.id,
      effect.isCleanup = true ∧ effect.thread = node.id := by
    intro effect heffect
    unfold deleteWorkspaceVolume at heffect
    split at heffect
    · simp at heffect
    · simp at heffect
    · split at heffect
      · simp at heffect
      · rcases List.mem_cons.mp heffect with rfl | heffect
        · exact ⟨rfl, rfl⟩
        · split_ifs at heffect
          · obtain ⟨ref, -, rfl⟩ := List.mem_map.mp heffect
            exact ⟨rfl, rfl⟩
          · simp at heffect
  unfold runCleanupPipeline at h
  simp only [List.mem_append, List.mem_cons, List.mem_map, List.not_mem_nil, or_false] at h
  rcases h with (((rfl | ⟨run, -, rfl⟩) | rfl | rfl) | h) | rfl
  · exact ⟨rfl, rfl⟩
  · exact ⟨rfl, rfl⟩
  · exact ⟨rfl, rfl⟩
  · exact ⟨rfl, rfl⟩
  · exact hvolume effect h
  · exact ⟨rfl, rfl⟩

structure Cascade (db : ThreadDb ι) (env : Services ι) (rootId : ι)
    (order : List (ThreadNode ι)) (log : List (Effect ι)) : Prop where
  collected : Collected db rootId order
  /-- A thread is closed once at most, in the order of the threads. -/
  closes : (closes log).Sublist (order.map ThreadNode.id)
  childrenFirst : ∀ pre id post, log = pre ++ .close id :: post →
    ∀ c ∈ childrenIn db.rows id, ClosedIn (rowsAfter db.rows pre) c
  /-- No cleanup starts before every thread is closed. -/
  twoPhases : ∀ pre effect post, log = pre ++ effect :: post → effect.isCleanup = true →
    ∀ row ∈ order, ClosedIn (rowsAfter db.rows pre) row.id
  inside : ∀ effect ∈ log, ∃ row ∈ order, row.id = effect.thread
  outside : ∀ row ∈ db.rows, row ∉ order → row ∈ rowsAfter db.rows log
  /-- When no update fails every thread is closed and cleaned up. -/
  complete : (∀ row ∈ order, env.updateThread row.id = .closed) →
    (∀ row ∈ order, ClosedIn (rowsAfter db.rows log) row.id) ∧
      order.flatMap (runCleanupPipeline env) <:+ log

omit [DecidableEq ι] in
theorem closeThreads_ok (h : ∀ node ∈ order, env.updateThread node.id = .closed) :
    (closeThreads env order).2 = true := by
  induction order with
  | nil => rfl
  | cons node order ih =>
    obtain ⟨hnode, horder⟩ := List.forall_mem_cons.mp h
    rw [closeThreads]
    split_ifs
    · exact ih horder
    · rw [hnode]
      exact ih horder

omit [DecidableEq ι] in
/-- An effect that is in one part of a log only splits that part. -/
theorem split_log {log cleanups pre post : List (Effect ι)} {effect : Effect ι}
    (h : log ++ cleanups = pre ++ effect :: post) :
    (effect ∉ cleanups → ∃ rest, log = pre ++ effect :: rest) ∧
      (effect ∉ log → ∃ rest, pre = log ++ rest) := by
  rcases List.append_eq_append_iff.mp h with ⟨more, rfl, hmore⟩ | ⟨more, rfl, hmore⟩
  · have hmem : effect ∈ cleanups := by simp [hmore]
    exact ⟨fun hnot => absurd hmem hnot, fun _ => ⟨more, rfl⟩⟩
  · cases more with
    | nil =>
      have hmem : effect ∈ cleanups := by simp [show cleanups = effect :: post from hmore.symm]
      exact ⟨fun hnot => absurd hmem hnot, fun _ => ⟨[], by simp⟩⟩
    | cons first more =>
      obtain ⟨rfl, -⟩ := List.cons.inj hmore
      exact ⟨fun _ => ⟨more, rfl⟩, fun hnot => absurd (by simp) hnot⟩

theorem Collected.closedIn (h : Collected db rootId order) {pre : List (Effect ι)}
    (hnode : node ∈ order) (hclosed : node.status = .closed ∨ node.id ∈ closes pre) :
    ClosedIn (rowsAfter db.rows pre) node.id := by
  refine closedIn_rowsAfter.mpr (hclosed.symm.imp_right fun hstatus row hrow hid => ?_)
  rw [db.eq_of_id hrow ((h.mem node).mp hnode).1 hid, hstatus]

/-- The children of a thread in the order stand before it. -/
theorem Collected.child_before (h : Collected db rootId order) {before after : List (ThreadNode ι)}
    (horder : order = before ++ node :: after) {c : ι} (hc : c ∈ childrenIn db.rows node.id) :
    ∃ child ∈ before, child.id = c := by
  obtain ⟨child, hchild, hparent, rfl⟩ := mem_childrenIn.mp hc
  have hnode : node ∈ order := by simp [horder]
  have hmem : child ∈ order :=
    (h.mem child).mpr ⟨hchild, ((h.mem node).mp hnode).2.tail hc⟩
  have hpairs := h.childrenFirst
  rw [horder] at hmem hpairs
  obtain ⟨-, hafter, -⟩ := List.pairwise_append.mp hpairs
  obtain ⟨hafter, -⟩ := List.pairwise_cons.mp hafter
  rcases List.mem_append.mp hmem with hbefore | hrest
  · exact ⟨child, hbefore, rfl⟩
  · rcases List.mem_cons.mp hrest with rfl | hmem
    · exact absurd (Relation.TransGen.single hc) (db.acyclic child.id)
    · exact absurd hparent (hafter child hmem)

/-- A cascade ends, whatever the updates and the cleanups do. -/
theorem closeThreadWithCascade_covers (db : ThreadDb ι) (env : Services ι) (rootId : ι) :
    ∃ fuel, ∀ n, fuel ≤ n → ∃ order log, collectThreadNodes db n rootId = some order ∧
      closeThreadWithCascade db env n rootId = some log ∧ Cascade db env rootId order log := by
  refine ⟨db.rows.length + 1, fun n hn => ?_⟩
  obtain ⟨order, hcollect, hcollected⟩ := collectThreadNodes_spec db rootId hn
  obtain ⟨hclose, hsub, hall⟩ := closeThreads_log env order
  let cleanups :=
    if (closeThreads env order).2 then order.flatMap (runCleanupPipeline env) else []
  have hcleanups : ∀ effect ∈ cleanups, effect.isCleanup = true ∧
      ∃ row ∈ order, row.id = effect.thread := by
    intro effect heffect
    unfold cleanups at heffect
    split_ifs at heffect
    · obtain ⟨row, hrow, hmem⟩ := List.mem_flatMap.mp heffect
      obtain ⟨hcleanup, hthread⟩ := isCleanup_of_mem_runCleanupPipeline hmem
      exact ⟨hcleanup, row, hrow, hthread.symm⟩
    · simp at heffect
  have hcloses : closes ((closeThreads env order).1 ++ cleanups) =
      closes (closeThreads env order).1 := by
    rw [closes_append, closes_of_cleanup fun effect h => (hcleanups effect h).1, List.append_nil]
  refine ⟨order, (closeThreads env order).1 ++ cleanups, hcollect, ?_, hcollected, ?_, ?_, ?_, ?_,
    ?_, ?_⟩
  · rw [closeThreadWithCascade, hcollect, Option.map_some]
    unfold cleanups
    dsimp only
    split_ifs
    · rfl
    · rw [List.append_nil]
  · rw [hcloses]
    exact hsub
  · intro pre id post hlog c hc
    obtain ⟨rest, hrest⟩ := (split_log hlog).1 fun hmem => by
      simpa [Effect.isCleanup] using (hcleanups _ hmem).1
    obtain ⟨before, node, after, horder, rfl, hbefore⟩ := closeThreads_before hrest
    obtain ⟨child, hchild, rfl⟩ := hcollected.child_before horder hc
    exact hcollected.closedIn (by simp [horder, hchild]) (hbefore child hchild)
  · intro pre effect post hlog heffect row hrow
    have hnot : effect ∉ (closeThreads env order).1 := fun hmem => by
      simp [hclose effect hmem] at heffect
    obtain ⟨rest, rfl⟩ := (split_log hlog).2 hnot
    have hok : (closeThreads env order).2 = true := by
      have hmem : effect ∈ cleanups :=
        (List.mem_append.mp (hlog ▸ by simp)).resolve_left hnot
      by_contra hfailed
      simp [cleanups, hfailed] at hmem
    refine hcollected.closedIn hrow ((hall hok row hrow).imp_right fun hclosed => ?_)
    rw [closes_append]
    exact List.mem_append_left _ hclosed
  · intro effect heffect
    rcases List.mem_append.mp heffect with hmem | hmem
    · have hclosed : effect.thread ∈ closes (closeThreads env order).1 :=
        List.mem_map_of_mem (List.mem_filter.mpr ⟨hmem, by simp [hclose effect hmem]⟩)
      obtain ⟨row, hrow, hid⟩ := List.mem_map.mp (hsub.subset hclosed)
      exact ⟨row, hrow, hid⟩
    · exact (hcleanups effect hmem).2
  · intro row hrow hout
    rw [rowsAfter_eq, hcloses]
    refine List.mem_map.mpr ⟨row, hrow, if_neg fun hclosed => hout ?_⟩
    obtain ⟨node, hnode, hid⟩ := List.mem_map.mp (hsub.subset hclosed)
    rwa [← db.eq_of_id ((hcollected.mem node).mp hnode).1 hrow hid]
  · intro hupdates
    have hok := closeThreads_ok hupdates
    refine ⟨fun row hrow => hcollected.closedIn hrow ?_, ?_⟩
    · rw [hcloses]
      exact hall hok row hrow
    · unfold cleanups
      rw [if_pos hok]
      exact List.suffix_append _ _

/-- A root with two threads below it, one of which has a thread of its own, and another root. -/
def familyRows : List (ThreadNode ℕ) :=
  [⟨0, none, .isOpen, 0⟩, ⟨1, some 0, .isOpen, 1⟩, ⟨2, some 0, .closed, 2⟩,
    ⟨3, some 1, .isOpen, 3⟩, ⟨4, none, .isOpen, 4⟩]

theorem lt_of_mem_familyRows {a c : ℕ} (h : c ∈ childrenIn familyRows a) : a < c := by
  obtain ⟨row, hrow, hparent, rfl⟩ := mem_childrenIn.mp h
  have hrows : ∀ row ∈ familyRows, ∀ p ∈ row.parentId, p < row.id := by decide
  exact hrows row hrow a hparent

/-- The query for children answers with the last thread first. -/
def family : ThreadDb ℕ where
  rows := familyRows
  ids := by decide
  parents := by decide
  acyclic a hcycle := by
    have hlt : Relation.TransGen (· < ·) a a :=
      hcycle.lift id fun _ _ hchild => lt_of_mem_familyRows hchild
    rw [Relation.transGen_eq_self] at hlt
    exact lt_irrefl a hlt
  findChildren frontier :=
    (familyRows.filter fun row => row.parentId.any (· ∈ frontier)).reverse
  findChildren_perm _ := List.reverse_perm _

/-- One run is active in each thread, and removing a volume fails. -/
def volumesStay : Services ℕ where
  updateThread _ := .closed
  listRunningRuns _ := some ["run"]
  listContainersByVolume _ := some []
  findByVolume id := some [⟨"container", some id, false⟩]
  removeVolume _ := false

/-- The threads below the root are closed, and the other root is not. -/
theorem family_closed :
    ∃ fuel log, closeThreadWithCascade family volumesStay fuel 0 = some log ∧
      (∀ id ∈ [0, 1, 2, 3], ClosedIn (rowsAfter familyRows log) id) ∧
      ⟨4, none, .isOpen, 4⟩ ∈ rowsAfter familyRows log := by
  obtain ⟨fuel, hcovers⟩ := closeThreadWithCascade_covers family volumesStay 0
  obtain ⟨order, log, -, hlog, hcascade⟩ := hcovers fuel le_rfl
  have hclosed : ∀ row ∈ familyRows, Below (childrenIn familyRows) 0 row.id →
      ClosedIn (rowsAfter familyRows log) row.id := fun row hrow hbelow =>
    (hcascade.complete fun _ _ => rfl).1 row ((hcascade.collected.mem row).mpr ⟨hrow, hbelow⟩)
  have hone : Below (childrenIn familyRows) 0 1 :=
    .single (show 1 ∈ childrenIn familyRows 0 by decide)
  have htwo : Below (childrenIn familyRows) 0 2 :=
    .single (show 2 ∈ childrenIn familyRows 0 by decide)
  have hthree : Below (childrenIn familyRows) 0 3 :=
    hone.tail (show 3 ∈ childrenIn familyRows 1 by decide)
  refine ⟨fuel, log, hlog, ?_, hcascade.outside ⟨4, none, .isOpen, 4⟩ (by decide) fun hmem => ?_⟩
  · simp only [List.forall_mem_cons]
    exact ⟨hclosed ⟨0, none, .isOpen, 0⟩ (by decide) .refl,
      hclosed ⟨1, some 0, .isOpen, 1⟩ (by decide) hone,
      hclosed ⟨2, some 0, .closed, 2⟩ (by decide) htwo,
      hclosed ⟨3, some 1, .isOpen, 3⟩ (by decide) hthree, by simp⟩
  · have hroot := ((hcascade.collected.mem _).mp hmem).2
    rcases hroot.cases_tail with heq | ⟨a, -, hchild⟩
    · simp at heq
    · obtain ⟨row, hrow, hparent, hid⟩ := mem_childrenIn.mp hchild
      have hrows : ∀ row ∈ familyRows, row.id = 4 → row.parentId = none := by decide
      rw [hrows row hrow hid] at hparent
      simp at hparent

end Agyn.ThreadCleanup
