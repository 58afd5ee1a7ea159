import Agyn.GraphStoreReads

/-!
Which trees the operations of a program may change, whatever their replies are:
a read changes none, staging a graph changes the staging tree only.
-/
namespace Agyn

open Prog FsGraphRepository

variable {J G : Type}

/-- An operation that changes no tree but one. -/
def FsOp.OnlyAt {β : Type} (G : Type) (p : Place) (o : FsOp J β) : Prop :=
  ∀ d : Disk J G, (o.exec d).2.installs = d.installs ∧
    ∀ q, q ≠ p → (o.exec d).2.tree q = d.tree q

theorem onlyAt_mkdir (p : Place) (f : GraphTree J G → GraphTree J G) (d : Disk J G) :
    (d.mkdir p f).installs = d.installs ∧ ∀ q, q ≠ p → (d.mkdir p f).tree q = d.tree q := by
  refine ⟨rfl, fun q hq => ?_⟩
  rw [Disk.mkdir, Disk.tree_setTree, if_neg hq]

theorem onlyAt_commitTemp (p : Place) (w : FileWrite J) : (FsOp.commitTemp p w).OnlyAt G p := by
  intro d
  change (d.commitTemp p w).2.installs = _ ∧ ∀ q, q ≠ p → (d.commitTemp p w).2.tree q = _
  unfold Disk.commitTemp
  split
  · exact ⟨rfl, fun _ _ => rfl⟩
  · refine ⟨rfl, fun q hq => ?_⟩
    exact (Disk.tree_setTree _ _ _ _).trans (if_neg hq)

theorem writeAll_every (site : Site) (p : Place) (ws : List (FileWrite J)) (step : ℕ) :
    (writeAll site p step ws).Every fun _ l o => l.site = site ∧ o.OnlyAt G p := by
  induction ws generalizing step with
  | nil => exact .ret _
  | cons w rest ih =>
    refine Every.andThen ?_ fun _ => ih (step + 3)
    refine Every.andThen (every_ask ⟨rfl, onlyAt_mkdir p _⟩) fun _ => ?_
    refine Every.andThen (every_ask ⟨rfl, fun d => ⟨rfl, fun _ _ => rfl⟩⟩) fun _ => ?_
    exact every_ask ⟨rfl, onlyAt_commitTemp p w⟩

/-- Staging changes the staging tree only. -/
theorem createStagingTree_every (id : String) (g : PersistedGraph J) :
    (createStagingTree id g).Every fun _ l o => l.site = .staging ∧ o.OnlyAt G (.staging id) := by
  refine Every.andThen (every_ask ⟨rfl, fun d => ⟨rfl, fun _ _ => rfl⟩⟩) fun _ => ?_
  refine Every.andThen (every_ask ⟨rfl, onlyAt_mkdir _ _⟩) fun _ => ?_
  refine Every.andThen (every_ask ⟨rfl, onlyAt_mkdir _ _⟩) fun _ => ?_
  refine Every.andThen (every_ask ⟨rfl, onlyAt_mkdir _ _⟩) fun _ => ?_
  exact writeAll_every .staging (.staging id) (graphWrites g) 4

/-- The documents of the root, without its `.git` entry. -/
def rootDocs (d : Disk J G) : Option (GraphTree J G) := (d.tree .root).map GraphTree.docs

theorem rootDocs_congr {d d' : Disk J G} (h : d.tree .root = d'.tree .root) :
    rootDocs d = rootDocs d' := by
  rw [rootDocs, h, rootDocs]

theorem bind_rootDocs {α : Type} {f : GraphTree J G → Option α} (hf : ∀ t, f t = f t.docs)
    (d : Disk J G) : (d.tree .root).bind f = (rootDocs d).bind f := by
  unfold rootDocs
  cases d.tree .root with
  | none => rfl
  | some t => exact hf t

/-- An operation that only reads, and only the documents of the root. -/
def FsOp.ReadsRoot {β : Type} (G : Type) (o : FsOp J β) : Prop :=
  o.IsRead ∧ ∀ d d' : Disk J G, rootDocs d = rootDocs d' → (o.exec d).1 = (o.exec d').1

theorem readsRoot_readMeta : (FsOp.readMeta .root : FsOp J _).ReadsRoot G := by
  refine ⟨fun _ => rfl, fun d d' h => ?_⟩
  change ((d.tree .root).bind GraphTree.metaFile).join = ((d'.tree .root).bind _).join
  rw [bind_rootDocs (fun _ => rfl), bind_rootDocs (fun _ => rfl), h]

theorem readsRoot_readVars : (FsOp.readVars .root : FsOp J _).ReadsRoot G := by
  refine ⟨fun _ => rfl, fun d d' h => ?_⟩
  change (d.tree .root).bind GraphTree.vars = (d'.tree .root).bind _
  rw [bind_rootDocs (fun _ => rfl), bind_rootDocs (fun _ => rfl), h]

theorem readsRoot_readdir (dir : EntityDir) : (FsOp.readdir .root dir : FsOp J _).ReadsRoot G := by
  refine ⟨fun _ => rfl, fun d d' h => ?_⟩
  change ((d.tree .root).bind fun t => t.dirs dir).map InsMap.keys =
    ((d'.tree .root).bind fun t => t.dirs dir).map InsMap.keys
  rw [bind_rootDocs (fun _ => rfl), bind_rootDocs (fun _ => rfl), h]

theorem readsRoot_readFile (dir : EntityDir) (file : String) :
    (FsOp.readFile .root dir file : FsOp J _).ReadsRoot G := by
  refine ⟨fun _ => rfl, fun d d' h => ?_⟩
  change (((d.tree .root).bind fun t => t.dirs dir).bind fun files => files.get file).join =
    (((d'.tree .root).bind fun t => t.dirs dir).bind fun files => files.get file).join
  rw [bind_rootDocs (fun _ => rfl), bind_rootDocs (fun _ => rfl), h]

theorem readFiles_every (dir : EntityDir) (files : List String) :
    (readFiles (J := J) .root dir files).Every fun _ l o =>
      l.site = .reading ∧ o.ReadsRoot G := by
  induction files with
  | nil => exact .ret _
  | cons file rest ih =>
    unfold readFiles
    split
    · refine Every.bind (every_ask ⟨rfl, readsRoot_readFile dir file⟩) fun record => ?_
      refine Every.bind ih fun result => ?_
      split <;> exact .ret _
    · exact ih

theorem readEntitiesFromDir_every (dir : EntityDir) :
    (readEntitiesFromDir (J := J) .root dir).Every fun _ l o =>
      l.site = .reading ∧ o.ReadsRoot G := by
  refine Every.bind (every_ask ⟨rfl, readsRoot_readdir dir⟩) fun files => ?_
  split
  · exact .ret _
  · exact readFiles_every dir _

/-- A read only looks at the documents of the root. -/
theorem get_every (name nowIso : String) :
    (FsGraphRepository.get (J := J) name nowIso).Every fun _ l o =>
      l.site = .reading ∧ o.ReadsRoot G := by
  refine Every.bind ?_ fun meta? => ?_
  · exact Every.bind (every_ask ⟨rfl, readsRoot_readMeta⟩) fun _ => .ret _
  · cases meta? with
    | none => exact .ret _
    | some graphMeta =>
      refine Every.bind (readEntitiesFromDir_every .nodes) fun nodesRes => ?_
      refine Every.bind (readEntitiesFromDir_every .edges) fun edgesRes => ?_
      split
      · exact .ret _
      · refine Every.bind ?_ fun vars => .ret _
        exact Every.bind (every_ask ⟨rfl, readsRoot_readVars⟩) fun _ => .ret _

/-- The operations that take the root away or write into it. -/
def Disruptive (l : Label) : Prop :=
  l.site = .undo ∨ l.site = .rollback ∨ l ∈ [⟨.swap, 1⟩, ⟨.swap, 2⟩]

def FsOp.KeepsRoot {β : Type} (G : Type) (o : FsOp J β) : Prop :=
  ∀ d : Disk J G, rootDocs (o.exec d).2 = rootDocs d

theorem FsOp.OnlyAt.keepsRoot {β : Type} {o : FsOp J β} {p : Place} (h : o.OnlyAt G p)
    (hp : p ≠ .root) : o.KeepsRoot G := fun d =>
  rootDocs_congr ((h d).2 .root (Ne.symm hp))

theorem FsOp.IsRead.keepsRoot {β : Type} {o : FsOp J β} (h : o.IsRead) : o.KeepsRoot G := fun d =>
  rootDocs_congr (by rw [h.exec_disk])

theorem keepsRoot_rm {p : Place} (hp : p ≠ .root) : (FsOp.rm p : FsOp J _).KeepsRoot G := fun d =>
  rootDocs_congr ((Disk.tree_rm d p .root).trans (if_neg (Ne.symm hp)))

/-- A change of the `.git` entry of a tree. -/
theorem rootDocs_inside_git (d : Disk J G) (p : Place) {f : GraphTree J G → GraphTree J G}
    (hf : ∀ t, (f t).docs = t.docs) : rootDocs (d.inside p f) = rootDocs d := by
  rw [rootDocs, Disk.tree_inside, rootDocs]
  split
  · rename_i hp
    rw [← hp, Option.map_map]
    cases d.tree .root with
    | none => rfl
    | some t => exact congrArg some (hf t)
  · rfl

theorem keepsRoot_rmGit (p : Place) : (FsOp.rmGit p : FsOp J _).KeepsRoot G := fun d =>
  rootDocs_inside_git d p fun _ => rfl

theorem keepsRoot_renameGit (src dst : Place) :
    (FsOp.renameGit src dst : FsOp J _).KeepsRoot G := by
  intro d
  change rootDocs (d.renameGit src dst).2 = _
  unfold Disk.renameGit
  split
  · split
    · rfl
    · refine (rootDocs_inside_git _ dst ?_).trans (rootDocs_inside_git d src ?_)
      · exact fun _ => rfl
      · exact fun _ => rfl
  · rfl

section UpsertFootprint

/-- Every operation of an upsert is disruptive or leaves the documents of the root alone. -/
abbrev Harmless (G : Type) (β : Type) (l : Label) (o : FsOp J β) : Prop :=
  Disruptive l ∨ o.KeepsRoot G

theorem writeAll_rollback (ws : List (FileWrite J)) (step : ℕ) :
    (writeAll .rollback .root step ws).Every fun β => Harmless (J := J) G β :=
  (writeAll_every (G := G) .rollback .root ws step).mono fun _ _ _ h => Or.inl (Or.inr (Or.inl h.1))

theorem discardTempDir_every (step : ℕ) {p : Place} (hp : p ≠ .root) :
    (discardTempDir (J := J) step p).Every fun β => Harmless G β :=
  Every.bind (every_ask (Or.inr (keepsRoot_rm hp))) fun _ => .ret ()

theorem restoreAuxiliaryEntries_every (backup : Place) :
    (restoreAuxiliaryEntries (J := J) backup).Every fun β => Harmless G β := by
  have hread : (FsOp.gitExists backup : FsOp J Bool).IsRead := fun _ => rfl
  refine Every.bind (every_ask (Or.inr hread.keepsRoot)) fun found => ?_
  split
  · refine Every.bind (every_ask (Or.inr (keepsRoot_rmGit .root))) fun _ => ?_
    exact Every.bind (every_ask (Or.inr (keepsRoot_renameGit backup .root))) fun _ => .ret ()
  · exact .ret ()

theorem swapSteps_every (staging backup : Place) :
    (swapSteps (J := J) staging backup).Every fun β => Harmless G β := by
  refine Every.bind (every_ask (Or.inr fun _ => rfl)) fun parent => ?_
  cases parent with
  | error e => exact .ret _
  | ok u =>
    refine Every.bind (every_ask (Or.inl (by simp [Disruptive]))) fun away => ?_
    cases away with
    | error e => exact .ret _
    | ok u =>
      refine Every.bind (every_ask (Or.inl (by simp [Disruptive]))) fun active => ?_
      cases active with
      | error e => exact .ret _
      | ok u => exact Every.bind (restoreAuxiliaryEntries_every backup) fun _ => .ret _

theorem undoSwap_every (backup : Place) (progress : SwapProgress) :
    (undoSwap (J := J) backup progress).Every fun β => Harmless G β := by
  have hundo : ∀ step o, (mutate (J := J) .undo step o).Every fun β => Harmless G β :=
    fun step o => every_ask (Or.inl (Or.inl rfl))
  refine Every.bind ?_ fun _ => ?_
  · split
    · exact Every.bind (hundo 0 _) fun _ => .ret ()
    · exact .ret ()
  · split
    · exact Every.bind (hundo 1 _) fun _ => .ret ()
    · exact .ret ()

theorem swapWorkingTree_every {staging backup : Place} (hs : staging ≠ .root)
    (hb : backup ≠ .root) :
    (swapWorkingTree (J := J) staging backup).Every fun β => Harmless G β := by
  refine Every.bind (swapSteps_every staging backup) fun progress => ?_
  refine Every.bind ?_ fun _ => ?_
  · split
    · exact undoSwap_every backup progress
    · exact .ret ()
  · refine Every.bind (discardTempDir_every 0 hs) fun _ => ?_
    exact Every.bind (discardTempDir_every 1 hb) fun _ => .ret _

theorem persistGraph_every (ctx : CallContext) (target : PersistedGraph J) :
    (persistGraph ctx target).Every fun β => Harmless G β := by
  have hs : Place.staging ctx.stagingId ≠ .root := by simp
  have hb : Place.backup ctx.backupId ≠ .root := by simp
  refine Every.andThen ?_ fun _ => ?_
  · exact (createStagingTree_every ctx.stagingId target).mono fun _ _ _ h =>
      Or.inr (h.2.keepsRoot hs)
  · refine Every.bind (swapWorkingTree_every hs hb) fun swapped => ?_
    cases swapped with
    | error e => exact Every.bind (discardTempDir_every 2 hs) fun _ => .ret _
    | ok u => exact .ret _

theorem restoreWorkingTree_every (g : Option (PersistedGraph J)) (nowIso : String) :
    (restoreWorkingTree g nowIso).Every fun β => Harmless G β := by
  have hclear : ∀ step o, (mutate (J := J) .rollback step o).Every fun β => Harmless G β :=
    fun step o => every_ask (Or.inl (Or.inr (Or.inl rfl)))
  refine Every.bind (Every.andThen ?_ fun _ => writeAll_rollback _ 4) fun _ => .ret ()
  refine Every.andThen (hclear 0 _) fun _ => Every.andThen (hclear 1 _) fun _ => ?_
  exact Every.andThen (hclear 2 _) fun _ => hclear 3 _

theorem upsertLocked_every (ctx : CallContext) (req : PersistedGraphUpsertRequest J) :
    (upsertLocked ctx req).Every fun β => Harmless G β := by
  refine Every.bind ?_ fun existing => ?_
  · exact (get_every (G := G) req.name ctx.nowIso).mono fun _ _ _ h => Or.inr h.2.1.keepsRoot
  · cases existing with
    | error e => exact .ret _
    | ok existing =>
      dsimp only
      cases planUpsert ctx.nowIso req existing with
      | error e => exact .ret _
      | ok target =>
        refine Every.bind (persistGraph_every ctx target) fun persisted => ?_
        cases persisted with
        | ok u => exact .ret _
        | error msg =>
          exact Every.bind (restoreWorkingTree_every existing ctx.nowIso) fun _ => .ret _

end UpsertFootprint

end Agyn
