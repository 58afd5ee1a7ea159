import Mathlib.Data.Finset.Card
import Mathlib.Data.Finset.Prod
import Mathlib.Data.Finset.Union
import Mathlib.Data.Finset.Image
import Agyn.PromptFrames

/-!
Every resolution ends: a node is on the stack of its resolution while it is expanded, so a path has
no node twice in one resolution, and there are finitely many nodes and resolutions. The stacks only
grow back to what they were when nothing is thrown, since an agent leaves its stack after its tools
are described.
-/
namespace Agyn.Prompts

open FuelledCalls
open WorkerRegistry (Worker ManageToolNode)

variable {fold : String → String} {mustache : Mustache} {G : Graph} {path : Path} {key : Key}
  {w w' : World} {rel : Finset ℕ → Finset ℕ → Prop}

def World.Live (w : World) (key : Key) : Prop := ∀ t, key = some t → t ∈ w.reading

/-- The workers are those of the graph, registered under the names of its agents or not yet. -/
def World.Fits (fold : String → String) (G : Graph) (w : World) : Prop :=
  ∀ t, SameWorkers fold G (G.registry t) (w.registry t)

structure SameStacks (w w' : World) : Prop where
  reading : w'.reading = w.reading
  agents : ∀ key, w.Live key → (w'.state key).stackAgents = (w.state key).stackAgents
  tools : ∀ key, w.Live key → (w'.state key).stackTools = (w.state key).stackTools

/-- Every resolution of an agent of the graph ends, expands no node twice on a path, and leaves the
stacks as it found them, as do the resolutions inside of it. One that throws changes nothing that
is rendered after it. -/
structure ResolvesCleanly (fold : String → String) (mustache : Mustache) (G : Graph) : Prop where
  terminates : ∀ a ∈ G.agents, ∃ fuel r w, resolve fold mustache G fuel a = some (r, w)
  once : ∀ a ∈ G.agents, ∀ fuel r w, resolve fold mustache G fuel a = some (r, w) →
    ∀ path ∈ w.expansions, (path.map Prod.snd).Nodup
  agents : ∀ fuel path key w r w', ∀ a ∈ G.agents, w.Fits fold G →
    (resolver fold mustache G fuel).resolveEffectiveSystemPrompt path a key w = some (r, w') →
      SameStacks w w'
  tools : ∀ fuel path key w r w' t, G.Managed t → w.Fits fold G →
    (resolver fold mustache G fuel).resolvePrompt path t key w = some (r, w') → SameStacks w w'
  failures : ∀ fuel path key w e w', ∀ a ∈ G.agents, w.Fits fold G →
    (resolver fold mustache G fuel).resolveEffectiveSystemPrompt path a key w =
        some (.error e, w') →
      ∀ fuel, ∀ b ∈ G.agents,
        ((resolver fold mustache G fuel).resolveEffectiveSystemPrompt path b key w').map Prod.fst =
          ((resolver fold mustache G fuel).resolveEffectiveSystemPrompt path b key w).map Prod.fst

namespace SameWorkers

variable {m m' m'' : ManageToolNode}

theorem refl (m : ManageToolNode) : SameWorkers fold G m m := ⟨rfl, Iff.rfl⟩

theorem trans (h : SameWorkers fold G m m') (h' : SameWorkers fold G m' m'') :
    SameWorkers fold G m m'' :=
  ⟨h'.workers.trans h.workers, h'.refreshes.trans h.refreshes⟩

theorem refresh (m : ManageToolNode) :
    SameWorkers fold G m (m.refreshAllWorkers fold G.configs).1 := by
  obtain ⟨hworkers, hagain⟩ := WorkerRegistry.refreshAllWorkers_again fold G.configs m
  exact ⟨hworkers, by rw [Refreshes, hagain, Refreshes]⟩

end SameWorkers

/-- What a resolution does to the stacks in use and to the workers. -/
structure Keeps (fold : String → String) (G : Graph) (rel : Finset ℕ → Finset ℕ → Prop)
    (w w' : World) : Prop where
  reading : w'.reading = w.reading
  agents : ∀ key, w.Live key → rel (w.state key).stackAgents (w'.state key).stackAgents
  tools : ∀ key, w.Live key → rel (w.state key).stackTools (w'.state key).stackTools
  workers : ∀ t, SameWorkers fold G (w.registry t) (w'.registry t)

/-- A relation between what is on a stack before and after. -/
structure Grows (rel : Finset ℕ → Finset ℕ → Prop) : Prop where
  refl : ∀ xs, rel xs xs
  trans : ∀ {xs ys zs}, rel xs ys → rel ys zs → rel xs zs
  pop : ∀ {x xs ys}, x ∉ xs → rel (insert x xs) ys → rel xs (ys.erase x)

theorem grows_subset : Grows (· ⊆ ·) where
  refl := Finset.Subset.refl
  trans := Finset.Subset.trans
  pop := fun hx h _ hy => Finset.mem_erase.mpr
    ⟨fun heq => hx (heq ▸ hy), h (Finset.mem_insert_of_mem hy)⟩

theorem grows_eq : Grows (· = ·) where
  refl := fun _ => rfl
  trans := Eq.trans
  pop := fun hx h => h ▸ (Finset.erase_insert hx).symm

section Updates

variable {f : ResolutionState → ResolutionState}

theorem World.state_update_self : (w.update key f).state key = f (w.state key) := by
  simp [World.update]

theorem World.state_update_ne {key' : Key} (h : key' ≠ key) :
    (w.update key f).state key' = w.state key' := by
  simp [World.update, h]

theorem World.state_beginReading {t : ToolNodeId} (h : key ≠ some t) :
    (w.beginReading t).state key = w.state key := by
  rw [World.beginReading, World.state_update_ne h]

/-- A change of one resolution keeps what it does to its own stacks. -/
theorem Keeps.update (hr : Grows rel)
    (hagents : rel (w.state key).stackAgents (f (w.state key)).stackAgents)
    (htools : rel (w.state key).stackTools (f (w.state key)).stackTools) :
    Keeps fold G rel w (w.update key f) := by
  refine ⟨rfl, fun key' _ => ?_, fun key' _ => ?_, fun t => .refl _⟩
  · by_cases hkey : key' = key
    · subst hkey
      rwa [World.state_update_self]
    · rw [World.state_update_ne hkey]
      exact hr.refl _
  · by_cases hkey : key' = key
    · subst hkey
      rwa [World.state_update_self]
    · rw [World.state_update_ne hkey]
      exact hr.refl _

end Updates

namespace Keeps

variable {w'' : World} {a : Worker} {t : ToolNodeId}

theorem live (h : Keeps fold G rel w w') : w'.Live key ↔ w.Live key := by
  rw [World.Live, World.Live, h.reading]

theorem trans (hr : Grows rel) (h : Keeps fold G rel w w') (h' : Keeps fold G rel w' w'') :
    Keeps fold G rel w w'' :=
  ⟨h'.reading.trans h.reading,
    fun key hkey => hr.trans (h.agents key hkey) (h'.agents key (h.live.mpr hkey)),
    fun key hkey => hr.trans (h.tools key hkey) (h'.tools key (h.live.mpr hkey)),
    fun t => (h.workers t).trans (h'.workers t)⟩

theorem refl (hr : Grows rel) : Keeps fold G rel w w :=
  ⟨rfl, fun _ _ => hr.refl _, fun _ _ => hr.refl _, fun _ => .refl _⟩

/-- What is put on a stack at first is taken from it at the end. -/
theorem undo {f g : ResolutionState → ResolutionState}
    (hagents : ∀ s, rel (f (w.state key)).stackAgents s.stackAgents →
      rel (w.state key).stackAgents (g s).stackAgents)
    (htools : ∀ s, rel (f (w.state key)).stackTools s.stackTools →
      rel (w.state key).stackTools (g s).stackTools)
    (h : Keeps fold G rel (w.update key f) w') : Keeps fold G rel w (w'.update key g) := by
  refine ⟨h.reading, fun key' hkey' => ?_, fun key' hkey' => ?_, h.workers⟩
  · have hkept := h.agents key' hkey'
    by_cases hkey : key' = key
    · subst hkey
      rw [World.state_update_self] at hkept ⊢
      exact hagents _ hkept
    · rwa [World.state_update_ne hkey] at hkept ⊢
  · have hkept := h.tools key' hkey'
    by_cases hkey : key' = key
    · subst hkey
      rw [World.state_update_self] at hkept ⊢
      exact htools _ hkept
    · rwa [World.state_update_ne hkey] at hkept ⊢

/-- The log of expansions is no part of what is kept. -/
theorem of_expand (h : Keeps fold G rel (w.expand path) w') : Keeps fold G rel w w' :=
  ⟨h.reading, h.agents, h.tools, h.workers⟩

theorem popAgent (hr : Grows rel) (ha : a ∉ (w.state key).stackAgents)
    (h : Keeps fold G rel (w.expandedAgent path key a) w') :
    Keeps fold G rel w (w'.popAgent key a) :=
  undo (fun _ hs => hr.pop ha hs) (fun _ hs => hs) h.of_expand

theorem popTool (hr : Grows rel) (ht : t ∉ (w.state key).stackTools)
    (h : Keeps fold G rel (w.expandedTool path key t) w') :
    Keeps fold G rel w (w'.popTool key t) :=
  undo (fun _ hs => hs) (fun _ hs => hr.pop ht hs) h.of_expand

theorem endReading (ht : t ∉ w.reading) (h : Keeps fold G rel (w.beginReading t) w') :
    Keeps fold G rel w (w'.endReading t) := by
  have hlive : ∀ key, w.Live key → (w.beginReading t).Live key := fun key hkey t' ht' =>
    Finset.mem_insert_of_mem (hkey t' ht')
  have hstate : ∀ key, w.Live key → (w.beginReading t).state key = w.state key := by
    intro key hkey
    exact World.state_beginReading fun heq => ht (hkey t heq)
  refine ⟨?_, fun key hkey => ?_, fun key hkey => ?_, h.workers⟩
  · rw [World.endReading, h.reading, World.beginReading, Finset.erase_insert ht]
  · have hkept := h.agents key (hlive key hkey)
    rwa [hstate key hkey] at hkept
  · have hkept := h.tools key (hlive key hkey)
    rwa [hstate key hkey] at hkept

theorem refresh (hr : Grows rel) (t : ToolNodeId) :
    Keeps fold G rel w (w.refreshed fold G t) := by
  refine ⟨rfl, fun _ _ => hr.refl _, fun _ _ => hr.refl _, fun t' => ?_⟩
  by_cases ht : t' = t
  · subst ht
    simp only [World.refreshed, Function.update_self]
    exact .refresh _
  · simp only [World.refreshed, Function.update_of_ne ht]
    exact .refl _

theorem sameStacks (h : Keeps fold G (· = ·) w w') : SameStacks w w' :=
  ⟨h.reading, fun key hkey => (h.agents key hkey).symm, fun key hkey => (h.tools key hkey).symm⟩

end Keeps

/-- When no description throws, the stacks are restored. -/
theorem frame_eq : Frame fold G False (fun _ _ w => w.Fits fold G) (Keeps fold G (· = ·)) where
  refl _ := .refl grows_eq
  trans := .trans grows_eq
  keep hw h t := (hw t).trans (h.workers t)
  workers hw := hw
  cacheAgent _ _ _ _ := .update grows_eq rfl rfl
  cacheTool _ _ _ _ := .update grows_eq rfl rfl
  plainTool ht := Keeps.undo (fun _ hs => hs) (fun _ hs => grows_eq.pop ht hs) (.refl grows_eq)
  pushAgent hw _ _ := hw
  popAgent _ ha h := h.popAgent grows_eq ha
  dropAgent hE := hE.elim
  pushTool hw _ _ := hw
  popTool _ ht h := h.popTool grows_eq ht
  reading hw _ := hw
  beginReading hw _ _ := hw
  endReading ht h := h.endReading ht
  refresh _ t := .refresh grows_eq t

def World.Marked (w : World) : Key × PromptNode → Prop
  | (key, .agent a) => a ∈ (w.state key).stackAgents
  | (key, .tool t) => t ∈ (w.state key).stackTools

def Graph.pathNodes (G : Graph) : Finset (Key × PromptNode) :=
  insert none (G.toolNodes.image some) ×ˢ
    (G.agents.image PromptNode.agent ∪ G.toolNodes.image PromptNode.tool)

/-- What is known inside of the expansions of a path. -/
structure Ready (fold : String → String) (G : Graph) (path : Path) (key : Key) (w : World) :
    Prop where
  live : w.Live key
  outermost : key = none → w.reading = ∅
  reading : ∀ t ∈ w.reading, t ∈ G.toolNodes
  nodup : path.Nodup
  inside : ∀ x ∈ path, x ∈ G.pathNodes
  marked : ∀ x ∈ path, w.Live x.1 ∧ w.Marked x
  fits : w.Fits fold G

def World.Distinct (w : World) : Prop := ∀ path ∈ w.expansions, path.Nodup

/-- A path is no longer than there are nodes and resolutions. -/
theorem Ready.length_le (h : Ready fold G path key w) : path.length ≤ G.pathNodes.card := by
  rw [← List.toFinset_card_of_nodup h.nodup]
  exact Finset.card_le_card fun x hx => h.inside x (List.mem_toFinset.mp hx)

theorem Ready.keep (h : Ready fold G path key w) (hk : Keeps fold G (· ⊆ ·) w w') :
    Ready fold G path key w' := by
  refine ⟨hk.live.mpr h.live, fun hkey => hk.reading.trans (h.outermost hkey), fun t ht => ?_,
    h.nodup, h.inside, fun x hx => ?_, fun t => (h.fits t).trans (hk.workers t)⟩
  · exact h.reading t (hk.reading ▸ ht)
  · obtain ⟨hlive, hmarked⟩ := h.marked x hx
    refine ⟨hk.live.mpr hlive, ?_⟩
    obtain ⟨key', a | t⟩ := x
    · exact hk.agents key' hlive hmarked
    · exact hk.tools key' hlive hmarked

theorem Ready.key_mem (h : Ready fold G path key w) :
    key ∈ insert none (G.toolNodes.image some) := by
  cases key with
  | none => exact Finset.mem_insert_self _ _
  | some t =>
    have ht := h.reading t (h.live t rfl)
    exact Finset.mem_insert_of_mem (Finset.mem_image_of_mem some ht)

theorem Ready.nodup_cons (h : Ready fold G path key w) {x : PromptNode}
    (hx : ¬ w.Marked (key, x)) : ((key, x) :: path).Nodup :=
  List.nodup_cons.mpr ⟨fun hpath => hx (h.marked _ hpath).2, h.nodup⟩

/-- A node that is not marked yet extends the path. -/
theorem Ready.push {x : PromptNode} {path' : Path} {f : ResolutionState → ResolutionState}
    (h : Ready fold G path key w)
    (hmem : x ∈ G.agents.image PromptNode.agent ∪ G.toolNodes.image PromptNode.tool)
    (hx : ¬ w.Marked (key, x)) (hx' : (w.update key f).Marked (key, x))
    (hk : Keeps fold G (· ⊆ ·) w (w.update key f)) :
    Ready fold G ((key, x) :: path) key ((w.update key f).expand path') := by
  have h' := h.keep hk
  refine ⟨h'.live, h'.outermost, h'.reading, h.nodup_cons hx,
    List.forall_mem_cons.mpr ⟨Finset.mem_product.mpr ⟨h.key_mem, hmem⟩, h.inside⟩,
    List.forall_mem_cons.mpr ⟨⟨h'.live, hx'⟩, h'.marked⟩, h'.fits⟩

theorem Ready.pushAgent (h : Ready fold G path key w) {a : Worker} (ha : a ∈ G.agents)
    (hstack : a ∉ (w.state key).stackAgents) :
    Ready fold G ((key, .agent a) :: path) key (w.expandedAgent path key a) := by
  have hk : Keeps fold G (· ⊆ ·) w (w.pushAgent key a) :=
    .update grows_subset (Finset.subset_insert _ _) (Finset.Subset.refl _)
  refine h.push ?_ hstack ?_ hk
  · exact Finset.mem_union_left _ (Finset.mem_image_of_mem _ ha)
  · rw [World.Marked, World.state_update_self]
    exact Finset.mem_insert_self _ _

theorem Ready.pushTool (h : Ready fold G path key w) {t : ToolNodeId} (ht : t ∈ G.toolNodes)
    (hstack : t ∉ (w.state key).stackTools) :
    Ready fold G ((key, .tool t) :: path) key (w.expandedTool path key t) := by
  have hk : Keeps fold G (· ⊆ ·) w (w.pushTool key t) :=
    .update grows_subset (Finset.Subset.refl _) (Finset.subset_insert _ _)
  refine h.push ?_ hstack ?_ hk
  · exact Finset.mem_union_right _ (Finset.mem_image_of_mem _ ht)
  · rw [World.Marked, World.state_update_self]
    exact Finset.mem_insert_self _ _

/-- A manage tool whose description is not being read has no resolution on the path. -/
theorem Ready.beginReading (h : Ready fold G path key w) {t : ToolNodeId} (ht : t ∈ G.toolNodes)
    (hreading : t ∉ w.reading) : Ready fold G path (some t) (w.beginReading t) := by
  refine ⟨fun t' ht' => ?_, nofun, fun t' ht' => ?_, h.nodup, h.inside,
    fun x hx => ?_, h.fits⟩
  · obtain rfl := Option.some.inj ht'
    exact Finset.mem_insert_self _ _
  · obtain rfl | ht' := Finset.mem_insert.mp ht'
    · exact ht
    · exact h.reading t' ht'
  · obtain ⟨hlive, hmarked⟩ := h.marked x hx
    refine ⟨fun t' ht' => Finset.mem_insert_of_mem (hlive t' ht'), ?_⟩
    obtain ⟨key', node⟩ := x
    have hne : key' ≠ some t := fun heq => hreading (hlive t heq)
    have hstate := World.state_beginReading (w := w) hne
    cases node with
    | agent a => rwa [World.Marked, hstate]
    | tool t' => rwa [World.Marked, hstate]

/-- What a resolution does in any case: stacks do not shrink, and no path has a node twice in one
resolution. -/
def Advances (fold : String → String) (G : Graph) (w w' : World) : Prop :=
  Keeps fold G (· ⊆ ·) w w' ∧ (w.Distinct → w'.Distinct)

theorem frame_subset : Frame fold G True (Ready fold G) (Advances fold G) where
  refl _ := ⟨.refl grows_subset, id⟩
  trans h h' := ⟨h.1.trans grows_subset h'.1, h'.2 ∘ h.2⟩
  keep h hk := h.keep hk.1
  workers h := h.fits
  cacheAgent _ _ _ _ :=
    ⟨.update grows_subset (Finset.Subset.refl _) (Finset.Subset.refl _), id⟩
  cacheTool _ _ _ _ :=
    ⟨.update grows_subset (Finset.Subset.refl _) (Finset.Subset.refl _), id⟩
  plainTool ht :=
    ⟨Keeps.undo (fun _ hs => hs) (fun _ hs => grows_subset.pop ht hs) (.refl grows_subset), id⟩
  pushAgent h ha hstack := h.pushAgent ha hstack
  popAgent h hstack hk := ⟨hk.1.popAgent grows_subset hstack,
    fun hd => hk.2 (List.forall_mem_cons.mpr ⟨h.nodup_cons hstack, hd⟩)⟩
  dropAgent _ h hstack hk :=
    ⟨Keeps.trans grows_subset
      (.update grows_subset (Finset.subset_insert _ _) (Finset.Subset.refl _)) hk.1.of_expand,
    fun hd => hk.2 (List.forall_mem_cons.mpr ⟨h.nodup_cons hstack, hd⟩)⟩
  pushTool h ht hstack := h.pushTool ht.1.mem hstack
  popTool h hstack hk := ⟨hk.1.popTool grows_subset hstack,
    fun hd => hk.2 (List.forall_mem_cons.mpr ⟨h.nodup_cons hstack, hd⟩)⟩
  reading h ht :=
    ⟨fun _ heq => Option.some.inj heq ▸ ht, nofun, h.reading, h.nodup,
      h.inside, h.marked, h.fits⟩
  beginReading h ht hreading := h.beginReading ht.1.mem hreading
  endReading ht hk := ⟨hk.1.endReading ht, hk.2⟩
  refresh _ t := ⟨.refresh grows_subset t, id⟩

end Agyn.Prompts
