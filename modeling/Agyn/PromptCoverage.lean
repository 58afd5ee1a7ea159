import Mathlib.Data.List.Chain
import Mathlib.Logic.Relation
import Agyn.PromptStacks

/-!
What a resolution expands when no tool throws. The description of a manage tool with a prompt
template is rendered in a resolution of its own, whose stacks are empty at first. So whatever an
agent reaches over such tools and their workers is expanded inside of its own expansion in the
resolution of some manage tool, and on a cycle this is the agent itself.
-/
namespace Agyn.Prompts

open FuelledCalls
open WorkerRegistry (Worker ManageToolNode)

variable {fold : String → String} {mustache : Mustache} {G : Graph} {base : Key × PromptNode}
  {path : Path} {key : Key} {w w' w'' : World} {a : Worker} {t : ToolNodeId} {x y : PromptNode}

namespace Graph

def Templated (G : Graph) (t : ToolNodeId) : Prop := G.isManage t ∧ G.promptTemplate t ≠ ""

/-- The expansion of a node resolves the other one: an agent its manage tools with a template, and
such a tool its workers. -/
inductive Calls (G : Graph) : PromptNode → PromptNode → Prop
  | tool {a : Worker} {t : ToolNodeId} (ha : a ∈ G.agents) (hentry : G.Uses a t)
      (ht : G.Templated t) : Calls G (.agent a) (.tool t)
  | worker {t : ToolNodeId} {b : Worker} (ht : t ∈ G.toolNodes)
      (hb : b ∈ (G.registry t).workers) : Calls G (.tool t) (.agent b)

def Follows (G : Graph) (nodes : List PromptNode) : Prop := nodes.IsChain fun y x => G.Calls x y

/-- Without an agent on a cycle, a chain of calls has no node twice. -/
theorem Follows.nodup {nodes : List PromptNode} (h : G.Follows nodes)
    (hacyclic : ∀ a ∈ G.agents, ¬ Relation.TransGen G.Calls (.agent a) (.agent a)) :
    nodes.Nodup := by
  have hcycle : ∀ x, ¬ Relation.TransGen G.Calls x x := by
    intro x hx
    obtain ⟨y, hxy, hyx⟩ := Relation.TransGen.head'_iff.mp hx
    cases hxy with
    | tool ha hentry ht => exact hacyclic _ ha hx
    | worker ht hb => exact hacyclic _ (G.workers_mem _ ht _ hb) (.tail' hyx (.worker ht hb))
  have hreach : nodes.IsChain fun y x => Relation.TransGen G.Calls x y :=
    h.imp fun _ _ hcall => .single hcall
  have : IsTrans PromptNode fun y x => Relation.TransGen G.Calls x y :=
    ⟨fun _ _ _ hyx hzy => hzy.trans hyx⟩
  refine (List.isChain_iff_pairwise.mp hreach).imp fun {y x} hxy heq => ?_
  exact hcycle x (heq ▸ hxy)

end Graph

/-- The node is expanded inside of `base` in the resolution of a manage tool. -/
def World.Again (base : Key × PromptNode) (w : World) (x : PromptNode) : Prop :=
  ∃ t tail, (some t, x) :: tail ∈ w.expansions ∧ base ∈ tail

theorem World.Again.mono (h : w.Again base x) (hw : ∀ path ∈ w.expansions, path ∈ w'.expansions) :
    w'.Again base x := by
  obtain ⟨t, tail, hmem, hbase⟩ := h
  exact ⟨t, tail, hw _ hmem, hbase⟩

def ResolutionState.Holds (G : Graph) (s : ResolutionState) : PromptNode → Prop
  | .agent a => (s.cacheAgents a).isSome ∨ a ∈ s.stackAgents
  | .tool t => G.Templated t ∧ ((s.cacheTools t).isSome ∨ t ∈ s.stackTools)

/-- What the resolution of a manage tool holds is expanded in such a resolution. -/
structure Sound (fold : String → String) (G : Graph) (base : Key × PromptNode) (w : World) :
    Prop where
  fits : w.Fits fold G
  again : ∀ t x, (w.state (some t)).Holds G x → w.Again base x

theorem Sound.again_of_holds (h : Sound fold G base w) (hx : (w.state key).Holds G x)
    (hkey : key ≠ none) : w.Again base x := by
  obtain ⟨t, rfl⟩ := Option.ne_none_iff_exists'.mp hkey
  exact h.again t x hx

/-- All that the innermost expansion of the path calls is expanded again. The workers of a tool
that is expanded in the outermost resolution are resolved in this one. -/
def World.Closed (G : Graph) (base : Key × PromptNode) (w : World) : Path → Prop
  | [] => True
  | (key, x) :: _ => (key ≠ none ∨ ∃ a, x = .agent a) → ∀ y, G.Calls x y → w.Again base y

theorem World.Closed.mono (h : w.Closed G base path)
    (hw : ∀ path ∈ w.expansions, path ∈ w'.expansions) : w'.Closed G base path := by
  cases path with
  | nil => trivial
  | cons x tail => exact fun hx y hy => (h hx y hy).mono hw

/-- What a call expands follows the calls of the graph and is closed under them. -/
structure Covers (fold : String → String) (G : Graph) (base : Key × PromptNode) (w w' : World) :
    Prop where
  sound : Sound fold G base w'
  grows : ∀ path ∈ w.expansions, path ∈ w'.expansions
  new : ∀ path ∈ w'.expansions,
    path ∈ w.expansions ∨ G.Follows (path.map Prod.snd) ∧ w'.Closed G base path

namespace Covers

theorem refl (h : Sound fold G base w) : Covers fold G base w w := ⟨h, fun _ => id, fun _ => .inl⟩

theorem trans (h : Covers fold G base w w') (h' : Covers fold G base w' w'') :
    Covers fold G base w w'' := by
  refine ⟨h'.sound, fun path hpath => h'.grows path (h.grows path hpath), fun path hpath => ?_⟩
  rcases h'.new path hpath with hold | hnew
  · exact (h.new path hold).imp_right fun hnew => ⟨hnew.1, hnew.2.mono h'.grows⟩
  · exact .inr hnew

theorem endReading (h : Covers fold G base (w.beginReading t) w') :
    Covers fold G base w (w'.endReading t) :=
  ⟨⟨h.sound.fits, h.sound.again⟩, h.grows, h.new⟩

/-- An expansion that was carried through. -/
theorem of_expand (h : Covers fold G base w' w'') (hw : w'.expansions = path :: w.expansions)
    (hfollows : G.Follows (path.map Prod.snd)) (hclosed : w''.Closed G base path) :
    Covers fold G base w w'' := by
  refine ⟨h.sound, fun path' hpath => h.grows path' (hw ▸ List.mem_cons_of_mem _ hpath),
    fun path' hpath => ?_⟩
  rcases h.new path' hpath with hold | hnew
  · rcases List.mem_cons.mp (hw ▸ hold) with rfl | hold
    · exact .inr ⟨hfollows, hclosed⟩
    · exact .inl hold
  · exact .inr hnew

end Covers

namespace Sound

/-- A change of one resolution that holds nothing more than what is expanded again. -/
theorem update {f : ResolutionState → ResolutionState} (h : Sound fold G base w)
    (hf : ∀ x, (f (w.state key)).Holds G x →
      (w.state key).Holds G x ∨ (key ≠ none → w.Again base x)) :
    Sound fold G base (w.update key f) := by
  refine ⟨h.fits, fun t x hx => ?_⟩
  by_cases hkey : some t = key
  · subst hkey
    rw [World.state_update_self] at hx
    exact (hf x hx).elim (h.again t x) fun hagain => hagain nofun
  · rw [World.state_update_ne hkey] at hx
    exact h.again t x hx

theorem covers_update {f : ResolutionState → ResolutionState}
    (h : Sound fold G base (w.update key f)) : Covers fold G base w (w.update key f) :=
  ⟨h, fun _ => id, fun _ => .inl⟩

theorem cacheAgent (h : Sound fold G base w) {text : String}
    (ha : key ≠ none → w.Again base (.agent a)) :
    Sound fold G base (w.cacheAgent key a text) := by
  refine h.update fun x hx => ?_
  cases x with
  | tool t => exact .inl hx
  | agent b =>
    by_cases hb : b = a
    · subst hb
      exact .inr ha
    · simpa only [ResolutionState.Holds, Function.update_of_ne hb] using Or.inl hx

theorem cacheTool (h : Sound fold G base w) {text : String}
    (ht : key ≠ none → G.Templated t → w.Again base (.tool t)) :
    Sound fold G base (w.cacheTool key t text) := by
  refine h.update fun x hx => ?_
  cases x with
  | agent a => exact .inl hx
  | tool t' =>
    by_cases ht' : t' = t
    · subst ht'
      exact .inr fun hkey => ht hkey hx.1
    · simpa only [ResolutionState.Holds, Function.update_of_ne ht'] using Or.inl hx

theorem popAgent (h : Sound fold G base w) : Sound fold G base (w.popAgent key a) := by
  refine h.update fun x hx => .inl ?_
  cases x with
  | tool t => exact hx
  | agent b => exact hx.imp_right Finset.mem_of_mem_erase

theorem popTool (h : Sound fold G base w) : Sound fold G base (w.popTool key t) := by
  refine h.update fun x hx => .inl ?_
  cases x with
  | agent a => exact hx
  | tool t' => exact ⟨hx.1, hx.2.imp_right Finset.mem_of_mem_erase⟩

theorem plainTool (h : Sound fold G base w) (ht : G.isManage t = false) :
    Sound fold G base (w.pushTool key t) := by
  refine h.update fun x hx => .inl ?_
  cases x with
  | agent a => exact hx
  | tool t' =>
    refine ⟨hx.1, hx.2.imp_right fun hmem => (Finset.mem_insert.mp hmem).resolve_left ?_⟩
    rintro rfl
    exact Bool.false_ne_true (ht.symm.trans hx.1.1)

theorem expand (h : Sound fold G base w) : Sound fold G base (w.expand path) :=
  ⟨h.fits, fun t x hx => (h.again t x hx).mono fun _ => List.mem_cons_of_mem _⟩

theorem again_expand (hbase : key ≠ none → base ∈ path) (hkey : key ≠ none) :
    (w.expand ((key, x) :: path)).Again base x := by
  obtain ⟨t, rfl⟩ := Option.ne_none_iff_exists'.mp hkey
  exact ⟨t, path, List.mem_cons_self, hbase hkey⟩

/-- What is pushed on a stack is expanded at once. -/
theorem pushed {f : ResolutionState → ResolutionState} (h : Sound fold G base w)
    (hbase : key ≠ none → base ∈ path)
    (hf : ∀ y, (f (w.state key)).Holds G y → (w.state key).Holds G y ∨ y = x) :
    Sound fold G base ((w.update key f).expand ((key, x) :: path)) := by
  refine Sound.update (w := w.expand ((key, x) :: path)) h.expand fun y hy => ?_
  refine (hf y hy).imp_right fun heq hkey => ?_
  rw [heq]
  exact again_expand hbase hkey

theorem expandedAgent (h : Sound fold G base w) (hbase : key ≠ none → base ∈ path) :
    Sound fold G base (w.expandedAgent path key a) := by
  refine h.pushed hbase fun y hy => ?_
  cases y with
  | tool t => exact .inl hy
  | agent b =>
    rcases hy with hcache | hstack
    · exact .inl (.inl hcache)
    · rcases Finset.mem_insert.mp hstack with rfl | hstack
      · exact .inr rfl
      · exact .inl (.inr hstack)

theorem expandedTool (h : Sound fold G base w) (hbase : key ≠ none → base ∈ path) :
    Sound fold G base (w.expandedTool path key t) := by
  refine h.pushed hbase fun y hy => ?_
  cases y with
  | agent a => exact .inl hy
  | tool t' =>
    rcases hy.2 with hcache | hstack
    · exact .inl ⟨hy.1, .inl hcache⟩
    · rcases Finset.mem_insert.mp hstack with rfl | hstack
      · exact .inr rfl
      · exact .inl ⟨hy.1, .inr hstack⟩

theorem beginReading (h : Sound fold G base w) : Sound fold G base (w.beginReading t) := by
  refine ⟨h.fits, fun t' x hx => ?_⟩
  by_cases ht : t' = t
  · subst ht
    rw [World.beginReading, World.state_update_self] at hx
    cases x <;> simp [ResolutionState.Holds, createAgentPromptResolutionState] at hx
  · rw [World.state_beginReading fun heq => ht (Option.some.inj heq)] at hx
    exact h.again t' x hx

theorem refreshed (h : Sound fold G base w) : Sound fold G base (w.refreshed fold G t) :=
  ⟨fun t' => (h.fits t').trans ((Keeps.refresh grows_eq t).workers t'), h.again⟩

end Sound

/-- The call returns, what it expanded is covered, and `P` holds of the state it leaves. -/
def Carries (fold : String → String) (G : Graph) (base : Key × PromptNode) (w : World)
    (P : World → Prop) {α : Type} : Except String α → World → Prop
  | .ok _, w' => Covers fold G base w w' ∧ P w'
  | .error _, _ => False

section Rules

variable {α β : Type} {P P' : World → Prop}

theorem Carries.mono {r : Except String α} (h : Carries fold G base w P r w')
    (hP : P w' → P' w') : Carries fold G base w P' r w' := by
  cases r with
  | error e => exact h
  | ok v => exact ⟨h.1, hP h.2⟩

theorem carries_ret {v : α} (hs : Sound fold G base w) (hP : P w) :
    Ensures True (pure v : M α) w (Carries fold G base w P) := ⟨.refl hs, hP⟩

theorem carries_seq {m : M α} {f : α → M β} (hm : Ensures True m w (Carries fold G base w P))
    (hf : ∀ v w', Covers fold G base w w' → P w' →
      Ensures True (f v) w' (Carries fold G base w' P')) :
    Ensures True (m >>= f) w (Carries fold G base w P') := by
  refine ensures_bind.mpr (hm.mono fun r w' hr => ?_)
  cases r with
  | error e => exact hr
  | ok v =>
    refine (hf v w' hr.1 hr.2).mono fun r w'' hr' => ?_
    cases r with
    | error e => exact hr'
    | ok _ => exact ⟨hr.1.trans hr'.1, hr'.2⟩

/-- A change of one resolution, and a value. -/
theorem carries_update {f : ResolutionState → ResolutionState} {v : α}
    (h : Sound fold G base (w.update key f)) (hP : P w) (hmono : P w → P (w.update key f)) :
    Ensures True (do Call.modify (World.update key f); pure v : M α) w
      (Carries fold G base w P) :=
  ⟨h.covers_update, hmono hP⟩

theorem carries_attempt {m : M α} (hm : Ensures True m w (Carries fold G base w P)) :
    Ensures True m.attempt w (Carries fold G base w P) := by
  refine ensures_attempt.mpr (hm.mono fun r w' hr => ?_)
  cases r with
  | error e => exact hr.elim
  | ok v => exact hr

theorem carries_traverse {f : α → M β} {vs : List α} {P : α → World → Prop}
    (hmono : ∀ v w w', Covers fold G base w w' → P v w → P v w')
    (h : ∀ v ∈ vs, ∀ w, Sound fold G base w → Ensures True (f v) w (Carries fold G base w (P v)))
    (hs : Sound fold G base w) :
    Ensures True (Call.traverse f vs) w (Carries fold G base w fun w' => ∀ v ∈ vs, P v w') := by
  induction vs generalizing w with
  | nil => exact carries_ret hs fun v hv => absurd hv List.not_mem_nil
  | cons v vs ih =>
    refine carries_seq (h v List.mem_cons_self w hs) fun _ w₁ h₁ hP => ?_
    refine carries_seq (ih (fun v' hv' => h v' (List.mem_cons_of_mem v hv')) h₁.sound) ?_
    intro _ w₂ h₂ hPs
    exact carries_ret h₂.sound (List.forall_mem_cons.mpr ⟨hmono v w₁ w₂ h₂ hP, hPs⟩)

end Rules

section Agents

variable {resolvePrompt : Path → ToolNodeId → Key → M String}

/-- What is known of the calls that an agent makes of its manage tools. -/
def CoversTools (fold : String → String) (G : Graph) (base : Key × PromptNode) (a : Worker)
    (resolvePrompt : ToolNodeId → Key → M String) : Prop :=
  ∀ t key w, G.Uses a t → G.isManage t → Sound fold G base w →
    Ensures True (resolvePrompt t key) w (Carries fold G base w fun w' =>
      key ≠ none → G.Templated t → w'.Again base (.tool t))

/-- A manage tool whose description is read is expanded in its own resolution. -/
theorem covers_toolDescription {tool : RegisteredTool} (hs : Sound fold G base w)
    (hread : G.Readable fold tool) (huses : ∀ t, tool = .node t → G.Uses a t)
    (hr : CoversTools fold G base a (resolvePrompt path)) :
    Ensures True (toolDescription G resolvePrompt path tool) w (Carries fold G base w fun w' =>
      ∀ t, tool = .node t → G.Templated t → w'.Again base (.tool t)) := by
  have hplain : ∀ {r : Except String String} {P : World → Prop}, r.isOk → P w →
      Ensures True (Call.ofExcept r : M String) w (Carries fold G base w P) := by
    intro r P hok hP
    refine ensures_ofExcept.mpr ?_
    cases r with
    | error e => exact absurd hok Bool.false_ne_true
    | ok text => exact ⟨.refl hs, hP⟩
  cases tool with
  | mcp tool => exact hplain hread fun t ht => by cases ht
  | node t =>
    rw [toolDescription]
    rw [Graph.Readable] at hread
    cases htool : (G.toolNode t).tool with
    | plain tool =>
      simp only [htool] at hread
      refine hplain hread fun t' ht' htemplated => ?_
      obtain rfl := RegisteredTool.node.inj ht'
      simp [Graph.Templated, Graph.isManage, htool] at htemplated
    | manage name =>
      have hmanage : G.isManage t := by simp [Graph.isManage, htool]
      refine ensures_get_bind.mpr ?_
      split
      · refine (hr t (some t) w (huses t rfl) hmanage hs).mono fun r w' hr' => ?_
        refine hr'.mono fun hagain t' ht' htemplated => ?_
        obtain rfl := RegisteredTool.node.inj ht'
        exact hagain (Option.some_ne_none _) htemplated
      · refine ensures_modify_bind.mpr (ensures_andFinally.mpr ?_)
        refine (hr t (some t) _ (huses t rfl) hmanage hs.beginReading).mono fun r w' hr' => ?_
        cases r with
        | error e => exact hr'
        | ok text =>
          refine ⟨hr'.1.endReading, fun t' ht' htemplated => ?_⟩
          obtain rfl := RegisteredTool.node.inj ht'
          exact hr'.2 (Option.some_ne_none _) htemplated

theorem covers_resolveNodePrompt {fallback : String} (hs : Sound fold G base w)
    (huses : G.Uses a t) (hr : CoversTools fold G base a (resolvePrompt path)) :
    Ensures True (resolveNodePrompt G resolvePrompt path t key fallback) w
      (Carries fold G base w fun w' => key ≠ none → G.Templated t → w'.Again base (.tool t)) := by
  unfold resolveNodePrompt
  split
  · rename_i hmanage
    exact carries_attempt (hr t key w huses hmanage hs)
  · rename_i hmanage
    have hpushed : Sound fold G base (w.pushTool key t) :=
      hs.plainTool (eq_false_of_ne_true hmanage)
    refine ensures_modify_bind.mpr (ensures_andFinally.mpr ⟨?_, fun _ htemplated => ?_⟩)
    · exact hpushed.covers_update.trans hpushed.popTool.covers_update
    · exact absurd htemplated.1 hmanage

theorem covers_resolveToolPrompt {tool : RegisteredTool} {nodeRef : Option ToolNodeId}
    {fallbackPrompt : String} {P : World → Prop} (hs : Sound fold G base w)
    (hdescription : ∀ w, Sound fold G base w →
      Ensures True (toolDescription G resolvePrompt path tool) w (Carries fold G base w P))
    (huses : ∀ t, nodeRef = some t → G.Uses a t)
    (hr : CoversTools fold G base a (resolvePrompt path)) :
    Ensures True (resolveToolPrompt G resolvePrompt path tool nodeRef key fallbackPrompt) w
      (Carries fold G base w fun _ => True) := by
  refine carries_seq (hdescription w hs) fun description w₁ h₁ _ => ?_
  cases nodeRef with
  | none => exact carries_ret h₁.sound trivial
  | some t =>
    refine ensures_get_bind.mpr ?_
    cases hcache : (w₁.state key).cacheTools t with
    | some cached => exact carries_ret h₁.sound trivial
    | none =>
      by_cases hstack : t ∈ (w₁.state key).stackTools
      · simp only [if_pos hstack]
        refine carries_update (h₁.sound.cacheTool fun hkey ht => ?_) trivial id
        exact h₁.sound.again_of_holds ⟨ht, .inr hstack⟩ hkey
      · simp only [if_neg hstack]
        refine carries_seq (covers_resolveNodePrompt h₁.sound (huses t rfl) hr) ?_
        exact fun _ w₂ h₂ hagain => carries_update (h₂.sound.cacheTool hagain) trivial id

theorem covers_toolContext {tool : RegisteredTool} (hs : Sound fold G base w)
    (hdescribed : G.Described fold tool) (huses : ∀ t, tool = .node t → G.Uses a t)
    (hr : CoversTools fold G base a (resolvePrompt path)) :
    Ensures True (toolContext G resolvePrompt path a key tool) w (Carries fold G base w fun w' =>
      ∀ t, tool = .node t → G.Templated t → w'.Again base (.tool t)) := by
  have hdescription := fun w hs => covers_toolDescription (w := w) hs hdescribed.2 huses hr
  refine ensures_bind.mpr (ensures_ofExcept.mpr ?_)
  cases hname : G.toolName tool with
  | error e =>
    have hok := hdescribed.1
    rw [hname] at hok
    exact nomatch hok
  | ok name =>
    refine carries_seq (hdescription w hs) fun read w₁ h₁ hagain => ?_
    refine carries_seq (hdescription w₁ h₁.sound) fun readAgain w₂ h₂ _ => ?_
    refine carries_seq (covers_resolveToolPrompt h₂.sound hdescription
      (fun t ht => Graph.uses_of_lookup ht) hr) fun _ w₃ h₃ _ => carries_ret h₃.sound ?_
    exact fun t ht htemplated => (hagain t ht htemplated).mono (h₂.trans h₃).grows

theorem covers_buildToolMustacheContext (hs : Sound fold G base w)
    (hdescribable : G.Describable fold a)
    (hr : CoversTools fold G base a (resolvePrompt path)) :
    Ensures True (buildToolMustacheContext G resolvePrompt path a key) w
      (Carries fold G base w fun w' =>
        ∀ t, G.Uses a t → G.Templated t → w'.Again base (.tool t)) := by
  have htools : Ensures True (buildToolMustacheContext G resolvePrompt path a key) w
      (Carries fold G base w fun w' => ∀ tool ∈ (G.agentConfig a).toolsByName.map Prod.snd,
        ∀ t, tool = .node t → G.Templated t → w'.Again base (.tool t)) := by
    refine carries_traverse
      (P := fun (tool : RegisteredTool) w =>
        ∀ t, tool = .node t → G.Templated t → w.Again base (.tool t))
      (fun tool w w' h hP t ht htemplated => (hP t ht htemplated).mono h.grows)
      (fun tool htool w hs => ?_) hs
    obtain ⟨entry, hentry, rfl⟩ := List.mem_map.mp htool
    exact covers_toolContext hs (hdescribable entry hentry) (fun t ht => ⟨entry, hentry, ht⟩) hr
  refine htools.mono fun r w' hr' => hr'.mono fun hall t huses htemplated => ?_
  obtain ⟨entry, hentry, ht⟩ := huses
  exact hall entry.2 (List.mem_map_of_mem hentry) t ht htemplated

theorem covers_expandAgent (mustache : Mustache) (hs : Sound fold G base w)
    (hbase : key ≠ none → base ∈ path) (hdescribable : G.Describable fold a)
    (hfollows : G.Follows (.agent a :: path.map Prod.snd))
    (hr : CoversTools fold G base a (resolvePrompt ((key, .agent a) :: path))) :
    Ensures True (expandAgent mustache G resolvePrompt path a key) w
      (Carries fold G base w fun w' => (key, .agent a) :: path ∈ w'.expansions) := by
  refine ensures_modify_bind.mpr (ensures_modify_bind.mpr (ensures_bind.mpr ?_))
  have hexpanded : Sound fold G base (w.expandedAgent path key a) := hs.expandedAgent hbase
  refine (covers_buildToolMustacheContext hexpanded hdescribable hr).mono fun r w' hr' => ?_
  cases r with
  | error e => exact hr'
  | ok tools =>
    obtain ⟨hcovers, hagain⟩ := hr'
    have hmem : (key, .agent a) :: path ∈ w'.expansions := hcovers.grows _ List.mem_cons_self
    have hclosed : w'.Closed G base ((key, .agent a) :: path) := by
      intro _ y hy
      cases hy with
      | tool _ huses ht => exact hagain _ huses ht
    have hpopped : Sound fold G base (w'.popAgent key a) := hcovers.sound.popAgent
    have hagain : key ≠ none → w'.Again base (.agent a) := by
      intro hkey
      obtain ⟨t, rfl⟩ := Option.ne_none_iff_exists'.mp hkey
      exact ⟨t, path, hmem, hbase hkey⟩
    have hcached : ∀ text, Sound fold G base ((w'.popAgent key a).cacheAgent key a text) :=
      fun _ => hpopped.cacheAgent hagain
    have hcarried : Covers fold G base w w' := hcovers.of_expand rfl hfollows hclosed
    exact ⟨(hcarried.trans hpopped.covers_update).trans (hcached _).covers_update, hmem⟩

theorem covers_resolveEffectiveSystemPrompt (hs : Sound fold G base w)
    (hbase : base ∈ path) (hdescribable : G.Describable fold a)
    (hfollows : G.Follows (.agent a :: path.map Prod.snd))
    (hr : CoversTools fold G base a (resolvePrompt ((key, .agent a) :: path))) :
    Ensures True (resolveEffectiveSystemPrompt mustache G resolvePrompt path a key) w
      (Carries fold G base w fun w' => key ≠ none → w'.Again base (.agent a)) := by
  refine ensures_get_bind.mpr ?_
  cases hcache : (w.state key).cacheAgents a with
  | some cached =>
    refine carries_ret hs (hs.again_of_holds (x := .agent a) (.inl ?_))
    rw [hcache]
    rfl
  | none =>
    by_cases hstack : a ∈ (w.state key).stackAgents
    · simp only [if_pos hstack]
      have hagain := hs.again_of_holds (x := .agent a) (.inr hstack)
      exact carries_update (hs.cacheAgent hagain) hagain id
    · simp only [if_neg hstack]
      refine (covers_expandAgent mustache hs (fun _ => hbase) hdescribable hfollows hr).mono ?_
      refine fun r w' hr' => hr'.mono fun hmem hkey => ?_
      obtain ⟨t, rfl⟩ := Option.ne_none_iff_exists'.mp hkey
      exact ⟨t, path, hmem, hbase⟩

end Agents

section Tools

variable {resolveEffectiveSystemPrompt : Path → Worker → Key → M String}

def CoversWorkers (fold : String → String) (G : Graph) (base : Key × PromptNode) (t : ToolNodeId)
    (key : Key) (resolveEffectiveSystemPrompt : Worker → M String) : Prop :=
  ∀ b w, b ∈ (G.registry t).workers → Sound fold G base w →
    Ensures True (resolveEffectiveSystemPrompt b) w (Carries fold G base w fun w' =>
      key ≠ none → w'.Again base (.agent b))

theorem covers_agentContext {b : Worker} (hs : Sound fold G base w)
    (hb : b ∈ (G.registry t).workers)
    (hr : CoversWorkers fold G base t key fun b => resolveEffectiveSystemPrompt path b key) :
    Ensures True (agentContext G resolveEffectiveSystemPrompt path key b) w
      (Carries fold G base w fun w' => key ≠ none → w'.Again base (.agent b)) := by
  have hworker : Ensures True (resolveWorkerPrompt G resolveEffectiveSystemPrompt path b key) w
      (Carries fold G base w fun w' => key ≠ none → w'.Again base (.agent b)) := by
    refine ensures_get_bind.mpr ?_
    split
    · rename_i hstack
      have hagain := hs.again_of_holds (x := .agent b) (.inr hstack)
      exact carries_update (hs.cacheAgent hagain) hagain id
    · refine carries_seq (carries_attempt (hr b w hb hs)) fun _ w' h' hagain => ?_
      split <;> exact carries_ret h'.sound hagain
  exact carries_seq hworker fun _ w' h' hagain => carries_ret h'.sound hagain

theorem covers_getAgentPromptContext (hs : Sound fold G base w)
    (hrefreshes : Refreshes fold G (G.registry t))
    (hr : CoversWorkers fold G base t key fun b => resolveEffectiveSystemPrompt path b key) :
    Ensures True (getAgentPromptContext fold G resolveEffectiveSystemPrompt path t key) w
      (Carries fold G base w fun w' =>
        key ≠ none → ∀ b ∈ (G.registry t).workers, w'.Again base (.agent b)) := by
  have hok : Refreshes fold G (w.registry t) := (hs.fits t).refreshes.mpr hrefreshes
  have hrefresh : Ensures True (refreshAllWorkers fold G t) w
      (Carries fold G base w fun _ => True) := by
    refine Frame.ensures_refreshAllWorkers.mpr ?_
    rw [hok]
    exact ⟨⟨hs.refreshed, fun _ => id, fun _ => .inl⟩, trivial⟩
  refine carries_seq hrefresh fun _ w₁ h₁ _ => ensures_get_bind.mpr ?_
  rw [(h₁.sound.fits t).workers]
  refine (carries_traverse (P := fun b w => key ≠ none → w.Again base (.agent b))
    (fun b w w' h hP hkey => (hP hkey).mono h.grows)
    (fun b hb w hs => covers_agentContext hs hb hr) h₁.sound).mono fun r w' hr' => ?_
  exact hr'.mono fun hall hkey b hb => hall b hb hkey

/-- A manage tool that is expanded resolves its workers and leaves the stack. -/
theorem covers_expandTool (mustache : Mustache) (template : String) (hs : Sound fold G base w)
    (hbase : base ∈ path) (hrefreshes : Refreshes fold G (G.registry t))
    (hfollows : G.Follows (.tool t :: path.map Prod.snd))
    (hr : CoversWorkers fold G base t key fun b =>
      resolveEffectiveSystemPrompt ((key, .tool t) :: path) b key) :
    Ensures True
      (expandTool fold mustache G resolveEffectiveSystemPrompt ((key, .tool t) :: path) t key
        template) (w.expandedTool path key t)
      fun r w' => Carries fold G base w (fun w' =>
        key ≠ none → G.Templated t → w'.Again base (.tool t)) r (w'.popTool key t) := by
  have hexpanded : Sound fold G base (w.expandedTool path key t) := hs.expandedTool fun _ => hbase
  have hworkers := covers_getAgentPromptContext hexpanded hrefreshes hr
  refine ensures_bind.mpr (hworkers.mono fun r w' hr' => ?_)
  cases r with
  | error e => exact hr'
  | ok context =>
    obtain ⟨hcovers, hall⟩ := hr'
    have hclosed : w'.Closed G base ((key, .tool t) :: path) := by
      intro hx y hy
      cases hy with
      | worker _ hb =>
        have hkey : key ≠ none := hx.resolve_right fun h => by
          obtain ⟨a, heq⟩ := h
          cases heq
        exact hall hkey _ hb
    have hcarried : Covers fold G base w w' := hcovers.of_expand rfl hfollows hclosed
    have hagain : key ≠ none → G.Templated t → w'.Again base (.tool t) := by
      intro hkey _
      obtain ⟨t', rfl⟩ := Option.ne_none_iff_exists'.mp hkey
      exact ⟨t', path, hcovers.grows _ List.mem_cons_self, hbase⟩
    have hcached : ∀ text, Sound fold G base (w'.cacheTool key t text) :=
      fun _ => hcovers.sound.cacheTool hagain
    exact ⟨(hcarried.trans (hcached _).covers_update).trans (hcached _).popTool.covers_update,
      hagain⟩

theorem covers_resolvePrompt (hs : Sound fold G base w) (hbase : base ∈ path)
    (hrefreshes : G.promptTemplate t = "" ∨ Refreshes fold G (G.registry t))
    (hfollows : G.promptTemplate t ≠ "" → G.Follows (.tool t :: path.map Prod.snd))
    (hr : G.promptTemplate t ≠ "" → CoversWorkers fold G base t key fun b =>
      resolveEffectiveSystemPrompt ((key, .tool t) :: path) b key) :
    Ensures True (resolvePrompt fold mustache G resolveEffectiveSystemPrompt path t key) w
      (Carries fold G base w fun w' => key ≠ none → G.Templated t → w'.Again base (.tool t)) := by
  unfold resolvePrompt
  by_cases htemplate : G.promptTemplate t = ""
  · have hvacuous : ∀ w : World, key ≠ none → G.Templated t → w.Again base (.tool t) :=
      fun _ _ htemplated => absurd htemplate htemplated.2
    rw [Graph.promptTemplate] at htemplate
    simp only [if_pos htemplate]
    exact carries_update (hs.cacheTool (hvacuous w)) (hvacuous w) fun _ => hvacuous _
  · have htrim := htemplate
    rw [Graph.promptTemplate] at htrim
    simp only [if_neg htrim]
    refine ensures_get_bind.mpr ?_
    cases hcache : (w.state key).cacheTools t with
    | some cached =>
      refine carries_ret hs fun hkey htemplated => ?_
      refine hs.again_of_holds ⟨htemplated, .inl ?_⟩ hkey
      rw [hcache]
      rfl
    | none =>
      by_cases hstack : t ∈ (w.state key).stackTools
      · simp only [if_pos hstack]
        have hagain : key ≠ none → G.Templated t → w.Again base (.tool t) :=
          fun hkey htemplated => hs.again_of_holds ⟨htemplated, .inr hstack⟩ hkey
        exact carries_update (hs.cacheTool hagain) hagain id
      · simp only [if_neg hstack]
        refine ensures_modify_bind.mpr (ensures_modify_bind.mpr (ensures_andFinally.mpr ?_))
        exact covers_expandTool mustache _ hs hbase (hrefreshes.resolve_left htemplate)
          (hfollows htemplate) (hr htemplate)

end Tools

/-- To any depth, calls made inside of `base` cover what they expand. -/
theorem resolver_covers (mustache : Mustache) (hdescribable : ∀ a ∈ G.agents, G.Describable fold a)
    (fuel : ℕ) :
    (∀ path a key w, a ∈ G.agents → base ∈ path → G.Follows (.agent a :: path.map Prod.snd) →
      Sound fold G base w →
        Ensures True ((resolver fold mustache G fuel).resolveEffectiveSystemPrompt path a key) w
          (Carries fold G base w fun w' => key ≠ none → w'.Again base (.agent a))) ∧
    ∀ path t key w, G.Managed t → base ∈ path →
      (G.promptTemplate t ≠ "" → G.Follows (.tool t :: path.map Prod.snd)) →
      Sound fold G base w →
        Ensures True ((resolver fold mustache G fuel).resolvePrompt path t key) w
          (Carries fold G base w fun w' =>
            key ≠ none → G.Templated t → w'.Again base (.tool t)) := by
  induction fuel with
  | zero => exact ⟨fun _ _ _ _ _ _ _ _ => trivial, fun _ _ _ _ _ _ _ _ => trivial⟩
  | succ fuel ih =>
    obtain ⟨hagents, htools⟩ := ih
    constructor
    · intro path a key w ha hbase hfollows hs
      rw [resolver_agents]
      refine covers_resolveEffectiveSystemPrompt hs hbase (hdescribable a ha) hfollows ?_
      intro t key' w' huses hmanage hs'
      refine htools _ t key' w' ⟨⟨a, ha, huses⟩, hmanage⟩ (List.mem_cons_of_mem _ hbase) ?_ hs'
      exact fun htemplate => .cons_cons (.tool ha huses ⟨hmanage, htemplate⟩) hfollows
    · intro path t key w ht hbase hfollows hs
      rw [resolver_tools]
      have hrefreshes : False ∨ G.promptTemplate t = "" ∨ Refreshes fold G (G.registry t) :=
        Frame.refreshes_of_managed ht fun a ha => .inr (hdescribable a ha)
      refine covers_resolvePrompt hs hbase (hrefreshes.resolve_left not_false) hfollows ?_
      intro htemplate b w' hb hs'
      refine hagents _ b key w' (G.workers_mem t ht.1.mem b hb) (List.mem_cons_of_mem _ hbase) ?_
        hs'
      exact .cons_cons (.worker ht.1.mem hb) (hfollows htemplate)

/-- All that a resolution expands follows the calls of the graph and is closed under them. -/
theorem resolve_covered (hdescribable : ∀ a ∈ G.agents, G.Describable fold a) (ha : a ∈ G.agents)
    {fuel : ℕ} {r : Except String String} (h : resolve fold mustache G fuel a = some (r, w)) :
    [(none, .agent a)] ∈ w.expansions ∧ ∀ path ∈ w.expansions,
      G.Follows (path.map Prod.snd) ∧ w.Closed G (none, .agent a) path := by
  have hs : Sound fold G (none, .agent a) (.start G) := by
    refine ⟨fun t => .refl _, fun t x hx => ?_⟩
    cases x <;> simp [ResolutionState.Holds, World.start, createAgentPromptResolutionState] at hx
  cases fuel with
  | zero => exact nomatch h
  | succ fuel =>
    obtain ⟨-, htools⟩ := @resolver_covers fold G (none, .agent a) mustache hdescribable fuel
    rw [resolve, resolver_agents] at h
    have hexpand : Ensures True
        (expandAgent mustache G (resolver fold mustache G fuel).resolvePrompt [] a none) (.start G)
        (Carries fold G (none, .agent a) (.start G) fun w' =>
          [(none, .agent a)] ∈ w'.expansions) := by
      refine covers_expandAgent mustache hs (absurd rfl) (hdescribable a ha) (.singleton _) ?_
      intro t key w huses hmanage hs
      refine htools _ t key w ⟨⟨a, ha, huses⟩, hmanage⟩ List.mem_cons_self ?_ hs
      exact fun htemplate => .cons_cons (.tool ha huses ⟨hmanage, htemplate⟩) (.singleton _)
    have hcovered := hexpand.of_some h
    cases r with
    | error e => exact hcovered.elim
    | ok text =>
      refine ⟨hcovered.2, fun path hpath => ?_⟩
      exact (hcovered.1.new path hpath).resolve_left (absurd · List.not_mem_nil)

/-- What an agent reaches over its calls is expanded again inside of its expansion. -/
theorem again_of_reaches {a : Worker} (hstart : [(none, .agent a)] ∈ w.expansions)
    (hclosed : ∀ path ∈ w.expansions, w.Closed G (none, .agent a) path)
    (h : Relation.TransGen G.Calls (.agent a) x) : w.Again (none, .agent a) x := by
  induction h with
  | single hx => exact hclosed _ hstart (.inr ⟨a, rfl⟩) _ hx
  | tail _ hcall ih =>
    obtain ⟨t, tail, hmem, -⟩ := ih
    exact hclosed _ hmem (.inl nofun) _ hcall

end Agyn.Prompts
