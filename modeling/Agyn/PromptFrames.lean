import Agyn.PromptResolution
import Agyn.WorkerRefreshes

/-!
What every part of a resolution does to the state, proved once for all invariants. A frame says
what is known before a call and how the state after it compares to the one before, for the few
changes of the state that a resolution is made of; the calls that agents and manage tools make of
one another then keep it to any depth.
-/
namespace Agyn.Prompts

open FuelledCalls
open WorkerRegistry (Worker ManageToolNode)

variable {fold : String → String} {mustache : Mustache} {G : Graph}

/-- The refresh of the workers does not throw. -/
def Refreshes (fold : String → String) (G : Graph) (m : ManageToolNode) : Prop :=
  (m.refreshAllWorkers fold G.configs).2 = .ok ()

instance (m : ManageToolNode) : Decidable (Refreshes fold G m) :=
  match h : (m.refreshAllWorkers fold G.configs).2 with
  | .ok _ => isTrue h
  | .error _ => isFalse fun h' => nomatch h.symm.trans h'

structure SameWorkers (fold : String → String) (G : Graph) (m m' : ManageToolNode) : Prop where
  workers : m'.workers = m.workers
  refreshes : Refreshes fold G m' ↔ Refreshes fold G m

namespace Graph

def Uses (G : Graph) (a : Worker) (t : ToolNodeId) : Prop :=
  ∃ entry ∈ (G.agentConfig a).toolsByName, entry.2 = .node t

def Attached (G : Graph) (t : ToolNodeId) : Prop :=
  ∃ a ∈ G.agents, ∃ entry ∈ (G.agentConfig a).toolsByName, entry.2 = .node t

def Managed (G : Graph) (t : ToolNodeId) : Prop := G.Attached t ∧ G.isManage t

theorem Attached.mem {t : ToolNodeId} (h : G.Attached t) : t ∈ G.toolNodes := by
  obtain ⟨a, ha, entry, hentry, ht⟩ := h
  exact G.tools_mem a ha entry hentry t ht

theorem uses_of_lookup {a : Worker} {t : ToolNodeId} {name : String}
    (h : ((G.agentConfig a).toolsByName.lookup name).bind RegisteredTool.nodeRef = some t) :
    G.Uses a t := by
  obtain ⟨tool, htool, ht⟩ := Option.bind_eq_some_iff.mp h
  obtain ⟨before, after, heq, -⟩ := List.lookup_eq_some_iff.mp htool
  refine ⟨(name, tool), heq ▸ by simp, ?_⟩
  cases tool with
  | node t' => exact congrArg _ (Option.some.inj ht)
  | mcp tool => exact nomatch ht

def promptTemplate (G : Graph) (t : ToolNodeId) : String := trim ((G.toolNode t).prompt.getD "")

/-- The description of a tool is read without an error; a manage tool with a template refreshes its
workers for that. -/
def Readable (fold : String → String) (G : Graph) : RegisteredTool → Prop
  | .mcp tool => tool.description.isOk
  | .node t =>
    match (G.toolNode t).tool with
    | .plain tool => tool.description.isOk
    | .manage _ => G.promptTemplate t = "" ∨ Refreshes fold G (G.registry t)

/-- The getters of a tool do not throw. -/
def Described (fold : String → String) (G : Graph) (tool : RegisteredTool) : Prop :=
  (G.toolName tool).isOk ∧ G.Readable fold tool

def Describable (fold : String → String) (G : Graph) (a : Worker) : Prop :=
  ∀ entry ∈ (G.agentConfig a).toolsByName, G.Described fold entry.2

end Graph

def World.expandedAgent (w : World) (path : Path) (key : Key) (a : Worker) : World :=
  (w.pushAgent key a).expand ((key, .agent a) :: path)

def World.expandedTool (w : World) (path : Path) (key : Key) (t : ToolNodeId) : World :=
  (w.pushTool key t).expand ((key, .tool t) :: path)

def World.refreshed (fold : String → String) (G : Graph) (t : ToolNodeId) (w : World) : World :=
  { w with
    registry := Function.update w.registry t ((w.registry t).refreshAllWorkers fold G.configs).1 }

/-- What is known before a call at a path and a key, and what a call does to the state. A call may
throw if `E` holds. -/
structure Frame (fold : String → String) (G : Graph) (E : Prop)
    (I : Path → Key → World → Prop) (R : World → World → Prop) : Prop where
  refl : ∀ w, R w w
  trans : ∀ {w w' w''}, R w w' → R w' w'' → R w w''
  keep : ∀ {path key w w'}, I path key w → R w w' → I path key w'
  workers : ∀ {path key w}, I path key w →
    ∀ t, SameWorkers fold G (G.registry t) (w.registry t)
  cacheAgent : ∀ w key a text, R w (w.cacheAgent key a text)
  cacheTool : ∀ w key t text, R w (w.cacheTool key t text)
  plainTool : ∀ {w key t}, t ∉ (w.state key).stackTools →
    R w ((w.pushTool key t).popTool key t)
  pushAgent : ∀ {path key w a}, I path key w → a ∈ G.agents → a ∉ (w.state key).stackAgents →
    I ((key, .agent a) :: path) key (w.expandedAgent path key a)
  popAgent : ∀ {path key w a w'}, I path key w → a ∉ (w.state key).stackAgents →
    R (w.expandedAgent path key a) w' → R w (w'.popAgent key a)
  dropAgent : ∀ {path key w a w'}, E → I path key w → a ∉ (w.state key).stackAgents →
    R (w.expandedAgent path key a) w' → R w w'
  pushTool : ∀ {path key w t}, I path key w → G.Managed t → t ∉ (w.state key).stackTools →
    I ((key, .tool t) :: path) key (w.expandedTool path key t)
  popTool : ∀ {path key w t w'}, I path key w → t ∉ (w.state key).stackTools →
    R (w.expandedTool path key t) w' → R w (w'.popTool key t)
  reading : ∀ {path key w t}, I path key w → t ∈ w.reading → I path (some t) w
  beginReading : ∀ {path key w t}, I path key w → G.Managed t → t ∉ w.reading →
    I path (some t) (w.beginReading t)
  endReading : ∀ {w t w'}, t ∉ w.reading → R (w.beginReading t) w' → R w (w'.endReading t)
  refresh : ∀ w t, R w (w.refreshed fold G t)

variable {E lim : Prop} {I : Path → Key → World → Prop} {R : World → World → Prop}
  {path : Path} {key : Key} {w : World} {P P' : Prop} {α β : Type}

namespace Frame

section Rules

theorem seq (fr : Frame fold G E I R) {m : M α} {f : α → M β}
    (hm : Ensures lim m w (Settles (R w) P E))
    (hf : ∀ a w', R w w' → P → Ensures lim (f a) w' (Settles (R w') P' E)) :
    Ensures lim (m >>= f) w (Settles (R w) P' E) := by
  refine ensures_bind.mpr (hm.mono fun r w' hr => ?_)
  cases r with
  | error e => exact hr
  | ok a => exact (hf a w' hr.1 hr.2).mono fun r w'' hr' => ⟨fr.trans hr.1 hr'.1, hr'.2⟩

theorem ret (fr : Frame fold G E I R) {a : α} (hP : P) :
    Ensures lim (pure a : M α) w (Settles (R w) P E) :=
  ⟨fr.refl w, hP⟩

/-- A change of the state, and a value. -/
theorem change (fr : Frame fold G E I R) {f : World → World} (hR : R w (f w)) {a : α} (hP : P) :
    Ensures lim (do Call.modify f; pure a : M α) w (Settles (R w) P E) :=
  fr.seq (P := P) ⟨hR, hP⟩ fun _ _ _ hP => fr.ret hP

end Rules

section Agents

variable {resolvePrompt : Path → ToolNodeId → Key → M String}

theorem toolDescription (fr : Frame fold G E I R) {tool : RegisteredTool} (hI : I path key w)
    (hattached : ∀ t, tool = .node t → G.Attached t) (hE : E ∨ G.Described fold tool)
    (hr : ∀ t key w, G.Managed t → I path key w →
      Ensures lim (resolvePrompt path t key) w (Settles (R w) True E)) :
    Ensures lim (toolDescription G resolvePrompt path tool) w (Settles (R w) True E) := by
  have hplain : ∀ r : Except String String, (E ∨ r.isOk) →
      Ensures lim (Call.ofExcept r : M String) w (Settles (R w) True E) := by
    intro r hr
    refine ensures_ofExcept.mpr ⟨fr.refl w, ?_⟩
    cases r with
    | ok text => trivial
    | error e => exact hr.resolve_right fun h => nomatch h
  cases tool with
  | mcp tool => exact hplain _ (hE.imp_right fun h => h.2)
  | node t =>
    rw [Prompts.toolDescription]
    cases htool : (G.toolNode t).tool with
    | plain tool =>
      refine hplain _ (hE.imp_right fun h => ?_)
      have hreadable := h.2
      simpa only [Graph.Readable, htool] using hreadable
    | manage name =>
      have ht : G.Managed t := ⟨hattached t rfl, by simp [Graph.isManage, htool]⟩
      refine ensures_get_bind.mpr ?_
      split
      · rename_i hreading
        exact hr t (some t) w ht (fr.reading hI hreading)
      · rename_i hreading
        refine ensures_modify_bind.mpr (ensures_andFinally.mpr ?_)
        have hcall := hr t (some t) _ ht (fr.beginReading hI ht hreading)
        exact hcall.mono fun r w' hr' => ⟨fr.endReading hreading hr'.1, hr'.2⟩

theorem resolveNodePrompt (fr : Frame fold G E I R) {t : ToolNodeId} {fallback : String}
    (hI : I path key w) (ht : G.Attached t) (hstack : t ∉ (w.state key).stackTools)
    (hr : ∀ t key w, G.Managed t → I path key w →
      Ensures lim (resolvePrompt path t key) w (Settles (R w) True E)) :
    Ensures lim (resolveNodePrompt G resolvePrompt path t key fallback) w
      (Settles (R w) True E) := by
  unfold Prompts.resolveNodePrompt
  split
  · rename_i hmanage
    exact Ensures.attempt (hr t key w ⟨ht, hmanage⟩ hI)
  · exact ensures_modify_bind.mpr (ensures_andFinally.mpr ⟨fr.plainTool hstack, trivial⟩)

theorem resolveToolPrompt (fr : Frame fold G E I R) {tool : RegisteredTool}
    {nodeRef : Option ToolNodeId} {fallbackPrompt : String} (hI : I path key w)
    (hdescription : ∀ w, I path key w →
      Ensures lim (Prompts.toolDescription G resolvePrompt path tool) w (Settles (R w) P E))
    (hnode : ∀ t, nodeRef = some t → G.Attached t)
    (hr : ∀ t key w, G.Managed t → I path key w →
      Ensures lim (resolvePrompt path t key) w (Settles (R w) True E)) :
    Ensures lim (resolveToolPrompt G resolvePrompt path tool nodeRef key fallbackPrompt) w
      (Settles (R w) P E) := by
  refine fr.seq (hdescription w hI) fun description w' hR hP => ?_
  cases nodeRef with
  | none => exact fr.ret hP
  | some t =>
    refine ensures_get_bind.mpr ?_
    cases (w'.state key).cacheTools t with
    | some cached => exact fr.ret hP
    | none =>
      rcases Classical.em (t ∈ (w'.state key).stackTools) with hstack | hstack
      · simp only [if_pos hstack]
        exact fr.change (fr.cacheTool _ _ _ _) hP
      · simp only [if_neg hstack]
        refine fr.seq (fr.resolveNodePrompt (fr.keep hI hR) (hnode t rfl) hstack hr) ?_
        exact fun _ w'' _ _ => fr.change (fr.cacheTool _ _ _ _) hP

theorem toolContext (fr : Frame fold G E I R) {a : Worker} {tool : RegisteredTool}
    (ha : a ∈ G.agents) (hI : I path key w) (hname : E ∨ (G.toolName tool).isOk)
    (hdescription : ∀ w, I path key w →
      Ensures lim (Prompts.toolDescription G resolvePrompt path tool) w (Settles (R w) P E))
    (hr : ∀ t key w, G.Managed t → I path key w →
      Ensures lim (resolvePrompt path t key) w (Settles (R w) True E)) :
    Ensures lim (toolContext G resolvePrompt path a key tool) w
      (Settles (R w) ((G.toolName tool).isOk ∧ P) E) := by
  cases hok : G.toolName tool with
  | error e =>
    rw [hok] at hname
    refine ensures_bind.mpr ?_
    rw [hok]
    exact ⟨fr.refl w, hname.resolve_right fun h => nomatch h⟩
  | ok name =>
    refine ensures_bind.mpr ?_
    rw [hok]
    refine fr.seq (hdescription w hI) fun read w₁ h₁ hP => ?_
    have hI₁ := fr.keep hI h₁
    refine fr.seq (hdescription w₁ hI₁) fun readAgain w₂ h₂ _ => ?_
    refine fr.seq (fr.resolveToolPrompt (fr.keep hI₁ h₂) hdescription (fun t ht => ?_) hr)
      fun _ _ _ _ => fr.ret ⟨rfl, hP⟩
    exact ⟨a, ha, Graph.uses_of_lookup ht⟩

/-- The contexts of the tools of an agent; with them, what the descriptions ensure. -/
theorem buildToolMustacheContext (fr : Frame fold G E I R) {a : Worker}
    {P : RegisteredTool → Prop} (ha : a ∈ G.agents) (hI : I path key w)
    (hE : E ∨ G.Describable fold a)
    (hdescription : ∀ entry ∈ (G.agentConfig a).toolsByName, ∀ w, I path key w →
      Ensures lim (Prompts.toolDescription G resolvePrompt path entry.2) w
        (Settles (R w) (P entry.2) E))
    (hr : ∀ t key w, G.Managed t → I path key w →
      Ensures lim (resolvePrompt path t key) w (Settles (R w) True E)) :
    Ensures lim (buildToolMustacheContext G resolvePrompt path a key) w
      (Settles (R w) (∀ entry ∈ (G.agentConfig a).toolsByName,
        (G.toolName entry.2).isOk ∧ P entry.2) E) := by
  have htools : Ensures lim (Prompts.buildToolMustacheContext G resolvePrompt path a key) w
      (Settles (R w) (∀ tool ∈ (G.agentConfig a).toolsByName.map Prod.snd,
        (G.toolName tool).isOk ∧ P tool) E) := by
    refine ensures_traverse (I := R w) (fun tool htool w' hR => ?_) (fr.refl w)
    obtain ⟨entry, hentry, rfl⟩ := List.mem_map.mp htool
    have hI' := fr.keep hI hR
    have hname : E ∨ (G.toolName entry.2).isOk := hE.imp_right fun h => (h entry hentry).1
    refine (fr.toolContext ha hI' hname (hdescription entry hentry) hr).mono fun r w'' hr' => ?_
    exact ⟨fr.trans hR hr'.1, hr'.2⟩
  simpa only [List.forall_mem_map] using htools

/-- An agent that throws stays on the stack. -/
theorem expandAgent (fr : Frame fold G E I R) (mustache : Mustache) {a : Worker}
    {P : RegisteredTool → Prop} (ha : a ∈ G.agents) (hI : I path key w)
    (hstack : a ∉ (w.state key).stackAgents) (hE : E ∨ G.Describable fold a)
    (hdescription : ∀ entry ∈ (G.agentConfig a).toolsByName, ∀ w,
      I ((key, .agent a) :: path) key w →
      Ensures lim (Prompts.toolDescription G resolvePrompt ((key, .agent a) :: path) entry.2) w
        (Settles (R w) (P entry.2) E))
    (hr : ∀ t key' w, G.Managed t → I ((key, .agent a) :: path) key' w →
      Ensures lim (resolvePrompt ((key, .agent a) :: path) t key') w (Settles (R w) True E)) :
    Ensures lim (expandAgent mustache G resolvePrompt path a key) w
      (Settles (R w) (∀ entry ∈ (G.agentConfig a).toolsByName,
        (G.toolName entry.2).isOk ∧ P entry.2) E) := by
  refine ensures_modify_bind.mpr (ensures_modify_bind.mpr ?_)
  have htools := fr.buildToolMustacheContext ha (fr.pushAgent hI ha hstack) hE hdescription hr
  refine ensures_bind.mpr (htools.mono fun r w' hr' => ?_)
  cases r with
  | error e => exact ⟨fr.dropAgent hr'.2 hI hstack hr'.1, hr'.2⟩
  | ok tools =>
    exact And.intro (fr.trans (fr.popAgent hI hstack hr'.1) (fr.cacheAgent _ _ _ _)) hr'.2

theorem resolveEffectiveSystemPrompt (fr : Frame fold G E I R) {a : Worker} (ha : a ∈ G.agents)
    (hI : I path key w) (hE : ∀ a ∈ G.agents, E ∨ G.Describable fold a)
    (hr : ∀ t key' w, G.Managed t → I ((key, .agent a) :: path) key' w →
      Ensures lim (resolvePrompt ((key, .agent a) :: path) t key') w (Settles (R w) True E)) :
    Ensures lim (resolveEffectiveSystemPrompt mustache G resolvePrompt path a key) w
      (Settles (R w) True E) := by
  refine ensures_get_bind.mpr ?_
  cases (w.state key).cacheAgents a with
  | some cached => exact fr.ret trivial
  | none =>
    rcases Classical.em (a ∈ (w.state key).stackAgents) with hstack | hstack
    · simp only [if_pos hstack]
      exact fr.change (fr.cacheAgent _ _ _ _) trivial
    · simp only [if_neg hstack]
      have hexpand := fr.expandAgent mustache (P := fun _ => True) ha hI hstack (hE a ha)
        (fun entry hentry w hI' => ?_) hr
      · exact hexpand.mono fun r w' hr' => ⟨hr'.1, by
          cases r with
          | ok _ => trivial
          | error _ => exact hr'.2⟩
      · refine fr.toolDescription hI' (fun t ht => ⟨a, ha, entry, hentry, ht⟩) ?_ hr
        exact (hE a ha).imp_right fun h => h entry hentry

end Agents

section Tools

variable {resolveEffectiveSystemPrompt : Path → Worker → Key → M String}

theorem resolveWorkerPrompt (fr : Frame fold G E I R) {a : Worker} (ha : a ∈ G.agents)
    (hI : I path key w)
    (hr : ∀ a w, a ∈ G.agents → I path key w →
      Ensures lim (resolveEffectiveSystemPrompt path a key) w (Settles (R w) True E)) :
    Ensures lim (resolveWorkerPrompt G resolveEffectiveSystemPrompt path a key) w
      (Settles (R w) True E) := by
  refine ensures_get_bind.mpr ?_
  split
  · exact fr.change (fr.cacheAgent _ _ _ _) trivial
  · refine fr.seq (Ensures.attempt (hr a w ha hI)) fun resolved w' _ _ => ?_
    split <;> exact fr.ret trivial

theorem ensures_refreshAllWorkers {t : ToolNodeId} {Q : Except String Unit → World → Prop} :
    Ensures lim (refreshAllWorkers fold G t) w Q ↔
      Q ((w.registry t).refreshAllWorkers fold G.configs).2 (w.refreshed fold G t) := Iff.rfl

theorem getAgentPromptContext (fr : Frame fold G E I R) {t : ToolNodeId} (ht : G.Managed t)
    (hI : I path key w) (hE : E ∨ Refreshes fold G (G.registry t))
    (hr : ∀ a w, a ∈ G.agents → I path key w →
      Ensures lim (resolveEffectiveSystemPrompt path a key) w (Settles (R w) True E)) :
    Ensures lim (getAgentPromptContext fold G resolveEffectiveSystemPrompt path t key) w
      (Settles (R w) True E) := by
  have hrefresh : Ensures lim (refreshAllWorkers fold G t) w (Settles (R w) True E) := by
    refine ensures_refreshAllWorkers.mpr (And.intro (fr.refresh w t) ?_)
    cases hresult : ((w.registry t).refreshAllWorkers fold G.configs).2 with
    | ok _ => trivial
    | error e =>
      refine hE.resolve_right fun h => ?_
      have hok : Refreshes fold G (w.registry t) := (fr.workers hI t).refreshes.mpr h
      exact nomatch hresult.symm.trans hok
  refine fr.seq hrefresh fun _ w₁ h₁ _ => ensures_get_bind.mpr ?_
  have hI₁ := fr.keep hI h₁
  have hagent : ∀ a ∈ (w₁.registry t).workers, ∀ w', R w₁ w' →
      Ensures lim (agentContext G resolveEffectiveSystemPrompt path key a) w'
        (Settles (R w₁) True E) := by
    intro a ha w' hR
    rw [(fr.workers hI₁ t).workers] at ha
    have hmem := G.workers_mem t ht.1.mem a ha
    have hcontext : Ensures lim (agentContext G resolveEffectiveSystemPrompt path key a) w'
        (Settles (R w') True E) :=
      fr.seq (fr.resolveWorkerPrompt hmem (fr.keep hI₁ hR) hr) fun _ _ _ _ => fr.ret trivial
    exact hcontext.mono fun r w'' hr' => ⟨fr.trans hR hr'.1, hr'.2⟩
  refine (ensures_traverse hagent (fr.refl w₁)).mono fun r w' hr' => ⟨hr'.1, ?_⟩
  cases r with
  | ok _ => trivial
  | error _ => exact hr'.2

theorem expandTool (fr : Frame fold G E I R) (mustache : Mustache) (template : String)
    {t : ToolNodeId} (ht : G.Managed t) (hI : I path key w)
    (hE : E ∨ Refreshes fold G (G.registry t))
    (hr : ∀ a w, a ∈ G.agents → I path key w →
      Ensures lim (resolveEffectiveSystemPrompt path a key) w (Settles (R w) True E)) :
    Ensures lim (expandTool fold mustache G resolveEffectiveSystemPrompt path t key template) w
      (Settles (R w) True E) :=
  fr.seq (fr.getAgentPromptContext ht hI hE hr)
    fun _ _ _ _ => fr.change (fr.cacheTool _ _ _ _) trivial

theorem resolvePrompt (fr : Frame fold G E I R) {t : ToolNodeId} (ht : G.Managed t)
    (hI : I path key w)
    (hE : E ∨ G.promptTemplate t = "" ∨ Refreshes fold G (G.registry t))
    (hr : ∀ a w, a ∈ G.agents → I ((key, .tool t) :: path) key w →
      Ensures lim (resolveEffectiveSystemPrompt ((key, .tool t) :: path) a key) w
        (Settles (R w) True E)) :
    Ensures lim (resolvePrompt fold mustache G resolveEffectiveSystemPrompt path t key) w
      (Settles (R w) True E) := by
  unfold Prompts.resolvePrompt
  rcases Classical.em (G.promptTemplate t = "") with htemplate | htemplate
  · rw [Graph.promptTemplate] at htemplate
    simp only [if_pos htemplate]
    exact fr.change (fr.cacheTool _ _ _ _) trivial
  · have hrefreshes := hE.imp_right fun h => h.resolve_left htemplate
    rw [Graph.promptTemplate] at htemplate
    simp only [if_neg htemplate]
    refine ensures_get_bind.mpr ?_
    cases (w.state key).cacheTools t with
    | some cached => exact fr.ret trivial
    | none =>
      rcases Classical.em (t ∈ (w.state key).stackTools) with hstack | hstack
      · simp only [if_pos hstack]
        exact fr.change (fr.cacheTool _ _ _ _) trivial
      · simp only [if_neg hstack]
        refine ensures_modify_bind.mpr (ensures_modify_bind.mpr (ensures_andFinally.mpr ?_))
        have hexpand := fr.expandTool mustache (trim ((G.toolNode t).prompt.getD "")) ht
          (fr.pushTool hI ht hstack) hrefreshes hr
        exact hexpand.mono fun r w' hr' => ⟨fr.popTool hI hstack hr'.1, hr'.2⟩

end Tools

theorem refreshes_of_managed {t : ToolNodeId} (ht : G.Managed t)
    (hE : ∀ a ∈ G.agents, E ∨ G.Describable fold a) :
    E ∨ G.promptTemplate t = "" ∨ Refreshes fold G (G.registry t) := by
  obtain ⟨⟨a, ha, entry, hentry, hnode⟩, hmanage⟩ := ht
  refine (hE a ha).imp_right fun h => ?_
  have hreadable := (h entry hentry).2
  rw [hnode] at hreadable
  unfold Graph.isManage at hmanage
  cases htool : (G.toolNode t).tool with
  | plain tool => simp [htool] at hmanage
  | manage name => simpa only [Graph.Readable, htool] using hreadable

/-- Agents and manage tools keep a frame to any depth that the budget of the path allows. -/
theorem resolver (fr : Frame fold G E I R) (mustache : Mustache) {B : Path → ℕ → Prop}
    (hB : ∀ path x fuel, B path (fuel + 1) → B (x :: path) fuel)
    (hlim : ∀ path key w, I path key w → B path 0 → lim)
    (hE : ∀ a ∈ G.agents, E ∨ G.Describable fold a) (fuel : ℕ) :
    (∀ path a key w, a ∈ G.agents → I path key w → B path fuel →
      Ensures lim ((resolver fold mustache G fuel).resolveEffectiveSystemPrompt path a key) w
        (Settles (R w) True E)) ∧
    ∀ path t key w, G.Managed t → I path key w → B path fuel →
      Ensures lim ((resolver fold mustache G fuel).resolvePrompt path t key) w
        (Settles (R w) True E) := by
  induction fuel with
  | zero => exact ⟨fun path a key w _ hI hb => hlim path key w hI hb,
      fun path t key w _ hI hb => hlim path key w hI hb⟩
  | succ fuel ih =>
    obtain ⟨hagents, htools⟩ := ih
    constructor
    · intro path a key w ha hI hb
      rw [resolver_agents]
      refine fr.resolveEffectiveSystemPrompt ha hI hE fun t key' w' ht hI' => ?_
      exact htools _ t key' w' ht hI' (hB _ _ _ hb)
    · intro path t key w ht hI hb
      rw [resolver_tools]
      refine fr.resolvePrompt ht hI (refreshes_of_managed ht hE) fun a w' ha hI' => ?_
      exact hagents _ a key w' ha hI' (hB _ _ _ hb)

/-- With any fuel: a call that returns or throws keeps the frame. -/
theorem resolver_of_fuel (fr : Frame fold G E I R) (mustache : Mustache)
    (hE : ∀ a ∈ G.agents, E ∨ G.Describable fold a) (fuel : ℕ) :
    (∀ path a key w, a ∈ G.agents → I path key w →
      Ensures True ((Prompts.resolver fold mustache G fuel).resolveEffectiveSystemPrompt path a key)
        w (Settles (R w) True E)) ∧
    ∀ path t key w, G.Managed t → I path key w →
      Ensures True ((Prompts.resolver fold mustache G fuel).resolvePrompt path t key) w
        (Settles (R w) True E) := by
  obtain ⟨hagents, htools⟩ := fr.resolver mustache (B := fun _ _ => True)
    (fun _ _ _ _ => trivial) (fun _ _ _ _ _ => trivial) hE fuel
  exact ⟨fun path a key w ha hI => hagents path a key w ha hI trivial,
    fun path t key w ht hI => htools path t key w ht hI trivial⟩

end Frame

end Agyn.Prompts
