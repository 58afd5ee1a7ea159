import Mathlib.Data.Finset.Sum
import Agyn.MemoAgreement
import Agyn.PromptPreview
import Agyn.TrimmedTexts

/-!
The resolvers of the preview as one computation on a graph. Its nodes are agents, tools, and tools
that manage agents; the last two share a cache and a stack. A tool whose template is that of manage
tools is resolved as one, and so is every tool that is asked for by `resolveManagePrompt`.
-/
namespace Agyn.PromptPreview

open FuelledCalls MemoGraphs PromptResolutionState
open Prompts (pickFirstNonEmpty readConfigString renderMustache ToolContext AgentContext)

inductive PreviewNode where
  | agent (id : String)
  | tool (id : String)
  | manage (id : String)
  deriving DecidableEq

abbrev PreviewKey := String ⊕ String

def PreviewNode.key : PreviewNode → PreviewKey
  | .agent id => .inl id
  | .tool id => .inr id
  | .manage id => .inr id

def memoState : MemoState PromptResolutionState PreviewKey String where
  cached s
    | .inl id => s.agentCache id
    | .inr id => s.toolCache id
  stack s := s.agentStack.disjSum s.toolStack
  cache
    | .inl id => cacheAgent id
    | .inr id => cacheTool id
  push
    | .inl id => pushAgent id
    | .inr id => pushTool id
  pop
    | .inl id => popAgent id
    | .inr id => popTool id
  cached_cache k b s j := by
    rcases k with k | k <;> rcases j with j | j <;>
      simp [cacheAgent, cacheTool, Function.update_apply]
  cached_push k s := by rcases k with k | k <;> rfl
  cached_pop k s := by rcases k with k | k <;> rfl
  stack_cache k b s := by rcases k with k | k <;> rfl
  stack_push k s := by
    rcases k with k | k <;> ext (j | j) <;> simp [pushAgent, pushTool]
  stack_pop k s := by
    rcases k with k | k <;> ext (j | j) <;> simp [popAgent, popTool]

section Graph

variable (o : Options)

def toolNode (node : GraphNode) : PreviewNode :=
  if node.template = MANAGE_TEMPLATE_NAME then .manage node.id else .tool node.id

def isAgent (id : String) : Bool := (o.node? id).any fun node => node.kind = .Agent

/-- The tools up to the first one whose template has no name. -/
def namedTools (agentId : String) : List GraphNode :=
  (o.toolTargets agentId).takeWhile fun node => (canonicalName o node).isOk

def agentText (agentId : String) (tools : List ToolContext) : String :=
  pickFirstNonEmpty [some (renderMustache o.mustache (o.agentTemplate agentId) (.tools tools)),
    some (o.agentTemplate agentId), some DEFAULT_SYSTEM_PROMPT]

def manageFallback (id : String) : String :=
  match o.node? id with
  | none => MANAGE_FALLBACK_DESCRIPTION
  | some node => Options.getManageFallbackDescription node

def manageTemplate (id : String) : Option String :=
  (o.node? id).bind fun node => readConfigString node.config.prompt

def manageText (id template : String) (agents : List AgentContext) : String :=
  pickFirstNonEmpty [some (renderMustache o.mustache template (.agents agents)),
    some (manageFallback o id)]

def toolContexts (agentId : String) : List String → Except String (List ToolContext) :=
  gather (canonicalName o) (toolContext o) (o.toolTargets agentId)

def agentContexts (toolId : String) : List String → Except String (List AgentContext) :=
  gather (fun _ => .ok ()) (fun node _ => agentContext node) (o.agentTargets toolId)

def previewDeps : PreviewNode → List PreviewNode
  | .agent id => if isAgent o id then (namedTools o id).map toolNode else []
  | .tool _ => []
  | .manage id =>
    if (manageTemplate o id).isSome then (o.agentTargets id).map fun node => .agent node.id else []

def previewEval : PreviewNode → List String → Except String String
  | .agent id, texts =>
    if isAgent o id then (toolContexts o id texts).map (agentText o id)
    else .ok DEFAULT_SYSTEM_PROMPT
  | .tool id, _ => .ok (((o.node? id).map (toolFallback o)).getD "")
  | .manage id, texts =>
    match manageTemplate o id with
    | none => .ok (manageFallback o id)
    | some template => (agentContexts o id texts).map (manageText o id template)

def previewFallback : PreviewNode → String
  | .agent id => o.agentTemplate id
  | .tool id => ((o.node? id).map (toolFallback o)).getD ""
  | .manage id => manageFallback o id

def previewNodes : Finset PreviewNode :=
  (o.graphNodes.flatMap fun node => [.agent node.id, .tool node.id, .manage node.id]).toFinset

variable {o}

theorem node?_eq_some {id : String} {node : GraphNode} (h : o.node? id = some node) :
    node ∈ o.graphNodes ∧ node.id = id := by
  simpa using List.mem_of_getLast? h

theorem targetsFrom_spec {accepts : String → Bool} {kind : NodeKind} {seen : List String}
    {edges : List GraphEdge} {node : GraphNode}
    (h : node ∈ o.targetsFrom accepts kind seen edges) :
    node.id ≠ "" ∧ o.node? node.id = some node ∧ node.kind = kind := by
  induction edges generalizing seen with
  | nil => simp [Options.targetsFrom] at h
  | cons edge edges ih =>
    rw [Options.targetsFrom] at h
    split_ifs at h with hskip
    · exact ih h
    · cases htarget : o.node? edge.target with
      | none =>
        rw [htarget] at h
        exact ih h
      | some target =>
        rw [htarget] at h
        simp only at h
        split_ifs at h with hkind
        · obtain rfl | h := List.mem_cons.mp h
          · obtain ⟨-, hid⟩ := node?_eq_some htarget
            rw [hid]
            refine ⟨fun hempty => hskip ?_, htarget, hkind⟩
            simp [hempty]
          · exact ih h
        · exact ih h

theorem mem_previewNodes {id : String} {node : GraphNode} (h : o.node? id = some node) :
    .agent id ∈ previewNodes o ∧ .tool id ∈ previewNodes o ∧ .manage id ∈ previewNodes o := by
  obtain ⟨hmem, rfl⟩ := node?_eq_some h
  simp only [previewNodes, List.mem_toFinset, List.mem_flatMap]
  exact ⟨⟨node, hmem, by simp⟩, ⟨node, hmem, by simp⟩, ⟨node, hmem, by simp⟩⟩

theorem previewDeps_mem (n : PreviewNode) : ∀ d ∈ previewDeps o n, d ∈ previewNodes o := by
  intro d hd
  cases n with
  | agent id =>
    simp only [previewDeps] at hd
    split_ifs at hd
    · obtain ⟨node, hnode, rfl⟩ := List.mem_map.mp hd
      have hmem := mem_previewNodes
        (targetsFrom_spec ((List.takeWhile_sublist _).subset hnode)).2.1
      unfold toolNode
      split_ifs
      · exact hmem.2.2
      · exact hmem.2.1
    · exact absurd hd List.not_mem_nil
  | tool id => exact absurd hd List.not_mem_nil
  | manage id =>
    simp only [previewDeps] at hd
    split_ifs at hd
    · obtain ⟨node, hnode, rfl⟩ := List.mem_map.mp hd
      exact (mem_previewNodes (targetsFrom_spec hnode).2.1).1
    · exact absurd hd List.not_mem_nil

def previewGraph (o : Options) : MemoGraph PreviewNode PreviewKey String String where
  deps := previewDeps o
  key := PreviewNode.key
  eval := previewEval o
  fallback := previewFallback o
  nodes := previewNodes o
  deps_mem := previewDeps_mem

end Graph

end Agyn.PromptPreview
