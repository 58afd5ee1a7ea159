import Agyn.ContextFolds
import Agyn.ToolPairing

/-!
The two passes that split a conversation for its summary. The first one cuts it where the messages
behind the cut have enough tokens, and the second one moves the outputs whose calls stand before the
cut. A token is four characters of the YAML text, so that tokens are compared as quarters.
-/
namespace Agyn

namespace SummarizationLLMReducer

def splitHeadTailByTokens (yamlLength : LLMMessage → ℕ) (keepTokens : ℕ)
    (messages : List LLMMessage) : List LLMMessage × List LLMMessage :=
  (messages.take (splitIdx yamlLength keepTokens messages),
    messages.drop (splitIdx yamlLength keepTokens messages))

theorem split_eq (yamlLength : LLMMessage → ℕ) (keepTokens : ℕ) (messages : List LLMMessage) :
    split yamlLength keepTokens messages =
      moveOrphanToolOutputsToTail (splitHeadTailByTokens yamlLength keepTokens messages).2
        (splitHeadTailByTokens yamlLength keepTokens messages).1 := rfl

end SummarizationLLMReducer

open SummarizationLLMReducer

section Tokens

variable (yamlLength : LLMMessage → ℕ) (keepTokens : ℕ)

def quarterTokens (messages : List LLMMessage) : ℕ := (messages.map yamlLength).sum

def ReachesKeep (messages : List LLMMessage) : Prop :=
  4 * keepTokens ≤ quarterTokens yamlLength messages

instance (messages : List LLMMessage) : Decidable (ReachesKeep yamlLength keepTokens messages) :=
  inferInstanceAs (Decidable (4 * keepTokens ≤ quarterTokens yamlLength messages))

structure ShortestSuffix (messages head : List LLMMessage) : Prop where
  suffix : head <:+ messages
  reaches : ReachesKeep yamlLength keepTokens head
  shortest : ∀ part, part <:+ messages → ReachesKeep yamlLength keepTokens part →
    head.length ≤ part.length

/-- The head is the shortest suffix with enough tokens, or everything where there are too few, and
so it has as many tokens as are to be kept or as there are. -/
structure KeepsEnough (messages head : List LLMMessage) : Prop where
  enough : ReachesKeep yamlLength keepTokens messages →
    ShortestSuffix yamlLength keepTokens messages head
  tooFew : ¬ ReachesKeep yamlLength keepTokens messages → head = messages
  tokens : min (4 * keepTokens) (quarterTokens yamlLength messages) ≤
    quarterTokens yamlLength head

end Tokens

variable {yamlLength : LLMMessage → ℕ} {keepTokens : ℕ} {messages head tail : List LLMMessage}

@[simp] theorem quarterTokens_nil : quarterTokens yamlLength [] = 0 := rfl

theorem quarterTokens_cons (m : LLMMessage) (rest : List LLMMessage) :
    quarterTokens yamlLength (m :: rest) = yamlLength m + quarterTokens yamlLength rest :=
  List.sum_cons

@[simp] theorem quarterTokens_reverse (messages : List LLMMessage) :
    quarterTokens yamlLength messages.reverse = quarterTokens yamlLength messages := by
  unfold quarterTokens
  rw [List.map_reverse, List.sum_reverse]

/-- The loop stops at the first message with which there are enough tokens. -/
theorem headLength_eq_some {total n : ℕ} {rest : List LLMMessage}
    (h : headLength yamlLength keepTokens total rest = some n) :
    0 < n ∧ n ≤ rest.length ∧ 4 * keepTokens ≤ total + quarterTokens yamlLength (rest.take n) ∧
      ∀ k, 0 < k → k < n → total + quarterTokens yamlLength (rest.take k) < 4 * keepTokens := by
  induction rest generalizing total n with
  | nil => cases h
  | cons m rest ih =>
    rw [headLength] at h
    by_cases henough : 4 * keepTokens ≤ total + yamlLength m
    · rw [if_pos henough] at h
      obtain rfl := Option.some.inj h
      refine ⟨by omega, Nat.succ_le_succ (Nat.zero_le _), ?_, fun k hpos hlt => by omega⟩
      rw [List.take_succ_cons, quarterTokens_cons, List.take_zero, quarterTokens_nil]
      omega
    · rw [if_neg henough] at h
      obtain ⟨n, hn, rfl⟩ := Option.map_eq_some_iff.mp h
      obtain ⟨hpos, hle, hreach, hbelow⟩ := ih hn
      refine ⟨by omega, Nat.succ_le_succ hle, ?_, fun k hkpos hlt => ?_⟩
      · rw [List.take_succ_cons, quarterTokens_cons]
        omega
      · obtain ⟨k, rfl⟩ := Nat.exists_eq_add_of_le' hkpos
        rw [List.take_succ_cons, quarterTokens_cons]
        cases k with
        | zero =>
          rw [List.take_zero, quarterTokens_nil]
          omega
        | succ k =>
          have hsmall := hbelow (k + 1) (Nat.succ_pos k) (by omega)
          omega

/-- The loop runs to its end only when there are too few tokens. -/
theorem headLength_eq_none {total : ℕ} {rest : List LLMMessage}
    (h : headLength yamlLength keepTokens total rest = none) :
    rest = [] ∨ total + quarterTokens yamlLength rest < 4 * keepTokens := by
  induction rest generalizing total with
  | nil => exact Or.inl rfl
  | cons m rest ih =>
    right
    rw [headLength] at h
    by_cases henough : 4 * keepTokens ≤ total + yamlLength m
    · rw [if_pos henough] at h
      cases h
    · rw [if_neg henough] at h
      rw [quarterTokens_cons]
      rcases ih (Option.map_eq_none_iff.mp h) with hnil | hfew
      · rw [hnil, quarterTokens_nil]
        omega
      · omega

/-- The head in terms of the loop over the messages in reverse. -/
theorem head_of_headLength {n : ℕ}
    (h : headLength yamlLength keepTokens 0 messages.reverse = some n) :
    (splitHeadTailByTokens yamlLength keepTokens messages).2 =
      (messages.reverse.take n).reverse := by
  unfold splitHeadTailByTokens splitIdx
  rw [h, Option.getD_some, List.take_reverse, List.reverse_reverse]

theorem head_of_none (h : headLength yamlLength keepTokens 0 messages.reverse = none) :
    (splitHeadTailByTokens yamlLength keepTokens messages).2 = [] := by
  unfold splitHeadTailByTokens splitIdx
  rw [h, Option.getD_none, Nat.sub_zero, List.drop_length]

theorem quarterTokens_suffix_le {part : List LLMMessage} (h : part <:+ messages) :
    quarterTokens yamlLength part ≤ quarterTokens yamlLength messages := by
  obtain ⟨front, rfl⟩ := h
  unfold quarterTokens
  rw [List.map_append, List.sum_append]
  omega

/-- When enough tokens are asked for and there, the loop finds the shortest suffix. -/
theorem shortestSuffix_head (hpos : 0 < keepTokens)
    (hreaches : ReachesKeep yamlLength keepTokens messages) :
    ShortestSuffix yamlLength keepTokens messages
      (splitHeadTailByTokens yamlLength keepTokens messages).2 := by
  unfold ReachesKeep at hreaches
  cases hloop : headLength yamlLength keepTokens 0 messages.reverse with
  | none =>
    rcases headLength_eq_none hloop with hnil | hfew
    · rw [List.reverse_eq_nil_iff.mp hnil, quarterTokens_nil] at hreaches
      omega
    · rw [quarterTokens_reverse] at hfew
      omega
  | some n =>
    obtain ⟨-, hle, hreach, hbelow⟩ := headLength_eq_some hloop
    rw [head_of_headLength hloop]
    refine ⟨?_, ?_, fun part hpart henough => ?_⟩
    · rw [← List.reverse_prefix, List.reverse_reverse]
      exact List.take_prefix n _
    · unfold ReachesKeep
      rw [quarterTokens_reverse]
      omega
    · rw [List.length_reverse, List.length_take, Nat.min_eq_left hle]
      by_contra hshorter
      have htake : part.reverse = messages.reverse.take part.length := by
        have hlength : part.reverse.length = part.length := List.length_reverse
        rw [← hlength]
        exact List.prefix_iff_eq_take.mp (List.reverse_prefix.mpr hpart)
      unfold ReachesKeep at henough
      rw [← quarterTokens_reverse, htake] at henough
      by_cases hempty : part.length = 0
      · rw [hempty, List.take_zero, quarterTokens_nil] at henough
        omega
      · have hsmall := hbelow part.length (by omega) (by omega)
        omega

/-- The head is what the split promises exactly when there are no messages, or some tokens are to be
kept and there are that many. -/
theorem kept_enough_iff (yamlLength : LLMMessage → ℕ) (keepTokens : ℕ)
    (messages : List LLMMessage) :
    KeepsEnough yamlLength keepTokens messages
        (splitHeadTailByTokens yamlLength keepTokens messages).2 ↔
      messages = [] ∨ 0 < keepTokens ∧ 4 * keepTokens ≤ quarterTokens yamlLength messages := by
  constructor
  · intro h
    by_contra hbad
    obtain ⟨hsome, hfew⟩ := not_or.mp hbad
    cases hloop : headLength yamlLength keepTokens 0 messages.reverse with
    | none =>
      rcases headLength_eq_none hloop with hnil | hbelow
      · exact hsome (List.reverse_eq_nil_iff.mp hnil)
      · rw [quarterTokens_reverse] at hbelow
        have hall := h.tooFew (by unfold ReachesKeep; omega)
        rw [head_of_none hloop] at hall
        exact hsome hall.symm
    | some n =>
      obtain ⟨hpos, hle, hreach, -⟩ := headLength_eq_some hloop
      have hhead := head_of_headLength hloop
      have hsuffix : (messages.reverse.take n).reverse <:+ messages := by
        rw [← List.reverse_prefix, List.reverse_reverse]
        exact List.take_prefix n _
      have htotal : quarterTokens yamlLength (messages.reverse.take n).reverse ≤
          quarterTokens yamlLength messages := quarterTokens_suffix_le hsuffix
      rw [quarterTokens_reverse] at htotal
      have hzero : keepTokens = 0 := by
        by_contra hne
        exact hfew ⟨by omega, by omega⟩
      -- The empty suffix would do, but the loop takes the last message before it looks.
      have hshortest := (h.enough (by unfold ReachesKeep; omega)).shortest [] List.nil_suffix
        (by unfold ReachesKeep; omega)
      rw [hhead, List.length_reverse, List.length_take, Nat.min_eq_left hle, List.length_nil]
        at hshortest
      omega
  · rintro (rfl | ⟨hpos, hreaches⟩)
    · have hhead : (splitHeadTailByTokens yamlLength keepTokens []).2 = [] := List.drop_nil
      rw [hhead]
      exact ⟨fun hreaches => ⟨List.nil_suffix, hreaches, fun _ _ _ => Nat.zero_le _⟩, fun _ => rfl,
        Nat.min_le_right _ _⟩
    · have hshortest := shortestSuffix_head hpos hreaches
      exact ⟨fun _ => hshortest, fun hfew => absurd hreaches hfew,
        Nat.le_trans (Nat.min_le_left _ _) hshortest.reaches⟩

/-- With fewer tokens than are to be kept nothing is kept. -/
theorem nothing_kept :
    (splitHeadTailByTokens (fun _ => 20) 100 [.human "question", .ai "answer"]).2 = [] ∧
      ¬ KeepsEnough (fun _ => 20) 100 [.human "question", .ai "answer"]
        (splitHeadTailByTokens (fun _ => 20) 100 [.human "question", .ai "answer"]).2 := by
  have hhead : (splitHeadTailByTokens (fun _ => 20) 100
      [.human "question", .ai "answer"]).2 = [] := by
    decide +kernel
  refine ⟨hhead, fun h => ?_⟩
  have htokens := h.tokens
  rw [hhead] at htokens
  revert htokens
  decide +kernel

def UniqueCalls (messages : List LLMMessage) : Prop :=
  (messages.flatMap LLMMessage.callIds).Nodup

def OutputsAfterCalls (messages : List LLMMessage) : Prop :=
  ∀ before m after id, messages = before ++ m :: after → m.outputId = some id →
    id ∈ before.flatMap LLMMessage.callIds

theorem outputsAfterCalls_iff {messages : List LLMMessage} :
    OutputsAfterCalls messages ↔
      ∀ i : Fin messages.length, ∀ id ∈ (messages.get i).outputId,
        id ∈ (messages.take i).flatMap LLMMessage.callIds := by
  constructor
  · intro h i id hid
    refine h (messages.take i) (messages.get i) (messages.drop (i + 1)) id ?_ hid
    rw [List.get_eq_getElem, List.getElem_cons_drop, List.take_append_drop]
  · intro h before m after id heq hid
    subst heq
    have hcall := h ⟨before.length, by simp⟩ id (by simpa using hid)
    simpa using hcall

instance (messages : List LLMMessage) : Decidable (UniqueCalls messages) :=
  inferInstanceAs (Decidable (List.Nodup _))

instance (messages : List LLMMessage) : Decidable (OutputsAfterCalls messages) :=
  decidable_of_iff _ outputsAfterCalls_iff.symm

/-- Between a response and an output of one of its calls stand only outputs. -/
def OutputsFollow (messages : List LLMMessage) : Prop :=
  ∀ before r mid m after id, messages = before ++ r :: (mid ++ m :: after) → id ∈ r.callIds →
    m.outputId = some id → ∀ x ∈ mid, x.outputId ≠ none

/-- What is filtered out of a list stands in front when nothing that stays stands before it. -/
theorem filter_prefix_of_closed {α : Type} {p : α → Bool} {l : List α}
    (h : ∀ before a after, l = before ++ a :: after → p a = true → ∀ x ∈ before, p x = true) :
    l.filter p <+: l := by
  induction l with
  | nil => exact List.prefix_refl []
  | cons x l ih =>
    cases hx : p x with
    | true =>
      rw [List.filter_cons_of_pos hx]
      refine List.cons_prefix_cons.mpr ⟨rfl, ih fun before a after heq ha y hy => ?_⟩
      exact h (x :: before) a after (congrArg (x :: ·) heq) ha y (List.mem_cons_of_mem x hy)
    | false =>
      have hnone : l.filter p = [] := by
        refine List.filter_eq_nil_iff.mpr fun a ha hpa => ?_
        obtain ⟨before, after, heq⟩ := List.append_of_mem ha
        have hkept := h (x :: before) a after (congrArg (x :: ·) heq) hpa x List.mem_cons_self
        rw [hx] at hkept
        cases hkept
      rw [List.filter_cons_of_neg (by simp [hx]), hnone]
      exact List.nil_prefix

theorem isOrphan_iff {m : LLMMessage} :
    isOrphan head m = true ↔
      ∃ id, m.outputId = some id ∧ id ∉ head.flatMap LLMMessage.callIds := by
  unfold isOrphan
  cases m.outputId with
  | none => simp
  | some id => simp

/-- An orphan has its call before the cut. -/
theorem mem_tail_of_isOrphan (hafter : OutputsAfterCalls (tail ++ head)) {m : LLMMessage}
    {before after : List LLMMessage} (hhead : head = before ++ m :: after) {id : String}
    (hid : m.outputId = some id) (hnot : id ∉ head.flatMap LLMMessage.callIds) :
    id ∈ tail.flatMap LLMMessage.callIds := by
  have hcall := hafter (tail ++ before) m after id
    (by rw [hhead, List.append_assoc]) hid
  rw [List.flatMap_append] at hcall
  refine (List.mem_append.mp hcall).resolve_right fun hbefore => hnot ?_
  rw [hhead, List.flatMap_append]
  exact List.mem_append_left _ hbefore

/-- Where outputs follow their response, the orphans stand right behind the cut. -/
theorem prefix_orphans (hunique : UniqueCalls (tail ++ head))
    (hafter : OutputsAfterCalls (tail ++ head)) (hfollow : OutputsFollow (tail ++ head)) :
    head.filter (isOrphan head) <+: head := by
  refine filter_prefix_of_closed fun before m after heq hm x hx => ?_
  obtain ⟨id, hid, hnot⟩ := isOrphan_iff.mp hm
  obtain ⟨r, hr, hcall⟩ := List.mem_flatMap.mp (mem_tail_of_isOrphan hafter heq hid hnot)
  obtain ⟨front, rest, htail⟩ := List.append_of_mem hr
  have hmid : ∀ y ∈ rest ++ before, y.outputId ≠ none := by
    refine hfollow front r (rest ++ before) m after id ?_ hcall hid
    rw [htail, heq]
    simp only [List.append_assoc, List.cons_append]
  obtain ⟨other, hother⟩ :=
    Option.ne_none_iff_exists'.mp (hmid x (List.mem_append_right rest hx))
  refine isOrphan_iff.mpr ⟨other, hother, fun hinHead => ?_⟩
  -- Only outputs stand before `x` behind the cut, so its call stands before the cut.
  obtain ⟨left, right, hbefore⟩ := List.append_of_mem hx
  have hcalls := hafter (tail ++ left) x (right ++ m :: after) other
    (by rw [heq, hbefore]; simp only [List.append_assoc, List.cons_append]) hother
  rw [List.flatMap_append] at hcalls
  have hinTail : other ∈ tail.flatMap LLMMessage.callIds := by
    refine (List.mem_append.mp hcalls).resolve_right fun hleft => ?_
    obtain ⟨y, hy, hycall⟩ := List.mem_flatMap.mp hleft
    have hyBefore : y ∈ rest ++ before := by
      rw [hbefore]
      exact List.mem_append_right rest (List.mem_append_left _ hy)
    rw [LLMMessage.callIds_of_outputId (hmid y hyBefore)] at hycall
    cases hycall
  unfold UniqueCalls at hunique
  rw [List.flatMap_append] at hunique
  exact List.disjoint_of_nodup_append hunique hinTail hinHead

/-- The parts of a conversation that is split for a summary. -/
structure Partitions (messages head tail : List LLMMessage) : Prop where
  all : (tail ++ head).Perm messages
  head_order : head.Sublist messages
  tail_order : tail.Sublist messages
  head_closed : ∀ m ∈ head, ∀ id, m.outputId = some id → id ∈ head.flatMap LLMMessage.callIds
  tail_closed : ∀ m ∈ messages, ∀ id, m.outputId = some id →
    id ∈ tail.flatMap LLMMessage.callIds → m ∈ tail ∧ m ∉ head
  tail_prefix : OutputsFollow messages → tail <+: messages

theorem partitions_move (hunique : UniqueCalls (tail ++ head))
    (hafter : OutputsAfterCalls (tail ++ head)) :
    Partitions (tail ++ head) (moveOrphanToolOutputsToTail head tail).1
      (moveOrphanToolOutputsToTail head tail).2 := by
  unfold moveOrphanToolOutputsToTail
  have hcalls : ∀ id, id ∈ head.flatMap LLMMessage.callIds →
      id ∈ (head.filter fun m => !isOrphan head m).flatMap LLMMessage.callIds := by
    intro id hid
    obtain ⟨r, hr, hcall⟩ := List.mem_flatMap.mp hid
    have hkept : isOrphan head r = false := by
      rw [isOrphan_eq_false_iff, LLMMessage.outputId_of_mem_callIds hcall]
      nofun
    exact List.mem_flatMap.mpr ⟨r, List.mem_filter.mpr ⟨hr, by simp [hkept]⟩, hcall⟩
  have hmoved : ∀ id, id ∈ (tail ++ head.filter (isOrphan head)).flatMap LLMMessage.callIds →
      id ∈ tail.flatMap LLMMessage.callIds := by
    intro id hid
    rw [List.flatMap_append] at hid
    refine (List.mem_append.mp hid).resolve_right fun horphans => ?_
    obtain ⟨m, hm, hcall⟩ := List.mem_flatMap.mp horphans
    obtain ⟨other, hother, -⟩ := isOrphan_iff.mp (List.mem_filter.mp hm).2
    rw [LLMMessage.outputId_of_mem_callIds hcall] at hother
    cases hother
  refine ⟨?_, ?_, ?_, fun m hm id hid => ?_, fun m hm id hid htail => ?_, fun hfollow => ?_⟩
  · rw [List.append_assoc]
    exact (List.filter_append_perm (isOrphan head) head).append_left tail
  · exact List.filter_sublist.trans (List.sublist_append_right tail head)
  · exact List.filter_sublist.append_left tail
  · obtain ⟨-, hkept⟩ := List.mem_filter.mp hm
    rw [Bool.not_eq_true'] at hkept
    exact hcalls id (isOrphan_eq_false_iff.mp hkept id hid)
  · have hnot : id ∉ head.flatMap LLMMessage.callIds := by
      unfold UniqueCalls at hunique
      rw [List.flatMap_append] at hunique
      exact List.disjoint_of_nodup_append hunique (hmoved id htail)
    have horphan : isOrphan head m = true := isOrphan_iff.mpr ⟨id, hid, hnot⟩
    constructor
    · rcases List.mem_append.mp hm with hold | hnew
      · exact List.mem_append_left _ hold
      · exact List.mem_append_right _ (List.mem_filter.mpr ⟨hnew, horphan⟩)
    · intro hhead
      have hkept := (List.mem_filter.mp hhead).2
      rw [horphan] at hkept
      cases hkept
  · exact (List.prefix_append_right_inj tail).mpr (prefix_orphans hunique hafter hfollow)

/-- Head and tail partition a conversation whose call ids are unique and whose outputs come after
their calls. -/
theorem split_partitions (hunique : UniqueCalls messages) (hafter : OutputsAfterCalls messages) :
    Partitions messages (split yamlLength keepTokens messages).1
      (split yamlLength keepTokens messages).2 := by
  rw [split_eq]
  unfold splitHeadTailByTokens
  rw [← List.take_append_drop (splitIdx yamlLength keepTokens messages) messages] at hunique hafter
  have hparts := partitions_move hunique hafter
  rwa [List.take_append_drop] at hparts

def twoCalls : List LLMMessage :=
  [.human "question", .response [.toolCall ⟨"1", "search", "x"⟩, .toolCall ⟨"2", "search", "y"⟩],
    .toolOutput "1" "found", .toolOutput "2" "nothing", .human "next"]

/-- The cut falls between the two outputs of a response, and the second output moves. -/
theorem split_partitions_two_calls :
    split (fun _ => 4) 2 twoCalls = ([.human "next"], twoCalls.take 4) ∧
      Partitions twoCalls (split (fun _ => 4) 2 twoCalls).1 (split (fun _ => 4) 2 twoCalls).2 := by
  have hunique : UniqueCalls twoCalls := by
    decide +kernel
  have hafter : OutputsAfterCalls twoCalls := by
    decide +kernel
  exact ⟨by decide +kernel, split_partitions hunique hafter⟩

end Agyn
