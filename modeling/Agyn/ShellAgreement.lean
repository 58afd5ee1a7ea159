import Mathlib.Algebra.Order.Ring.Nat
import Mathlib.Tactic.SplitIfs
import Agyn.ShellCommand

/-!
Both ways to run a command return the same text when its cleaned output is within the limits. Each
step of the streaming run keeps the segments that it carries (sent out, waiting in the chain or in
a buffer) a permutation of the segments of the other run, numbered in the order in which they came.
-/
namespace Agyn.ShellCommand

open IngressText

variable {δ : Type} {iconv : Iconv δ} {cfg : ResolvedShellCommandConfig} {persists : ℕ → Bool}

def cleanedOutput (iconv : Iconv δ) (output : List (OutputSource × Bytes)) : List Text :=
  (executed iconv output).orderedSegments.map Prod.snd

/-- The cleaned output is within both limits that are set. The output that the response carries
counts where no other comes. Bytes count piece by piece, as they are sent out. -/
structure WithinLimits (cfg : ResolvedShellCommandConfig) (pieces : List Text)
    (response : ExecResponse) : Prop where
  chars : 0 < cfg.outputLimitChars →
    (if pieces = [] then responseOutput response else pieces.flatten).length ≤
      cfg.outputLimitChars
  bytes : 0 < cfg.clientBufferLimitBytes →
    (pieces.map byteLength).sum ≤ cfg.clientBufferLimitBytes

def outputOf (events : List StreamEvent) : List (OutputSource × Bytes) :=
  events.filterMap fun
    | .output source chunk => some (source, chunk)
    | _ => none

/-- Texts as segments with the orders from `n` on. -/
def numbered : ℕ → List Text → List Segment
  | _, [] => []
  | n, text :: texts => ⟨n, text⟩ :: numbered (n + 1) texts

theorem numbered_append_singleton (n : ℕ) (texts : List Text) (text : Text) :
    numbered n (texts ++ [text]) = numbered n texts ++ [⟨n + texts.length, text⟩] := by
  induction texts generalizing n with
  | nil => rfl
  | cons t texts ih => simp [numbered, ih, Nat.add_assoc, Nat.add_comm 1]

theorem map_text_numbered (n : ℕ) (texts : List Text) :
    (numbered n texts).map Segment.text = texts := by
  induction texts generalizing n with
  | nil => rfl
  | cons t texts ih => simp [numbered, ih]

theorem le_order_of_mem_numbered {n : ℕ} {texts : List Text} :
    ∀ segment ∈ numbered n texts, n ≤ segment.order := by
  induction texts generalizing n with
  | nil => simp [numbered]
  | cons t texts ih =>
    intro segment hsegment
    rcases List.mem_cons.mp hsegment with rfl | hsegment
    · exact Nat.le_refl n
    · exact Nat.le_of_succ_le (ih segment hsegment)

theorem pairwise_numbered (n : ℕ) (texts : List Text) :
    (numbered n texts).Pairwise fun a b => a.order < b.order := by
  induction texts generalizing n with
  | nil => exact List.Pairwise.nil
  | cons t texts ih => exact List.Pairwise.cons (fun _ => le_order_of_mem_numbered _) (ih (n + 1))

/-- Sorting segments by their order undoes any permutation of numbered ones. -/
theorem mergeSort_of_perm_numbered {segments : List Segment} {n : ℕ} {texts : List Text}
    (h : segments.Perm (numbered n texts)) :
    segments.mergeSort (fun a b => a.order ≤ b.order) = numbered n texts := by
  have hpairs := pairwise_numbered n texts
  have hdistinct : ((numbered n texts).map Segment.order).Nodup :=
    (List.pairwise_map.mpr hpairs).imp Nat.ne_of_lt
  have hsorted : (segments.mergeSort fun a b => a.order ≤ b.order).Pairwise
      fun a b => a.order ≤ b.order := by
    have hpairwise : (segments.mergeSort fun a b => decide (a.order ≤ b.order)).Pairwise
        fun a b => decide (a.order ≤ b.order) = true := List.pairwise_mergeSort
      (by intro a b c; simp only [decide_eq_true_eq]; exact Nat.le_trans)
      (by intro a b; simp only [Bool.or_eq_true, decide_eq_true_eq]; exact Nat.le_total _ _)
      segments
    simpa only [decide_eq_true_eq] using hpairwise
  refine List.Perm.eq_of_pairwise (fun a b ha hb hab hba => ?_) hsorted (hpairs.imp Nat.le_of_lt)
    ((List.mergeSort_perm _ _).trans h)
  rw [List.mem_mergeSort, h.mem_iff] at ha
  exact List.inj_on_of_nodup_map hdistinct ha hb (Nat.le_antisymm hab hba)

def bytesOf (segments : List Segment) : ℕ := (segments.map fun s => byteLength s.text).sum

def textOf (segments : List Segment) : Text := (segments.map Segment.text).flatten

def StreamState.carried (s : StreamState δ) : List Segment :=
  s.orderedOutput ++ s.flushChain.flatMap Flush.segments ++ s.pendingSegments .stdout ++
    s.pendingSegments .stderr

def ExecuteState.texts (e : ExecuteState δ) : List Text := e.orderedSegments.map Prod.snd

/-- Both sources together have as many characters as the segments. -/
def ExecuteState.Tallied (e : ExecuteState δ) : Prop :=
  (e.cleanBySource .stdout).length + (e.cleanBySource .stderr).length =
    (e.texts.map List.length).sum

theorem ExecuteState.texts_pushSegment (e : ExecuteState δ) (source : OutputSource) {text : Text}
    (htext : text ≠ []) : (e.pushSegment source text).texts = e.texts ++ [text] := by
  simp [pushSegment, htext, texts]

theorem ExecuteState.Tallied.pushSegment {e : ExecuteState δ} (h : e.Tallied)
    (source : OutputSource) {text : Text} (htext : text ≠ []) :
    (e.pushSegment source text).Tallied := by
  have hclean : (e.pushSegment source text).cleanBySource =
      Function.update e.cleanBySource source (e.cleanBySource source ++ text) := by
    simp [ExecuteState.pushSegment, htext]
  unfold ExecuteState.Tallied at h ⊢
  rw [hclean, e.texts_pushSegment source htext]
  cases source <;> simp <;> omega

structure Carries (e : ExecuteState δ) (s : StreamState δ) : Prop where
  pipes : s.pipes = e.pipes
  nonempty : ∀ text ∈ e.texts, text ≠ []
  segmentOrder : s.segmentOrder = e.texts.length
  carried : s.carried.Perm (numbered 1 e.texts)
  bufferText : ∀ source, (s.buffers source).text = textOf (s.pendingSegments source)

namespace Carries

variable {e : ExecuteState δ} {s : StreamState δ}

theorem initial : Carries (ExecuteState.initial iconv) (StreamState.initial iconv) where
  pipes := rfl
  nonempty := by simp [ExecuteState.texts, ExecuteState.initial]
  segmentOrder := rfl
  carried := List.Perm.refl []
  bufferText _ := rfl

theorem update_pipes (h : Carries e s) (pipes : OutputSource → Pipe δ) :
    Carries { e with pipes } { s with pipes } :=
  ⟨rfl, h.nonempty, h.segmentOrder, h.carried, h.bufferText⟩

/-- Every carried segment has a text. -/
theorem text_ne_nil (h : Carries e s) : ∀ segment ∈ s.carried, segment.text ≠ [] := by
  intro segment hsegment
  have hmem := List.mem_map_of_mem (f := Segment.text) (h.carried.mem_iff.mp hsegment)
  rw [map_text_numbered] at hmem
  exact h.nonempty _ hmem

theorem pending_subset (s : StreamState δ) (source : OutputSource) :
    s.pendingSegments source ⊆ s.carried := by
  intro segment hsegment
  cases source <;> simp [StreamState.carried, hsegment]

/-- A buffer without text carries no segments. -/
theorem pending_eq_nil (h : Carries e s) {source : OutputSource}
    (hempty : (s.buffers source).text = []) : s.pendingSegments source = [] := by
  rw [h.bufferText, textOf, List.flatten_eq_nil_iff] at hempty
  refine List.eq_nil_iff_forall_not_mem.mpr fun segment hsegment => ?_
  exact h.text_ne_nil segment (pending_subset s source hsegment)
    (hempty _ (List.mem_map_of_mem hsegment))

/-- The carried segments do not change when those of a buffer move to the end of the chain. -/
theorem carried_move (s : StreamState δ) (source : OutputSource) (flush : Flush)
    (hflush : flush.segments = s.pendingSegments source)
    (buffers : OutputSource → BufferState) :
    StreamState.carried { s with
      buffers
      flushChain := s.flushChain ++ [flush]
      pendingSegments := Function.update s.pendingSegments source [] } |>.Perm s.carried := by
  cases source with
  | stdout => simp [StreamState.carried, hflush]
  | stderr =>
    simp only [StreamState.carried, List.flatMap_append, List.flatMap_cons, List.flatMap_nil,
      List.append_nil, hflush, Function.update_self, ne_eq, reduceCtorEq, not_false_eq_true,
      Function.update_of_ne, List.append_assoc]
    exact (List.perm_append_comm.append_left _).append_left _

theorem flushBuffer (h : Carries e s) (source : OutputSource) (force : Bool) :
    Carries e (s.flushBuffer source force) := by
  unfold StreamState.flushBuffer
  dsimp only
  split_ifs with hskip htext
  · exact h
  · have hnil := h.pending_eq_nil htext
    refine ⟨h.pipes, h.nonempty, h.segmentOrder, h.carried, fun source' => ?_⟩
    by_cases heq : source' = source
    · simp [heq, hnil, textOf]
    · simpa [heq] using h.bufferText source'
  · refine ⟨h.pipes, h.nonempty, h.segmentOrder, (carried_move s source _ rfl _).trans h.carried,
      fun source' => ?_⟩
    by_cases heq : source' = source
    · simp [heq, textOf]
    · simpa [heq] using h.bufferText source'

theorem flushOrSchedule (h : Carries e s) (cfg : ResolvedShellCommandConfig)
    (source : OutputSource) : Carries e (s.flushOrSchedule cfg source) := by
  unfold StreamState.flushOrSchedule
  dsimp only
  split_ifs
  · exact h.flushBuffer source false
  · refine ⟨h.pipes, h.nonempty, h.segmentOrder, h.carried, fun source' => ?_⟩
    by_cases heq : source' = source
    · simpa [StreamState.scheduleFlush, heq] using h.bufferText source
    · simpa [StreamState.scheduleFlush, heq] using h.bufferText source'

theorem checkOutputLimit (h : Carries e s) (cfg : ResolvedShellCommandConfig)
    (source : OutputSource) : Carries e (s.checkOutputLimit cfg source) := by
  unfold StreamState.checkOutputLimit
  split_ifs
  · exact ⟨h.pipes, h.nonempty, h.segmentOrder, h.carried, h.bufferText⟩
  · exact h

/-- The new segment of a source takes its place behind the other ones. -/
theorem buffer (h : Carries e s) (source : OutputSource) {text : Text} (htext : text ≠ []) :
    Carries (e.pushSegment source text) (s.buffer source text) := by
  have hpush := e.texts_pushSegment source htext
  have hpipes : (e.pushSegment source text).pipes = e.pipes := by
    simp [ExecuteState.pushSegment, htext]
  refine ⟨h.pipes.trans hpipes.symm, ?_, ?_, ?_, fun source' => ?_⟩
  · rw [hpush]
    simpa [or_imp, forall_and] using ⟨h.nonempty, htext⟩
  · simp [StreamState.buffer, hpush, h.segmentOrder]
  · rw [hpush, numbered_append_singleton, Nat.add_comm 1, ← h.segmentOrder]
    refine List.Perm.trans ?_ (h.carried.append_right _)
    cases source with
    | stdout =>
      simp only [StreamState.buffer, StreamState.carried, Function.update_self, ne_eq,
        reduceCtorEq, not_false_eq_true, Function.update_of_ne, List.append_assoc]
      exact ((List.perm_append_comm.append_left _).append_left _).append_left _
    | stderr => simp [StreamState.buffer, StreamState.carried]
  · by_cases heq : source' = source
    · simp [StreamState.buffer, heq, h.bufferText, textOf]
    · simpa [StreamState.buffer, heq] using h.bufferText source'

/-- A piece of output. -/
theorem take (h : Carries e s) (source : OutputSource) (clean : Pipe δ → Text × Pipe δ) :
    Carries (e.take source clean) (s.take cfg source clean) := by
  unfold ExecuteState.take StreamState.take
  rw [h.pipes]
  generalize clean (e.pipes source) = cleaned
  obtain ⟨text, pipe⟩ := cleaned
  dsimp only
  have hpipes := h.update_pipes (Function.update e.pipes source pipe)
  by_cases htext : text = []
  · simpa [htext, ExecuteState.pushSegment, StreamState.handleDecoratedChunk] using hpipes
  · rw [StreamState.handleDecoratedChunk, if_neg htext]
    exact ((hpipes.buffer source htext).flushOrSchedule cfg source).checkOutputLimit cfg source

/-- The segments of a flush that is sent out stay carried. -/
theorem emit (h : Carries e s) (persists : ℕ → Bool) {flush : Flush} {rest : List Flush}
    (hchain : s.flushChain = flush :: rest) (totalChunks : ℕ) (allow : Bool) :
    Carries e (StreamState.emit persists { s with
      flushChain := rest
      totalChunks
      allowNextChunkAfterTruncate := allow } flush) := by
  have hcarried : ({ s with
      flushChain := rest
      orderedOutput := s.orderedOutput ++ flush.segments }).carried = s.carried := by
    simp [StreamState.carried, hchain]
  unfold StreamState.emit
  dsimp only
  split_ifs <;> exact ⟨h.pipes, h.nonempty, h.segmentOrder, hcarried ▸ h.carried, h.bufferText⟩

theorem pendingSegments_flushBuffer (h : Carries e s) (source : OutputSource) :
    (s.flushBuffer source true).pendingSegments source = [] := by
  by_cases htext : (s.buffers source).text = []
  · simpa [StreamState.flushBuffer, htext] using h.pending_eq_nil htext
  · simp [StreamState.flushBuffer, htext]

end Carries

def WithinSoFar (cfg : ResolvedShellCommandConfig) (texts : List Text) : Prop :=
  (0 < cfg.outputLimitChars → (texts.map List.length).sum ≤ cfg.outputLimitChars) ∧
    (0 < cfg.clientBufferLimitBytes →
      (texts.map byteLength).sum ≤ cfg.clientBufferLimitBytes)

/-- A streaming state beside the state of the other run after the same output. -/
structure Beside (e : ExecuteState δ) (s : StreamState δ) : Prop where
  pipes : s.pipes = e.pipes
  cleaned : s.cleaned = e.cleanBySource
  lengths : (e.cleanBySource .stdout).length + (e.cleanBySource .stderr).length =
    (e.texts.map List.length).sum
  nonempty : ∀ text ∈ e.texts, text ≠ []
  segmentOrder : s.segmentOrder = e.texts.length
  carried : s.carried.Perm (numbered 1 e.texts)
  bufferText : ∀ source, (s.buffers source).text = textOf (s.pendingSegments source)
  bufferBytes : ∀ source, (s.buffers source).bytes = bytesOf (s.pendingSegments source)
  flushBytes : ∀ flush ∈ s.flushChain, flush.bytes = bytesOf flush.segments
  emittedBytes : s.emittedBytes = bytesOf s.orderedOutput
  truncated : s.truncated = false

namespace Beside

variable {e : ExecuteState δ} {s : StreamState δ}

theorem carries (h : Beside e s) : Carries e s :=
  ⟨h.pipes, h.nonempty, h.segmentOrder, h.carried, h.bufferText⟩

theorem initial : Beside (ExecuteState.initial iconv) (StreamState.initial iconv) where
  pipes := rfl
  cleaned := rfl
  lengths := rfl
  nonempty := by simp [ExecuteState.texts, ExecuteState.initial]
  segmentOrder := rfl
  carried := List.Perm.refl []
  bufferText _ := rfl
  bufferBytes _ := rfl
  flushBytes := by simp [StreamState.initial]
  emittedBytes := rfl
  truncated := rfl

theorem update_pipes (h : Beside e s) (pipes : OutputSource → Pipe δ) :
    Beside { e with pipes } { s with pipes } :=
  ⟨rfl, h.cleaned, h.lengths, h.nonempty, h.segmentOrder, h.carried, h.bufferText, h.bufferBytes,
    h.flushBytes, h.emittedBytes, h.truncated⟩

theorem flushBuffer (h : Beside e s) (source : OutputSource) (force : Bool) :
    Beside e (s.flushBuffer source force) := by
  have hcarries := h.carries.flushBuffer source force
  revert hcarries
  unfold StreamState.flushBuffer
  dsimp only
  split_ifs with hskip htext
  · exact fun _ => h
  · intro hcarries
    have hnil := h.carries.pending_eq_nil htext
    refine ⟨h.pipes, h.cleaned, h.lengths, h.nonempty, h.segmentOrder, h.carried,
      hcarries.bufferText, fun source' => ?_, h.flushBytes, h.emittedBytes, h.truncated⟩
    by_cases heq : source' = source
    · simp [heq, hnil, bytesOf]
    · simpa [heq] using h.bufferBytes source'
  · intro hcarries
    refine ⟨h.pipes, h.cleaned, h.lengths, h.nonempty, h.segmentOrder, hcarries.carried,
      hcarries.bufferText, fun source' => ?_, fun flush hflush => ?_, h.emittedBytes, h.truncated⟩
    · by_cases heq : source' = source
      · simp [heq, bytesOf]
      · simpa [heq] using h.bufferBytes source'
    · rcases List.mem_append.mp hflush with hold | hnew
      · exact h.flushBytes flush hold
      · obtain rfl := List.mem_singleton.mp hnew
        exact h.bufferBytes source

theorem scheduleFlush (h : Beside e s) (source : OutputSource) :
    Beside e (s.scheduleFlush source) := by
  refine ⟨h.pipes, h.cleaned, h.lengths, h.nonempty, h.segmentOrder, h.carried, ?_, ?_,
    h.flushBytes, h.emittedBytes, h.truncated⟩
  · intro source'
    by_cases heq : source' = source
    · simpa [StreamState.scheduleFlush, heq] using h.bufferText source
    · simpa [StreamState.scheduleFlush, heq] using h.bufferText source'
  · intro source'
    by_cases heq : source' = source
    · simpa [StreamState.scheduleFlush, heq] using h.bufferBytes source
    · simpa [StreamState.scheduleFlush, heq] using h.bufferBytes source'

theorem flushOrSchedule (h : Beside e s) (cfg : ResolvedShellCommandConfig)
    (source : OutputSource) :
    Beside e (s.flushOrSchedule cfg source) := by
  unfold StreamState.flushOrSchedule
  dsimp only
  split_ifs
  · exact h.flushBuffer source false
  · exact h.scheduleFlush source

/-- The limit on characters is not passed. -/
theorem checkOutputLimit (h : Beside e s) (hwithin : WithinSoFar cfg e.texts)
    (source : OutputSource) : s.checkOutputLimit cfg source = s := by
  unfold StreamState.checkOutputLimit
  refine if_neg fun ⟨_, hlimit, hlong⟩ => ?_
  have hchars := hwithin.1 hlimit
  rw [h.cleaned, h.lengths] at hlong
  omega

theorem buffer (h : Beside e s) (source : OutputSource) {text : Text} (htext : text ≠ []) :
    Beside (e.pushSegment source text) (s.buffer source text) := by
  have hcarries := h.carries.buffer source htext
  have hclean : (e.pushSegment source text).cleanBySource =
      Function.update e.cleanBySource source (e.cleanBySource source ++ text) := by
    simp [ExecuteState.pushSegment, htext]
  refine ⟨hcarries.pipes, ?_, ?_, hcarries.nonempty, hcarries.segmentOrder, hcarries.carried,
    hcarries.bufferText, fun source' => ?_, h.flushBytes, h.emittedBytes, h.truncated⟩
  · rw [hclean, ← h.cleaned]
    rfl
  · exact ExecuteState.Tallied.pushSegment h.lengths source htext
  · by_cases heq : source' = source
    · simp [StreamState.buffer, heq, h.bufferBytes, bytesOf]
    · simpa [StreamState.buffer, heq] using h.bufferBytes source'

theorem bytesOf_carried (h : Beside e s) :
    bytesOf s.carried = (e.texts.map byteLength).sum := by
  have hmap : bytesOf (numbered 1 e.texts) =
      (((numbered 1 e.texts).map Segment.text).map byteLength).sum := by
    rw [List.map_map]
    rfl
  rw [map_text_numbered] at hmap
  rw [← hmap]
  exact (h.carried.map _).sum_nat

/-- A flush in the chain is within the limit on bytes. -/
theorem flush_within (h : Beside e s) (hwithin : WithinSoFar cfg e.texts) {flush : Flush}
    {rest : List Flush} (hchain : s.flushChain = flush :: rest) :
    ¬(0 < cfg.clientBufferLimitBytes ∧
      cfg.clientBufferLimitBytes < s.emittedBytes + flush.bytes) := by
  rintro ⟨hlimit, hmore⟩
  have hbytes := hwithin.2 hlimit
  have hflush := h.flushBytes flush (by simp [hchain])
  rw [← h.bytesOf_carried] at hbytes
  rw [h.emittedBytes, hflush] at hmore
  simp only [StreamState.carried, hchain, bytesOf, List.flatMap_cons, List.map_append,
    List.sum_append] at hbytes hmore
  omega

theorem emit (h : Beside e s) {flush : Flush} {rest : List Flush}
    (hchain : s.flushChain = flush :: rest) (totalChunks : ℕ) :
    Beside e (StreamState.emit persists { s with flushChain := rest, totalChunks } flush) := by
  have hcarries := h.carries.emit persists hchain totalChunks
    s.allowNextChunkAfterTruncate
  have hflushBytes : ∀ flush' ∈ rest, flush'.bytes = bytesOf flush'.segments := fun flush' hmem =>
    h.flushBytes flush' (by simp [hchain, hmem])
  have hemitted : s.emittedBytes + flush.bytes = bytesOf (s.orderedOutput ++ flush.segments) := by
    rw [h.emittedBytes, h.flushBytes flush (by simp [hchain])]
    simp [bytesOf]
  revert hcarries
  unfold StreamState.emit
  dsimp only
  split_ifs <;> exact fun hcarries => ⟨h.pipes, h.cleaned, h.lengths, h.nonempty, h.segmentOrder,
    hcarries.carried, h.bufferText, h.bufferBytes, hflushBytes, hemitted, h.truncated⟩

theorem runChain (h : Beside e s) (hwithin : WithinSoFar cfg e.texts) :
    Beside e (s.runChain cfg persists) := by
  unfold StreamState.runChain
  cases hchain : s.flushChain with
  | nil => exact h
  | cons flush rest =>
    simp only [StreamState.runFlush, h.truncated, Bool.false_and, Bool.false_eq_true, if_false,
      if_neg (h.flush_within hwithin hchain)]
    simpa only [h.truncated] using h.emit hchain (s.totalChunks + 1)

/-- A piece of output, when the limits still hold after it. -/
theorem take (h : Beside e s) (source : OutputSource) (clean : Pipe δ → Text × Pipe δ)
    (hwithin : WithinSoFar cfg (e.take source clean).texts) :
    Beside (e.take source clean) (s.take cfg source clean) := by
  unfold ExecuteState.take StreamState.take at *
  rw [h.pipes]
  generalize clean (e.pipes source) = cleaned at *
  obtain ⟨text, pipe⟩ := cleaned
  dsimp only at *
  have hpipes := h.update_pipes (Function.update e.pipes source pipe)
  by_cases htext : text = []
  · simpa [htext, ExecuteState.pushSegment, StreamState.handleDecoratedChunk] using hpipes
  · have hnext := (hpipes.buffer source htext).flushOrSchedule cfg source
    rw [StreamState.handleDecoratedChunk, if_neg htext, hnext.checkOutputLimit hwithin]
    exact hnext

end Beside

theorem WithinSoFar.of_shorter {texts texts' : List Text} (hstarts : texts <+: texts')
    (h : WithinSoFar cfg texts') : WithinSoFar cfg texts := by
  obtain ⟨more, rfl⟩ := hstarts
  simp only [WithinSoFar, List.map_append, List.sum_append] at h ⊢
  exact ⟨fun hlimit => Nat.le_of_add_right_le (h.1 hlimit),
    fun hlimit => Nat.le_of_add_right_le (h.2 hlimit)⟩

namespace ExecuteState

theorem texts_take (e : ExecuteState δ) (source : OutputSource)
    (clean : Pipe δ → Text × Pipe δ) : e.texts <+: (e.take source clean).texts := by
  unfold take pushSegment
  dsimp only
  split_ifs
  · exact List.prefix_rfl
  · simp [texts]

theorem texts_handleChunk (e : ExecuteState δ) (source : OutputSource) (chunk : Bytes) :
    e.texts <+: (e.handleChunk iconv source chunk).texts := by
  unfold handleChunk
  split_ifs
  · exact List.prefix_rfl
  · exact e.texts_take source _

def flushSource (iconv : Iconv δ) (e : ExecuteState δ) (source : OutputSource) :
    ExecuteState δ :=
  (e.take source (Pipe.cleanTail iconv)).take source Pipe.cleanFlush

theorem texts_flushSource (e : ExecuteState δ) (source : OutputSource) :
    e.texts <+: (e.flushSource iconv source).texts := by
  unfold flushSource
  exact (e.texts_take source _).trans (texts_take _ source _)

theorem flushDecoderRemainder_eq (e : ExecuteState δ) :
    e.flushDecoderRemainder iconv =
      (e.flushSource iconv .stdout).flushSource iconv .stderr := by
  simp only [flushDecoderRemainder, flushSource, List.foldl_cons, List.foldl_nil]

theorem texts_flushDecoderRemainder (e : ExecuteState δ) :
    e.texts <+: (e.flushDecoderRemainder iconv).texts := by
  rw [flushDecoderRemainder_eq]
  exact (e.texts_flushSource .stdout).trans (texts_flushSource _ .stderr)

end ExecuteState

namespace Beside

variable {e : ExecuteState δ} {s : StreamState δ}

theorem onOutput (h : Beside e s) (source : OutputSource) (chunk : Bytes)
    (hwithin : WithinSoFar cfg (e.handleChunk iconv source chunk).texts) :
    Beside (e.handleChunk iconv source chunk) (s.onOutput iconv cfg source chunk) := by
  simp only [StreamState.onOutput, h.truncated, Bool.false_and, Bool.false_eq_true, if_false,
    StreamState.handleChunk]
  unfold ExecuteState.handleChunk at hwithin ⊢
  by_cases hempty : chunk = []
  · rwa [if_pos hempty, if_pos hempty]
  · rw [if_neg hempty] at hwithin ⊢
    rw [if_neg hempty]
    exact h.take source _ hwithin

theorem flushSource (h : Beside e s) (source : OutputSource)
    (hwithin : WithinSoFar cfg (e.flushSource iconv source).texts) :
    Beside (e.flushSource iconv source) (s.flushSource iconv cfg source) := by
  unfold ExecuteState.flushSource at hwithin ⊢
  exact (h.take source _ (hwithin.of_shorter (ExecuteState.texts_take ..))).take source _ hwithin

end Beside

theorem texts_handleChunks (output : List (OutputSource × Bytes)) (e : ExecuteState δ) :
    e.texts <+: (e.handleChunks iconv output).texts := by
  induction output generalizing e with
  | nil => exact List.prefix_rfl
  | cons piece output ih => exact (e.texts_handleChunk piece.1 piece.2).trans (ih _)

/-- The states stay beside each other while the command runs. -/
theorem Beside.run {e : ExecuteState δ} {s : StreamState δ} (h : Beside e s)
    (events : List StreamEvent)
    (hwithin : WithinSoFar cfg (e.handleChunks iconv (outputOf events)).texts) :
    Beside (e.handleChunks iconv (outputOf events))
      (events.foldl (StreamState.step iconv cfg persists) s) := by
  induction events generalizing e s with
  | nil => exact h
  | cons event events ih =>
    have hnow := hwithin.of_shorter (texts_handleChunks _ _)
    cases event with
    | output source chunk =>
      exact ih (h.onOutput source chunk (hwithin.of_shorter (texts_handleChunks _ _))) hwithin
    | timer source =>
      refine ih ?_ hwithin
      simp only [StreamState.step]
      split_ifs
      · exact h.flushBuffer source false
      · exact h
    | chain => exact ih (h.runChain hnow) hwithin

namespace StreamState

theorem flushChain_runChain (s : StreamState δ) :
    (s.runChain cfg persists).flushChain = s.flushChain.tail := by
  unfold runChain
  cases hchain : s.flushChain with
  | nil => exact hchain
  | cons flush rest =>
    unfold runFlush emit
    dsimp only
    split_ifs <;> rfl

theorem pendingSegments_runChain (s : StreamState δ) :
    (s.runChain cfg persists).pendingSegments = s.pendingSegments := by
  unfold runChain
  cases s.flushChain with
  | nil => rfl
  | cons flush rest =>
    unfold runFlush emit
    dsimp only
    split_ifs <;> rfl

/-- When the whole chain has run it is empty. -/
theorem frame_awaitFlushChain (cfg : ResolvedShellCommandConfig) (persists : ℕ → Bool)
    (s : StreamState δ) :
    (s.awaitFlushChain cfg persists).flushChain = [] ∧
      (s.awaitFlushChain cfg persists).pendingSegments = s.pendingSegments := by
  unfold awaitFlushChain
  generalize hchain : s.flushChain = chain
  induction chain generalizing s with
  | nil => exact ⟨hchain, rfl⟩
  | cons flush chain ih =>
    have hnext := ih (s.runChain cfg persists) (by rw [flushChain_runChain, hchain, List.tail_cons])
    rwa [pendingSegments_runChain] at hnext

theorem pendingSegments_flushBuffer (s : StreamState δ) (source : OutputSource)
    {source' : OutputSource} (hne : source' ≠ source) (force : Bool) :
    (s.flushBuffer source force).pendingSegments source' = s.pendingSegments source' := by
  unfold flushBuffer
  dsimp only
  split_ifs <;> simp [hne]

end StreamState

/-- Segments that are still carried when both buffers are flushed and the chain has run have been
sent out. -/
theorem Carries.sent {e e' : ExecuteState δ} {s : StreamState δ} (hbefore : Carries e s)
    (hafter : Carries e'
      (((s.flushBuffer .stdout true).flushBuffer .stderr true).awaitFlushChain cfg persists)) :
    (((s.flushBuffer .stdout true).flushBuffer .stderr true).awaitFlushChain cfg
      persists).orderedOutput.Perm (numbered 1 e'.texts) := by
  have hcarried := hafter.carried
  obtain ⟨hchain, hpending⟩ := StreamState.frame_awaitFlushChain cfg persists
    ((s.flushBuffer .stdout true).flushBuffer .stderr true)
  have hstderr := (hbefore.flushBuffer .stdout true).pendingSegments_flushBuffer .stderr
  have hstdout := hbefore.pendingSegments_flushBuffer .stdout
  rw [← StreamState.pendingSegments_flushBuffer _ .stderr (by decide) true] at hstdout
  unfold StreamState.carried at hcarried
  rw [hchain, hpending, hstderr, hstdout] at hcarried
  simpa using hcarried

namespace Beside

variable {e : ExecuteState δ} {s : StreamState δ}

theorem awaitFlushChain (h : Beside e s) (hwithin : WithinSoFar cfg e.texts)
    (persists : ℕ → Bool) : Beside e (s.awaitFlushChain cfg persists) := by
  unfold StreamState.awaitFlushChain
  generalize s.flushChain = chain
  induction chain generalizing s with
  | nil => exact h
  | cons flush chain ih => exact ih (h.runChain hwithin)

/-- When the command has completed and all flushes have run, every segment has been sent out. -/
theorem settle (h : Beside e s)
    (hwithin : WithinSoFar cfg (e.flushDecoderRemainder iconv).texts) :
    Beside (e.flushDecoderRemainder iconv) (s.settle iconv cfg persists) ∧
      (s.settle iconv cfg persists).orderedOutput.Perm
        (numbered 1 (e.flushDecoderRemainder iconv).texts) := by
  rw [ExecuteState.flushDecoderRemainder_eq] at hwithin ⊢
  unfold StreamState.settle
  have hflushed := (h.flushSource .stdout
    (hwithin.of_shorter (ExecuteState.texts_flushSource ..))).flushSource .stderr hwithin
  have hbuffers := (hflushed.flushBuffer .stdout true).flushBuffer .stderr true
  have hend := hbuffers.awaitFlushChain hwithin persists
  exact ⟨hend, hflushed.carries.sent hend.carries⟩

end Beside

theorem isDigit_of_mem_toString (n : ℕ) : ∀ c ∈ (toString n).toList, c.isDigit := fun c hc =>
  Nat.isDigit_of_mem_toDigits (b := 10) (n := n) (by decide) (by decide) (by simpa using hc)

theorem mem_toString_int (n : ℤ) : ∀ c ∈ (toString n).toList, c = '-' ∨ c.isDigit := by
  intro c hc
  cases n with
  | ofNat n => exact Or.inr (isDigit_of_mem_toString n c hc)
  | negSucc n =>
    change c ∈ ("-" ++ toString (n + 1)).toList at hc
    rw [String.toList_append, List.mem_append] at hc
    rcases hc with hc | hc
    · exact Or.inl (by simpa using hc)
    · exact Or.inr (isDigit_of_mem_toString (n + 1) c hc)

theorem withoutNulls_exitCode (exitCode : ℤ) :
    withoutNulls (units (toString exitCode)) = units (toString exitCode) := by
  refine withoutNulls_units fun c hc => ?_
  rcases mem_toString_int exitCode c hc with rfl | hdigit
  · decide
  · simp only [Char.isDigit, Bool.and_eq_true, decide_eq_true_eq] at hdigit
    obtain ⟨hlow, hhigh⟩ := hdigit
    have hlow' : 48 ≤ c.toNat := hlow
    have hhigh' : c.toNat ≤ 57 := hhigh
    omega

def exitCodeMessage (exitCode : ℤ) (output : Text) : Text :=
  units ("[exit code " ++ toString exitCode ++ "] " ++
    ("Process exited with code " ++ toString exitCode) ++ "\n---\n") ++ output

theorem sanitize_exitCodeMessage (exitCode : ℤ) {output : Text}
    (houtput : withoutNulls output = output) :
    sanitizePlainText (exitCodeMessage exitCode output) = exitCodeMessage exitCode output := by
  have hstart : units "[exit code " = 0x5b :: units "exit code " := by rfl
  have hnulls : withoutNulls (exitCodeMessage exitCode output) =
      exitCodeMessage exitCode output := by
    have hplain (s : String) (h : s.toList.all (fun c => 0 < c.toNat && c.toNat < 0x10000) = true) :
        withoutNulls (units s) = units s := by
      refine withoutNulls_units fun c hc => ?_
      simpa using List.all_eq_true.mp h c hc
    have hbracket := hplain "[exit code " rfl
    have hclose := hplain "] " rfl
    have hexited := hplain "Process exited with code " rfl
    have hline := hplain "\n---\n" rfl
    simp only [exitCodeMessage, units_append, withoutNulls_append, withoutNulls_exitCode, houtput,
      hbracket, hclose, hexited, hline]
  obtain ⟨rest, hrest⟩ : ∃ rest, exitCodeMessage exitCode output = 0x5b :: rest := by
    simp only [exitCodeMessage, units_append, hstart, List.cons_append]
    exact ⟨_, rfl⟩
  rw [sanitizePlainText, hrest, sanitizeIngressText_cons (by decide) (by decide), ← hrest, hnulls]

/-- An output within the limit is not saved. -/
theorem formatExitCodeErrorMessage_eq {exitCode : ℤ} {output : Text} {limit : ℕ}
    (hlimit : 0 < limit → output.length ≤ limit)
    (savedPath truncationMessage save : Option Text) :
    formatExitCodeErrorMessage exitCode output limit savedPath truncationMessage save =
      some ⟨exitCodeMessage exitCode output, savedPath, truncationMessage⟩ := by
  have hshort : (0 < limit && limit < output.length) = false := by
    simpa using hlimit
  simp [formatExitCodeErrorMessage, buildPlainTextErrorPayload, hshort, exitCodeMessage]

namespace ExecuteState

variable {e : ExecuteState δ}

/-- What the run returns, before the last sanitizing: its segments, or the output of the
response where there are none. -/
theorem getCombinedOutput_eq (hlengths : e.Tallied) (hnonempty : ∀ text ∈ e.texts, text ≠ [])
    (response : ExecResponse) :
    e.getCombinedOutput response = sanitizePlainText
      (if e.texts = [] then responseOutput response else e.texts.flatten) := by
  unfold getCombinedOutput
  by_cases htexts : e.texts = []
  · have hsegments : e.orderedSegments = [] := List.map_eq_nil_iff.mp htexts
    rw [Tallied, htexts, List.map_nil, List.sum_nil, Nat.add_eq_zero_iff, List.length_eq_zero_iff,
      List.length_eq_zero_iff] at hlengths
    simp [htexts, hsegments, hlengths]
  · have hsegments : e.orderedSegments ≠ [] := fun hnil => htexts (by simp [texts, hnil])
    have hflatten : e.texts.flatten ≠ [] := by
      obtain ⟨text, rest, htext⟩ := List.exists_cons_of_ne_nil htexts
      have hne := hnonempty text (by simp [htext])
      simp [htext, hne]
    simp only [ne_eq, hsegments, not_false_eq_true, if_true, htexts, if_false]
    rw [if_neg (show ¬(e.orderedSegments.map Prod.snd).flatten = [] from hflatten)]
    rfl

end ExecuteState

/-- When every segment has been sent out, both runs have the same output. -/
theorem Beside.getCombinedOutput {e : ExecuteState δ} {s : StreamState δ} (h : Beside e s)
    (hperm : s.orderedOutput.Perm (numbered 1 e.texts)) (response : ExecResponse) :
    s.getCombinedOutput response = e.getCombinedOutput response := by
  rw [ExecuteState.getCombinedOutput_eq h.lengths h.nonempty, StreamState.getCombinedOutput,
    mergeSort_of_perm_numbered hperm, map_text_numbered]
  have hnil : s.orderedOutput = [] ↔ e.texts = [] := by
    rw [← List.length_eq_zero_iff, hperm.length_eq, ← List.length_map Segment.text,
      map_text_numbered, List.length_eq_zero_iff]
  by_cases htexts : e.texts = []
  · simp [htexts, hnil.mpr htexts]
  · simp [htexts, hnil]

theorem WithinLimits.soFar {texts : List Text} {response : ExecResponse}
    (h : WithinLimits cfg texts response) : WithinSoFar cfg texts := by
  refine ⟨fun hlimit => ?_, h.bytes⟩
  have hchars := h.chars hlimit
  by_cases htexts : texts = []
  · simp [htexts]
  · rwa [if_neg htexts, List.length_flatten] at hchars

/-- A run within the limits returns the same text either way, whenever its buffers are flushed,
whenever the flushes run and whichever chunks cannot be stored. -/
theorem executeStreaming_agrees (iconv : Iconv δ) (cfg : ResolvedShellCommandConfig)
    (save save' : SaveOversizedOutput) (persists : ℕ → Bool) (events : List StreamEvent)
    (response : ExecResponse)
    (hlimits : WithinLimits cfg (cleanedOutput iconv (outputOf events)) response) :
    execute iconv cfg save (outputOf events) response =
      some (executeStreaming iconv cfg save' persists events response) := by
  have hwithin : WithinSoFar cfg (executed iconv (outputOf events)).texts := hlimits.soFar
  have hrun : Beside _ (events.foldl (StreamState.step iconv cfg persists) (.initial iconv)) :=
    Beside.initial.run events (hwithin.of_shorter (ExecuteState.texts_flushDecoderRemainder _))
  obtain ⟨hend, hperm⟩ : Beside (executed iconv (outputOf events))
      (streamed iconv cfg persists events) ∧ _ := hrun.settle hwithin
  have hsame : (streamed iconv cfg persists events).getCombinedOutput response =
      (executed iconv (outputOf events)).getCombinedOutput response :=
    hend.getCombinedOutput hperm response
  have htruncated : (streamed iconv cfg persists events).truncated = false := hend.truncated
  have hcombined := ExecuteState.getCombinedOutput_eq hend.lengths hend.nonempty response
  unfold execute executeStreaming
  simp only [hsame, htruncated]
  generalize (executed iconv (outputOf events)).getCombinedOutput response = combined at *
  have hnulls : withoutNulls combined = combined := by
    rw [hcombined]
    exact withoutNulls_sanitizeIngressText _
  have hshort : 0 < cfg.outputLimitChars → combined.length ≤ cfg.outputLimitChars := by
    intro hlimit
    rw [hcombined]
    exact Nat.le_trans (length_sanitizeIngressText_le _) (hlimits.chars hlimit)
  have hlong : ¬(0 < cfg.outputLimitChars ∧ cfg.outputLimitChars < combined.length) :=
    fun ⟨hlimit, hlong⟩ => Nat.not_lt.mpr (hshort hlimit) hlong
  by_cases hexit : response.exitCode = 0
  · simp [hexit, hlong, Truncation.checkFinal, Truncation.complete]
  · simp [hexit, formatExitCodeErrorMessage_eq hshort, sanitize_exitCodeMessage _ hnulls]

def asciiDecoders : Iconv Unit where
  decodeStream _ := ()
  write _ buffer := (buffer.map UInt8.toUInt16, ())
  finish _ := []

def defaultConfig : ResolvedShellCommandConfig := ⟨50000, 4096, 10485760⟩

/-- A green `ok` with its escape sequence in two chunks, an error message, and a timer. -/
def greenEvents : List StreamEvent :=
  [.output .stdout [0x1b, 0x5b, 0x33], .output .stdout [0x32, 0x6d, 0x6f, 0x6b], .timer .stdout,
    .output .stderr [0x6e, 0x6f], .chain]

/-- The first chunk cannot be stored. -/
theorem green_agrees :
    execute asciiDecoders defaultConfig (fun _ => none) (outputOf greenEvents) ⟨[], [], 1⟩ =
      some (executeStreaming asciiDecoders defaultConfig (fun _ => none) (fun n => n ≠ 1)
        greenEvents ⟨[], [], 1⟩) := by
  have hpieces : cleanedOutput asciiDecoders (outputOf greenEvents) = [units "ok", units "no"] := by
    decide +kernel
  refine executeStreaming_agrees _ _ _ _ _ _ _ ?_
  rw [hpieces]
  exact ⟨by decide +kernel, by decide +kernel⟩

end Agyn.ShellCommand
