import Mathlib.Data.String.Basic
import Agyn.EventEnumeration
import Agyn.KeyedLists

/-!
Polling the chunks of a tool execution. The number that comes with a snapshot is the greatest of
its chunks, in either order, and the next poll asks for greater ones: in ascending order this is
the rest, in descending order the rest was before it.
-/
namespace Agyn.RunEvents

open KeysetPages

variable {ι τ : Type} {dates : Dates} {order : Order}
  {chunks xs : List (ToolOutputChunk ι)} {items : List (ToolOutputChunkPayload ι)}
  {event : RunEvent ι}

def SeqBefore (order : Order) (a b : ToolOutputChunk ι) : Prop :=
  match order with
  | .asc => a.seqGlobal < b.seqGlobal
  | .desc => b.seqGlobal < a.seqGlobal

instance (order : Order) : DecidableRel (SeqBefore (ι := ι) order) := fun a b => by
  cases order <;> exact inferInstanceAs (Decidable (_ < _))

theorem seqBefore_asymm (order : Order) (a b : ToolOutputChunk ι) (h : SeqBefore order a b) :
    ¬ SeqBefore order b a := by
  cases order <;> exact lt_asymm h

/-- Chunks of different numbers are sorted strictly. -/
theorem sorted_seqBefore (order : Order) (h : (chunks.map ToolOutputChunk.seqGlobal).Nodup) :
    (chunks.mergeSort (seqOrder order)).Pairwise (SeqBefore order) := by
  have hsorted : (chunks.mergeSort (seqOrder order)).Pairwise
      fun a b => seqOrder order a b = true := by
    refine List.pairwise_mergeSort (fun a b c hab hbc => ?_) (fun a b => ?_) chunks
    · cases order <;> simp only [seqOrder, decide_eq_true_eq] at hab hbc ⊢ <;> omega
    · cases order <;> simp only [seqOrder, Bool.or_eq_true, decide_eq_true_eq] <;> omega
  have hseqs : ((chunks.mergeSort (seqOrder order)).map ToolOutputChunk.seqGlobal).Nodup :=
    ((List.mergeSort_perm chunks _).map _).nodup_iff.mpr h
  refine (hsorted.and (List.pairwise_map.mp hseqs)).imp fun {a b} hab => ?_
  obtain ⟨hle, hne⟩ := hab
  cases order <;> simp only [seqOrder, decide_eq_true_eq] at hle <;>
    simp only [SeqBefore] <;> omega

theorem mergeSort_filter_seq (order : Order) (h : (chunks.map ToolOutputChunk.seqGlobal).Nodup)
    (p : ToolOutputChunk ι → Bool) :
    (chunks.filter p).mergeSort (seqOrder order) =
      (chunks.mergeSort (seqOrder order)).filter p := by
  refine eq_of_perm (seqBefore_asymm order) ?_
    (sorted_seqBefore order (h.sublist (List.filter_sublist.map _)))
    ((sorted_seqBefore order h).sublist List.filter_sublist)
  exact (List.mergeSort_perm _ _).trans ((List.mergeSort_perm chunks _).symm.filter p)

theorem foldl_max_spec (items : List (ToolOutputChunkPayload ι)) (m : ℤ) :
    let r := items.foldl
      (fun max item => if max < item.seqGlobal then item.seqGlobal else max) m
    (r = m ∨ ∃ item ∈ items, item.seqGlobal = r) ∧ m ≤ r ∧ ∀ item ∈ items, item.seqGlobal ≤ r := by
  induction items generalizing m with
  | nil => exact ⟨.inl rfl, le_rfl, fun _ h => absurd h List.not_mem_nil⟩
  | cons item items ih =>
    obtain ⟨hmem, hle, hall⟩ := ih (if m < item.seqGlobal then item.seqGlobal else m)
    have hstep : m ≤ (if m < item.seqGlobal then item.seqGlobal else m) ∧
        item.seqGlobal ≤ (if m < item.seqGlobal then item.seqGlobal else m) := by
      split_ifs <;> omega
    refine ⟨?_, hstep.1.trans hle, List.forall_mem_cons.mpr ⟨hstep.2.trans hle, hall⟩⟩
    obtain heq | ⟨other, hother, heq⟩ := hmem
    · by_cases hlt : m < item.seqGlobal
      · rw [if_pos hlt] at heq
        exact .inr ⟨item, List.mem_cons_self, (heq.trans rfl).symm.trans (by simp [hlt])⟩
      · rw [if_neg hlt] at heq
        exact .inl ((by simp [hlt] : _ = _).trans heq)
    · exact .inr ⟨other, List.mem_cons_of_mem item hother, heq⟩

/-- The number of a snapshot is the greatest one of its items. -/
theorem nextSeq_spec (items : List (ToolOutputChunkPayload ι)) (hne : items ≠ []) :
    ∃ s, nextSeq items = some s ∧ (∃ item ∈ items, item.seqGlobal = s) ∧
      ∀ item ∈ items, item.seqGlobal ≤ s := by
  cases items with
  | nil => exact absurd rfl hne
  | cons first rest =>
    obtain ⟨hmem, -, hall⟩ := foldl_max_spec (first :: rest) first.seqGlobal
    refine ⟨_, rfl, ?_, hall⟩
    obtain heq | hmem := hmem
    · exact ⟨first, List.mem_cons_self, heq.symm⟩
    · exact hmem

/-- In ascending order the greatest number is that of the last chunk. -/
theorem nextSeq_asc (dates : Dates) (event : RunEvent ι) {pre : List (ToolOutputChunk ι)}
    {c : ToolOutputChunk ι} (h : (pre ++ [c]).Pairwise (SeqBefore .asc)) :
    nextSeq ((pre ++ [c]).map (chunkPayload dates event)) = some c.seqGlobal := by
  obtain ⟨s, hs, ⟨item, hitem, rfl⟩, hall⟩ :=
    nextSeq_spec ((pre ++ [c]).map (chunkPayload dates event)) (by simp)
  obtain ⟨d, hd, rfl⟩ := List.mem_map.mp hitem
  have hle : c.seqGlobal ≤ d.seqGlobal := hall (chunkPayload dates event c)
    (List.mem_map_of_mem (by simp))
  rw [hs]
  obtain hpre | hlast := List.mem_append.mp hd
  · have hlt : d.seqGlobal < c.seqGlobal :=
      (List.pairwise_append.mp h).2.2 d hpre c List.mem_cons_self
    omega
  · rw [List.mem_singleton.mp hlast]
    rfl

theorem sinceCondition_some {since : ℤ} (h : 1 ≤ since) :
    sinceCondition (ι := ι) (some since) = fun c => decide (since < c.seqGlobal) := by
  funext c
  have hne : since ≠ 0 := by omega
  simp [sinceCondition, hne]

/-- The number of a poll leaves what the poll did not return, in ascending order or when the poll
returned everything. -/
theorem filter_nextSeq (dates : Dates) (event : RunEvent ι) {order : Order}
    {rows : List (ToolOutputChunk ι)} {n : ℕ} (hn : 1 ≤ n)
    (hsorted : rows.Pairwise (SeqBefore order)) (hne : rows ≠ [])
    (h : order = .asc ∨ rows.length ≤ n) :
    ∃ next, nextSeq ((rows.take n).map (chunkPayload dates event)) = some next ∧
      (∃ c ∈ rows, c.seqGlobal = next) ∧
      rows.filter (fun c => decide (next < c.seqGlobal)) = rows.drop n := by
  have htake : rows.take n ≠ [] := by
    rw [Ne, List.take_eq_nil_iff]
    exact not_or.mpr ⟨by omega, hne⟩
  obtain rfl | hlength := h
  · have hlast := List.dropLast_append_getLast htake
    have hnext := nextSeq_asc dates event
      (hlast.symm ▸ hsorted.sublist (List.take_sublist n rows))
    rw [hlast] at hnext
    refine ⟨_, hnext, ⟨_, List.mem_of_mem_take (List.getLast_mem htake), rfl⟩, ?_⟩
    exact filter_before_last (seqBefore_asymm .asc) hsorted (List.getLast?_eq_some_getLast htake)
  · obtain ⟨next, hnext, ⟨item, hitem, rfl⟩, hall⟩ := nextSeq_spec
      ((rows.take n).map (chunkPayload dates event)) (by simpa using htake)
    rw [List.take_of_length_le hlength] at hnext hitem hall
    obtain ⟨c, hc, rfl⟩ := List.mem_map.mp hitem
    refine ⟨_, by rw [List.take_of_length_le hlength]; exact hnext, ⟨c, hc, rfl⟩, ?_⟩
    rw [List.drop_of_length_le hlength]
    refine List.filter_eq_nil_iff.mpr fun d hd => ?_
    have hle : d.seqGlobal ≤ c.seqGlobal := hall _ (List.mem_map_of_mem hd)
    rw [decide_eq_true_eq]
    omega

variable [LinearOrder ι] {db : Tables ι τ} {p : SnapshotParams ι}

def SnapshotParams.poll (p : SnapshotParams ι) (dates : Dates) (db : Tables ι τ)
    (sinceSeq : Option ℤ) : List (ToolOutputChunkPayload ι) × Option ℤ :=
  match getToolOutputSnapshot dates db { p with sinceSeq } with
  | some snapshot => (snapshot.items, snapshot.nextSeq)
  | none => ([], none)

def Tables.chunksOf (db : Tables ι τ) (eventId : ι) : List (ToolOutputChunk ι) :=
  db.chunks.filter fun row => row.eventId = eventId

def SnapshotParams.sorted (p : SnapshotParams ι) (db : Tables ι τ) : List (ToolOutputChunk ι) :=
  (db.chunksOf p.eventId).mergeSort (seqOrder (orderOf p.order))

/-- Polling until nothing comes returns each chunk of the event once. -/
def EnumeratesChunks (dates : Dates) (db : Tables ι τ) (p : SnapshotParams ι)
    (event : RunEvent ι) : Prop :=
  ∃ items, (∃ fuel, ∀ n, fuel ≤ n → followAll (p.poll dates db) n none = some items) ∧
    items.Perm ((db.chunksOf p.eventId).map (chunkPayload dates event))

theorem chunksOf_nodup (db : Tables ι τ) (eventId : ι) :
    ((db.chunksOf eventId).map ToolOutputChunk.seqGlobal).Nodup := by
  have hpairs : ((db.chunksOf eventId).map fun c => (c.eventId, c.seqGlobal)).Nodup :=
    db.chunks_nodup.sublist (List.filter_sublist.map _)
  refine List.Nodup.of_map (eventId, ·) ?_
  rw [List.map_map]
  refine (List.map_congr_left fun c hc => ?_) ▸ hpairs
  have heq : c.eventId = eventId := by simpa using (List.mem_filter.mp hc).2
  rw [heq]
  rfl

omit [LinearOrder ι] in
theorem one_le_chunkLimit (limit : Option ℤ) : 1 ≤ chunkLimit limit := by
  unfold chunkLimit
  split
  · omega
  · split_ifs <;> omega

theorem sorted_pairwise_seq (db : Tables ι τ) (p : SnapshotParams ι) :
    (p.sorted db).Pairwise (SeqBefore (orderOf p.order)) :=
  sorted_seqBefore _ (chunksOf_nodup db p.eventId)

theorem perm_sorted (p : SnapshotParams ι) (db : Tables ι τ) :
    (p.sorted db).Perm (db.chunksOf p.eventId) := List.mergeSort_perm _ _

/-- A poll of an event that is there. -/
theorem poll_eq (dates : Dates) (hevent : event ∈ db.events) (hid : event.id = p.eventId)
    (hrun : event.runId = p.runId) (sinceSeq : Option ℤ) {rows : List (ToolOutputChunk ι)}
    (hrows : (p.sorted db).filter (sinceCondition sinceSeq) = rows) :
    p.poll dates db sinceSeq =
      ((rows.take (chunkLimit p.limit)).map (chunkPayload dates event),
        nextSeq ((rows.take (chunkLimit p.limit)).map (chunkPayload dates event))) := by
  have hfind : db.events.find? (fun e => e.id = p.eventId) = some event := by
    have hkey : p.eventId ∈ db.events.map RunEvent.id := List.mem_map.mpr ⟨event, hevent, hid⟩
    obtain ⟨found, hfind⟩ := exists_find?_key hkey
    have hfound : found.id = p.eventId := by simpa using List.find?_some hfind
    rwa [List.inj_on_of_nodup_map db.events_nodup (List.mem_of_find?_eq_some hfind) hevent
      (hfound.trans hid.symm)] at hfind
  have hsort : (db.chunks.filter fun row =>
      row.eventId = p.eventId && sinceCondition sinceSeq row).mergeSort
        (seqOrder (orderOf p.order)) = rows := by
    rw [← hrows, SnapshotParams.sorted, ← mergeSort_filter_seq _ (chunksOf_nodup db p.eventId),
      Tables.chunksOf, List.filter_filter]
    simp only [Bool.and_comm]
  unfold SnapshotParams.poll getToolOutputSnapshot
  dsimp only
  rw [hfind]
  dsimp only
  rw [if_neg (by simpa using hrun)]
  dsimp only
  rw [hsort]

def SnapshotParams.Left (p : SnapshotParams ι) (dates : Dates) (db : Tables ι τ)
    (event : RunEvent ι) (sinceSeq : Option ℤ) (xs : List (ToolOutputChunkPayload ι)) : Prop :=
  (∀ s, sinceSeq = some s → 1 ≤ s) ∧
    xs = ((p.sorted db).filter (sinceCondition sinceSeq)).map (chunkPayload dates event)

theorem left_none (p : SnapshotParams ι) (dates : Dates) (db : Tables ι τ)
    (event : RunEvent ι) :
    p.Left dates db event none ((p.sorted db).map (chunkPayload dates event)) := by
  refine ⟨nofun, ?_⟩
  have hall : (p.sorted db).filter (sinceCondition none) = p.sorted db :=
    List.filter_eq_self.mpr fun _ _ => rfl
  rw [hall]

theorem poll_of_left (hevent : event ∈ db.events) (hid : event.id = p.eventId)
    (hrun : event.runId = p.runId)
    (h : orderOf p.order = .asc ∨ (db.chunksOf p.eventId).length ≤ chunkLimit p.limit)
    {sinceSeq : Option ℤ} {xs : List (ToolOutputChunkPayload ι)}
    (hleft : p.Left dates db event sinceSeq xs) :
    p.poll dates db sinceSeq = (xs, none) ∨
      ∃ next, p.poll dates db sinceSeq = (xs.take (chunkLimit p.limit), some next) ∧ xs ≠ [] ∧
        p.Left dates db event (some next) (xs.drop (chunkLimit p.limit)) := by
  obtain ⟨hsince, rfl⟩ := hleft
  obtain ⟨rows, hrows⟩ : ∃ rows, (p.sorted db).filter (sinceCondition sinceSeq) = rows := ⟨_, rfl⟩
  rw [hrows, poll_eq dates hevent hid hrun sinceSeq hrows]
  by_cases hnil : rows = []
  · subst hnil
    rw [List.take_nil, List.map_nil]
    exact .inl rfl
  have hsorted : rows.Pairwise (SeqBefore (orderOf p.order)) :=
    hrows ▸ (sorted_pairwise_seq db p).sublist List.filter_sublist
  have hlength : rows.length ≤ (db.chunksOf p.eventId).length := by
    rw [← hrows, ← (perm_sorted p db).length_eq]
    exact List.length_filter_le _ _
  obtain ⟨next, hnext, ⟨c, hc, rfl⟩, hfilter⟩ := filter_nextSeq dates event
    (one_le_chunkLimit p.limit) hsorted hnil (h.imp_right hlength.trans)
  rw [hnext, ← List.map_take, ← List.map_drop, ← hfilter]
  refine .inr ⟨_, rfl, by simpa using hnil, fun s hs => Option.some.inj hs ▸ c.numbered, ?_⟩
  -- a later chunk came after the number of this poll too
  rw [sinceCondition_some c.numbered, ← hrows, List.filter_filter]
  refine congrArg _ (List.filter_congr fun d _ => ?_)
  have hafter : sinceCondition sinceSeq c = true := (List.mem_filter.mp (hrows.symm ▸ hc)).2
  cases sinceSeq with
  | none => simp [sinceCondition]
  | some since =>
    rw [sinceCondition_some (hsince since rfl)] at hafter ⊢
    simp only [decide_eq_true_eq] at hafter
    rw [Bool.eq_iff_iff, Bool.and_eq_true, decide_eq_true_eq, decide_eq_true_eq]
    omega

theorem enumeratesChunks (hevent : event ∈ db.events) (hid : event.id = p.eventId)
    (hrun : event.runId = p.runId)
    (h : orderOf p.order = .asc ∨ (db.chunksOf p.eventId).length ≤ chunkLimit p.limit) :
    EnumeratesChunks dates db p event := by
  obtain ⟨items, hitems⟩ :
    ∃ items, (p.sorted db).map (chunkPayload dates event) = items := ⟨_, rfl⟩
  have hleft : p.Left dates db event none items := hitems ▸ left_none p dates db event
  refine ⟨items, ⟨items.length + 1, fun n hn => ?_⟩, ?_⟩
  · exact followAll_eq (one_le_chunkLimit p.limit)
      (fun _ _ => poll_of_left hevent hid hrun h) hleft hn
  · rw [← hitems]
    exact (perm_sorted p db).map _

/-- In descending order the first poll comes with the greatest number of all chunks. -/
theorem followAll_desc (dates : Dates) (hevent : event ∈ db.events) (hid : event.id = p.eventId)
    (hrun : event.runId = p.runId) (horder : orderOf p.order = .desc)
    (hne : p.sorted db ≠ []) {n : ℕ} (hn : 2 ≤ n) :
    followAll (p.poll dates db) n none =
      some (((p.sorted db).take (chunkLimit p.limit)).map (chunkPayload dates event)) := by
  have hlimit := one_le_chunkLimit p.limit
  have hnumbers : (p.sorted db).filter (sinceCondition none) = p.sorted db :=
    List.filter_eq_self.mpr fun _ _ => rfl
  have hfirst := poll_eq dates hevent hid hrun none hnumbers
  have htake : (p.sorted db).take (chunkLimit p.limit) ≠ [] := by
    rw [Ne, List.take_eq_nil_iff]
    exact not_or.mpr ⟨by omega, hne⟩
  obtain ⟨next, hnext, ⟨item, hitem, rfl⟩, hall⟩ := nextSeq_spec
    (((p.sorted db).take (chunkLimit p.limit)).map (chunkPayload dates event))
    (by simpa using htake)
  obtain ⟨c, hc, rfl⟩ := List.mem_map.mp hitem
  have hnone : (p.sorted db).filter (sinceCondition (some c.seqGlobal)) = [] := by
    rw [sinceCondition_some c.numbered]
    refine List.filter_eq_nil_iff.mpr fun d hd => ?_
    have hle : d.seqGlobal ≤ c.seqGlobal := by
      rw [← List.take_append_drop (chunkLimit p.limit) (p.sorted db), List.mem_append] at hd
      obtain hd | hd := hd
      · exact hall _ (List.mem_map_of_mem hd)
      · have hbefore := sorted_pairwise_seq db p
        rw [horder, ← List.take_append_drop (chunkLimit p.limit) (p.sorted db)] at hbefore
        have hlt : d.seqGlobal < c.seqGlobal :=
          (List.pairwise_append.mp hbefore).2.2 c hc d hd
        omega
    rw [decide_eq_true_eq]
    omega
  obtain ⟨n, rfl⟩ := Nat.exists_eq_add_of_le' hn
  have hfirst : p.poll dates db none = (_, some c.seqGlobal) := hnext ▸ hfirst
  have hsecond := poll_eq dates hevent hid hrun _ hnone
  rw [List.take_nil, List.map_nil] at hsecond
  simp only [followAll, hfirst, hsecond, nextSeq, Option.map_some, List.append_nil]

theorem order_of_enumeratesChunks (hevent : event ∈ db.events) (hid : event.id = p.eventId)
    (hrun : event.runId = p.runId) (h : EnumeratesChunks dates db p event) :
    orderOf p.order = .asc ∨ (db.chunksOf p.eventId).length ≤ chunkLimit p.limit := by
  obtain ⟨items, ⟨fuel, hfuel⟩, hperm⟩ := h
  by_contra hcon
  obtain ⟨horder, hlength⟩ := not_or.mp hcon
  have horder : orderOf p.order = .desc := by
    cases hcase : orderOf p.order
    · exact absurd hcase horder
    · rfl
  have hsorted := (perm_sorted p db).length_eq
  have hne : p.sorted db ≠ [] := fun hnil => by
    rw [hnil, List.length_nil] at hsorted
    omega
  have hall := followAll_desc dates hevent hid hrun horder hne
    (le_max_right fuel 2)
  rw [hfuel _ (le_max_left fuel 2)] at hall
  have hitems := hperm.length_eq
  rw [Option.some.inj hall, List.length_map, List.length_map, List.length_take, hsorted] at hitems
  omega

/-- Both listings enumerate everything, when the chunks come in ascending order or at once. -/
theorem enumerates_iff (q : ListParams ι)
    (hdates : ∀ e ∈ db.events, dates.parse (dates.toISOString e.ts) = some e.ts ∧
      dates.toISOString e.ts ≠ "")
    (hevent : event ∈ db.events) (hid : event.id = p.eventId) (hrun : event.runId = p.runId) :
    EnumeratesEvents dates db.events q ∧ EnumeratesChunks dates db p event ↔
      orderOf p.order = .asc ∨ (db.chunksOf p.eventId).length ≤ chunkLimit p.limit :=
  ⟨fun h => order_of_enumeratesChunks hevent hid hrun h.2, fun h =>
    ⟨enumeratesEvents q db.events_nodup hdates, enumeratesChunks hevent hid hrun h⟩⟩

def epoch : Dates where
  toISOString _ := "1970-01-01T00:00:00.000Z"
  parse text := if text = "1970-01-01T00:00:00.000Z" then some 0 else none

def execution : RunEvent String := ⟨"e1", "r1", "t1", .toolExecution, .running, 0⟩

def twoChunks : Tables String Unit where
  events := [execution, ⟨"e2", "r1", "t1", .llmCall, .success, 0⟩]
  chunks := [⟨"e1", 1, 1, .stdout, "a", 0, le_rfl⟩, ⟨"e1", 2, 2, .stdout, "b", 0, by omega⟩]
  terminals _ := none
  events_nodup := by decide
  chunks_nodup := by decide

theorem enumerates_iff_twoChunks :
    EnumeratesEvents epoch twoChunks.events ⟨"r1", [], [], some 1, none, none⟩ ∧
        EnumeratesChunks epoch twoChunks ⟨"r1", "e1", none, some 1, none⟩ execution ↔
      orderOf none = .asc ∨ (twoChunks.chunksOf "e1").length ≤ chunkLimit (some 1) :=
  enumerates_iff ⟨"r1", [], [], some 1, none, none⟩ (by decide) List.mem_cons_self rfl rfl

theorem not_enumeratesChunks_desc :
    ¬ EnumeratesChunks epoch twoChunks ⟨"r1", "e1", none, some 1, some .desc⟩ execution := by
  intro h
  have hcases := order_of_enumeratesChunks List.mem_cons_self rfl rfl h
  revert hcases
  decide

end Agyn.RunEvents
