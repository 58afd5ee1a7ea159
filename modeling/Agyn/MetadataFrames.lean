import Agyn.MetadataColumn
import Agyn.TrimmedTexts

/-!
What the writers of the metadata column keep. Whatever was stored by a registration, by events and
by the writers is read back by the registry as it was, so that its calls change the properties that
they set and no others. The service that terminates the containers of a thread reads only a part.
-/
namespace Agyn.MetadataColumn

open ContainerEvents JsValue

variable {m m' : ContainerMetadata} {v : Json} {key : String}

theorem field_of_not_mem (h : key ∉ metadataKeys) : m.field key = .undefined := by
  unfold ContainerMetadata.field
  split <;> first | rfl | exact absurd (by decide) h

/-- Objects whose properties of these names are the same have the same properties. -/
theorem field_congr {sets : List String}
    (h : ∀ key ∈ metadataKeys, key ∉ sets → m.field key = m'.field key) (hkey : key ∉ sets) :
    m.field key = m'.field key := by
  by_cases hmem : key ∈ metadataKeys
  · exact h key hmem hkey
  · rw [field_of_not_mem hmem, field_of_not_mem hmem]

/-- The values of an object that is stored, or is to be. -/
def IsStorable (v : Json) : Prop := v.isDefined = true ∨ v = .undefined

theorem isStorable_optional {α : Type} {toJson : α → Json} (h : ∀ a, (toJson a).isDefined = true)
    (value : Option α) : IsStorable (optional value toJson) := by
  cases value with
  | none => exact .inr rfl
  | some a => exact .inl (h a)

theorem lookup_defined {f : String → Json} {keys : List String}
    (h : ∀ key ∈ keys, IsStorable (f key)) (key : String) :
    (lookup ((keys.map fun key => (key, f key)).filter fun e => e.2.isDefined) key).getD
      .undefined = if key ∈ keys then f key else .undefined := by
  induction keys with
  | nil => rfl
  | cons k keys ih =>
    obtain ⟨hk, hrest⟩ := List.forall_mem_cons.mp h
    rw [List.map_cons]
    obtain hdefined | hundefined := hk
    · rw [List.filter_cons_of_pos (by exact hdefined)]
      by_cases heq : k = key
      · simp [lookup, heq]
      · have hne : key ≠ k := fun h => heq h.symm
        simpa [lookup, heq, hne] using ih hrest
    · rw [List.filter_cons_of_neg (by simp [hundefined, isDefined]), ih hrest]
      by_cases heq : key = k
      · simp [heq, hundefined]
      · simp [heq]

theorem get_toJson (h : m.labels.isDefined = true) (key : String) :
    m.toJson.get key = m.field key := by
  have hstorable : ∀ key ∈ metadataKeys, IsStorable (m.field key) := by
    intro key _
    unfold ContainerMetadata.field
    split
    · exact .inl h
    · exact isStorable_optional (fun _ => rfl) _
    · exact .inl rfl
    · exact isStorable_optional (fun _ => rfl) _
    · exact isStorable_optional (fun _ => rfl) _
    · exact isStorable_optional (fun _ => rfl) _
    · exact isStorable_optional (fun _ => rfl) _
    · exact isStorable_optional (fun _ => rfl) _
    · exact isStorable_optional (fun _ => rfl) _
    · exact isStorable_optional (fun _ => rfl) _
    · exact isStorable_optional (fun _ => rfl) _
    · exact .inr rfl
  refine (lookup_defined hstorable key).trans ?_
  split_ifs with hmem
  · rfl
  · exact (field_of_not_mem hmem).symm

/-- Metadata that the registry reads back as they are. -/
structure ContainerMetadata.WellFormed (m : ContainerMetadata) : Prop where
  labels : ∃ l, m.labels = labelsJson l
  mounts : ∀ mounts ∈ m.mounts, mounts ≠ [] ∧
    ∀ mount ∈ mounts, sanitizeMount (mountJson mount) = some mount
  health : ∀ health ∈ m.health, isHealthStatus health

/-- A column that has the properties of well-formed metadata, in any order. -/
structure Stored (v : Json) (m : ContainerMetadata) : Prop where
  wellFormed : m.WellFormed
  get_eq : ∀ key, v.get key = m.field key

theorem ContainerMetadata.WellFormed.labels_isDefined (h : m.WellFormed) :
    m.labels.isDefined = true := by
  obtain ⟨l, hl⟩ := h.labels
  rw [hl]
  rfl

theorem stored_toJson (h : m.WellFormed) : Stored m.toJson m :=
  ⟨h, get_toJson h.labels_isDefined⟩

theorem sanitizeContainerMounts_mounts {mounts : List ContainerMount}
    (h : ∀ mount ∈ mounts, sanitizeMount (mountJson mount) = some mount) :
    sanitizeContainerMounts (.arr (mounts.map mountJson)) = mounts := by
  have hsome : ∀ mount ∈ mounts, (sanitizeMount ∘ mountJson) mount = some mount := by
    intro mount hmount
    rw [Function.comp_apply, h mount hmount]
  rw [sanitizeContainerMounts, List.filterMap_map]
  calc mounts.filterMap (sanitizeMount ∘ mountJson)
      = mounts.filterMap some := List.filterMap_congr hsome
    _ = mounts := List.filterMap_some

theorem asString_optional (value : Option String) : asString (optional value .str) = value := by
  cases value <;> rfl

theorem asNumber_optional (value : Option ℚ) : asNumber (optional value .num) = value := by
  cases value <;> rfl

theorem asBoolean_optional (value : Option Bool) : asBoolean (optional value .bool) = value := by
  cases value <;> rfl

theorem asNumber_num (n : ℚ) : asNumber (.num n) = some n := rfl

/-- The registry reads back what is stored. -/
theorem normalizeMetadata_of_stored (h : Stored v m) : normalizeMetadata v = m := by
  obtain ⟨l, hlabels⟩ := h.wellFormed.labels
  have hmounts : nonEmpty (sanitizeContainerMounts (v.get "mounts")) = m.mounts := by
    rw [h.get_eq]
    change nonEmpty (sanitizeContainerMounts (optional m.mounts _)) = m.mounts
    cases hm : m.mounts with
    | none => rfl
    | some mounts =>
      obtain ⟨hne, hall⟩ := h.wellFormed.mounts mounts hm
      change nonEmpty (sanitizeContainerMounts (.arr (mounts.map mountJson))) = some mounts
      rw [sanitizeContainerMounts_mounts hall, nonEmpty, if_neg hne]
  have hhealth : (asString (v.get "health")).filter isHealthStatus = m.health := by
    rw [h.get_eq]
    change (asString (optional m.health .str)).filter isHealthStatus = m.health
    rw [asString_optional]
    cases hm : m.health with
    | none => rfl
    | some health => exact Option.filter_some_pos (h.wellFormed.health health hm)
  have hlabels' : asObject (v.get "labels") = m.labels := by
    rw [h.get_eq]
    change asObject m.labels = m.labels
    rw [hlabels]
    rfl
  unfold normalizeMetadata
  rw [hmounts, hhealth, hlabels']
  simp only [h.get_eq, ContainerMetadata.field, asString_optional, asNumber_optional,
    asBoolean_optional, asNumber_num, Option.getD_some]

def ContainerMetadata.threadPart (m : ContainerMetadata) : ContainerMetadata :=
  { m with
    labels := stringLabels m.labels
    mounts := none
    autoRemoved := none
    health := none
    lastEventAt := none }

theorem normalizeThreadMetadata_of_stored (h : Stored v m) :
    normalizeThreadMetadata v = m.threadPart := by
  unfold normalizeThreadMetadata
  simp only [h.get_eq, ContainerMetadata.field, asString_optional, asNumber_optional,
    asNumber_num, Option.getD_some]
  rfl

theorem putLabel_str (out : List (String × Json)) (e : String × String) :
    putLabel (true, out) (e.1, .str e.2) =
      (true, if e.1 = "__proto__" then out else out ++ [(e.1, .str e.2)]) := by
  by_cases hproto : e.1 = "__proto__"
  · simp [putLabel, putProperty, hproto]
  · simp [putLabel, putProperty, hproto]

theorem foldl_putLabel (entries : List (String × String)) (out : List (String × Json)) :
    (entries.map fun e => (e.1, (.str e.2 : Json))).foldl putLabel (true, out) =
      (true, out ++ (entries.filter fun e => e.1 ≠ "__proto__").map fun e => (e.1, .str e.2)) := by
  induction entries generalizing out with
  | nil => simp
  | cons e entries ih =>
    rw [List.map_cons, List.foldl_cons, putLabel_str, ih]
    by_cases hproto : e.1 = "__proto__"
    · rw [if_pos hproto, List.filter_cons_of_neg (by simpa using hproto)]
    · rw [if_neg hproto, List.filter_cons_of_pos (by simpa using hproto), List.map_cons,
        List.append_assoc, List.singleton_append]

/-- A copy of the labels loses the one that is a setter of the language. -/
theorem stringLabels_labelsJson (l : InsMap String String) :
    stringLabels (labelsJson l) = .record
      ((l.entries.filter fun e => e.1 ≠ "__proto__").map fun e => (e.1, .str e.2)) := by
  unfold stringLabels
  change (let labels := (l.entries.map fun e => (e.1, (.str e.2 : Json))).foldl putLabel (true, [])
    JsValue.obj labels.1 labels.2) = _
  rw [foldl_putLabel]
  rfl

theorem stringLabels_eq_self_iff (l : InsMap String String) :
    stringLabels (labelsJson l) = labelsJson l ↔
      (labelsJson l).get "__proto__" = .undefined := by
  have hinj : Function.Injective fun e : String × String => (e.1, (.str e.2 : Json)) := by
    intro a b hab
    obtain ⟨hkey, hvalue⟩ := Prod.mk.inj hab
    exact Prod.ext hkey (JsValue.str.inj hvalue)
  have hleft : stringLabels (labelsJson l) = labelsJson l ↔
      ∀ e ∈ l.entries, e.1 ≠ "__proto__" := by
    rw [stringLabels_labelsJson, labelsJson, JsValue.obj.injEq, List.map_inj_right hinj,
      List.filter_eq_self]
    simp
  have hfind : lookup (l.entries.map fun e => (e.1, (.str e.2 : Json))) "__proto__" =
      (l.entries.find? fun e => e.1 = "__proto__").map fun e => .str e.2 := by
    rw [lookup, List.find?_map, Option.map_map]
    rfl
  rw [hleft]
  change _ ↔ (lookup (l.entries.map fun e => (e.1, (.str e.2 : Json))) "__proto__").getD
    .undefined = .undefined
  rw [hfind]
  cases hfound : l.entries.find? fun e => e.1 = "__proto__" with
  | none => simpa using hfound
  | some e =>
    have hmem := List.mem_of_find?_eq_some hfound
    have hkey : e.1 = "__proto__" := by simpa using List.find?_some hfound
    exact iff_of_false (fun h => h e hmem hkey) nofun

/-- What the service for threads writes is well formed too. -/
theorem ContainerMetadata.WellFormed.threadPart (h : m.WellFormed) : m.threadPart.WellFormed := by
  obtain ⟨l, hl⟩ := h.labels
  refine ⟨⟨l.delete "__proto__", ?_⟩, nofun, nofun⟩
  change stringLabels m.labels = _
  rw [hl, stringLabels_labelsJson]
  rfl

variable {s : Containers} {id k : String} {row : ContainerRow}

theorem get_updateRow (s : Containers) (id k : String) (f : ContainerRow → ContainerRow) :
    (updateRow s id f).get k = if k = id then (s.get id).map f else s.get k := by
  unfold updateRow
  cases hrow : s.get id with
  | none =>
    by_cases hk : k = id
    · rw [if_pos hk, hk, hrow]
      rfl
    · rw [if_neg hk]
  | some row => rw [InsMap.get_set]; rfl

/-- Every column of the table is read back by the registry. -/
def AllStored (s : Containers) : Prop :=
  ∀ id row, s.get id = some row → ∃ m, Stored row.metadata m

theorem AllStored.updateRow (h : AllStored s) {f : ContainerRow → ContainerRow}
    (hf : ∀ row m, Stored row.metadata m → ∃ m', Stored (f row).metadata m') :
    AllStored (updateRow s id f) := by
  intro k row hrow
  rw [get_updateRow] at hrow
  split_ifs at hrow with hk
  · obtain ⟨old, hold, rfl⟩ := Option.map_eq_some_iff.mp hrow
    obtain ⟨m, hm⟩ := h id old hold
    exact hf old m hm
  · exact h k row hrow

def KeepsFields (sets : List String) (v v' : Json) : Prop :=
  ∀ key, key ∉ sets → v'.get key = v.get key

/-- A column that is read, changed in some properties and written back. -/
theorem keepsFields_toJson {sets : List String} (hv : Stored v m) (hm : m'.WellFormed)
    (h : ∀ key ∈ metadataKeys, key ∉ sets → m'.field key = m.field key) :
    KeepsFields sets v m'.toJson := by
  intro key hkey
  rw [get_toJson hm.labels_isDefined, hv.get_eq]
  exact field_congr h hkey

/-- A change of a row that keeps its column readable and changes some of its properties. -/
def Writes (sets : List String) (f : ContainerRow → ContainerRow) : Prop :=
  ∀ row m, Stored row.metadata m →
    (∃ m', Stored (f row).metadata m') ∧ KeepsFields sets row.metadata (f row).metadata

theorem writes_toJson {sets : List String} {f : ContainerRow → ContainerRow}
    {g : ContainerMetadata → ContainerMetadata}
    (hf : ∀ row m, Stored row.metadata m → (f row).metadata = (g m).toJson)
    (hg : ∀ m, m.WellFormed → (g m).WellFormed)
    (hfields : ∀ m, ∀ key ∈ metadataKeys, key ∉ sets → (g m).field key = m.field key) :
    Writes sets f := by
  intro row m hm
  rw [hf row m hm]
  exact ⟨⟨g m, stored_toJson (hg m hm.wellFormed)⟩,
    keepsFields_toJson hm (hg m hm.wellFormed) (hfields m)⟩

theorem writes_markTerminating (reason : String) (claimId : Option String) :
    Writes ["claimId"] (·.markTerminating reason claimId) := by
  refine writes_toJson (g := fun m => { m with claimId := (truthy claimId).or m.claimId })
    (fun row m hm => ?_) (fun m hm => ⟨hm.labels, hm.mounts, hm.health⟩) fun m => ?_
  · rw [ContainerRow.markTerminating, normalizeMetadata_of_stored hm]
  · simp [metadataKeys, ContainerMetadata.field]

theorem writes_markStopped (reason nowIso : String) :
    Writes ["lastEventAt"] (·.markStopped reason nowIso) := by
  refine writes_toJson (g := fun m => { m with lastEventAt := some nowIso })
    (fun row m hm => ?_) (fun m hm => ⟨hm.labels, hm.mounts, hm.health⟩) fun m => ?_
  · rw [ContainerRow.markStopped, normalizeMetadata_of_stored hm]
  · simp [metadataKeys, ContainerMetadata.field]

theorem writes_markDeleted (reason nowIso : String) (now : ℤ) :
    Writes ["lastEventAt"] (·.markDeleted reason nowIso now) := by
  refine writes_toJson (g := fun m => { m with lastEventAt := some nowIso })
    (fun row m hm => ?_) (fun m hm => ⟨hm.labels, hm.mounts, hm.health⟩) fun m => ?_
  · rw [ContainerRow.markDeleted, normalizeMetadata_of_stored hm]
  · simp [metadataKeys, ContainerMetadata.field]

theorem writes_claimForTermination (claimId : String) :
    Writes ["claimId"] (·.claimForTermination claimId) := by
  intro row m hm
  by_cases hrunning : row.status = .running
  · have hclaim : (row.claimForTermination claimId).metadata =
        ({ m with claimId := some claimId } : ContainerMetadata).toJson := by
      rw [ContainerRow.claimForTermination, if_pos hrunning, normalizeMetadata_of_stored hm]
    have hwf : ({ m with claimId := some claimId } : ContainerMetadata).WellFormed :=
      ⟨hm.wellFormed.labels, hm.wellFormed.mounts, hm.wellFormed.health⟩
    rw [hclaim]
    exact ⟨⟨_, stored_toJson hwf⟩, keepsFields_toJson hm hwf
      (by simp [metadataKeys, ContainerMetadata.field])⟩
  · have hrow : row.claimForTermination claimId = row := if_neg hrunning
    change (∃ m', Stored (row.claimForTermination claimId).metadata m') ∧
      KeepsFields _ _ (row.claimForTermination claimId).metadata
    rw [hrow]
    exact ⟨⟨m, hm⟩, fun _ _ => rfl⟩

theorem writes_recordTerminationFailure (message : String) (isoAfter : ℚ → String) :
    Writes ["lastError", "retryAfter", "terminationAttempts"]
      (·.recordTerminationFailure message isoAfter) := by
  refine writes_toJson (g := fun m => { m with
      lastError := some message
      retryAfter := some (isoAfter
        (min (2 ^ (m.terminationAttempts.getD 0).num.toNat * 1000) (15 * 60 * 1000)))
      terminationAttempts := some (m.terminationAttempts.getD 0 + 1) })
    (fun row m hm => ?_) (fun m hm => ⟨hm.labels, hm.mounts, hm.health⟩) fun m => ?_
  · simp only [ContainerRow.recordTerminationFailure, normalizeMetadata_of_stored hm]
  · simp [metadataKeys, ContainerMetadata.field]

/-- Metadata without what the service for threads does not know of. -/
def Bare (v : Json) : Prop :=
  (∀ key ∈ ["mounts", "autoRemoved", "health", "lastEventAt"], v.get key = .undefined) ∧
    (v.get "labels").get "__proto__" = .undefined

theorem optional_eq_undefined {α : Type} {toJson : α → Json}
    (h : ∀ a, (toJson a).isDefined = true) {value : Option α} :
    optional value toJson = .undefined ↔ value = none := by
  cases value with
  | none => simp [optional]
  | some a =>
    have hne : toJson a ≠ .undefined := fun heq => by simpa [heq, isDefined] using h a
    simpa [optional] using hne

theorem bare_iff (h : Stored v m) : Bare v ↔
    (m.mounts = none ∧ m.autoRemoved = none ∧ m.health = none ∧ m.lastEventAt = none) ∧
      stringLabels m.labels = m.labels := by
  obtain ⟨l, hl⟩ := h.wellFormed.labels
  have hlabels : v.get "labels" = labelsJson l := (h.get_eq "labels").trans hl
  rw [Bare, hlabels, hl, stringLabels_eq_self_iff]
  simp only [List.forall_mem_cons, List.not_mem_nil, false_implies, implies_true, and_true,
    h.get_eq, ContainerMetadata.field]
  rw [optional_eq_undefined fun _ => rfl, optional_eq_undefined fun _ => rfl,
    optional_eq_undefined fun _ => rfl, optional_eq_undefined fun _ => rfl]

/-- What the service for threads writes keeps the other properties of bare metadata only. -/
theorem keepsFields_threadPart_iff (h : Stored v m) (claimId : Option String) (nowIso : String) :
    KeepsFields ["claimId", "retryAfter"] v
      ({ m.threadPart with claimId, retryAfter := some nowIso } : ContainerMetadata).toJson ↔
        Bare v := by
  have hpart := h.wellFormed.threadPart
  have hwf : ({ m.threadPart with
      claimId, retryAfter := some nowIso } : ContainerMetadata).WellFormed :=
    ⟨hpart.labels, hpart.mounts, hpart.health⟩
  constructor
  · intro hkeeps
    have hget : ∀ key ∉ ["claimId", "retryAfter"], ({ m.threadPart with
        claimId, retryAfter := some nowIso } : ContainerMetadata).field key = m.field key := by
      intro key hkey
      rw [← get_toJson hwf.labels_isDefined, hkeeps key hkey, h.get_eq]
    refine (bare_iff h).mpr ⟨?_, hget "labels" (by decide)⟩
    have hmounts := hget "mounts" (by decide)
    have hremoved := hget "autoRemoved" (by decide)
    have hhealth := hget "health" (by decide)
    have hlast := hget "lastEventAt" (by decide)
    exact ⟨(optional_eq_undefined fun _ => rfl).mp hmounts.symm,
      (optional_eq_undefined fun _ => rfl).mp hremoved.symm,
      (optional_eq_undefined fun _ => rfl).mp hhealth.symm,
      (optional_eq_undefined fun _ => rfl).mp hlast.symm⟩
  · intro hbare
    obtain ⟨⟨hmounts, hremoved, hhealth, hlast⟩, hlabels⟩ := (bare_iff h).mp hbare
    refine keepsFields_toJson h hwf ?_
    simp [metadataKeys, ContainerMetadata.field, ContainerMetadata.threadPart, hmounts, hremoved,
      hhealth, hlast, hlabels]

theorem writes_claimed (call : ThreadCall) (id : String) :
    Writes ["claimId"] (call.claimed id) := by
  intro row m hm
  unfold ThreadCall.claimed
  split_ifs
  · exact writes_claimForTermination (call.candidate id) row m hm
  · exact ⟨⟨m, hm⟩, fun _ _ => rfl⟩

theorem processContainer_spec (call : ThreadCall) (id : String) (h : Stored row.metadata m) :
    (∃ m', Stored (call.processContainer id row).metadata m') ∧
      (KeepsFields ["claimId", "retryAfter"] row.metadata
        (call.processContainer id row).metadata ↔
          call.updateFails id = true ∨ Bare row.metadata) := by
  obtain ⟨⟨m₁, hm₁⟩, hkeeps⟩ := writes_claimed call id row m h
  have hbare : Bare (call.claimed id row).metadata ↔ Bare row.metadata := by
    have hget : ∀ key ≠ "claimId", (call.claimed id row).metadata.get key = row.metadata.get key :=
      fun key hkey => hkeeps key (by simpa using hkey)
    simp only [Bare, List.forall_mem_cons, hget "labels" (by decide), hget "mounts" (by decide),
      hget "autoRemoved" (by decide), hget "health" (by decide), hget "lastEventAt" (by decide),
      List.not_mem_nil, false_implies, implies_true]
  unfold ThreadCall.processContainer
  by_cases hfails : call.updateFails id = true
  · rw [if_pos hfails]
    refine ⟨⟨m₁, hm₁⟩, iff_of_true (fun key hkey => hkeeps key ?_) (.inl hfails)⟩
    exact fun hmem => hkey (List.mem_cons.mpr (.inl (List.mem_singleton.mp hmem)))
  · obtain ⟨claimId, hnext⟩ : ∃ claimId, call.nextMetadata id row =
        { m₁.threadPart with claimId, retryAfter := some call.nowIso } := by
      rw [ThreadCall.nextMetadata, normalizeThreadMetadata_of_stored hm₁]
      exact ⟨_, rfl⟩
    have hpart := hm₁.wellFormed.threadPart
    rw [if_neg hfails, hnext]
    refine ⟨⟨_, stored_toJson ⟨hpart.labels, hpart.mounts, hpart.health⟩⟩, ?_⟩
    rw [or_iff_right hfails, ← hbare, ← keepsFields_threadPart_iff hm₁ claimId call.nowIso]
    refine forall_congr' fun key => imp_congr_right fun hkey => ?_
    rw [hkeeps key (fun hmem => hkey (List.mem_cons.mpr (.inl (List.mem_singleton.mp hmem))))]

/-- The queue of a call is processed row by row. -/
theorem get_terminateByThread (s : Containers) (call : ThreadCall) (k : String) :
    (terminateByThread s call).get k =
      if k ∈ call.queue s ∧ k ≠ "" then (s.get k).map (call.processContainer k) else s.get k := by
  have hfold : ∀ (queue : List String) (s : Containers), queue.Nodup →
      (queue.foldl (fun s id =>
        if id = "" then s else updateRow s id (call.processContainer id)) s).get k =
        if k ∈ queue ∧ k ≠ "" then (s.get k).map (call.processContainer k) else s.get k := by
    intro queue
    induction queue with
    | nil => intro s _; simp
    | cons id queue ih =>
      intro s hnodup
      obtain ⟨hid, hrest⟩ := List.nodup_cons.mp hnodup
      rw [List.foldl_cons, ih _ hrest]
      by_cases hempty : id = ""
      · subst hempty
        by_cases hk : k = ""
        · simp [hk]
        · simp [hk]
      · rw [if_neg hempty, get_updateRow]
        by_cases hk : k = id
        · subst hk
          simp [hid, hempty]
        · simp [hk]
  exact hfold _ s (InsSet.keys_nodup _)

theorem sanitizeMount_json (mount : ContainerMount) : sanitizeMount (mountJson mount) =
    if trim mount.source = "" ∨ trim mount.destination = "" then none
    else some ⟨trim mount.source, trim mount.destination⟩ := rfl

theorem sanitizeMount_mountJson {entry : Json} {mount : ContainerMount}
    (h : sanitizeMount entry = some mount) : sanitizeMount (mountJson mount) = some mount := by
  unfold sanitizeMount at h
  dsimp only at h
  split_ifs at h with hempty
  obtain rfl := Option.some.inj h
  rw [sanitizeMount_json]
  simp only [trim_trim, if_neg hempty]

theorem AllStored.registerStart (h : AllStored s) (args : StartArgs) (nowIso : String) :
    AllStored (registerStart s args nowIso) := by
  unfold MetadataColumn.registerStart
  dsimp only
  split
  · exact h
  · intro k row hrow
    rw [InsMap.get_set] at hrow
    split_ifs at hrow with hk
    · obtain rfl := Option.some.inj hrow
      refine ⟨_, stored_toJson ⟨⟨_, rfl⟩, fun mounts hmounts => ?_, fun health hhealth =>
        absurd hhealth (Option.not_mem_none health)⟩⟩
      obtain ⟨hne, rfl⟩ : _ ≠ [] ∧ _ = mounts := by
        unfold nonEmpty at hmounts
        split_ifs at hmounts with hempty
        · exact absurd hmounts.symm (Option.some_ne_none _)
        · exact ⟨hempty, Option.some.inj hmounts⟩
      refine ⟨hne, fun mount hmount => ?_⟩
      unfold sanitizeContainerMounts at hmount
      split at hmount
      · obtain ⟨entry, -, hentry⟩ := List.mem_filterMap.mp hmount
        exact sanitizeMount_mountJson hentry
      · exact absurd hmount List.not_mem_nil
    · exact h k row hrow

theorem exists_entries (h : Stored v m) : ∃ isPlain entries, v = .obj isPlain entries := by
  have httl := h.get_eq "ttlSeconds"
  cases v with
  | obj isPlain entries => exact ⟨isPlain, entries, rfl⟩
  | _ => exact absurd httl nofun

theorem lookup_map_set (entries : List (String × Json)) (key k : String) (value : Json) :
    lookup (entries.map fun e => if e.1 = key then (key, value) else e) k =
      if k = key then (lookup entries k).map fun _ => value else lookup entries k := by
  induction entries with
  | nil => simp [lookup]
  | cons e entries ih =>
    simp only [lookup, List.map_cons, List.find?_cons] at ih ⊢
    by_cases he : e.1 = key
    · by_cases hk : k = key
      · simp [he, hk]
      · simpa [he, hk, Ne.symm hk] using ih
    · by_cases hek : e.1 = k
      · have hk : k ≠ key := fun h => he (hek.trans h)
        simp [hek, hk]
      · simpa [he, hek] using ih

theorem get_setField (isPlain : Bool) (entries : List (String × Json)) (key k : String)
    (value : Json) :
    (setField (.obj isPlain entries) key value).get k =
      if k = key then value else (JsValue.obj isPlain entries).get k := by
  unfold setField
  dsimp only
  by_cases hany : entries.any fun e => e.1 = key
  · rw [if_pos hany]
    change (lookup (entries.map fun e => if e.1 = key then (key, value) else e) k).getD
      .undefined = _
    rw [lookup_map_set]
    by_cases hk : k = key
    · obtain ⟨e, he, hek⟩ := List.any_eq_true.mp hany
      have hsome : (entries.find? fun e => e.1 = key).isSome :=
        List.find?_isSome.mpr ⟨e, he, hek⟩
      obtain ⟨found, hfound⟩ := Option.isSome_iff_exists.mp hsome
      simp [hk, lookup, hfound]
    · rw [if_neg hk, if_neg hk]
      rfl
  · rw [if_neg hany]
    change (lookup (entries ++ [(key, value)]) k).getD .undefined = _
    unfold lookup
    rw [List.find?_append]
    by_cases hk : k = key
    · have hnone : entries.find? (fun e => e.1 = key) = none :=
        List.find?_eq_none.mpr fun e he hek => hany (List.any_eq_true.mpr ⟨e, he, hek⟩)
      simp [hk, hnone]
    · have hne : key ≠ k := fun h => hk h.symm
      simp [hk, hne, JsValue.get, lookup]

/-- A property of a stored column is set. -/
theorem stored_setField (h : Stored v m) (m' : ContainerMetadata) (key : String) {value : Json}
    (hm : m'.WellFormed) (hkey : m'.field key = value)
    (hfields : ∀ k ∈ metadataKeys, k ∉ [key] → m'.field k = m.field k) :
    Stored (setField v key value) m' := by
  obtain ⟨isPlain, entries, rfl⟩ := exists_entries h
  refine ⟨hm, fun k => ?_⟩
  rw [get_setField]
  split_ifs with hk
  · rw [hk, hkey]
  · rw [h.get_eq]
    exact (field_congr hfields (by simpa using hk)).symm

theorem stored_eventMetadata (h : Stored v m) (event : EventMetadata) :
    ∃ m', Stored (eventMetadata v event) m' := by
  obtain ⟨isPlain, entries, rfl⟩ := exists_entries h
  obtain ⟨hlabels, hmounts, hhealth⟩ := h.wellFormed
  have hlast := stored_setField h { m with lastEventAt := some event.createdAtIso } "lastEventAt"
    ⟨hlabels, hmounts, hhealth⟩ rfl (by simp [metadataKeys, ContainerMetadata.field])
  have hremoved : ∃ m', Stored (if event.autoRemoved then
      setField (setField (.obj isPlain entries) "lastEventAt" (.str event.createdAtIso))
        "autoRemoved" (.bool true)
      else setField (.obj isPlain entries) "lastEventAt" (.str event.createdAtIso)) m' := by
    split_ifs
    · exact ⟨_, stored_setField hlast
        { m with lastEventAt := some event.createdAtIso, autoRemoved := some true } "autoRemoved"
        ⟨hlabels, hmounts, hhealth⟩ rfl (by simp [metadataKeys, ContainerMetadata.field])⟩
    · exact ⟨_, hlast⟩
  obtain ⟨m₁, hm₁⟩ := hremoved
  unfold eventMetadata
  cases hevent : event.health with
  | none => exact ⟨m₁, hm₁⟩
  | some health =>
    refine ⟨_, stored_setField hm₁ { m₁ with health := some (healthText health) } "health"
      ⟨hm₁.wellFormed.labels, hm₁.wellFormed.mounts, fun text htext => ?_⟩ rfl
        (by simp [metadataKeys, ContainerMetadata.field])⟩
    rw [← Option.some.inj htext]
    cases health <;> decide

theorem AllStored.write (h : AllStored s) (w : Write) : AllStored (w.apply s) := by
  have hwrites : ∀ {sets : List String} {f : ContainerRow → ContainerRow}, Writes sets f →
      ∀ row m, Stored row.metadata m → ∃ m', Stored (f row).metadata m' :=
    fun hf row m hm => (hf row m hm).1
  cases w with
  | markTerminating id reason claimId =>
    exact h.updateRow (hwrites (writes_markTerminating reason claimId))
  | markStopped id reason nowIso => exact h.updateRow (hwrites (writes_markStopped reason nowIso))
  | markDeleted id reason nowIso now =>
    exact h.updateRow (hwrites (writes_markDeleted reason nowIso now))
  | claimForTermination id claimId =>
    exact h.updateRow (hwrites (writes_claimForTermination claimId))
  | recordTerminationFailure id message isoAfter =>
    exact h.updateRow (hwrites (writes_recordTerminationFailure message isoAfter))
  | terminateByThread call =>
    intro k row hrow
    rw [Write.apply, get_terminateByThread] at hrow
    split_ifs at hrow with hk
    · obtain ⟨old, hold, rfl⟩ := Option.map_eq_some_iff.mp hrow
      obtain ⟨m, hm⟩ := h k old hold
      exact (processContainer_spec call k hm).1
    · exact h k row hrow

theorem AllStored.step (h : AllStored s) (parseDate : String → Option ℤ) (step : Step) :
    AllStored (step.apply parseDate s) := by
  cases step with
  | registerStart args nowIso => exact h.registerStart args nowIso
  | handleEvent id event threadId status terminationReason =>
    refine h.updateRow fun row m hm => ?_
    split_ifs
    · exact ⟨m, hm⟩
    · exact stored_eventMetadata hm event
  | write w => exact h.write w

theorem allStored_run (parseDate : String → Option ℤ) (steps : List Step) :
    AllStored (run parseDate steps) := by
  have hfold : ∀ (steps : List Step) (s : Containers), AllStored s →
      AllStored (steps.foldl (Step.apply parseDate) s) := by
    intro steps
    induction steps with
    | nil => exact fun s h => h
    | cons step steps ih => exact fun s h => ih _ (h.step parseDate step)
  exact hfold steps .empty fun id row hrow => absurd hrow nofun

def Write.sets : Write → List String
  | .markTerminating _ _ _ => ["claimId"]
  | .markStopped _ _ _ => ["lastEventAt"]
  | .markDeleted _ _ _ _ => ["lastEventAt"]
  | .claimForTermination _ _ => ["claimId"]
  | .recordTerminationFailure _ _ _ => ["lastError", "retryAfter", "terminationAttempts"]
  | .terminateByThread _ => ["claimId", "retryAfter"]

def Write.containers (s : Containers) : Write → List String
  | .markTerminating id _ _ => [id]
  | .markStopped id _ _ => [id]
  | .markDeleted id _ _ _ => [id]
  | .claimForTermination id _ => [id]
  | .recordTerminationFailure id _ _ => [id]
  | .terminateByThread call => (call.queue s).filter (· ≠ "")

/-- A call keeps the rows of the other containers, and of its own all properties of the metadata
that it does not set. -/
def Write.Keeps (w : Write) (s : Containers) : Prop :=
  ∀ id row, s.get id = some row → ∃ row', (w.apply s).get id = some row' ∧
    KeepsFields w.sets row.metadata row'.metadata ∧ (id ∉ w.containers s → row' = row)

def Write.Harmless (w : Write) (s : Containers) : Prop :=
  ∀ call, w = .terminateByThread call → ∀ id ∈ w.containers s, call.updateFails id = false →
    ∀ row, s.get id = some row → Bare row.metadata

theorem keeps_updateRow {f : ContainerRow → ContainerRow} {w : Write} (h : AllStored s)
    (happly : w.apply s = updateRow s id f) (hcontainers : w.containers s = [id])
    (hf : Writes w.sets f) : w.Keeps s := by
  intro k row hrow
  rw [happly, get_updateRow, hcontainers]
  by_cases hk : k = id
  · subst hk
    obtain ⟨m, hm⟩ := h k row hrow
    refine ⟨f row, by rw [if_pos rfl, hrow]; rfl, (hf row m hm).2, fun hmem => ?_⟩
    exact absurd List.mem_cons_self hmem
  · exact ⟨row, by rw [if_neg hk, hrow], fun _ _ => rfl, fun _ => rfl⟩

theorem keeps_terminateByThread_iff (h : AllStored s) (call : ThreadCall) :
    (Write.terminateByThread call).Keeps s ↔ (Write.terminateByThread call).Harmless s := by
  have hmem : ∀ id, id ∈ (Write.terminateByThread call).containers s ↔
      id ∈ call.queue s ∧ id ≠ "" := by
    intro id
    simp [Write.containers]
  constructor
  · rintro hkeeps _ ⟨⟩ id hid hfails row hrow
    obtain ⟨m, hm⟩ := h id row hrow
    obtain ⟨row', hrow', hfields, -⟩ := hkeeps id row hrow
    rw [Write.apply, get_terminateByThread, if_pos ((hmem id).mp hid), hrow] at hrow'
    rw [← Option.some.inj hrow'] at hfields
    obtain hfails' | hbare := (processContainer_spec call id hm).2.mp hfields
    · rw [hfails] at hfails'
      exact absurd hfails' Bool.false_ne_true
    · exact hbare
  · intro hharmless id row hrow
    rw [Write.apply, get_terminateByThread]
    by_cases hid : id ∈ call.queue s ∧ id ≠ ""
    · obtain ⟨m, hm⟩ := h id row hrow
      refine ⟨_, by rw [if_pos hid, hrow]; rfl, (processContainer_spec call id hm).2.mpr ?_,
        fun hnot => absurd ((hmem id).mpr hid) hnot⟩
      cases hfails : call.updateFails id with
      | true => exact .inl rfl
      | false => exact .inr (hharmless call rfl id ((hmem id).mpr hid) hfails row hrow)
    · exact ⟨row, by rw [if_neg hid, hrow], fun _ _ => rfl, fun _ => rfl⟩

theorem keeps_iff_of_stored (h : AllStored s) (w : Write) : w.Keeps s ↔ w.Harmless s := by
  cases w with
  | markTerminating id reason claimId =>
    exact iff_of_true (keeps_updateRow h rfl rfl (writes_markTerminating reason claimId)) nofun
  | markStopped id reason nowIso =>
    exact iff_of_true (keeps_updateRow h rfl rfl (writes_markStopped reason nowIso)) nofun
  | markDeleted id reason nowIso now =>
    exact iff_of_true (keeps_updateRow h rfl rfl (writes_markDeleted reason nowIso now)) nofun
  | claimForTermination id claimId =>
    exact iff_of_true (keeps_updateRow h rfl rfl (writes_claimForTermination claimId)) nofun
  | recordTerminationFailure id message isoAfter =>
    exact iff_of_true
      (keeps_updateRow h rfl rfl (writes_recordTerminationFailure message isoAfter)) nofun
  | terminateByThread call => exact keeps_terminateByThread_iff h call

/-- Calls one after the other keep what none of them sets. -/
theorem keepsFields_run (h : AllStored s) (ws : List Write)
    (hws : ∀ pre w post, ws = pre ++ w :: post → w.Harmless (pre.foldl Write.apply s))
    (hrow : s.get id = some row) :
    ∃ row', (ws.foldl Write.apply s).get id = some row' ∧
      KeepsFields (ws.flatMap Write.sets) row.metadata row'.metadata := by
  induction ws generalizing s row with
  | nil => exact ⟨row, hrow, fun _ _ => rfl⟩
  | cons w ws ih =>
    obtain ⟨next, hnext, hfirst, -⟩ :=
      (keeps_iff_of_stored h w).mpr (hws [] w ws rfl) id row hrow
    obtain ⟨row', hrow', hrest⟩ := ih (h.write w)
      (fun pre w' post hsplit => hws (w :: pre) w' post (by rw [hsplit]; rfl)) hnext
    refine ⟨row', hrow', fun key hkey => ?_⟩
    rw [List.flatMap_cons, List.mem_append, not_or] at hkey
    rw [hrest key hkey.2, hfirst key hkey.1]

/-- In every state that is reached, a call keeps what it does not set exactly when it is no call
for a thread or marks containers with bare metadata. -/
theorem keeps_iff (parseDate : String → Option ℤ) (steps : List Step) (w : Write) :
    w.Keeps (run parseDate steps) ↔ w.Harmless (run parseDate steps) :=
  keeps_iff_of_stored (allStored_run parseDate steps) w

/-- One container that has just been registered, and a call for its thread. -/
def registered : List Step :=
  [.registerStart ⟨"c1", "t1", "workspace", none, none, none, none⟩ "2025-01-01T00:00:00.000Z"]

def closing : ThreadCall where
  threadId := "t1"
  discovered := []
  nowIso := "2025-01-01T00:01:00.000Z"
  candidate _ := "claim"
  claimFails _ := false
  updateFails _ := false

theorem not_keeps_terminateByThread :
    ¬ (Write.terminateByThread closing).Keeps (run (fun _ => none) registered) := by
  intro h
  have hbare := (keeps_iff_of_stored (allStored_run _ registered) _).mp h closing rfl "c1"
    (by decide) rfl _ rfl
  exact absurd (hbare.1 "lastEventAt" (by decide)) nofun

end Agyn.MetadataColumn
