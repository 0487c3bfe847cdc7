import KuraMetadata.Store.Restore

/-! # Snapshots are lossless

A snapshot of a store is accepted by the constructor that restores it, and from then on the two
stores answer every operation on the data alike. What a snapshot leaves out, the watchers, the
history and the compact revision, no such operation reads. -/

namespace KuraMetadata

variable {s t : InMemoryMetadataStore} {operation : Operation}

namespace InMemoryMetadataStore

open Std EStateM List
open ExtTreeMap (distinct_keys_toList getElem?_insert_eq_some mem_insert
  mem_toList_iff_getElem?_eq_some size_insert_le size_insert_of_getElem?)
open Except (error_bind foldlM_induct forM_eq_ok pure_eq_ok throw_eq_error)

variable {s t : InMemoryMetadataStore} {limits : StoreLimits} {initial revision : Int}
variable {leases leases' : LeaseMap} {value : KeyValue} {values : List KeyValue} {tick : Nat}
variable {batch : Option EventBatch} {records : List LeaseRecord}

/-! ## Stores whose snapshot is accepted -/

/-- What the constructor accepts. Two leases of a snapshot may share a token, so this is not the
invariant of a store without one. -/
structure Restorable (initial : Int) (s : InMemoryMetadataStore) : Prop extends
    Founded initial s where
  admissible : ∀ {id : Int} {lease : StoredLease}, s.leases[id]? = some lease →
    id ≤ maximumLeaseId ∧ lease.grantedTtl ≠ 0
  quota : s.leases.size ≤ s.limits.maxActiveLeases

/-! ## The number of leases -/

theorem detachKey_size (h : detachKey leases value = .ok leases') : leases'.size = leases.size := by
  rcases detachKey_eq_ok h with ⟨-, rfl⟩ | ⟨-, lease, hlease, -, rfl⟩
  · rfl
  · exact size_insert_of_getElem? hlease _

theorem detachPrevious_size {previous : Option KeyValue}
    (h : detachPrevious leases previous = .ok leases') : leases'.size = leases.size := by
  cases previous with
  | none =>
    obtain rfl : leases = leases' := pure_eq_ok.mp h
    rfl
  | some value => exact detachKey_size h

theorem Edits.size_leases {values values' : ValueMap} {events : List WatchEvent}
    (edits : Edits revision values leases events values' leases') :
    leases'.size = leases.size := by
  induction edits with
  | nil => rfl
  | put edits _ _ _ detach attach ih =>
    rw [← ih, ← detachPrevious_size detach]
    split at attach
    · obtain rfl := pure_eq_ok.mp attach
      rfl
    · obtain ⟨lease, hlease, rfl⟩ := attachKey_eq_ok attach
      exact size_insert_of_getElem? hlease _
  | erase edits _ detach ih => rw [detachKey_size detach, ih]

theorem size_eraseLeases_le (leases : LeaseMap) (ids : List Int) :
    (eraseLeases leases ids).size ≤ leases.size := by
  unfold eraseLeases
  induction ids generalizing leases with
  | nil => exact le_rfl
  | cons id ids ih => exact (ih (leases.erase id)).trans ExtTreeMap.size_erase_le

/-! ## Calls -/

theorem DataChange.quota (change : DataChange s batch t)
    (h : s.leases.size ≤ s.limits.maxActiveLeases) : t.leases.size ≤ t.limits.maxActiveLeases := by
  cases change with
  | ticked => exact h
  | granted _ _ _ _ quota => exact size_insert_le.trans quota
  | renewed _ found => exact (size_insert_of_getElem? found _).le.trans h
  | edited _ _ edits => exact edits.size_leases.le.trans h
  | cleaned => exact (size_eraseLeases_le _ _).trans h

theorem Restorable.change (h : Restorable initial s) (change : Change s batch t) :
    Restorable initial t := by
  refine ⟨h.toFounded.change change, fun {id lease} hlease => ?_, ?_⟩
  · rcases change.origin hlease with ⟨found, -, httl, -⟩ | ⟨-, -, hid, -, -, -, httl, -⟩
    · exact httl ▸ h.admissible found
    · exact ⟨hid, httl⟩
  · cases change with
    | data change => exact change.quota h.quota
    | watching => exact h.quota

/-! ## Constructed stores -/

theorem restorable_ofRevision (h : ofRevision revision limits = .ok s) :
    Restorable s.revision s := by
  have hwell := wellFormed_ofRevision h
  obtain ⟨-, rfl⟩ := ofRevision_eq_ok.mp h
  refine ⟨hwell.toFounded, ?_, ?_⟩
  all_goals simp

theorem restorable_ofValues (h : ofValues values revision limits = .ok s) :
    Restorable s.revision s := by
  have hwell := wellFormed_ofValues h
  have hempty : s.leases = ∅ := by
    simp only [ofValues, Except.bind_eq_ok] at h
    obtain ⟨empty, hempty, h⟩ := h
    obtain ⟨-, rfl⟩ := ofRevision_eq_ok.mp hempty
    refine foldlM_induct (P := fun s => s.leases = ∅) h rfl fun {a b value} ha hb => ?_
    obtain ⟨-, -, -, -, rfl⟩ := insertInitial_eq_ok hb
    exact ha
  refine ⟨hwell.toFounded, ?_, ?_⟩
  all_goals simp [hempty]

theorem restoreLease_checked {record : LeaseRecord} (h : restoreLease s record = .ok t) :
    1 ≤ record.id ∧ record.id ≤ maximumLeaseId ∧ 1 ≤ record.fencingToken
      ∧ record.grantedTtl ≠ 0 := by
  simp only [restoreLease, Except.bind_eq_ok, throw_eq_error, error_bind,
    Except.ite_error_eq_ok, not_or] at h
  obtain ⟨⟨hpos, hmax, htoken, httl⟩, -⟩ := h
  exact ⟨by omega, by omega, by omega, httl⟩

theorem restoreLeases_size (h : records.foldlM restoreLease s = .ok t) :
    t.leases.size ≤ s.leases.size + records.length := by
  induction records generalizing s with
  | nil =>
    obtain rfl := pure_eq_ok.mp h
    exact le_rfl
  | cons record records ih =>
    simp only [foldlM_cons, Except.bind_eq_ok] at h
    obtain ⟨a, ha, h⟩ := h
    obtain ⟨-, rfl⟩ := restoreLease_eq_ok ha
    have hinsert : (s.leases.insert record.id (restoredLease record)).size ≤ s.leases.size + 1 :=
      size_insert_le
    have hrest : t.leases.size
        ≤ (s.leases.insert record.id (restoredLease record)).size + records.length := ih h
    rw [length_cons]
    omega

/-- What the loop over the records has established of the leases it leaves. -/
theorem restoreLeases_checked (h : records.foldlM restoreLease s = .ok t) (hempty : s.leases = ∅) :
    t = { s with leases := t.leases }
      ∧ ∀ {id : Int} {lease : StoredLease}, t.leases[id]? = some lease →
        1 ≤ id ∧ id ≤ maximumLeaseId ∧ 1 ≤ lease.fencingToken ∧ lease.grantedTtl ≠ 0 := by
  refine foldlM_induct (P := fun t => t = { s with leases := t.leases }
      ∧ ∀ {id : Int} {lease : StoredLease}, t.leases[id]? = some lease →
        1 ≤ id ∧ id ≤ maximumLeaseId ∧ 1 ≤ lease.fencingToken ∧ lease.grantedTtl ≠ 0) h ?_ ?_
  · refine ⟨rfl, fun {id lease} hlease => ?_⟩
    rw [hempty] at hlease
    simp at hlease
  · intro a b record ha hb
    obtain ⟨hframe, hleases⟩ := ha
    have hrecord := restoreLease_checked hb
    obtain ⟨-, rfl⟩ := restoreLease_eq_ok hb
    refine ⟨by rw [hframe], fun {id lease} hlease => ?_⟩
    rcases getElem?_insert_eq_some.mp hlease with ⟨rfl, rfl⟩ | ⟨-, hlease⟩
    · exact hrecord
    · exact hleases hlease

theorem checkRestoredAttachment_eq_ok {v : Unit} :
    s.checkRestoredAttachment value = .ok v
      ↔ ∃ lease, s.leases[value.leaseId]? = some lease ∧ value.key ∈ lease.attachedKeys := by
  unfold checkRestoredAttachment
  cases s.leases[value.leaseId]? with
  | none => simp
  | some lease =>
    by_cases hkey : value.key ∈ lease.attachedKeys
    · simp [hkey]
    · simp [hkey]

theorem restoreValue_checked (h : restoreValue s value = .ok t) :
    value.key ≠ [] ∧ Dated s.revision s.revision value ∧ (value.leaseId ≠ 0 →
        ∃ lease, s.leases[value.leaseId]? = some lease ∧ value.key ∈ lease.attachedKeys) := by
  simp only [restoreValue, Except.bind_eq_ok, validateKey_eq_ok, throw_eq_error,
    error_bind, Except.ite_error_eq_ok, not_or, Int.not_le, Int.not_lt] at h
  obtain ⟨_, hkey, ⟨hversion, hcreated, hmodified, hpresent, -⟩, -, _, hattached, -⟩ := h
  refine ⟨hkey, ⟨hversion, hcreated, hmodified, hpresent, fun hinitial => ?_⟩, fun hleased => ?_⟩
  · omega
  · rw [if_neg hleased, checkRestoredAttachment_eq_ok] at hattached
    exact hattached

/-- What the loop over the values has established of the values it leaves. -/
theorem restoreValues_checked (h : values.foldlM restoreValue s = .ok t) (hempty : s.values = ∅) :
    t = { s with values := t.values }
      ∧ ∀ {key : ByteSequence} {value : KeyValue}, t.values[key]? = some value →
        value.key = key ∧ key ≠ [] ∧ Dated s.revision s.revision value ∧ (value.leaseId ≠ 0 →
            ∃ lease, s.leases[value.leaseId]? = some lease ∧ key ∈ lease.attachedKeys) := by
  refine foldlM_induct (P := fun t => t = { s with values := t.values }
      ∧ ∀ {key : ByteSequence} {value : KeyValue}, t.values[key]? = some value →
        value.key = key ∧ key ≠ [] ∧ Dated s.revision s.revision value ∧ (value.leaseId ≠ 0 →
            ∃ lease, s.leases[value.leaseId]? = some lease ∧ key ∈ lease.attachedKeys)) h ?_ ?_
  · refine ⟨rfl, fun {key value} hvalue => ?_⟩
    rw [hempty] at hvalue
    simp at hvalue
  · intro a b value ha hb
    obtain ⟨hframe, hvalues⟩ := ha
    have hvalue := restoreValue_checked hb
    obtain ⟨-, rfl⟩ := restoreValue_eq_ok hb
    refine ⟨by rw [hframe], fun {key found} hfound => ?_⟩
    rcases getElem?_insert_eq_some.mp hfound with ⟨rfl, rfl⟩ | ⟨-, hfound⟩
    · rw [hframe] at hvalue
      exact ⟨rfl, hvalue⟩
    · exact hvalues hfound

theorem checkRestoredLease_eq_ok {entry : Int × StoredLease} {v : Unit} :
    s.checkRestoredLease entry = .ok v
      ↔ entry.1 < s.nextLeaseId ∧ entry.2.fencingToken < s.nextFencingToken
        ∧ ∀ key ∈ entry.2.attachedKeys,
          ∃ value, s.values[key]? = some value ∧ value.leaseId = entry.1 := by
  simp only [checkRestoredLease, throw_eq_error, error_bind, Except.ite_error_eq_ok,
    not_or, Int.not_le, Nat.not_le, forM_eq_ok, ExtTreeSet.mem_toList, ne_eq, not_not,
    Option.map_eq_some_iff, pure_eq_ok, and_true, and_assoc]

/-- The constructor accepts only snapshots whose store is restorable. -/
theorem restorable_ofSnapshot {snapshot : InMemoryStoreSnapshot}
    (h : ofSnapshot snapshot limits = .ok s) : Restorable s.revision s := by
  simp only [ofSnapshot, Except.bind_eq_ok, throw_eq_error, error_bind,
    Except.ite_error_eq_ok, pure_eq_ok, not_or, Int.not_lt, Int.not_le, Nat.not_lt,
    forM_eq_ok, Prod.forall, mem_toList_iff_getElem?_eq_some,
    checkRestoredLease_eq_ok] at h
  obtain ⟨⟨hrevision, hid, htoken⟩, hquota, leased, hleased, valued, hvalued, _, hchecked, rfl⟩ := h
  have hsize := restoreLeases_size hleased
  obtain ⟨hframe, hleases⟩ := restoreLeases_checked hleased rfl
  rw [hframe] at hvalued
  obtain ⟨hframe', hvalues⟩ := restoreValues_checked hvalued rfl
  rw [hframe'] at hchecked ⊢
  refine ⟨⟨⟨fun hvalue => (hvalues hvalue).1, fun hvalue => (hvalues hvalue).2.2.2, ?_, ?_⟩,
    fun hvalue => (hvalues hvalue).2.imp id And.left, ?_, ⟨hrevision, le_rfl⟩,
    ⟨hid, Nat.pos_of_ne_zero htoken⟩⟩, ?_, ?_⟩
  · exact fun hlease => (hchecked _ _ hlease).2.2
  · rw [Option.eq_none_iff_forall_ne_some]
    intro lease hlease
    exact absurd (hleases hlease).1 (by decide)
  · intro id lease hlease
    obtain ⟨hpos, -, htpos, -⟩ := hleases hlease
    obtain ⟨hlt, htlt, -⟩ := hchecked _ _ hlease
    exact ⟨hpos, hlt, htpos, htlt⟩
  · intro id lease hlease
    exact ⟨(hleases hlease).2.1, (hleases hlease).2.2.2⟩
  · show leased.leases.size ≤ limits.maxActiveLeases
    have : (∅ : LeaseMap).size = 0 := ExtTreeMap.size_empty
    change leased.leases.size ≤ (∅ : LeaseMap).size + _ at hsize
    omega

/-! ## The snapshot of a restorable store is accepted -/

theorem exists_restoreAttachments {keys : List ByteSequence} {stored : StoredLease}
    (hkeys : ∀ key ∈ keys, key ≠ []) (hnodup : keys.Nodup) (hempty : stored.attachedKeys = ∅) :
    ∃ restored, keys.foldlM restoreAttachment stored = .ok restored := by
  have := @Except.exists_foldlM_eq_ok _ _ _ restoreAttachment
    (fun done stored => ∀ key ∈ stored.attachedKeys, key ∈ done) keys stored
    (by simp [hempty]) ?_
  · obtain ⟨restored, h, -⟩ := this
    exact ⟨restored, h⟩
  intro done rest key a hl ha
  have hkey : key ≠ [] := hkeys key (by simp [hl])
  have hfresh : key ∉ a.attachedKeys := by
    intro hmem
    rw [hl] at hnodup
    exact disjoint_of_nodup_append hnodup (ha key hmem) mem_cons_self
  refine ⟨{ a with attachedKeys := a.attachedKeys.insert key }, ?_, ?_⟩
  · simp only [restoreAttachment, Except.bind_eq_ok, validateKey_eq_ok, throw_eq_error,
      error_bind, Except.ite_error_eq_ok, pure_eq_ok]
    exact ⟨(), hkey, hfresh, trivial⟩
  · intro other hother
    rcases ExtTreeSet.mem_insert.mp hother with he | hother
    · rw [← LawfulEqCmp.compare_eq_iff_eq.mp he]
      simp
    · exact mem_append_left _ (ha other hother)

theorem leaseRecords_nodup (s : InMemoryMetadataStore) :
    (s.snapshot.leases.map LeaseRecord.id).Nodup := by
  unfold snapshot List.Nodup
  rw [map_map, pairwise_map]
  refine distinct_keys_toList.imp fun {a b} hab he => ?_
  exact hab (LawfulEqCmp.compare_eq_iff_eq.mpr he)

section

variable (h : Restorable initial s)
include h

/-- The loop over the records of a snapshot accepts them. -/
theorem Restorable.exists_restoreLeases (hempty : t.leases = ∅) :
    ∃ leased, s.snapshot.leases.foldlM restoreLease t = .ok leased := by
  have := @Except.exists_foldlM_eq_ok _ _ _ restoreLease
    (fun done (a : InMemoryMetadataStore) => ∀ id ∈ a.leases, id ∈ done.map LeaseRecord.id)
    s.snapshot.leases t (by simp [hempty]) ?_
  · obtain ⟨leased, hleased, -⟩ := this
    exact ⟨leased, hleased⟩
  intro done rest record a hl ha
  have hrecord : record ∈ s.snapshot.leases := by
    rw [hl]
    simp
  have hfresh : record.id ∉ a.leases := by
    intro hmem
    have hnodup := s.leaseRecords_nodup
    rw [hl, map_append, map_cons] at hnodup
    exact disjoint_of_nodup_append hnodup (ha _ hmem) mem_cons_self
  obtain ⟨⟨id, lease⟩, hmem, rfl⟩ := mem_map.mp hrecord
  have hlease := mem_toList_iff_getElem?_eq_some.mp hmem
  obtain ⟨restored, hrestored⟩ := @exists_restoreAttachments lease.attachedKeys.toList
      { fencingToken := lease.fencingToken, grantedTtl := lease.grantedTtl,
        expiryTick := lease.expiryTick }
      (fun key hkey => by
        obtain ⟨value, hvalue, -⟩ := h.index.bound hlease key (ExtTreeSet.mem_toList.mp hkey)
        exact (h.dated hvalue).1)
      (ExtTreeSet.distinct_toList.imp fun {a b} hab he =>
        hab (LawfulEqCmp.compare_eq_iff_eq.mpr he)) rfl
  refine ⟨{ a with leases := a.leases.insert id restored }, ?_, ?_⟩
  · simp only [restoreLease, Except.bind_eq_ok, throw_eq_error, error_bind,
      Except.ite_error_eq_ok, pure_eq_ok]
    have hvalid : ¬ (id ≤ 0 ∨ maximumLeaseId < id ∨ lease.fencingToken = 0
        ∨ lease.grantedTtl = 0) := by
      obtain ⟨hpos, -, htoken, -⟩ := h.allocated hlease
      obtain ⟨hmax, httl⟩ := h.admissible hlease
      omega
    exact ⟨hvalid, restored, hrestored, hfresh, rfl⟩
  · intro other hother
    rw [map_append, mem_append]
    rcases mem_insert.mp hother with he | hother
    · rw [← LawfulEqCmp.compare_eq_iff_eq.mp he]
      exact .inr mem_cons_self
    · exact .inl (ha other hother)

theorem Restorable.values_nodup :
    (s.snapshot.values.map KeyValue.key).Nodup := by
  unfold snapshot List.Nodup
  rw [map_map, pairwise_map]
  refine (distinct_keys_toList (t := s.values)).imp_of_mem fun {a b} ha hb hab he => ?_
  have hkey := h.index.keyed (mem_toList_iff_getElem?_eq_some.mp ha)
  have hkey' := h.index.keyed (mem_toList_iff_getElem?_eq_some.mp hb)
  exact hab (LawfulEqCmp.compare_eq_iff_eq.mpr (by rw [← hkey, ← hkey']; exact he))

/-- The loop over the values of a snapshot accepts them once the leases are restored. -/
theorem Restorable.exists_restoreValues (hempty : t.values = ∅)
    (hleases : t.leases = s.leases) (hrevision : t.revision = s.revision) :
    ∃ valued, s.snapshot.values.foldlM restoreValue t = .ok valued := by
  have := @Except.exists_foldlM_eq_ok _ _ _ restoreValue
    (fun done (a : InMemoryMetadataStore) => a.leases = s.leases ∧ a.revision = s.revision
      ∧ ∀ key ∈ a.values, key ∈ done.map KeyValue.key)
    s.snapshot.values t ⟨hleases, hrevision, by simp [hempty]⟩ ?_
  · obtain ⟨valued, hvalued, -⟩ := this
    exact ⟨valued, hvalued⟩
  rintro done rest value a hl ⟨haleases, harevision, ha⟩
  have hmem : value ∈ s.snapshot.values := by
    rw [hl]
    simp
  have hfresh : value.key ∉ a.values := by
    intro hmem
    have hnodup := h.values_nodup
    rw [hl, map_append, map_cons] at hnodup
    exact disjoint_of_nodup_append hnodup (ha _ hmem) mem_cons_self
  obtain ⟨⟨key, value⟩, hentry, rfl⟩ := mem_map.mp hmem
  have hstored := mem_toList_iff_getElem?_eq_some.mp hentry
  obtain rfl := h.index.keyed hstored
  obtain ⟨hkey, hdated⟩ := h.dated hstored
  have hattached : value.leaseId ≠ 0 →
      ∃ lease, a.leases[value.leaseId]? = some lease ∧ value.key ∈ lease.attachedKeys := by
    rw [haleases]
    exact h.index.attached hstored
  have hvalid : ¬ (value.version ≤ 0 ∨ value.createRevision ≤ 0
      ∨ value.modRevision < value.createRevision ∨ a.revision < value.modRevision
      ∨ value.leaseId < 0) := by
    have hlease : 0 ≤ value.leaseId := by
      by_cases hleased : value.leaseId = 0
      · omega
      · obtain ⟨lease, hlease, -⟩ := h.index.attached hstored hleased
        have := (h.allocated hlease).id_pos
        omega
    obtain ⟨hversion, hcreated, hmodified, hpresent, -⟩ := hdated
    omega
  refine ⟨{ a with values := a.values.insert value.key value }, ?_, haleases, harevision, ?_⟩
  · simp only [restoreValue, Except.bind_eq_ok, validateKey_eq_ok, throw_eq_error,
      error_bind, Except.ite_error_eq_ok, pure_eq_ok]
    refine ⟨(), hkey, hvalid, hfresh, (), ?_, trivial⟩
    by_cases hleased : value.leaseId = 0
    · rw [if_pos hleased]
      rfl
    · rw [if_neg hleased, checkRestoredAttachment_eq_ok]
      exact hattached hleased
  · intro other hother
    rw [map_append, mem_append]
    rcases mem_insert.mp hother with he | hother
    · rw [← LawfulEqCmp.compare_eq_iff_eq.mp he]
      exact .inr mem_cons_self
    · exact .inl (ha other hother)

theorem Restorable.exists_ofSnapshot :
    ∃ t, ofSnapshot s.snapshot s.limits = .ok t := by
  have hopened := h.opened
  have hcounters := h.counters
  have hvalid : ¬ (s.snapshot.revision < 0 ∨ s.snapshot.nextLeaseId ≤ 0
      ∨ s.snapshot.nextFencingToken = 0) := by
    show ¬ (s.revision < 0 ∨ s.nextLeaseId ≤ 0 ∨ s.nextFencingToken = 0)
    omega
  have hquota : ¬ s.limits.maxActiveLeases < s.snapshot.leases.length := by
    have hlength : s.snapshot.leases.length = s.leases.size := by
      rw [snapshot, length_map, ExtTreeMap.length_toList]
    rw [hlength, Nat.not_lt]
    exact h.quota
  obtain ⟨leased, hleased⟩ := @Restorable.exists_restoreLeases s
    { limits := s.limits, revision := s.revision, compactRevision := s.revision,
      logicalTick := s.logicalTick, nextLeaseId := s.nextLeaseId,
      nextFencingToken := s.nextFencingToken } initial h rfl
  obtain rfl := restoreLeases_eq_ok hleased rfl
  obtain ⟨valued, hvalued⟩ := @Restorable.exists_restoreValues s
    { limits := s.limits, revision := s.revision, compactRevision := s.revision,
      leases := s.leases, logicalTick := s.logicalTick, nextLeaseId := s.nextLeaseId,
      nextFencingToken := s.nextFencingToken } initial h rfl rfl rfl
  obtain rfl := restoreValues_eq_ok h.index hvalued rfl
  refine ⟨{ s with compactRevision := s.revision, history := [], watchers := ∅ }, ?_⟩
  simp only [ofSnapshot, Except.bind_eq_ok, throw_eq_error, error_bind,
    Except.ite_error_eq_ok, pure_eq_ok, forM_eq_ok, Prod.forall,
    mem_toList_iff_getElem?_eq_some, checkRestoredLease_eq_ok]
  refine ⟨hvalid, hquota, _, hleased, _, hvalued, (), ?_, rfl⟩
  intro id lease hlease
  have hallocated := h.allocated hlease
  exact ⟨hallocated.id_lt, hallocated.token_lt, h.index.bound hlease⟩

end

/-! ## Stores that differ in what a snapshot leaves out -/

/-- The stores differ only in their watchers, history and compact revision. -/
def SameData (s t : InMemoryMetadataStore) : Prop :=
  t = { s with
    compactRevision := t.compactRevision, history := t.history, watchers := t.watchers }

/-- The call treats stores with the same data alike. -/
abbrev Blind {α : Type} (call : StoreM α) : Prop := Agree SameData call call

theorem SameData.snapshot_eq (h : SameData s t) : t.snapshot = s.snapshot := by
  rw [h]
  rfl

/-- An update that writes the same data into both stores may stand before programs that agree. -/
theorem agree_update {α : Type} {f g : InMemoryMetadataStore → InMemoryMetadataStore}
    {k k' : PUnit → StoreM α}
    (h : ∀ s compactRevision history watchers,
      SameData (f s) (g { s with compactRevision, history, watchers }))
    (hk : Agree SameData (k ⟨⟩) (k' ⟨⟩)) :
    Agree SameData ((modify f : StoreM PUnit) >>= k) ((modify g : StoreM PUnit) >>= k') := by
  refine Agree.bind (agree_modify fun s t hst => ?_) fun _ => hk
  rw [hst]
  exact h s _ _ _

theorem agree_commitWatchPublication (publication publication' : StagedWatchPublication) :
    Agree SameData (commitWatchPublication publication) (commitWatchPublication publication') := by
  iterate 2 refine agree_update (fun _ _ _ _ => rfl) ?_
  refine agree_modify fun s t hst => ?_
  rw [hst]
  rfl

theorem agree_commitStaged (batch : Option EventBatch)
    (stage stage' : EventBatch → StagedWatchPublication) :
    Agree SameData (commitStaged (batch.map stage)) (commitStaged (batch.map stage')) := by
  cases batch with
  | none => exact agree_pure _
  | some batch => exact agree_commitWatchPublication _ _

theorem agree_read {α : Type} {f g : InMemoryMetadataStore → StoreM α}
    (h : ∀ s compactRevision history watchers,
      Agree SameData (f s) (g { s with compactRevision, history, watchers })) :
    Agree SameData (MonadState.get >>= f) (MonadState.get >>= g) := by
  refine agree_get_bind fun s t hst => ?_
  rw [hst]
  exact h s _ _ _

theorem agree_get (key : ByteSequence) : Blind (get key) := by
  refine (agree_ofExcept _).bind fun _ => agree_read fun _ _ _ _ => ?_
  exact agree_pure _

theorem agree_range (start stop : ByteSequence) : Blind (range start stop) := by
  refine (agree_ofExcept _).bind fun _ => (agree_ofExcept _).bind fun _ => Agree.check ?_
  refine agree_read fun _ _ _ _ => ?_
  exact agree_pure _

theorem agree_putLocked (key value : ByteSequence) : Blind (putLocked key value) := by
  refine agree_read fun s _ _ _ => ?_
  refine (agree_ofExcept s.nextRevision).bind fun _ => Agree.check ?_
  refine (agree_ofExcept _).bind fun _ => ?_
  iterate 3 refine agree_update (fun _ _ _ _ => rfl) ?_
  exact (agree_commitWatchPublication _ _).bind fun _ => agree_pure _

theorem agree_put (key value : ByteSequence) : Blind (put key value) :=
  (agree_ofExcept _).bind fun _ => agree_putLocked key value

theorem agree_erase (key : ByteSequence) : Blind (erase key) := by
  refine (agree_ofExcept _).bind fun _ => agree_read fun s _ _ _ => ?_
  dsimp only
  cases s.values[key]? with
  | none => exact agree_pure _
  | some previous =>
    refine (agree_ofExcept s.nextRevision).bind fun _ => (agree_ofExcept _).bind fun _ => ?_
    iterate 3 refine agree_update (fun _ _ _ _ => rfl) ?_
    exact (agree_commitWatchPublication _ _).bind fun _ => agree_pure _

theorem agree_compareAndSet (key : ByteSequence) (expectedModRevision : Int)
    (newValue : ByteSequence) :
    Blind (compareAndSet key expectedModRevision newValue) := by
  refine (agree_ofExcept _).bind fun _ => Agree.check (agree_read fun _ _ _ _ => ?_)
  refine Agree.ite ?_ (agree_pure _)
  exact (agree_putLocked key newValue).bind fun _ => agree_pure _

theorem agree_transaction (request : TransactionRequest) : Blind (transaction request) := by
  refine agree_read fun s _ _ _ => ?_
  refine (agree_ofExcept (s.planTransaction request)).bind fun _ => ?_
  iterate 4 refine agree_update (fun _ _ _ _ => rfl) ?_
  exact (agree_commitStaged _ _ _).bind fun _ => agree_pure _

theorem agree_grantLease (request : LeaseGrantRequest) : Blind (grantLease request) := by
  refine agree_read fun s _ _ _ => ?_
  refine (agree_ofExcept (s.validateTick request.tick)).bind fun _ => ?_
  refine Agree.check (Agree.check (Agree.check (Agree.check ?_)))
  refine (agree_ofExcept (s.chooseLeaseId request.requestedId)).bind fun _ => Agree.check ?_
  iterate 4 refine agree_update (fun _ _ _ _ => rfl) ?_
  exact agree_pure _

theorem agree_renewLease (request : LeaseKeepAliveRequest) (result : LeaseLookupResult) :
    Blind (renewLease request result) := by
  refine agree_read fun s _ _ _ => ?_
  dsimp only
  split
  · refine Agree.ite (agree_pure _) (Agree.check ?_)
    exact agree_update (fun _ _ _ _ => rfl) (agree_pure _)
  · exact agree_pure _

theorem agree_keepAlive (request : LeaseKeepAliveRequest) : Blind (keepAlive request) := by
  refine agree_read fun s _ _ _ => ?_
  refine (agree_ofExcept (s.validateTick request.tick)).bind fun _ => Agree.check ?_
  refine (agree_renewLease request (s.lookupLease request.id request.tick)).bind fun _ => ?_
  exact agree_update (fun _ _ _ _ => rfl) (agree_pure _)

theorem agree_timeToLive (request : LeaseTimeToLiveRequest) : Blind (timeToLive request) := by
  refine agree_read fun s _ _ _ => ?_
  refine (agree_ofExcept (s.validateTick request.tick)).bind fun _ => Agree.check ?_
  exact agree_pure _

theorem agree_removeLeases (ids : List Int) (code : LeaseResultCode) :
    Blind (removeLeases ids code) := by
  refine agree_read fun s _ _ _ => ?_
  refine (agree_ofExcept (ids.mapM s.attachedValues)).bind fun _ => ?_
  refine (agree_ofExcept (if ids.isEmpty then pure s.revision else s.nextRevision)).bind fun _ => ?_
  iterate 3 refine agree_update (fun _ _ _ _ => rfl) ?_
  exact (agree_commitStaged _ _ _).bind fun _ => agree_pure _

theorem agree_revokeLease (request : LeaseRevokeRequest) : Blind (revokeLease request) := by
  refine agree_read fun s _ _ _ => ?_
  refine (agree_ofExcept (s.validateTick request.tick)).bind fun _ => Agree.check ?_
  dsimp only
  cases s.leases[request.id]? with
  | none => exact agree_update (fun _ _ _ _ => rfl) (agree_pure _)
  | some lease =>
    refine Agree.ite (agree_update (fun _ _ _ _ => rfl) (agree_pure _)) ?_
    refine (agree_removeLeases _ _).bind fun _ => ?_
    exact agree_update (fun _ _ _ _ => rfl) (agree_pure _)

theorem agree_expireLeases (tick : Nat) : Blind (expireLeases tick) := by
  refine agree_read fun s _ _ _ => ?_
  refine (agree_ofExcept (s.validateTick tick)).bind fun _ => ?_
  refine (agree_removeLeases _ _).bind fun _ => ?_
  exact agree_update (fun _ _ _ _ => rfl) (agree_pure _)

/-- No operation on the data reads what a snapshot leaves out. -/
theorem agree_run (hdata : operation.watches = false) : Blind operation.run := by
  cases operation with
  | get key => exact (agree_get key).bind fun _ => agree_pure _
  | range start stop => exact (agree_range start stop).bind fun _ => agree_pure _
  | put key value => exact (agree_put key value).bind fun _ => agree_pure _
  | erase key => exact (agree_erase key).bind fun _ => agree_pure _
  | compareAndSet key expectedModRevision newValue =>
    exact (agree_compareAndSet key _ newValue).bind fun _ => agree_pure _
  | transaction request => exact (agree_transaction request).bind fun _ => agree_pure _
  | grantLease request => exact (agree_grantLease request).bind fun _ => agree_pure _
  | keepAlive request => exact (agree_keepAlive request).bind fun _ => agree_pure _
  | timeToLive request => exact (agree_timeToLive request).bind fun _ => agree_pure _
  | revokeLease request => exact (agree_revokeLease request).bind fun _ => agree_pure _
  | expireLeases tick => exact (agree_expireLeases tick).bind fun _ => agree_pure _
  | createWatch request | pollWatch id | requestWatchProgress id | cancelWatch id => cases hdata

end InMemoryMetadataStore

open InMemoryMetadataStore

/-! ## Runs of the two stores -/

/-- A store just constructed, from whatever snapshot the constructor accepts. -/
inductive Constructed : InMemoryMetadataStore → Prop
  | ofRevision {revision : Int} {limits : StoreLimits} {s : InMemoryMetadataStore} :
      InMemoryMetadataStore.ofRevision revision limits = .ok s → Constructed s
  | ofValues {values : List KeyValue} {revision : Int} {limits : StoreLimits}
      {s : InMemoryMetadataStore} :
      InMemoryMetadataStore.ofValues values revision limits = .ok s → Constructed s
  | ofSnapshot {snapshot : InMemoryStoreSnapshot} {limits : StoreLimits}
      {s : InMemoryMetadataStore} :
      InMemoryMetadataStore.ofSnapshot snapshot limits = .ok s → Constructed s

theorem Constructed.restorable (constructed : Constructed s) : Restorable s.revision s := by
  cases constructed with
  | ofRevision h => exact restorable_ofRevision h
  | ofValues h => exact restorable_ofValues h
  | ofSnapshot h => exact restorable_ofSnapshot h

theorem Run.restorable {calls : List Call} {initial : Int} (run : Run s calls t)
    (h : Restorable initial s) : Restorable initial t :=
  run.induct h fun call hbefore => hbefore.change call.change

/-- What a caller sees of a call: its answer and the snapshot of the store after it. -/
def Call.observed (call : Call) : Option Reply × InMemoryStoreSnapshot :=
  (call.reply, call.after.snapshot)

theorem Call.agree (h : SameData s t) (hdata : operation.watches = false) :
    (Call.mk s operation).reply = (Call.mk t operation).reply
      ∧ SameData (Call.mk s operation).after (Call.mk t operation).after := by
  unfold Call.reply Call.after Call.outcome
  have hagree := agree_run hdata s t h
  dsimp only
  generalize operation.run s = r at hagree ⊢
  generalize operation.run t = r' at hagree ⊢
  cases hagree with
  | ok states | error states => exact ⟨rfl, states⟩

theorem callsFrom_agree (h : SameData s t) {operations : List Operation}
    (hdata : ∀ operation ∈ operations, operation.watches = false) :
    (callsFrom s operations).map Call.observed = (callsFrom t operations).map Call.observed
      ∧ SameData (stateAfter s operations) (stateAfter t operations) := by
  induction operations generalizing s t with
  | nil => exact ⟨rfl, h⟩
  | cons operation operations ih =>
    obtain ⟨hfirst, hrest⟩ := List.forall_mem_cons.mp hdata
    obtain ⟨hreply, hafter⟩ := Call.agree h hfirst
    obtain ⟨hobserved, hlast⟩ := ih hafter hrest
    refine ⟨?_, hlast⟩
    simp only [callsFrom, List.map_cons, hobserved, Call.observed, hreply, hafter.snapshot_eq]

/-- From any state of any run, the store restored from the snapshot exists, has the same
snapshot, and answers any operations on the data as the original does, with equal snapshots
after each. -/
theorem restore_snapshot_lossless {calls : List Call}
    (constructed : Constructed s) (run : Run s calls t) :
    ∃ restored, ofSnapshot t.snapshot t.limits = .ok restored ∧ restored.snapshot = t.snapshot
      ∧ ∀ operations : List Operation, (∀ operation ∈ operations, operation.watches = false) →
        (callsFrom t operations).map Call.observed
          = (callsFrom restored operations).map Call.observed
          ∧ SameData (stateAfter t operations) (stateAfter restored operations) := by
  have hrestorable := run.restorable constructed.restorable
  obtain ⟨restored, hrestored⟩ := hrestorable.exists_ofSnapshot
  have hsame : SameData t restored := by
    rw [ofSnapshot_snapshot hrestorable.index hrestored]
    rfl
  exact ⟨restored, hrestored, hsame.snapshot_eq, fun operations => callsFrom_agree hsame⟩

/-- Two keys are attached to a lease while a watch is open, and one of them is overwritten. -/
def watchedLife : List Operation :=
  [.createWatch { id := 1, range := ⟨[1], [9]⟩ },
   .grantLease { ttl := 5, tick := 1 },
   .transaction { leaseOwnership := [⟨1, 1⟩], leaseTick := 2,
                  success := [.put { key := [1], value := [7], leaseId := 1 },
                              .put { key := [2], value := [7], leaseId := 1 }] },
   .put [2] [8]]

theorem restore_snapshot_lossless_watchedLife :
    (stateAfter emptyStore watchedLife).watchers.size = 1
      ∧ (stateAfter emptyStore watchedLife).leases.size = 1
      ∧ ∃ restored, ofSnapshot (stateAfter emptyStore watchedLife).snapshot {} = .ok restored
        ∧ (callsFrom (stateAfter emptyStore watchedLife) [.expireLeases 6]).map Call.observed
          = (callsFrom restored [.expireLeases 6]).map Call.observed := by
  refine ⟨by decide +kernel, by decide +kernel, ?_⟩
  obtain ⟨restored, hrestored, -, hsame⟩ := restore_snapshot_lossless
    (@Constructed.ofRevision 0 {} emptyStore rfl) (Run.of_operations emptyStore watchedLife)
  have hlimits : (stateAfter emptyStore watchedLife).limits = {} := by decide +kernel
  rw [hlimits] at hrestored
  exact ⟨restored, hrestored, (hsame [.expireLeases 6] (by decide)).1⟩

end KuraMetadata
