import KuraMetadata.Store.WellFormed

/-! # Opening a store

Each constructor returns a well-formed store, and the one that restores a snapshot returns the
store the snapshot was taken of, without its watchers and its history. -/

namespace KuraMetadata

variable {s : InMemoryMetadataStore} {initial : Int}

namespace InMemoryMetadataStore

open Std ExtTreeMap Except

variable {s t u : InMemoryMetadataStore} {limits : StoreLimits}
variable {revision : Int} {value : KeyValue} {keys : List ByteSequence}

/-! ## The constructors without a snapshot -/

theorem ofRevision_eq_ok :
    ofRevision revision limits = .ok s
      ↔ 0 ≤ revision ∧ { limits, revision, compactRevision := revision } = s := by
  simp only [ofRevision, throw_eq_error, ite_error_eq_ok, pure_eq_ok,
    Int.not_lt]

theorem insertInitial_eq_ok (h : insertInitial s value = .ok t) :
    value.key ≠ [] ∧ Dated s.revision s.revision value ∧ value.leaseId = 0
      ∧ s.values[value.key]? = none ∧ t = { s with values := s.values.insert value.key value } := by
  simp only [insertInitial, bind_eq_ok, validateKey_eq_ok, throw_eq_error,
    error_bind, ite_error_eq_ok, pure_eq_ok, not_or, Int.not_le, Int.not_lt,
    ne_eq, not_not] at h
  obtain ⟨_, hkey, ⟨hversion, hcreated, hmodified, hpresent, hlease⟩, hfresh, rfl⟩ := h
  refine ⟨hkey, ⟨hversion, hcreated, hmodified, hpresent, fun hinitial => ?_⟩, hlease,
    ExtTreeMap.notMem_iff_getElem?.mp hfresh, rfl⟩
  omega

theorem WellFormed.empty (hnonneg : 0 ≤ revision) :
    WellFormed revision { limits, revision, compactRevision := revision } := by
  refine ⟨⟨⟨?_, ?_, ?_, ?_⟩, ?_, ?_, ⟨hnonneg, le_rfl⟩, ⟨le_rfl, le_rfl⟩⟩, ?_, rfl, Nat.zero_le _⟩
  all_goals simp

/-- A value without a lease may be added to a store just opened. -/
theorem WellFormed.insertInitial (h : WellFormed s.revision s)
    (hinsert : insertInitial s value = .ok t) : WellFormed t.revision t := by
  obtain ⟨hkey, hdated, hlease, hfresh, rfl⟩ := insertInitial_eq_ok hinsert
  refine ⟨⟨?_, ?_, h.allocated, h.opened, h.counters⟩, h.tokens, h.history, h.retained⟩
  · have hexcept : IndexedExcept value.key s.values s.leases :=
      h.index.unattached fun found hfound => by
        rw [hfresh] at hfound
        cases hfound
    exact hexcept.insert rfl (attaches_of_eq_ok (if_pos hlease))
  · intro key found hfound
    rcases ExtTreeMap.getElem?_insert_eq_some.mp hfound with ⟨rfl, rfl⟩ | ⟨-, hfound⟩
    · exact ⟨hkey, hdated⟩
    · exact h.dated hfound

theorem wellFormed_ofRevision (h : ofRevision revision limits = .ok s) :
    WellFormed s.revision s := by
  obtain ⟨hnonneg, rfl⟩ := ofRevision_eq_ok.mp h
  exact WellFormed.empty hnonneg

theorem wellFormed_ofValues {values : List KeyValue} (h : ofValues values revision limits = .ok s) :
    WellFormed s.revision s := by
  simp only [ofValues, bind_eq_ok] at h
  obtain ⟨empty, hempty, h⟩ := h
  exact foldlM_induct (P := fun s => WellFormed s.revision s) h
    (wellFormed_ofRevision hempty) WellFormed.insertInitial

/-! ## Restoring a snapshot -/

/-- The lease a snapshot's record describes. -/
def restoredLease (record : LeaseRecord) : StoredLease :=
  { fencingToken := record.fencingToken, grantedTtl := record.grantedTtl,
    expiryTick := record.expiryTick,
    attachedKeys := record.attachedKeys.foldl (fun keys key => keys.insert key) ∅ }

theorem restoreAttachments_eq_ok {stored restored : StoredLease}
    (h : keys.foldlM restoreAttachment stored = .ok restored) :
    restored = { stored with
      attachedKeys := keys.foldl (fun keys key => keys.insert key) stored.attachedKeys } := by
  induction keys generalizing stored with
  | nil =>
    obtain rfl := pure_eq_ok.mp h
    rfl
  | cons key keys ih =>
    simp only [List.foldlM_cons, bind_eq_ok, restoreAttachment, throw_eq_error,
      error_bind, ite_error_eq_ok, pure_eq_ok] at h
    obtain ⟨next, ⟨_, -, -, rfl⟩, h⟩ := h
    exact ih h

theorem restoreLease_eq_ok {record : LeaseRecord} (h : restoreLease s record = .ok t) :
    s.leases[record.id]? = none
      ∧ t = { s with leases := s.leases.insert record.id (restoredLease record) } := by
  simp only [restoreLease, bind_eq_ok, throw_eq_error, error_bind,
    ite_error_eq_ok, pure_eq_ok] at h
  obtain ⟨-, stored, hstored, hfresh, rfl⟩ := h
  rw [restoreAttachments_eq_ok hstored]
  exact ⟨ExtTreeMap.notMem_iff_getElem?.mp hfresh, rfl⟩

theorem restoreValue_eq_ok (h : restoreValue s value = .ok t) :
    s.values[value.key]? = none
      ∧ t = { s with values := s.values.insert value.key value } := by
  simp only [restoreValue, bind_eq_ok, throw_eq_error, error_bind,
    ite_error_eq_ok, pure_eq_ok] at h
  obtain ⟨_, -, -, hfresh, _, -, rfl⟩ := h
  exact ⟨ExtTreeMap.notMem_iff_getElem?.mp hfresh, rfl⟩

theorem mem_foldl_insert {attached : ExtTreeSet ByteSequence compare} {key : ByteSequence} :
    key ∈ keys.foldl (fun keys key => keys.insert key) attached ↔ key ∈ keys ∨ key ∈ attached := by
  induction keys generalizing attached with
  | nil => simp
  | cons first keys ih =>
    rw [List.foldl_cons, ih, ExtTreeSet.mem_insert, LawfulEqCmp.compare_eq_iff_eq,
      List.mem_cons, eq_comm]
    tauto

theorem restoredLease_leaseRecord (id : Int) (lease : StoredLease) :
    restoredLease (leaseRecord id lease) = lease := by
  obtain ⟨token, ttl, expiry, keys⟩ := lease
  have hkeys : keys.toList.foldl (fun keys key => keys.insert key) ∅ = keys := by
    refine ExtTreeSet.ext_mem fun key => ?_
    rw [mem_foldl_insert, ExtTreeSet.mem_toList]
    simp
  simp only [restoredLease, leaseRecord, hkeys]

/-- The records of a store's leases are restored to the leases. -/
theorem restoreLeases_eq_ok
    (h : (t.leases.toList.map fun (id, lease) => leaseRecord id lease).foldlM restoreLease s
      = .ok u) (hempty : s.leases = ∅) : u = { s with leases := t.leases } := by
  have hframe : u = { s with leases := u.leases } :=
    foldlM_induct (P := fun u => u = { s with leases := u.leases }) h rfl
      fun {a b record} ha hb => by
        obtain ⟨-, rfl⟩ := restoreLease_eq_ok hb
        rw [ha]
  have hleases : u.leases = t.leases := by
    refine ext_getElem? fun id => Option.ext fun lease => ?_
    rw [ExtTreeMap.getElem?_foldlM_insert (fun s => s.leases) LeaseRecord.id restoredLease
      (fun {a b record} hab => by
        obtain ⟨hfresh, rfl⟩ := restoreLease_eq_ok hab
        exact ⟨hfresh, rfl⟩) h, hempty, getElem?_empty]
    simp only [List.mem_map, exists_exists_and_eq_and, restoredLease_leaseRecord, reduceCtorEq,
      or_false]
    rw [← mem_toList_iff_getElem?_eq_some]
    refine ⟨?_, fun hmem => ⟨(id, lease), hmem, rfl, rfl⟩⟩
    rintro ⟨⟨id', lease'⟩, hmem, rfl, rfl⟩
    exact hmem
  rw [hframe, hleases]

/-- The values of a store are restored to its map, since each is stored under its key. -/
theorem restoreValues_eq_ok (hindex : Indexed t.values t.leases)
    (h : (t.values.toList.map Prod.snd).foldlM restoreValue s = .ok u) (hempty : s.values = ∅) :
    u = { s with values := t.values } := by
  have hframe : u = { s with values := u.values } :=
    foldlM_induct (P := fun u => u = { s with values := u.values }) h rfl
      fun {a b value} ha hb => by
        obtain ⟨-, rfl⟩ := restoreValue_eq_ok hb
        rw [ha]
  have hvalues : u.values = t.values := by
    refine ext_getElem? fun key => Option.ext fun value => ?_
    rw [ExtTreeMap.getElem?_foldlM_insert (fun s => s.values) KeyValue.key id
      (fun {a b value} hab => by
        obtain ⟨hfresh, rfl⟩ := restoreValue_eq_ok hab
        exact ⟨hfresh, rfl⟩) h, hempty, getElem?_empty]
    simp only [List.mem_map, exists_exists_and_eq_and, reduceCtorEq, or_false, id_eq]
    rw [← mem_toList_iff_getElem?_eq_some]
    constructor
    · rintro ⟨⟨key', value'⟩, hmem, rfl, rfl⟩
      have := hindex.keyed (mem_toList_iff_getElem?_eq_some.mp hmem)
      rw [this]
      exact hmem
    · intro hmem
      refine ⟨(key, value), hmem, ?_, rfl⟩
      exact hindex.keyed (mem_toList_iff_getElem?_eq_some.mp hmem)
  rw [hframe, hvalues]

/-- A restored store is the one its snapshot was taken of, without watchers and history. -/
theorem ofSnapshot_snapshot (hindex : Indexed s.values s.leases)
    (h : ofSnapshot s.snapshot limits = .ok t) :
    t = { s with limits, compactRevision := s.revision, history := [], watchers := ∅ } := by
  simp only [ofSnapshot, bind_eq_ok, throw_eq_error, error_bind,
    ite_error_eq_ok, pure_eq_ok] at h
  obtain ⟨-, -, leased, hleased, valued, hvalued, _, -, rfl⟩ := h
  obtain rfl := restoreLeases_eq_ok hleased rfl
  obtain rfl := restoreValues_eq_ok hindex hvalued rfl
  rfl

theorem WellFormed.restored (h : WellFormed initial s)
    (hrestore : ofSnapshot s.snapshot limits = .ok t) : WellFormed t.revision t := by
  obtain rfl := ofSnapshot_snapshot h.index hrestore
  refine ⟨⟨h.index, fun hvalue => ⟨(h.dated hvalue).1, ?_⟩, h.allocated,
    ⟨h.opened.1.trans h.opened.2, le_rfl⟩, h.counters⟩, h.tokens, rfl, Nat.zero_le _⟩
  obtain ⟨hversion, hcreated, hmodified, hpresent, -⟩ := (h.dated hvalue).2
  refine ⟨hversion, hcreated, hmodified, hpresent, fun hinitial => ?_⟩
  have : s.revision < _ := hinitial
  omega

end InMemoryMetadataStore

open InMemoryMetadataStore

theorem Run.wellFormed {t : InMemoryMetadataStore} {calls : List Call}
    (run : Run s calls t) (h : WellFormed initial s) : WellFormed initial t :=
  run.induct h fun call hbefore => hbefore.change call.change

theorem Opened.wellFormed (opened : Opened s) : WellFormed s.revision s := by
  induction opened with
  | ofRevision h => exact wellFormed_ofRevision h
  | ofValues h => exact wellFormed_ofValues h
  | ofSnapshot _ run h ih => exact (run.wellFormed ih).restored h

theorem Opened.fresh (opened : Opened s) :
    s.history = [] ∧ s.watchers = ∅ ∧ s.compactRevision = s.revision := by
  cases opened with
  | ofRevision h =>
    obtain ⟨-, rfl⟩ := ofRevision_eq_ok.mp h
    exact ⟨rfl, rfl, rfl⟩
  | ofValues h =>
    simp only [InMemoryMetadataStore.ofValues, Except.bind_eq_ok] at h
    obtain ⟨empty, hempty, h⟩ := h
    obtain ⟨-, rfl⟩ := ofRevision_eq_ok.mp hempty
    refine Except.foldlM_induct
      (P := fun s => s.history = [] ∧ s.watchers = ∅ ∧ s.compactRevision = s.revision) h
      ⟨rfl, rfl, rfl⟩ fun {a b value} ha hb => ?_
    obtain ⟨-, -, -, -, rfl⟩ := insertInitial_eq_ok hb
    exact ha
  | ofSnapshot opened run h =>
    rw [ofSnapshot_snapshot (run.wellFormed opened.wellFormed).index h]
    exact ⟨rfl, rfl, rfl⟩

/-- Every state of every run of the store is well formed. -/
theorem wellFormed_of_run {s t : InMemoryMetadataStore} {calls : List Call} (opened : Opened s)
    (run : Run s calls t) : WellFormed s.revision t :=
  run.wellFormed opened.wellFormed

/-- The store the runs below start from. -/
def emptyStore : InMemoryMetadataStore := { revision := 0, compactRevision := 0 }

theorem emptyStore_opened : Opened emptyStore := @Opened.ofRevision 0 {} emptyStore rfl

/-- A lease is granted, a key is attached to it, overwritten and deleted with the others. -/
def leaseLife : List Operation :=
  [.grantLease { ttl := 5, tick := 1 },
   .transaction { leaseOwnership := [⟨1, 1⟩], leaseTick := 2,
                  success := [.put { key := [1], value := [7], leaseId := 1 },
                              .put { key := [2], value := [7], leaseId := 1 }] },
   .put [2] [8],
   .put [] [9],
   .expireLeases 6]

theorem wellFormed_of_run_leaseLife :
    (stateAfter emptyStore leaseLife).revision = 3
      ∧ (stateAfter emptyStore leaseLife).values.size = 1
      ∧ WellFormed 0 (stateAfter emptyStore leaseLife) :=
  ⟨by decide +kernel, by decide +kernel,
    wellFormed_of_run emptyStore_opened (Run.of_operations emptyStore leaseLife)⟩

end KuraMetadata
