import KuraMetadata.Store.Changes

/-! # The attachment index

A leased value names its lease, and the lease lists the key. The index is rewritten by every
put and erase on the working copies, and dropped as a whole by a cleanup. -/

namespace KuraMetadata.InMemoryMetadataStore

open Std List Except Option
open ExtTreeMap (getElem?_erase_eq_some getElem?_insert_eq_some getElem?_insert_of_ne
  getElem?_insert_self)

variable {id revision : Int} {s : InMemoryMetadataStore} {leases leases' : LeaseMap}
variable {events : List WatchEvent} {lease : StoredLease} {key : ByteSequence} {values : ValueMap}
variable {expiryTick : Nat} {value : KeyValue}

/-- The values and the leases name each other. -/
structure Indexed (values : ValueMap) (leases : LeaseMap) : Prop where
  keyed : ∀ {key : ByteSequence} {value : KeyValue}, values[key]? = some value → value.key = key
  attached : ∀ {key : ByteSequence} {value : KeyValue}, values[key]? = some value →
    value.leaseId ≠ 0 →
    ∃ lease, leases[value.leaseId]? = some lease ∧ key ∈ lease.attachedKeys
  bound : ∀ {id : Int} {lease : StoredLease}, leases[id]? = some lease →
    ∀ key ∈ lease.attachedKeys, ∃ value, values[key]? = some value ∧ value.leaseId = id
  positive : leases[(0 : Int)]? = none

/-- The index is right for every key but one, which is attached to no lease. -/
structure IndexedExcept (key : ByteSequence) (values : ValueMap) (leases : LeaseMap) : Prop where
  keyed : ∀ {other : ByteSequence} {value : KeyValue}, other ≠ key →
    values[other]? = some value → value.key = other
  attached : ∀ {other : ByteSequence} {value : KeyValue}, other ≠ key →
    values[other]? = some value → value.leaseId ≠ 0 →
    ∃ lease, leases[value.leaseId]? = some lease ∧ other ∈ lease.attachedKeys
  bound : ∀ {id : Int} {lease : StoredLease}, leases[id]? = some lease →
    ∀ other ∈ lease.attachedKeys, other ≠ key
      ∧ ∃ value, values[other]? = some value ∧ value.leaseId = id
  positive : leases[(0 : Int)]? = none

/-! ## Detaching and attaching a key -/

theorem Indexed.unattached (h : Indexed values leases)
    (free : ∀ value, values[key]? = some value → value.leaseId = 0) :
    IndexedExcept key values leases where
  keyed _ hvalue := h.keyed hvalue
  attached _ hvalue hlease := h.attached hvalue hlease
  bound := by
    intro id lease hlease other hother
    obtain ⟨value, hvalue, rfl⟩ := h.bound hlease other hother
    refine ⟨?_, value, hvalue, rfl⟩
    rintro rfl
    rw [free value hvalue, h.positive] at hlease
    cases hlease
  positive := h.positive

theorem Indexed.detach (h : Indexed values leases)
    (hvalue : values[key]? = some value) (hdetach : detachKey leases value = .ok leases') :
    IndexedExcept key values leases' := by
  rcases detachKey_eq_ok hdetach with ⟨hzero, rfl⟩ | ⟨hleased, lease, hlease, -, rfl⟩
  · refine h.unattached fun value' hvalue' => ?_
    rw [hvalue] at hvalue'
    cases hvalue'
    exact hzero
  have hkey : value.key = key := h.keyed hvalue
  refine ⟨fun _ hother => h.keyed hother, ?_, ?_, ?_⟩
  · intro other value' hne hother hleased'
    obtain ⟨lease', hlease', hattached⟩ := h.attached hother hleased'
    by_cases hid : value.leaseId = value'.leaseId
    · -- the lease that was rewritten keeps its other keys
      rw [← hid, hlease] at hlease'
      cases hlease'
      rw [← hid, getElem?_insert_self]
      refine ⟨_, rfl, ExtTreeSet.mem_erase.mpr ⟨fun he => hne ?_, hattached⟩⟩
      rw [← hkey, LawfulEqCmp.compare_eq_iff_eq.mp he]
    · rw [getElem?_insert_of_ne hid]
      exact ⟨lease', hlease', hattached⟩
  · intro id lease' hlease' other hother
    rcases getElem?_insert_eq_some.mp hlease' with ⟨rfl, rfl⟩ | ⟨hid, hlease'⟩
    · obtain ⟨hne, hother⟩ := ExtTreeSet.mem_erase.mp hother
      refine ⟨fun he => hne (LawfulEqCmp.compare_eq_iff_eq.mpr (hkey.trans he.symm)), ?_⟩
      exact h.bound hlease other hother
    · obtain ⟨value', hvalue', rfl⟩ := h.bound hlease' other hother
      refine ⟨?_, value', hvalue', rfl⟩
      rintro rfl
      rw [hvalue] at hvalue'
      cases hvalue'
      exact hid rfl
  · rw [getElem?_insert_of_ne hleased]
    exact h.positive

theorem Indexed.detachPrevious (h : Indexed values leases)
    (hdetach : detachPrevious leases values[key]? = .ok leases') :
    IndexedExcept key values leases' := by
  cases hvalue : values[key]? with
  | none =>
    rw [hvalue] at hdetach
    obtain rfl : leases = leases' := pure_eq_ok.mp hdetach
    refine h.unattached fun value hvalue' => ?_
    rw [hvalue] at hvalue'
    cases hvalue'
  | some value =>
    rw [hvalue] at hdetach
    exact h.detach hvalue hdetach

theorem IndexedExcept.erase (h : IndexedExcept key values leases) :
    Indexed (values.erase key) leases where
  keyed hvalue := by
    obtain ⟨hne, hvalue⟩ := getElem?_erase_eq_some.mp hvalue
    exact h.keyed (Ne.symm hne) hvalue
  attached hvalue hleased := by
    obtain ⟨hne, hvalue⟩ := getElem?_erase_eq_some.mp hvalue
    exact h.attached (Ne.symm hne) hvalue hleased
  bound hlease other hother := by
    obtain ⟨hne, value, hvalue, hid⟩ := h.bound hlease other hother
    exact ⟨value, getElem?_erase_eq_some.mpr ⟨Ne.symm hne, hvalue⟩, hid⟩
  positive := h.positive

/-- The leases after `key` is attached to the lease `id`, or to none if `id` is zero. -/
structure Attaches (key : ByteSequence) (id : Int) (leases leases' : LeaseMap) : Prop where
  forward : ∀ {other : Int} {lease : StoredLease}, leases[other]? = some lease →
    ∃ lease', leases'[other]? = some lease' ∧ ∀ k ∈ lease.attachedKeys, k ∈ lease'.attachedKeys
  backward : ∀ {other : Int} {lease' : StoredLease}, leases'[other]? = some lease' →
    ∃ lease, leases[other]? = some lease
      ∧ ∀ k ∈ lease'.attachedKeys, k ∈ lease.attachedKeys ∨ k = key ∧ other = id
  target : id ≠ 0 → ∃ lease', leases'[id]? = some lease' ∧ key ∈ lease'.attachedKeys

theorem attaches_of_eq_ok
    (h : (if id = 0 then pure leases else attachKey leases id key) = .ok leases') :
    Attaches key id leases leases' := by
  split at h
  · rename_i hzero
    obtain rfl : leases = leases' := pure_eq_ok.mp h
    exact ⟨fun hlease => ⟨_, hlease, fun _ hk => hk⟩, fun hlease => ⟨_, hlease, fun _ => .inl⟩,
      fun hid => absurd hzero hid⟩
  obtain ⟨lease, hlease, rfl⟩ := attachKey_eq_ok h
  refine ⟨?_, ?_, fun _ => ⟨_, getElem?_insert_self, ExtTreeSet.mem_insert_self⟩⟩
  · intro other lease' hlease'
    by_cases hid : id = other
    · subst hid
      rw [hlease] at hlease'
      cases hlease'
      exact ⟨_, getElem?_insert_self, fun k hk => ExtTreeSet.mem_insert.mpr (.inr hk)⟩
    · rw [getElem?_insert_of_ne hid]
      exact ⟨lease', hlease', fun _ hk => hk⟩
  · intro other lease' hlease'
    rcases getElem?_insert_eq_some.mp hlease' with ⟨rfl, rfl⟩ | ⟨-, hlease'⟩
    · refine ⟨lease, hlease, fun k hk => ?_⟩
      rcases ExtTreeSet.mem_insert.mp hk with he | hk
      · exact .inr ⟨(LawfulEqCmp.compare_eq_iff_eq.mp he).symm, rfl⟩
      · exact .inl hk
    · exact ⟨lease', hlease', fun _ => .inl⟩

/-- A value bound to the key is indexed once the key is attached to its lease and no other. -/
theorem IndexedExcept.insert (h : IndexedExcept key values leases)
    (hkey : value.key = key) (hattach : Attaches key value.leaseId leases leases') :
    Indexed (values.insert key value) leases' where
  keyed hvalue' := by
    rcases getElem?_insert_eq_some.mp hvalue' with ⟨rfl, rfl⟩ | ⟨hne, hvalue'⟩
    · exact hkey
    · exact h.keyed (Ne.symm hne) hvalue'
  attached hvalue' hleased := by
    rcases getElem?_insert_eq_some.mp hvalue' with ⟨rfl, rfl⟩ | ⟨hne, hvalue'⟩
    · exact hattach.target hleased
    · obtain ⟨lease, hlease, hmem⟩ := h.attached (Ne.symm hne) hvalue' hleased
      obtain ⟨lease', hlease', hsub⟩ := hattach.forward hlease
      exact ⟨lease', hlease', hsub _ hmem⟩
  bound hlease' other hother := by
    obtain ⟨lease, hlease, hsub⟩ := hattach.backward hlease'
    rcases hsub other hother with hother | ⟨rfl, rfl⟩
    · obtain ⟨hne, value', hvalue', hid⟩ := h.bound hlease other hother
      exact ⟨value', getElem?_insert_eq_some.mpr (.inr ⟨Ne.symm hne, hvalue'⟩), hid⟩
    · exact ⟨value, getElem?_insert_self, rfl⟩
  positive := by
    rw [eq_none_iff_forall_ne_some]
    intro lease' hlease'
    obtain ⟨lease, hlease, -⟩ := hattach.backward hlease'
    rw [h.positive] at hlease
    cases hlease

section

variable (h : Indexed values leases)
include h

/-- A lease may be granted without keys or rewritten with the keys it has. -/
theorem Indexed.insertLease (hid : id ≠ 0) (hkeys : ∀ key, key ∈ lease.attachedKeys
      ↔ ∃ old, leases[id]? = some old ∧ key ∈ old.attachedKeys) :
    Indexed values (leases.insert id lease) where
  keyed := h.keyed
  attached {key value} hvalue hleased := by
    obtain ⟨old, hold, hkey⟩ := h.attached hvalue hleased
    by_cases he : id = value.leaseId
    · subst he
      exact ⟨lease, getElem?_insert_self, (hkeys key).mpr ⟨old, hold, hkey⟩⟩
    · exact ⟨old, (getElem?_insert_of_ne he _).trans hold, hkey⟩
  bound hlease' key hkey := by
    rcases getElem?_insert_eq_some.mp hlease' with ⟨rfl, rfl⟩ | ⟨-, hlease'⟩
    · obtain ⟨old, hold, hkey⟩ := (hkeys key).mp hkey
      exact h.bound hold key hkey
    · exact h.bound hlease' key hkey
  positive := (getElem?_insert_of_ne hid _).trans h.positive

theorem Indexed.grant {token ttl : Nat} (hid : id ≠ 0) (free : leases[id]? = none) :
    Indexed values
      (leases.insert id { fencingToken := token, grantedTtl := ttl, expiryTick }) := by
  refine h.insertLease hid fun key => ?_
  refine ⟨fun hkey => absurd hkey ExtTreeSet.not_mem_empty, ?_⟩
  rintro ⟨old, hold, -⟩
  rw [free] at hold
  cases hold

theorem Indexed.renew (hid : id ≠ 0) (found : leases[id]? = some lease) :
    Indexed values (leases.insert id { lease with expiryTick }) := by
  refine h.insertLease hid fun key => ?_
  refine ⟨fun hkey => ⟨lease, found, hkey⟩, ?_⟩
  rintro ⟨old, hold, hkey⟩
  rw [found] at hold
  cases hold
  exact hkey

theorem Indexed.edits {values' : ValueMap}
    (edits : Edits revision values leases events values' leases') :
    Indexed values' leases' := by
  induction edits with
  | nil => exact h
  | put edits _ _ _ detach attach ih =>
    exact (ih.detachPrevious detach).insert rfl (attaches_of_eq_ok attach)
  | erase edits bound detach ih => exact (ih.detach bound detach).erase

end

/-! ## Lease cleanup

The values a cleanup deletes are those that name one of the removed leases, each once. -/

variable {ids : List Int} {attached : List (List KeyValue)}

theorem attachedValue_eq_ok :
    s.attachedValue id key = .ok value ↔ s.values[key]? = some value ∧ value.leaseId = id := by
  unfold attachedValue
  cases s.values[key]? with
  | none => simp
  | some found =>
    simp only [throw_eq_error, ite_error_eq_ok, pure_eq_ok, not_not, ne_eq,
      Option.some.injEq]
    constructor
    · rintro ⟨h, rfl⟩
      exact ⟨rfl, h⟩
    · rintro ⟨rfl, h⟩
      exact ⟨h, rfl⟩

theorem attachedValues_eq_ok {values : List KeyValue} :
    s.attachedValues id = .ok values ↔ ∃ lease, s.leases[id]? = some lease
        ∧ lease.attachedKeys.toList.mapM (s.attachedValue id) = .ok values := by
  unfold attachedValues
  cases s.leases[id]? with
  | none | some lease => simp

theorem mem_sortedByKey (h : Indexed s.values s.leases)
    (found : ids.mapM s.attachedValues = .ok attached) :
    value ∈ sortedByKey attached ↔ s.values[value.key]? = some value ∧ value.leaseId ∈ ids := by
  rw [sortedByKey, mem_insertionSort, mem_flatten]
  constructor
  · rintro ⟨values, hvalues, hvalue⟩
    obtain ⟨id, hid, hfound⟩ := exists_of_mem_mapM found hvalues
    obtain ⟨lease, -, hfound⟩ := attachedValues_eq_ok.mp hfound
    obtain ⟨key, -, hkey⟩ := exists_of_mem_mapM hfound hvalue
    obtain ⟨hbound, rfl⟩ := attachedValue_eq_ok.mp hkey
    rw [h.keyed hbound]
    exact ⟨hbound, hid⟩
  · rintro ⟨hbound, hid⟩
    obtain ⟨values, hvalues, hfound⟩ := exists_mem_of_mapM found hid
    obtain ⟨lease, hlease, hfound⟩ := attachedValues_eq_ok.mp hfound
    have hleased : value.leaseId ≠ 0 := by
      intro hzero
      rw [hzero, h.positive] at hlease
      cases hlease
    obtain ⟨lease', hlease', hkey⟩ := h.attached hbound hleased
    rw [hlease] at hlease'
    cases hlease'
    obtain ⟨value', hvalue', hkey'⟩ :=
      exists_mem_of_mapM hfound (ExtTreeSet.mem_toList.mpr hkey)
    obtain ⟨hbound', -⟩ := attachedValue_eq_ok.mp hkey'
    rw [hbound] at hbound'
    cases hbound'
    exact ⟨values, hvalues, hvalue'⟩

theorem sortedByKey_distinct (h : Indexed s.values s.leases) (distinct : ids.Nodup)
    (found : ids.mapM s.attachedValues = .ok attached) :
    (sortedByKey attached).Pairwise fun a b => a.key ≠ b.key := by
  unfold sortedByKey
  rw [(perm_insertionSort keyLE attached.flatten).pairwise_iff (fun hab => Ne.symm hab),
    pairwise_flatten]
  constructor
  · -- one lease lists each key once
    intro values hvalues
    obtain ⟨id, -, hfound⟩ := exists_of_mem_mapM found hvalues
    obtain ⟨lease, -, hfound⟩ := attachedValues_eq_ok.mp hfound
    refine pairwise_mapM hfound ExtTreeSet.distinct_toList fun {key key' a b} hne ha hb => ?_
    rw [h.keyed (attachedValue_eq_ok.mp ha).1, h.keyed (attachedValue_eq_ok.mp hb).1]
    exact fun he => hne (LawfulEqCmp.compare_eq_iff_eq.mpr he)
  · -- the values of different leases name different leases
    refine pairwise_mapM found distinct fun {id id' vs vs'} hne hvs hvs' => ?_
    intro a ha b hb he
    obtain ⟨_, -, hvs⟩ := attachedValues_eq_ok.mp hvs
    obtain ⟨_, -, hvs'⟩ := attachedValues_eq_ok.mp hvs'
    obtain ⟨key, -, hkey⟩ := exists_of_mem_mapM hvs ha
    obtain ⟨key', -, hkey'⟩ := exists_of_mem_mapM hvs' hb
    obtain ⟨hbound, rfl⟩ := attachedValue_eq_ok.mp hkey
    obtain ⟨hbound', rfl⟩ := attachedValue_eq_ok.mp hkey'
    rw [← h.keyed hbound, he, h.keyed hbound', hbound'] at hbound
    cases hbound
    exact hne rfl

theorem getElem?_eraseValues_eq_some {deleted : List KeyValue} :
    (eraseValues values deleted)[key]? = some value
      ↔ key ∉ deleted.map KeyValue.key ∧ values[key]? = some value := by
  rw [← ExtTreeMap.getElem?_foldl_erase_eq_some, foldl_map]
  rfl

theorem getElem?_eraseLeases_eq_some :
    (eraseLeases leases ids)[id]? = some lease ↔ id ∉ ids ∧ leases[id]? = some lease :=
  ExtTreeMap.getElem?_foldl_erase_eq_some

theorem getElem?_cleaned_eq_some (h : Indexed s.values s.leases)
    (found : ids.mapM s.attachedValues = .ok attached) :
    (eraseValues s.values (sortedByKey attached))[key]? = some value
      ↔ s.values[key]? = some value ∧ value.leaseId ∉ ids := by
  rw [getElem?_eraseValues_eq_some, and_comm]
  refine and_congr_right fun hvalue => not_congr ?_
  rw [List.mem_map]
  constructor
  · rintro ⟨deleted, hdeleted, rfl⟩
    obtain ⟨hbound, hid⟩ := (mem_sortedByKey h found).mp hdeleted
    rw [hbound] at hvalue
    cases hvalue
    exact hid
  · intro hid
    have hkey := h.keyed hvalue
    exact ⟨value, (mem_sortedByKey h found).mpr ⟨hkey ▸ hvalue, hid⟩, hkey⟩

/-- A cleanup keeps the index: what it leaves of the values names leases it has left. -/
theorem Indexed.cleaned (h : Indexed s.values s.leases)
    (found : ids.mapM s.attachedValues = .ok attached) :
    Indexed (eraseValues s.values (sortedByKey attached)) (eraseLeases s.leases ids) where
  keyed hvalue := h.keyed ((getElem?_cleaned_eq_some h found).mp hvalue).1
  attached hvalue hleased := by
    obtain ⟨hvalue, hkept⟩ := (getElem?_cleaned_eq_some h found).mp hvalue
    obtain ⟨lease, hlease, hkey⟩ := h.attached hvalue hleased
    exact ⟨lease, getElem?_eraseLeases_eq_some.mpr ⟨hkept, hlease⟩, hkey⟩
  bound hlease key hkey := by
    obtain ⟨hkept, hlease⟩ := getElem?_eraseLeases_eq_some.mp hlease
    obtain ⟨value, hvalue, rfl⟩ := h.bound hlease key hkey
    exact ⟨value, (getElem?_cleaned_eq_some h found).mpr ⟨hvalue, hkept⟩, rfl⟩
  positive := by
    rw [eq_none_iff_forall_ne_some]
    intro lease hlease
    rw [getElem?_eraseLeases_eq_some, h.positive] at hlease
    cases hlease.2

/-! ## The representation invariant

`WellFormed` is what every state of the store satisfies: the attachment index, the revisions and
versions of the values, the allocation counters ahead of the leases, and the revisions of the
retained history. -/

variable {compact revision : Int} {history : List EventBatch}

/-! ## The invariant -/

/-- The versions and revisions of a value in a store opened at revision `initial`. -/
structure Dated (initial revision : Int) (value : KeyValue) : Prop where
  version : 1 ≤ value.version
  created : 1 ≤ value.createRevision
  modified : value.createRevision ≤ value.modRevision
  present : value.modRevision ≤ revision
  counted : initial < value.createRevision →
    value.version ≤ value.modRevision - value.createRevision + 1

/-- A lease within the allocation counters. -/
structure Allocated (nextLeaseId : Int) (nextFencingToken : Nat) (id : Int) (lease : StoredLease) :
    Prop where
  id_pos : 1 ≤ id
  id_lt : id < nextLeaseId
  token_pos : 1 ≤ lease.fencingToken
  token_lt : lease.fencingToken < nextFencingToken

/-- The batches of the history have the revisions from `compact + 1` to `revision`, one each,
and every event has its batch's revision. -/
def Consecutive (compact : Int) : List EventBatch → Int → Prop
  | [], revision => compact = revision
  | batch :: history, revision =>
    batch.revision = compact + 1 ∧ (∀ event ∈ batch.events, event.revision = batch.revision)
      ∧ Consecutive (compact + 1) history revision

/-- What every store keeps from its construction on, however it was constructed. -/
structure Founded (initial : Int) (s : InMemoryMetadataStore) : Prop where
  index : Indexed s.values s.leases
  dated : ∀ {key : ByteSequence} {value : KeyValue}, s.values[key]? = some value →
    key ≠ [] ∧ Dated initial s.revision value
  allocated : ∀ {id : Int} {lease : StoredLease}, s.leases[id]? = some lease →
    Allocated s.nextLeaseId s.nextFencingToken id lease
  opened : 0 ≤ initial ∧ initial ≤ s.revision
  counters : 1 ≤ s.nextLeaseId ∧ 1 ≤ s.nextFencingToken

/-- The invariant of a store that was not constructed from a foreign snapshot: no two leases share
a token, and the history is whole. -/
structure WellFormed (initial : Int) (s : InMemoryMetadataStore) : Prop extends
    Founded initial s where
  tokens : ∀ {id id' : Int} {lease lease' : StoredLease}, s.leases[id]? = some lease →
    s.leases[id']? = some lease' → lease.fencingToken = lease'.fencingToken → id = id'
  history : Consecutive s.compactRevision s.history s.revision
  retained : s.history.length ≤ s.limits.maxWatchHistoryRevisions

/-! ## The history -/

theorem Consecutive.append {batch : EventBatch} (h : Consecutive compact history revision)
    (hnext : batch.revision = revision + 1)
    (hevents : ∀ event ∈ batch.events, event.revision = batch.revision) :
    Consecutive compact (history ++ [batch]) batch.revision := by
  induction history generalizing compact with
  | nil =>
    obtain rfl : compact = revision := h
    exact ⟨hnext, hevents, hnext.symm⟩
  | cons first history ih => exact ⟨h.1, h.2.1, ih h.2.2⟩

/-- What is left of the history is consecutive from the new compact revision on. -/
theorem Consecutive.trim {limit : Nat} (h : Consecutive compact history revision) :
    Consecutive (trimHistory limit compact history).1 (trimHistory limit compact history).2 revision
      ∧ (trimHistory limit compact history).2.length ≤ limit := by
  induction history generalizing compact with
  | nil => exact ⟨h, Nat.zero_le _⟩
  | cons batch history ih =>
    unfold trimHistory
    split
    · rw [h.1]
      exact ih h.2.2
    · rename_i hlimit
      exact ⟨h, Nat.not_lt.mp hlimit⟩

/-! ## The values -/

variable {values values' : ValueMap} {initial requestedId : Int} {previous : Option KeyValue}
variable {lease lease' : StoredLease}

theorem Edits.event_revision (edits : Edits revision values leases events values' leases') :
    ∀ event ∈ events, event.revision = revision := by
  induction edits with
  | nil => simp
  | put edits _ _ _ _ _ ih => exact forall_mem_concat ih rfl
  | erase edits _ _ ih => exact forall_mem_concat ih rfl

theorem eraseEvents_revision {deleted : List KeyValue} :
    ∀ event ∈ eraseEvents revision deleted, event.revision = revision := by
  intro event hevent
  obtain ⟨value, -, rfl⟩ := mem_map.mp hevent
  rfl

/-- A value after some edits was there before, or one of them has put it. -/
theorem Edits.origin (edits : Edits revision values leases events values' leases')
    (h : values'[key]? = some value) :
    values[key]? = some value
      ∨ ∃ event ∈ events, ∃ previous, event.mutation = .put value previous ∧ value.key = key := by
  induction edits with
  | nil => exact .inl h
  | put edits _ _ _ _ _ ih =>
    rcases getElem?_insert_eq_some.mp h with ⟨rfl, rfl⟩ | ⟨-, h⟩
    · exact .inr ⟨_, mem_append_right _ mem_cons_self, _, rfl, rfl⟩
    · rcases ih h with h | ⟨event, hevent, hput⟩
      · exact .inl h
      · exact .inr ⟨event, mem_append_left _ hevent, hput⟩
  | erase edits _ _ ih =>
    obtain ⟨-, h⟩ := getElem?_erase_eq_some.mp h
    rcases ih h with h | ⟨event, hevent, hput⟩
    · exact .inl h
    · exact .inr ⟨event, mem_append_left _ hevent, hput⟩

theorem Dated.mono {revision' : Int} (h : Dated initial revision value)
    (hle : revision ≤ revision') :
    Dated initial revision' value :=
  ⟨h.version, h.created, h.modified, h.present.trans hle, h.counted⟩

theorem Dated.rebind
    (h : ∀ value, previous = some value → Dated initial revision value) (hnonneg : 0 ≤ revision)
    (key value : ByteSequence) (leaseId : Int) :
    Dated initial (revision + 1) (rebind previous key value (revision + 1) leaseId) := by
  cases previous with
  | none =>
    refine ⟨le_rfl, ?_, le_rfl, le_rfl, fun _ => ?_⟩
    · show 1 ≤ revision + 1
      omega
    · show (1 : Int) ≤ revision + 1 - (revision + 1) + 1
      omega
  | some previous =>
    obtain ⟨hversion, hcreated, hmodified, hpresent, hcounted⟩ := h previous rfl
    refine ⟨?_, hcreated, ?_, le_rfl, fun hinitial => ?_⟩
    · show 1 ≤ previous.version + 1
      omega
    · show previous.createRevision ≤ revision + 1
      omega
    · have := hcounted hinitial
      show previous.version + 1 ≤ revision + 1 - previous.createRevision + 1
      omega

/-- Edits at the next revision keep the values dated: a key is put at most once, so what a put
replaces was there at the revision before. -/
theorem Edits.dated
    (edits : Edits (revision + 1) values leases events values' leases') (hnonneg : 0 ≤ revision)
    (h : ∀ {key : ByteSequence} {value : KeyValue}, values[key]? = some value →
      key ≠ [] ∧ Dated initial revision value)
    (hvalue : values'[key]? = some value) :
    key ≠ [] ∧ Dated initial (revision + 1) value := by
  induction edits generalizing key value with
  | nil => exact ⟨(h hvalue).1, (h hvalue).2.mono (by omega)⟩
  | put edits nonempty _ fresh _ _ ih =>
    rcases getElem?_insert_eq_some.mp hvalue with ⟨rfl, rfl⟩ | ⟨-, hvalue⟩
    · refine ⟨nonempty, Dated.rebind (fun previous hprevious => ?_) hnonneg _ _ _⟩
      rcases edits.origin hprevious with hstored | ⟨event, hevent, _, hput, hkey⟩
      · exact (h hstored).2
      · exact absurd hkey (fresh event hevent _ _ hput)
    · exact ih hvalue
  | erase edits _ _ ih =>
    obtain ⟨-, hvalue⟩ := getElem?_erase_eq_some.mp hvalue
    exact ih hvalue

/-! ## The leases -/

/-- What a lease was granted with; its attached keys come and go. -/
def leaseTerms (lease : StoredLease) : Nat × Nat × Nat :=
  (lease.fencingToken, lease.grantedTtl, lease.expiryTick)

/-- The leases of two maps are the same up to their attached keys. -/
def SameTerms (leases leases' : LeaseMap) : Prop :=
  ∀ id : Int, leases'[id]?.map leaseTerms = leases[id]?.map leaseTerms

theorem SameTerms.insert (hlease : leases[id]? = some lease)
    (hterms : leaseTerms lease' = leaseTerms lease) :
    SameTerms leases (leases.insert id lease') := by
  intro other
  by_cases hid : id = other
  · subst hid
    rw [getElem?_insert_self, hlease, map_some, map_some, hterms]
  · rw [getElem?_insert_of_ne hid]

theorem SameTerms.trans {leases'' : LeaseMap} (h : SameTerms leases leases')
    (h' : SameTerms leases' leases'') : SameTerms leases leases'' :=
  fun id => (h' id).trans (h id)

theorem SameTerms.lookup (h : SameTerms leases leases') (hlease' : leases'[id]? = some lease') :
    ∃ lease, leases[id]? = some lease ∧ lease.fencingToken = lease'.fencingToken
      ∧ lease.grantedTtl = lease'.grantedTtl ∧ lease.expiryTick = lease'.expiryTick := by
  have hterms := h id
  rw [hlease', map_some, eq_comm, map_eq_some_iff] at hterms
  obtain ⟨lease, hlease, hterms⟩ := hterms
  simp only [leaseTerms, Prod.mk.injEq] at hterms
  exact ⟨lease, hlease, hterms⟩

theorem detachKey_sameTerms (h : detachKey leases value = .ok leases') :
    SameTerms leases leases' := by
  rcases detachKey_eq_ok h with ⟨-, rfl⟩ | ⟨-, lease, hlease, -, rfl⟩
  · exact fun _ => rfl
  · exact SameTerms.insert hlease rfl

theorem detachPrevious_sameTerms
    (h : detachPrevious leases previous = .ok leases') : SameTerms leases leases' := by
  cases previous with
  | none =>
    obtain rfl : leases = leases' := pure_eq_ok.mp h
    exact fun _ => rfl
  | some value => exact detachKey_sameTerms h

theorem Edits.sameTerms (edits : Edits revision values leases events values' leases') :
    SameTerms leases leases' := by
  induction edits with
  | nil => exact fun _ => rfl
  | put edits _ _ _ detach attach ih =>
    refine ih.trans ((detachPrevious_sameTerms detach).trans ?_)
    split at attach
    · obtain rfl := pure_eq_ok.mp attach
      exact fun _ => rfl
    · obtain ⟨lease, hlease, rfl⟩ := attachKey_eq_ok attach
      exact SameTerms.insert hlease rfl
  | erase edits _ detach ih => exact ih.trans (detachKey_sameTerms detach)

theorem chooseLeaseId_eq_ok (h : s.chooseLeaseId requestedId = .ok id) :
    (id = s.nextLeaseId ∨ 1 ≤ id) ∧ id ≤ maximumLeaseId := by
  simp only [chooseLeaseId, throw_eq_error] at h
  split at h
  · rw [ite_error_eq_ok, pure_eq_ok, Int.not_lt] at h
    obtain ⟨hmax, rfl⟩ := h
    exact ⟨.inl rfl, hmax⟩
  · rename_i hnonzero
    rw [ite_error_eq_ok, pure_eq_ok, not_or, Int.not_lt, Int.not_lt] at h
    obtain ⟨⟨hnonneg, hmax⟩, rfl⟩ := h
    exact ⟨.inr (by omega), hmax⟩

/-! ## Where a lease comes from -/

variable {s s' : InMemoryMetadataStore} {batch : Option EventBatch}

/-- Where a lease found after a change comes from: it was there before, and only a renewal has
moved its deadline while it was live, or the change has granted it, and no other, under a new
token. -/
inductive Origin (s s' : InMemoryMetadataStore) (id : Int) (lease' : StoredLease) : Prop
  | held {lease : StoredLease} (found : s.leases[id]? = some lease)
      (token : lease.fencingToken = lease'.fencingToken)
      (ttl : lease.grantedTtl = lease'.grantedTtl)
      (expiry : lease.expiryTick = lease'.expiryTick ∨ s'.logicalTick < lease.expiryTick)
  | granted (free : s.leases[id]? = none) (choice : id = s.nextLeaseId ∨ 1 ≤ id)
      (id_le : id ≤ maximumLeaseId) (id_lt : id < s'.nextLeaseId)
      (token : lease'.fencingToken = s.nextFencingToken)
      (spent : s.nextFencingToken < s'.nextFencingToken) (ttl : lease'.grantedTtl ≠ 0)
      (sole : ∀ {other : Int} {lease : StoredLease}, other ≠ id →
        s'.leases[other]? = some lease → s.leases[other]? = some lease)

theorem DataChange.origin (change : DataChange s batch s') (h : s'.leases[id]? = some lease') :
    Origin s s' id lease' := by
  cases change with
  | ticked _ => exact .held h rfl rfl (.inl rfl)
  | granted _ choice free positive _ =>
    rcases getElem?_insert_eq_some.mp h with ⟨rfl, rfl⟩ | ⟨-, h⟩
    · obtain ⟨hchoice, hmax⟩ := chooseLeaseId_eq_ok choice
      refine .granted free hchoice hmax ?_ rfl (Nat.lt_succ_self _) positive ?_
      · show _ < if s.nextLeaseId ≤ _ then _ + 1 else s.nextLeaseId
        split <;> omega
      · intro other lease hne hlease
        exact (getElem?_insert_eq_some.mp hlease).elim (fun h => absurd h.1.symm hne) (·.2)
    · exact .held h rfl rfl (.inl rfl)
  | renewed _ found live =>
    rcases getElem?_insert_eq_some.mp h with ⟨rfl, rfl⟩ | ⟨-, h⟩
    · exact .held found rfl rfl (.inr live)
    · exact .held h rfl rfl (.inl rfl)
  | edited _ _ edits =>
    obtain ⟨lease, hlease, htoken, httl, hexpiry⟩ := edits.sameTerms.lookup h
    exact .held hlease htoken httl (.inl hexpiry)
  | cleaned _ _ _ _ => exact .held (getElem?_eraseLeases_eq_some.mp h).2 rfl rfl (.inl rfl)

theorem Change.origin (change : Change s batch s') (h : s'.leases[id]? = some lease') :
    Origin s s' id lease' := by
  cases change with
  | data change => exact change.origin h
  | watching _ => exact .held h rfl rfl (.inl rfl)

/-- The counters and the clock of a store only advance. -/
structure Advances (s s' : InMemoryMetadataStore) : Prop where
  ids : s.nextLeaseId ≤ s'.nextLeaseId
  tokens : s.nextFencingToken ≤ s'.nextFencingToken
  ticks : s.logicalTick ≤ s'.logicalTick
  revisions : s.revision ≤ s'.revision

theorem Change.advances (change : Change s batch s') : Advances s s' := by
  rcases change with change | _
  swap
  · exact ⟨le_rfl, le_rfl, le_rfl, le_rfl⟩
  cases change with
  | granted later =>
    refine ⟨?_, Nat.le_succ _, later, le_rfl⟩
    show s.nextLeaseId ≤ if s.nextLeaseId ≤ _ then _ + 1 else s.nextLeaseId
    split <;> omega
  | ticked later | renewed later => exact ⟨le_rfl, le_rfl, later, le_rfl⟩
  | edited later | cleaned later => exact ⟨le_rfl, le_rfl, later, Int.le_add_one le_rfl⟩

/-! ## Calls -/

section

variable (h : Founded initial s)
include h

theorem Founded.indexed (change : DataChange s batch s') : Indexed s'.values s'.leases := by
  cases change with
  | ticked _ => exact h.index
  | granted _ choice free =>
    have := h.counters
    have := (chooseLeaseId_eq_ok choice).1
    exact h.index.grant (by omega) free
  | renewed _ found =>
    have := (h.allocated found).id_pos
    exact h.index.renew (by omega) found
  | edited _ _ edits => exact h.index.edits edits
  | cleaned _ _ _ found => exact h.index.cleaned found

theorem Founded.redated (change : DataChange s batch s') (hvalue : s'.values[key]? = some value) :
    key ≠ [] ∧ Dated initial s'.revision value := by
  cases change with
  | ticked | granted | renewed => exact h.dated hvalue
  | edited _ _ edits => exact edits.dated (by have := h.opened; omega) h.dated hvalue
  | cleaned _ _ _ found =>
    obtain ⟨hvalue, -⟩ := (getElem?_cleaned_eq_some h.index found).mp hvalue
    exact ⟨(h.dated hvalue).1, (h.dated hvalue).2.mono (Int.le_add_one le_rfl)⟩

theorem Founded.change (change : Change s batch s') : Founded initial s' := by
  obtain ⟨hids, htokens, -, hrevisions⟩ := change.advances
  have hallocated : ∀ {id : Int} {lease : StoredLease}, s'.leases[id]? = some lease →
      Allocated s'.nextLeaseId s'.nextFencingToken id lease := by
    intro id lease hlease
    have hcounters := h.counters
    rcases change.origin hlease with ⟨found, htoken, -, -⟩
      | ⟨-, choice, -, hid, htoken, spent, -, -⟩
    · obtain ⟨hpos, hlt, htpos, htlt⟩ := h.allocated found
      exact ⟨hpos, by omega, by omega, by omega⟩
    · exact ⟨by omega, hid, by omega, by omega⟩
  have hopened : 0 ≤ initial ∧ initial ≤ s'.revision := ⟨h.opened.1, h.opened.2.trans hrevisions⟩
  have hcounters := And.intro (h.counters.1.trans hids) (h.counters.2.trans htokens)
  cases change with
  | data change => exact ⟨h.indexed change, h.redated change, hallocated, hopened, hcounters⟩
  | watching _ => exact ⟨h.index, h.dated, hallocated, hopened, hcounters⟩

end

variable (h : WellFormed initial s)
include h

theorem WellFormed.publish {batch : EventBatch} (hnext : batch.revision = s.revision + 1)
    (hevents : ∀ event ∈ batch.events, event.revision = batch.revision) :
    Consecutive (s.stageWatchPublication batch).compactRevision
        (s.stageWatchPublication batch).history batch.revision
      ∧ (s.stageWatchPublication batch).history.length ≤ s.limits.maxWatchHistoryRevisions :=
  (h.history.append hnext hevents).trim

theorem WellFormed.recorded (change : DataChange s batch s') :
    Consecutive s'.compactRevision s'.history s'.revision
      ∧ s'.history.length ≤ s'.limits.maxWatchHistoryRevisions := by
  cases change with
  | ticked | granted | renewed => exact ⟨h.history, h.retained⟩
  | edited _ _ edits => exact @WellFormed.publish _ _ h ⟨_, _⟩ rfl edits.event_revision
  | cleaned => exact @WellFormed.publish _ _ h ⟨_, eraseEvents _ _⟩ rfl eraseEvents_revision

theorem WellFormed.change (change : Change s batch s') : WellFormed initial s' := by
  have htokens : ∀ {id id' : Int} {lease lease' : StoredLease}, s'.leases[id]? = some lease →
      s'.leases[id']? = some lease' → lease.fencingToken = lease'.fencingToken → id = id' := by
    intro id id' lease lease' hlease hlease' htoken
    -- the token of a new lease is above every other
    rcases change.origin hlease with ⟨found, hold, -, -⟩ | ⟨-, -, -, -, hnew, -, -, sole⟩ <;>
    rcases change.origin hlease' with ⟨found', hold', -, -⟩ | ⟨free', -, -, -, hnew', -, -, -⟩
    · exact h.tokens found found' (by omega)
    · have := (h.allocated found).token_lt
      omega
    · have := (h.allocated found').token_lt
      omega
    · by_contra hne
      rw [sole (Ne.symm hne) hlease'] at free'
      cases free'
  cases change with
  | data change =>
    obtain ⟨hhistory, hretained⟩ := h.recorded change
    exact ⟨h.toFounded.change (.data change), htokens, hhistory, hretained⟩
  | watching watchers =>
    exact ⟨h.toFounded.change (.watching watchers), htokens, h.history, h.retained⟩

end KuraMetadata.InMemoryMetadataStore
