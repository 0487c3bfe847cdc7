import KuraMetadata.Store.Restore
import Mathlib.Data.List.Pairwise

/-! # The write sets of a branch

An operation writes the key of its put or the keys of its range. A branch of valid operations
passes the first pass of `transaction` exactly if no key is written by two of them, and then the
second pass does to each key what one operation does to it, so the order of the operations does
not matter. -/

namespace KuraMetadata

open Std List Option Except

variable {values values' : ValueMap} {key : ByteSequence} {leases : LeaseMap}

/-! ## Ranges of keys -/

/-- Two ranges overlap exactly if a key lies in both. -/
theorem KeyRange.overlap_iff {left right : KeyRange}
    (hleft : (compare left.start left.stop).isLT = true)
    (hright : (compare right.start right.stop).isLT = true) :
    left.overlap right = true
      ↔ ∃ key, left.containsKey key = true ∧ right.containsKey key = true := by
  simp only [KeyRange.overlap, KeyRange.containsKey, Bool.and_eq_true, Ordering.isLT_iff_eq_lt] at *
  constructor
  · rintro ⟨hlr, hrl⟩
    -- the larger of the two starts lies in both ranges
    by_cases hle : (compare left.start right.start).isLE = true
    · exact ⟨right.start, ⟨hle, hrl⟩, ReflCmp.isLE_rfl, hright⟩
    · refine ⟨left.start, ⟨ReflCmp.isLE_rfl, hleft⟩, ?_, hlr⟩
      rw [@OrientedCmp.eq_swap _ compare]
      cases hcompare : compare left.start right.start <;> simp_all
  · rintro ⟨key, ⟨hstart, hstop⟩, hstart', hstop'⟩
    exact ⟨TransCmp.lt_of_isLE_of_lt hstart hstop', TransCmp.lt_of_isLE_of_lt hstart' hstop⟩

theorem ValueMap.entriesIn_congr {range : KeyRange}
    (h : ∀ key, range.containsKey key = true → values[key]? = values'[key]?) :
    values.entriesIn range = values'.entriesIn range := by
  have hordered : ∀ values : ValueMap, (values.entriesIn range).Pairwise fun a b =>
      compare a.1 b.1 = .lt := by
    intro values
    rw [ValueMap.entriesIn_eq_filter]
    exact ExtTreeMap.ordered_keys_toList.filter _
  have hmem : ∀ entry, entry ∈ values.entriesIn range ↔ entry ∈ values'.entriesIn range := by
    intro entry
    rw [ValueMap.mem_entriesIn, ValueMap.mem_entriesIn]
    exact and_congr_left fun hcontains => by rw [h entry.1 hcontains]
  have hnodup : ∀ values : ValueMap, (values.entriesIn range).Nodup := fun values =>
    (hordered values).imp fun {a b} hlt heq => by
      rw [heq, @ReflCmp.compare_self _ compare] at hlt
      cases hlt
  refine ((perm_ext_iff_of_nodup (hnodup _) (hnodup _)).mpr hmem).eq_of_pairwise ?_
    (hordered _) (hordered _)
  intro a b _ _ hab hba
  rw [@OrientedCmp.eq_swap _ compare, hab] at hba
  cases hba

namespace InMemoryMetadataStore

variable {operation operation' : RequestOperation} {footprint : BranchFootprint}
variable {operations : List RequestOperation} {request : DeleteRequest} {working working' : Working}

/-! ## Footprints -/

/-- Whether an operation writes a key, whether or not it is bound. -/
def writes : RequestOperation → ByteSequence → Bool
  | .range _, _ => false
  | .put request, key => request.key = key
  | .delete request, key => request.range.containsKey key

/-- No key is written by both operations. -/
def Apart (operation operation' : RequestOperation) : Prop :=
  ∀ key, ¬ (writes operation key = true ∧ writes operation' key = true)

theorem Apart.symm (h : Apart operation operation') : Apart operation' operation :=
  fun key hkey => h key hkey.symm

instance : Std.Symm Apart := ⟨fun _ _ => Apart.symm⟩

/-- The operation would pass the first pass on its own. -/
def ValidAlone (values : ValueMap) (verified : List LeaseOwnership)
    (operation : RequestOperation) : Prop :=
  ∃ footprint, validateOperation values verified {} operation = .ok footprint

/-- What the first pass throws for two writes of one key. -/
def conflictErrors : List StoreException :=
  [.invalidArgument "transaction writes one key more than once",
    .invalidArgument "transaction put overlaps a delete",
    .invalidArgument "transaction delete ranges overlap",
    .invalidArgument "transaction delete overlaps a put"]

/-- The footprint holds the writes of the operations validated so far. -/
structure Gathers (footprint : BranchFootprint) (operations : List RequestOperation) : Prop where
  puts : ∀ key, key ∈ footprint.putKeys
    ↔ ∃ request, RequestOperation.put request ∈ operations ∧ request.key = key
  deletes : ∀ range, range ∈ footprint.deleteRanges
    ↔ ∃ request, RequestOperation.delete request ∈ operations ∧ request.range = range

variable {verified : List LeaseOwnership}

theorem gathers_nil : Gathers {} [] :=
  ⟨by simp, by simp⟩

theorem validateOperation_gathers {footprint' : BranchFootprint} (h : Gathers footprint operations)
    (hvalid : validateOperation values verified footprint operation = .ok footprint') :
    Gathers footprint' (operations ++ [operation]) := by
  cases operation with
  | range request =>
    obtain ⟨-, -, rfl⟩ := validateOperation_range_eq_ok.mp hvalid
    exact ⟨by simpa using h.puts, by simpa using h.deletes⟩
  | put request =>
    obtain ⟨-, -, -, -, -, -, rfl⟩ := validateOperation_put_eq_ok.mp hvalid
    refine ⟨fun key => ?_, by simpa using h.deletes⟩
    simp [h.puts key, or_and_right, exists_or, eq_comm]
  | delete request =>
    obtain ⟨-, -, -, rfl⟩ := validateOperation_delete_eq_ok.mp hvalid
    refine ⟨by simpa using h.puts, fun range => ?_⟩
    simp [h.deletes range, or_and_right, exists_or, eq_comm]

theorem ValidAlone.range (h : ValidAlone values verified (.delete request)) :
    validateRange request.range = .ok () := by
  obtain ⟨_, h⟩ := h
  exact (validateOperation_delete_eq_ok.mp h).1

theorem ValidAlone.overlap_iff {request' : DeleteRequest}
    (h : ValidAlone values verified (.delete request))
    (h' : ValidAlone values verified (.delete request')) :
    request.range.overlap request'.range = true
      ↔ ¬ Apart (.delete request) (.delete request') := by
  rw [KeyRange.overlap_iff (validateRange_eq_ok.mp h.range).2.2
    (validateRange_eq_ok.mp h'.range).2.2, Apart, not_forall]
  simp only [writes, not_not]

/-- A valid put passes, or meets a put or a delete of its key. -/
theorem validateOperation_put_cases {request : PutRequest} (hgathers : Gathers footprint operations)
    (hvalid : ValidAlone values verified (.put request)) :
    (∃ footprint', validateOperation values verified footprint (.put request) = .ok footprint')
        ∧ (∀ earlier ∈ operations, Apart earlier (.put request))
      ∨ (∃ e ∈ conflictErrors,
          validateOperation values verified footprint (.put request) = .error e)
        ∧ ∃ earlier ∈ operations, ¬ Apart earlier (.put request) := by
  obtain ⟨alone, hvalid⟩ := hvalid
  obtain ⟨hkey, hlease, howned, -, -, hversion, -⟩ := validateOperation_put_eq_ok.mp hvalid
  have hkey' : validateKey request.key = .ok () := validateKey_eq_ok.mpr hkey
  have howned' :
      ¬ (request.leaseId ≠ 0 ∧ ∀ ownership ∈ verified, ownership.id ≠ request.leaseId) := by
    rintro ⟨hnonzero, hnone⟩
    obtain ⟨ownership, hmem, hid⟩ := howned hnonzero
    exact hnone ownership hmem hid
  by_cases hput : request.key ∈ footprint.putKeys
  · obtain ⟨earlier, hmem, hsame⟩ := (hgathers.puts _).mp hput
    refine .inr ⟨⟨_, mem_cons_self, ?_⟩, _, hmem, fun hapart => ?_⟩
    · simp only [validateOperation, hkey', ok_bind, if_neg (Int.not_lt.mpr hlease),
        if_neg howned', if_pos hput]
      rfl
    · exact hapart request.key (by simp [writes, hsame])
  · by_cases hdelete : ∃ range ∈ footprint.deleteRanges, range.containsKey request.key = true
    · obtain ⟨range, hrange, hcontains⟩ := hdelete
      obtain ⟨earlier, hmem, rfl⟩ := (hgathers.deletes _).mp hrange
      refine .inr ⟨⟨.invalidArgument "transaction put overlaps a delete", by simp [conflictErrors],
        ?_⟩, _, hmem, fun hapart => ?_⟩
      · simp only [validateOperation, hkey', ok_bind, if_neg (Int.not_lt.mpr hlease),
          if_neg howned', if_neg hput]
        rw [if_pos ⟨_, hrange, hcontains⟩]
        rfl
      · exact hapart request.key (by simp [writes, hcontains])
    · have hfree : ∀ range ∈ footprint.deleteRanges, range.containsKey request.key = false := by
        intro range hrange
        by_contra hcontains
        exact hdelete ⟨range, hrange, by simpa using hcontains⟩
      refine .inl ⟨⟨_, validateOperation_put_eq_ok.mpr
        ⟨hkey, hlease, howned, hput, hfree, hversion, rfl⟩⟩, fun earlier hmem key hboth => ?_⟩
      have hhere : request.key = key := by simpa [writes] using hboth.2
      subst hhere
      cases earlier with
      | range _ => simp [writes] at hboth
      | put earlier =>
        refine hput ((hgathers.puts _).mpr ⟨earlier, hmem, ?_⟩)
        simpa [writes] using hboth.1
      | delete earlier =>
        have := hfree _ ((hgathers.deletes _).mpr ⟨earlier, hmem, rfl⟩)
        simp [writes, this] at hboth

/-- A valid delete passes, or meets a delete or a put of one of its keys. -/
theorem validateOperation_delete_cases (hgathers : Gathers footprint operations)
    (hvalids : ∀ earlier ∈ operations, ValidAlone values verified earlier)
    (hvalid : ValidAlone values verified (.delete request)) :
    (∃ footprint', validateOperation values verified footprint (.delete request) = .ok footprint')
        ∧ (∀ earlier ∈ operations, Apart earlier (.delete request))
      ∨ (∃ e ∈ conflictErrors,
          validateOperation values verified footprint (.delete request) = .error e)
        ∧ ∃ earlier ∈ operations, ¬ Apart earlier (.delete request) := by
  have hrange := hvalid.range
  by_cases hoverlap : ∃ range ∈ footprint.deleteRanges, range.overlap request.range = true
  · obtain ⟨range, hmem, hoverlap⟩ := hoverlap
    obtain ⟨earlier, hearlier, rfl⟩ := (hgathers.deletes _).mp hmem
    refine .inr ⟨⟨.invalidArgument "transaction delete ranges overlap", by simp [conflictErrors],
      ?_⟩, _, hearlier, ((hvalids _ hearlier).overlap_iff hvalid).mp hoverlap⟩
    simp only [validateOperation, hrange, ok_bind]
    rw [if_pos ⟨_, hmem, hoverlap⟩]
    rfl
  · by_cases hput : ∃ key ∈ footprint.putKeys, request.range.containsKey key = true
    · obtain ⟨key, hmem, hcontains⟩ := hput
      obtain ⟨earlier, hearlier, rfl⟩ := (hgathers.puts _).mp hmem
      refine .inr ⟨⟨.invalidArgument "transaction delete overlaps a put",
        by simp [conflictErrors], ?_⟩, _, hearlier, fun hapart => ?_⟩
      · simp only [validateOperation, hrange, ok_bind, if_neg hoverlap]
        rw [if_pos ⟨_, hmem, hcontains⟩]
        rfl
      · exact hapart earlier.key (by simp [writes, hcontains])
    · refine .inl ⟨⟨_, validateOperation_delete_eq_ok.mpr ⟨hrange, ?_, ?_, rfl⟩⟩,
        fun earlier hmem => ?_⟩
      · intro range hmem
        by_contra h
        exact hoverlap ⟨range, hmem, by simpa using h⟩
      · intro key hmem
        by_contra h
        exact hput ⟨key, hmem, by simpa using h⟩
      · by_contra hmeet
        cases earlier with
        | range _ => exact hmeet fun key hboth => by simp [writes] at hboth
        | put earlier =>
          refine hmeet fun key hboth => hput ⟨key, ?_, hboth.2⟩
          exact (hgathers.puts _).mpr ⟨earlier, hmem, by simpa [writes] using hboth.1⟩
        | delete earlier =>
          exact hoverlap ⟨_, (hgathers.deletes _).mpr ⟨earlier, hmem, rfl⟩,
            ((hvalids _ hmem).overlap_iff hvalid).mpr hmeet⟩

/-- A valid operation passes exactly if it writes no key that is written already. -/
theorem validateOperation_cases (hgathers : Gathers footprint operations)
    (hvalids : ∀ earlier ∈ operations, ValidAlone values verified earlier)
    (hvalid : ValidAlone values verified operation) :
    (∃ footprint', validateOperation values verified footprint operation = .ok footprint')
        ∧ (∀ earlier ∈ operations, Apart earlier operation)
      ∨ (∃ e ∈ conflictErrors, validateOperation values verified footprint operation = .error e)
        ∧ ∃ earlier ∈ operations, ¬ Apart earlier operation := by
  cases operation with
  | range request =>
    obtain ⟨alone, hvalid⟩ := hvalid
    obtain ⟨hrange, hrevision, -⟩ := validateOperation_range_eq_ok.mp hvalid
    refine .inl ⟨⟨footprint, validateOperation_range_eq_ok.mpr ⟨hrange, hrevision, rfl⟩⟩, ?_⟩
    exact fun earlier _ key hboth => by simp [writes] at hboth
  | put request => exact validateOperation_put_cases hgathers hvalid
  | delete request => exact validateOperation_delete_cases hgathers hvalids hvalid

/-- **Conflicts are shared keys.** The first pass over a branch of valid operations returns if
they are pairwise apart, and throws for conflicting writes if they are not. -/
theorem validateBranch_cases
    (hvalids : ∀ operation ∈ operations, ValidAlone values verified operation) :
    (∃ footprint, operations.foldlM (validateOperation values verified) {} = .ok footprint)
        ∧ operations.Pairwise Apart
      ∨ (∃ e ∈ conflictErrors, operations.foldlM (validateOperation values verified) {} = .error e)
        ∧ ¬ operations.Pairwise Apart := by
  -- the induction is on what is left; the footprint gathers what is done
  suffices hrest : ∀ (rest done : List RequestOperation) (footprint : BranchFootprint),
      Gathers footprint done → (∀ operation ∈ done ++ rest, ValidAlone values verified operation) →
      done.Pairwise Apart →
      (∃ footprint', rest.foldlM (validateOperation values verified) footprint = .ok footprint')
          ∧ (done ++ rest).Pairwise Apart
        ∨ (∃ e ∈ conflictErrors,
            rest.foldlM (validateOperation values verified) footprint = .error e)
          ∧ ¬ (done ++ rest).Pairwise Apart from
    hrest operations [] {} gathers_nil hvalids .nil
  intro rest
  induction rest with
  | nil =>
    intro done footprint _ _ hdone
    exact .inl ⟨⟨footprint, rfl⟩, by simpa using hdone⟩
  | cons operation rest ih =>
    intro done footprint hgathers hvalid hdone
    have hhere := validateOperation_cases hgathers
      (fun earlier hmem => hvalid earlier (mem_append_left _ hmem))
      (hvalid operation (by simp))
    rw [append_cons] at hvalid ⊢
    rcases hhere with ⟨⟨footprint', hok⟩, hapart⟩ | ⟨⟨e, he, herror⟩, earlier, hmem, hmeet⟩
    · have hdone' : (done ++ [operation]).Pairwise Apart := by
        rw [pairwise_append]
        exact ⟨hdone, pairwise_singleton _ _, fun earlier hmem later hlater =>
          mem_singleton.mp hlater ▸ hapart earlier hmem⟩
      simpa only [foldlM_cons, hok, ok_bind] using
        ih (done ++ [operation]) footprint' (validateOperation_gathers hgathers hok) hvalid hdone'
    · refine .inr ⟨⟨e, he, ?_⟩, fun hpairwise => ?_⟩
      · rw [foldlM_cons, herror]
        rfl
      · rw [append_assoc, pairwise_append] at hpairwise
        exact hmeet (hpairwise.2.2 earlier hmem operation (by simp))

/-! ## What an operation does to a key -/

/-- What an operation leaves bound to a key. -/
def rewritten (revision : Int) (key : ByteSequence) (previous : Option KeyValue) :
    RequestOperation → Option KeyValue
  | .range _ => previous
  | .put request =>
    if request.key = key then
      some (rebind previous key request.value revision request.leaseId)
    else previous
  | .delete request => if request.range.containsKey key = true then none else previous

/-- The events an operation emits on given values. -/
def eventsOf (revision : Int) (values : ValueMap) : RequestOperation → List WatchEvent
  | .range _ => []
  | .put request => [putEvent values request.key request.value revision request.leaseId]
  | .delete request =>
    (values.entriesIn request.range).map fun entry => ⟨revision, .erase entry.2⟩

variable {revision : Int} {entries : List (ByteSequence × KeyValue)}

theorem rewritten_of_not_writes (h : writes operation key = false) (previous : Option KeyValue) :
    rewritten revision key previous operation = previous := by
  cases operation with
  | range _ => rfl
  | put request => exact if_neg (by simpa [writes] using h)
  | delete request =>
    have h : request.range.containsKey key = false := h
    simp [rewritten, h]

theorem eventsOf_congr (h : ∀ key, writes operation key = true → values[key]? = values'[key]?) :
    eventsOf revision values operation = eventsOf revision values' operation := by
  cases operation with
  | range _ => rfl
  | put request =>
    have hkey : values[request.key]? = values'[request.key]? := h _ (by simp [writes])
    simp only [eventsOf, putEvent, hkey]
  | delete request => simp only [eventsOf, ValueMap.entriesIn_congr h]

theorem eraseEntries_events (h : eraseEntries revision working entries = .ok working') :
    working'.events = working.events ++ entries.map fun entry => ⟨revision, .erase entry.2⟩ := by
  induction entries generalizing working with
  | nil =>
    obtain rfl : working = working' := pure_eq_ok.mp h
    simp
  | cons entry entries ih =>
    simp only [eraseEntries, bind_eq_ok] at h
    obtain ⟨_, -, h⟩ := h
    rw [ih h]
    simp

theorem executeOperation_spec (h : executeOperation revision working operation = .ok working') :
    (∀ key, working'.values[key]? = rewritten revision key working.values[key]? operation)
      ∧ working'.events = working.events ++ eventsOf revision working.values operation := by
  cases operation with
  | range request =>
    obtain rfl := pure_eq_ok.mp h
    exact ⟨fun _ => rfl, (append_nil _).symm⟩
  | put request =>
    refine ⟨fun key => ?_, ?_⟩
    · rw [executeOperation_put_eq_ok h, ExtTreeMap.getElem?_insert_eq]
      by_cases hkey : request.key = key
      · simp only [rewritten, hkey]
      · simp only [rewritten, if_neg hkey]
    · simp only [executeOperation, bind_eq_ok, pure_eq_ok] at h
      obtain ⟨_, -, _, -, rfl⟩ := h
      rfl
  | delete request =>
    refine ⟨executeOperation_delete_eq_ok h, ?_⟩
    simp only [executeOperation, bind_eq_ok, pure_eq_ok] at h
    obtain ⟨erased, herased, rfl⟩ := h
    show erased.events = _
    exact eraseEntries_events herased

/-! ## What a branch does to a key -/

theorem executeBranch_values
    (h : operations.foldlM (executeOperation revision) working = .ok working')
    (key : ByteSequence) :
    working'.values[key]? = operations.foldl (rewritten revision key) working.values[key]? := by
  induction operations generalizing working with
  | nil =>
    obtain rfl := pure_eq_ok.mp h
    rfl
  | cons operation operations ih =>
    simp only [foldlM_cons, bind_eq_ok] at h
    obtain ⟨middle, h₁, h⟩ := h
    rw [ih h, (executeOperation_spec h₁).1 key, foldl_cons]

theorem foldl_rewritten_of_not_writes (h : ∀ operation ∈ operations, writes operation key = false)
    (previous : Option KeyValue) :
    operations.foldl (rewritten revision key) previous = previous := by
  induction operations generalizing previous with
  | nil => rfl
  | cons operation operations ih =>
    rw [foldl_cons, rewritten_of_not_writes (h operation mem_cons_self)]
    exact ih (fun later hlater => h later (mem_cons_of_mem _ hlater)) previous

/-- The one operation of a branch that writes a key decides what is bound to it. -/
theorem foldl_rewritten_of_writes (hapart : operations.Pairwise Apart)
    (hmem : operation ∈ operations) (hwrites : writes operation key = true)
    (previous : Option KeyValue) :
    operations.foldl (rewritten revision key) previous
      = rewritten revision key previous operation := by
  obtain ⟨before, after, rfl⟩ := append_of_mem hmem
  rw [pairwise_append, pairwise_cons] at hapart
  obtain ⟨-, ⟨hafter, -⟩, hbefore⟩ := hapart
  have hfree : ∀ other, Apart other operation → writes other key = false := by
    intro other h
    by_contra hother
    exact h key ⟨by simpa using hother, hwrites⟩
  rw [foldl_append, foldl_cons, foldl_rewritten_of_not_writes fun other hother =>
      hfree other (hbefore other hother operation mem_cons_self),
    foldl_rewritten_of_not_writes fun other hother => hfree other (hafter other hother).symm]

/-- In a branch whose operations are apart every operation finds what the store has bound. -/
theorem executeBranch_events {stored : ValueMap} (hapart : operations.Pairwise Apart)
    (hstored : ∀ operation ∈ operations, ∀ key, writes operation key = true →
      working.values[key]? = stored[key]?)
    (h : operations.foldlM (executeOperation revision) working = .ok working') :
    working'.events = working.events ++ operations.flatMap (eventsOf revision stored) := by
  induction operations generalizing working with
  | nil =>
    obtain rfl := pure_eq_ok.mp h
    simp
  | cons operation operations ih =>
    simp only [foldlM_cons, bind_eq_ok] at h
    obtain ⟨middle, h₁, h⟩ := h
    rw [pairwise_cons] at hapart
    obtain ⟨hvalues, hevents⟩ := executeOperation_spec h₁
    have hmiddle : ∀ later ∈ operations, ∀ key, writes later key = true →
        middle.values[key]? = stored[key]? := by
      intro later hlater key hkey
      have hfree : writes operation key = false := by
        by_contra hhere
        exact hapart.1 later hlater key ⟨by simpa using hhere, hkey⟩
      rw [hvalues key, rewritten_of_not_writes hfree]
      exact hstored later (mem_cons_of_mem _ hlater) key hkey
    rw [ih hapart.2 hmiddle h, hevents, eventsOf_congr (hstored operation mem_cons_self),
      flatMap_cons, append_assoc]

/-! ## The order does not matter -/

theorem rewritten_comm (h : Apart operation operation')
    (key : ByteSequence) (previous : Option KeyValue) :
    rewritten revision key (rewritten revision key previous operation) operation'
      = rewritten revision key (rewritten revision key previous operation') operation := by
  by_cases hwrites : writes operation key = true
  · have hfree : writes operation' key = false := by
      by_contra hother
      exact h key ⟨hwrites, by simpa using hother⟩
    rw [rewritten_of_not_writes hfree, rewritten_of_not_writes hfree]
  · have hfree : writes operation key = false := by simpa using hwrites
    rw [rewritten_of_not_writes hfree, rewritten_of_not_writes hfree]

theorem foldl_rewritten_perm {operations' : List RequestOperation}
    (hapart : operations.Pairwise Apart) (hperm : operations.Perm operations') (key : ByteSequence)
    (previous : Option KeyValue) :
    operations.foldl (rewritten revision key) previous
      = operations'.foldl (rewritten revision key) previous := by
  refine hperm.foldl_eq' (fun operation hmem operation' hmem' z => ?_) previous
  by_cases heq : operation = operation'
  · rw [heq]
  · exact rewritten_comm (hapart.forall hmem hmem' heq) key z

/-- The values and the terms of the leases determine the attachments. -/
theorem Indexed.leases_unique {leases₁ leases₂ : LeaseMap}
    (h₁ : Indexed values leases₁) (h₂ : Indexed values leases₂) (hterms₁ : SameTerms leases leases₁)
    (hterms₂ : SameTerms leases leases₂) : leases₁ = leases₂ := by
  -- a key attached in one map names the lease in its value, so it is attached in the other
  have hsub : ∀ {leases₁ leases₂ : LeaseMap}, Indexed values leases₁ → Indexed values leases₂ →
      ∀ {id : Int} {lease₁ lease₂ : StoredLease}, leases₁[id]? = some lease₁ →
        leases₂[id]? = some lease₂ → ∀ key ∈ lease₁.attachedKeys, key ∈ lease₂.attachedKeys := by
    intro leases₁ leases₂ h₁ h₂ id lease₁ lease₂ hlease₁ hlease₂ key hkey
    obtain ⟨value, hvalue, rfl⟩ := h₁.bound hlease₁ key hkey
    have hnonzero : value.leaseId ≠ 0 := by
      intro hzero
      rw [hzero, h₁.positive] at hlease₁
      cases hlease₁
    obtain ⟨lease, hlease, hattached⟩ := h₂.attached hvalue hnonzero
    rw [hlease₂] at hlease
    cases hlease
    exact hattached
  apply ExtTreeMap.ext_getElem?
  intro id
  have hterms := (hterms₁ id).trans (hterms₂ id).symm
  cases hlease₁ : leases₁[id]? with
  | none =>
    rw [hlease₁] at hterms
    exact (map_eq_none_iff.mp hterms.symm).symm
  | some lease₁ =>
    rw [hlease₁, map_some, eq_comm, map_eq_some_iff] at hterms
    obtain ⟨lease₂, hlease₂, hterms⟩ := hterms
    have hkeys : lease₁.attachedKeys = lease₂.attachedKeys := by
      apply ExtTreeSet.ext_mem
      exact fun key => ⟨hsub h₁ h₂ hlease₁ hlease₂ key, hsub h₂ h₁ hlease₂ hlease₁ key⟩
    rw [hlease₂]
    simp only [leaseTerms, Prod.mk.injEq] at hterms
    cases lease₁
    cases lease₂
    simp_all

/-! ## The second pass never throws -/

/-- The leases that have been verified are there. -/
def Live (verified : List LeaseOwnership) (leases : LeaseMap) : Prop :=
  ∀ ownership ∈ verified, ∃ lease, leases[ownership.id]? = some lease

theorem Live.of_sameTerms {leases' : LeaseMap} (h : Live verified leases)
    (hterms : SameTerms leases leases') : Live verified leases' := by
  intro ownership hmem
  obtain ⟨lease, hlease⟩ := h ownership hmem
  have hsome := hterms ownership.id
  rw [hlease, map_some, map_eq_some_iff] at hsome
  obtain ⟨lease', hlease', -⟩ := hsome
  exact ⟨lease', hlease'⟩

theorem Indexed.detachKey_returns {value : KeyValue} (h : Indexed values leases)
    (hvalue : values[key]? = some value) : ∃ leases', detachKey leases value = .ok leases' := by
  unfold detachKey
  by_cases hzero : value.leaseId = 0
  · exact ⟨leases, if_pos hzero⟩
  · obtain ⟨lease, hlease, hattached⟩ := h.attached hvalue hzero
    rw [← h.keyed hvalue] at hattached
    rw [if_neg hzero, hlease]
    exact ⟨_, if_pos hattached⟩

theorem Indexed.detachPrevious_returns (h : Indexed values leases) (key : ByteSequence) :
    ∃ leases', InMemoryMetadataStore.detachPrevious leases values[key]? = .ok leases' := by
  cases hvalue : values[key]? with
  | none => exact ⟨leases, rfl⟩
  | some value => exact h.detachKey_returns hvalue

theorem IndexedExcept.attachKey_returns {id : Int} {lease : StoredLease}
    (h : IndexedExcept key values leases) (hlease : leases[id]? = some lease) :
    ∃ leases', attachKey leases id key = .ok leases' := by
  have hfree : key ∉ lease.attachedKeys := fun hmem => (h.bound hlease key hmem).1 rfl
  simp only [attachKey, hlease, if_neg hfree]
  exact ⟨_, rfl⟩

/-- The copies an operation works on stay an index of the same leases. -/
structure Keeps (leases : LeaseMap) (working : Working) : Prop where
  indexed : Indexed working.values working.leases
  terms : SameTerms leases working.leases

theorem eraseEntries_returns (h : Keeps leases working)
    (distinct : entries.Pairwise fun a b => a.1 ≠ b.1)
    (bound : ∀ entry ∈ entries, working.values[entry.1]? = some entry.2) :
    ∃ working', eraseEntries revision working entries = .ok working' ∧ Keeps leases working' := by
  induction entries generalizing working with
  | nil => exact ⟨working, rfl, h⟩
  | cons entry entries ih =>
    rw [pairwise_cons] at distinct
    have hentry := bound entry mem_cons_self
    obtain ⟨detached, hdetach⟩ := h.indexed.detachKey_returns hentry
    have hkeeps : Keeps leases
        { working with
          values := working.values.erase entry.1
          leases := detached
          events := working.events ++ [⟨revision, .erase entry.2⟩] } :=
      ⟨(h.indexed.detach hentry hdetach).erase, h.terms.trans (detachKey_sameTerms hdetach)⟩
    obtain ⟨working', hwork, hkeeps'⟩ := ih hkeeps distinct.2 fun later hlater => by
      show (working.values.erase entry.1)[later.1]? = _
      rw [ExtTreeMap.getElem?_erase_eq, if_neg (distinct.1 later hlater)]
      exact bound later (mem_cons_of_mem _ hlater)
    refine ⟨working', ?_, hkeeps'⟩
    rw [eraseEntries, hdetach, ok_bind]
    exact hwork

theorem executeOperation_returns (h : Keeps leases working) (hlive : Live verified leases)
    (hvalid : ValidAlone values verified operation) :
    ∃ working', executeOperation revision working operation = .ok working'
      ∧ Keeps leases working' := by
  cases operation with
  | range request => exact ⟨_, rfl, h.indexed, h.terms⟩
  | put request =>
    obtain ⟨_, hvalid⟩ := hvalid
    obtain ⟨-, -, howned, -⟩ := validateOperation_put_eq_ok.mp hvalid
    obtain ⟨detached, hdetach⟩ := h.indexed.detachPrevious_returns request.key
    have hexcept := h.indexed.detachPrevious hdetach
    have hterms := h.terms.trans (detachPrevious_sameTerms hdetach)
    obtain ⟨attached, hattach⟩ : ∃ attached, (if request.leaseId = 0 then pure detached
        else attachKey detached request.leaseId request.key) = .ok attached := by
      by_cases hzero : request.leaseId = 0
      · exact ⟨detached, if_pos hzero⟩
      · obtain ⟨ownership, hmem, hid⟩ := howned hzero
        obtain ⟨lease, hlease⟩ := (hlive.of_sameTerms hterms) ownership hmem
        rw [if_neg hzero]
        exact hexcept.attachKey_returns (hid ▸ hlease)
    have hattaches := attaches_of_eq_ok hattach
    have hterms' : SameTerms detached attached := by
      split at hattach
      · obtain rfl := pure_eq_ok.mp hattach
        exact fun _ => rfl
      · obtain ⟨lease, hlease, rfl⟩ := attachKey_eq_ok hattach
        exact SameTerms.insert hlease rfl
    refine ⟨_, bind_eq_ok.mpr ⟨detached, hdetach,
      bind_eq_ok.mpr ⟨attached, hattach, rfl⟩⟩, ?_, hterms.trans hterms'⟩
    exact hexcept.insert rfl hattaches
  | delete request =>
    obtain ⟨erased, herased, hkeeps⟩ : ∃ erased, eraseEntries revision working
        (working.values.entriesIn request.range) = .ok erased ∧ Keeps leases erased :=
      eraseEntries_returns h (ValueMap.entriesIn_distinct _ _)
        (fun entry hentry => (ValueMap.mem_entriesIn.mp hentry).1)
    exact ⟨_, bind_eq_ok.mpr ⟨erased, herased, rfl⟩, hkeeps.indexed, hkeeps.terms⟩

theorem executeBranch_returns (h : Keeps leases working) (hlive : Live verified leases)
    (hvalids : ∀ operation ∈ operations, ValidAlone values verified operation) :
    ∃ working', operations.foldlM (executeOperation revision) working = .ok working'
      ∧ Keeps leases working' := by
  refine Except.exists_foldlM_eq_ok (P := fun _ w => Keeps leases w) h fun heq hw => ?_
  exact executeOperation_returns hw hlive (hvalids _ (by simp [heq]))

end InMemoryMetadataStore

end KuraMetadata
