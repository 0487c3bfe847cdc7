import KuraMetadata.Store.Effects

/-! # The branches of a transaction

A branch is validated against the store and then executed on working copies. The two passes
run over the same operations, so what the first has checked of an operation holds when the
second executes it: the execution is a sequence of edits, and there is none if the first pass
has found no effective mutation. -/

namespace KuraMetadata

open Std List Except

variable {range : KeyRange} {values stored : ValueMap} {verified : List LeaseOwnership}
variable {footprint footprint' : BranchFootprint}

/-! ## The entries of a range -/

theorem compare_isLE_eq_not_isLT (a b : ByteSequence) :
    (compare a b).isLE = !(compare b a).isLT := by
  rw [@OrientedCmp.eq_swap _ compare _ a b]
  cases compare b a <;> rfl

theorem ValueMap.entriesIn_eq_filter (values : ValueMap) (range : KeyRange) :
    values.entriesIn range = values.toList.filter fun entry => range.containsKey entry.1 := by
  unfold ValueMap.entriesIn
  rw [takeWhile_eq_filter
      ((ExtTreeMap.pairwise_toList_isLT values range.stop).sublist (dropWhile_sublist _)),
    dropWhile_eq_filter (ExtTreeMap.pairwise_toList_isLT values range.start),
    filter_filter]
  refine filter_congr fun entry _ => ?_
  rw [KeyRange.containsKey, compare_isLE_eq_not_isLT, Bool.and_comm]

theorem ValueMap.mem_entriesIn {entry : ByteSequence × KeyValue} :
    entry ∈ values.entriesIn range
      ↔ values[entry.1]? = some entry.2 ∧ range.containsKey entry.1 = true := by
  rw [ValueMap.entriesIn_eq_filter, mem_filter, ← ExtTreeMap.mem_toList_iff_getElem?_eq_some]

theorem ValueMap.entriesIn_distinct (values : ValueMap) (range : KeyRange) :
    (values.entriesIn range).Pairwise fun a b => a.1 ≠ b.1 := by
  rw [ValueMap.entriesIn_eq_filter]
  refine (ExtTreeMap.distinct_keys_toList.imp fun {a b} hab he => ?_).filter _
  exact hab (LawfulEqCmp.compare_eq_iff_eq.mpr he)

namespace InMemoryMetadataStore

variable {leases : LeaseMap} {revision : Int} {working working' : Working}
variable {operations : List RequestOperation} {operation : RequestOperation}

/-! ## Validating one operation -/

theorem validateRange_eq_ok {u : Unit} :
    validateRange range = .ok u
      ↔ range.start ≠ [] ∧ range.stop ≠ [] ∧ (compare range.start range.stop).isLT = true := by
  simp only [validateRange, throw_eq_error, error_bind, ite_error_eq_ok,
    pure_eq_ok, Bool.or_eq_true, List.isEmpty_iff, not_or, and_true, and_assoc]
  cases compare range.start range.stop <;> simp

theorem validateOperation_range_eq_ok {request : RangeRequest} :
    validateOperation stored verified footprint (.range request) = .ok footprint'
      ↔ validateRange request.range = .ok () ∧ request.revision = 0 ∧ footprint = footprint' := by
  simp only [validateOperation, bind_eq_ok, throw_eq_error, error_bind,
    ite_error_eq_ok, pure_eq_ok, not_not, ne_eq]
  constructor
  · rintro ⟨_, h⟩
    exact h
  · exact fun h => ⟨(), h⟩

theorem validateOperation_put_eq_ok {request : PutRequest} :
    validateOperation stored verified footprint (.put request) = .ok footprint'
      ↔ request.key ≠ [] ∧ 0 ≤ request.leaseId
        ∧ (request.leaseId ≠ 0 → ∃ ownership ∈ verified, ownership.id = request.leaseId)
        ∧ request.key ∉ footprint.putKeys
        ∧ (∀ range ∈ footprint.deleteRanges, range.containsKey request.key = false)
        ∧ stored[request.key]?.map (·.version) ≠ some i64Max
        ∧ { footprint with
            putKeys := footprint.putKeys ++ [request.key]
            hasEffectiveMutation := true } = footprint' := by
  simp only [validateOperation, bind_eq_ok, throw_eq_error, error_bind,
    ite_error_eq_ok, pure_eq_ok, validateKey_eq_ok, exists_const, Int.not_lt,
    not_and, not_exists, not_forall, not_not, ne_eq, Bool.not_eq_true, exists_prop]

theorem validateOperation_delete_eq_ok {request : DeleteRequest} :
    validateOperation stored verified footprint (.delete request) = .ok footprint'
      ↔ validateRange request.range = .ok ()
        ∧ (∀ range ∈ footprint.deleteRanges, range.overlap request.range = false)
        ∧ (∀ key ∈ footprint.putKeys, request.range.containsKey key = false)
        ∧ { footprint with
            deleteRanges := footprint.deleteRanges ++ [request.range]
            hasEffectiveMutation := footprint.hasEffectiveMutation
              || !(stored.entriesIn request.range).isEmpty } = footprint' := by
  simp only [validateOperation, bind_eq_ok, throw_eq_error, error_bind,
    ite_error_eq_ok, pure_eq_ok, not_and, not_exists, Bool.not_eq_true]
  constructor
  · rintro ⟨_, h⟩
    exact h
  · exact fun h => ⟨(), h⟩

theorem validateOperation_effective
    (h : validateOperation stored verified footprint operation = .ok footprint')
    (heffective : footprint'.hasEffectiveMutation = false) :
    footprint.hasEffectiveMutation = false := by
  cases operation with
  | range request =>
    obtain ⟨-, -, rfl⟩ := validateOperation_range_eq_ok.mp h
    exact heffective
  | put request =>
    obtain ⟨-, -, -, -, -, -, rfl⟩ := validateOperation_put_eq_ok.mp h
    cases heffective
  | delete request =>
    obtain ⟨-, -, -, rfl⟩ := validateOperation_delete_eq_ok.mp h
    exact (Bool.or_eq_false_iff.mp heffective).1

/-! ## Executing one operation -/

/-- The keys of the puts among the events. -/
def PutsWithin (events : List WatchEvent) (keys : List ByteSequence) : Prop :=
  ∀ event ∈ events, ∀ current previous, event.mutation = .put current previous →
    current.key ∈ keys

theorem eraseEntries_eq_ok {entries : List (ByteSequence × KeyValue)}
    (h : eraseEntries revision working entries = .ok working')
    (distinct : entries.Pairwise fun a b => a.1 ≠ b.1)
    (bound : ∀ entry ∈ entries, working.values[entry.1]? = some entry.2)
    (edits : Edits revision values leases working.events working.values working.leases) :
    Edits revision values leases working'.events working'.values working'.leases
      ∧ working'.events
        = working.events ++ entries.map fun entry => ⟨revision, .erase entry.2⟩ := by
  induction entries generalizing working with
  | nil =>
    obtain rfl : working = working' := pure_eq_ok.mp h
    exact ⟨edits, (append_nil _).symm⟩
  | cons entry entries ih =>
    simp only [eraseEntries, bind_eq_ok] at h
    obtain ⟨detached, hdetach, h⟩ := h
    rw [pairwise_cons] at distinct
    -- the entries still to be erased keep their binding
    obtain ⟨hedits, hevents⟩ := ih h distinct.2 (fun later hlater => by
        rw [ExtTreeMap.getElem?_erase_eq, if_neg (distinct.1 later hlater)]
        exact bound later (mem_cons_of_mem _ hlater))
      (edits.erase (bound entry mem_cons_self) hdetach)
    refine ⟨hedits, ?_⟩
    rw [hevents, map_cons, append_assoc, singleton_append]

theorem executeOperation_edits
    (hvalid : validateOperation stored verified footprint operation = .ok footprint')
    (h : executeOperation revision working operation = .ok working')
    (edits : Edits revision values leases working.events working.values working.leases)
    (puts : PutsWithin working.events footprint.putKeys) :
    Edits revision values leases working'.events working'.values working'.leases
      ∧ PutsWithin working'.events footprint'.putKeys := by
  cases operation with
  | range request =>
    obtain ⟨-, -, rfl⟩ := validateOperation_range_eq_ok.mp hvalid
    obtain rfl := pure_eq_ok.mp h
    exact ⟨edits, puts⟩
  | put request =>
    obtain ⟨hkey, hlease, -, hfresh, -, -, rfl⟩ := validateOperation_put_eq_ok.mp hvalid
    simp only [executeOperation, bind_eq_ok, pure_eq_ok] at h
    obtain ⟨detached, hdetach, attached, hattach, rfl⟩ := h
    refine ⟨edits.put hkey hlease ?_ hdetach hattach, ?_⟩
    · intro event hevent current previous hput he
      exact hfresh (he ▸ puts event hevent current previous hput)
    · intro event hevent current previous hput
      rcases mem_append.mp hevent with hevent | hevent
      · exact mem_append_left _ (puts event hevent current previous hput)
      · obtain rfl := mem_singleton.mp hevent
        cases hput
        exact mem_append_right _ mem_cons_self
  | delete request =>
    obtain ⟨-, -, -, rfl⟩ := validateOperation_delete_eq_ok.mp hvalid
    simp only [executeOperation, bind_eq_ok, pure_eq_ok] at h
    obtain ⟨erased, herased, rfl⟩ := h
    obtain ⟨hedits, hevents⟩ := eraseEntries_eq_ok herased
      (ValueMap.entriesIn_distinct _ _) (fun entry hentry => (ValueMap.mem_entriesIn.mp hentry).1)
      edits
    refine ⟨hedits, ?_⟩
    intro event hevent current previous hput
    rw [hevents] at hevent
    rcases mem_append.mp hevent with hevent | hevent
    · exact puts event hevent current previous hput
    · obtain ⟨entry, -, rfl⟩ := mem_map.mp hevent
      cases hput

/-- An operation that is not effective changes nothing but the responses. -/
theorem executeOperation_idle
    (hvalid : validateOperation working.values verified footprint operation = .ok footprint')
    (heffective : footprint'.hasEffectiveMutation = false)
    (h : executeOperation revision working operation = .ok working') :
    working'.values = working.values ∧ working'.leases = working.leases
      ∧ working'.events = working.events := by
  cases operation with
  | range request =>
    obtain rfl := pure_eq_ok.mp h
    exact ⟨rfl, rfl, rfl⟩
  | put request =>
    obtain ⟨-, -, -, -, -, -, rfl⟩ := validateOperation_put_eq_ok.mp hvalid
    cases heffective
  | delete request =>
    obtain ⟨-, -, -, rfl⟩ := validateOperation_delete_eq_ok.mp hvalid
    have hempty : working.values.entriesIn request.range = [] := by
      have := (Bool.or_eq_false_iff.mp heffective).2
      rwa [Bool.not_eq_false', List.isEmpty_iff] at this
    simp only [executeOperation, hempty, eraseEntries, bind_eq_ok, pure_eq_ok] at h
    obtain ⟨_, rfl, rfl⟩ := h
    exact ⟨rfl, rfl, rfl⟩

/-! ## Executing a branch -/

theorem executeBranch_edits
    (hvalid : operations.foldlM (validateOperation stored verified) footprint = .ok footprint')
    (h : operations.foldlM (executeOperation revision) working = .ok working')
    (edits : Edits revision values leases working.events working.values working.leases)
    (puts : PutsWithin working.events footprint.putKeys) :
    Edits revision values leases working'.events working'.values working'.leases := by
  induction operations generalizing footprint working with
  | nil =>
    obtain rfl := pure_eq_ok.mp h
    exact edits
  | cons operation operations ih =>
    simp only [foldlM_cons, bind_eq_ok] at hvalid h
    obtain ⟨between, hvalid₁, hvalid⟩ := hvalid
    obtain ⟨middle, h₁, h⟩ := h
    obtain ⟨hedits, hputs⟩ := executeOperation_edits hvalid₁ h₁ edits puts
    exact ih hvalid h hedits hputs

theorem validateBranch_effective
    (h : operations.foldlM (validateOperation stored verified) footprint = .ok footprint')
    (heffective : footprint'.hasEffectiveMutation = false) :
    footprint.hasEffectiveMutation = false := by
  induction operations generalizing footprint with
  | nil =>
    obtain rfl := pure_eq_ok.mp h
    exact heffective
  | cons operation operations ih =>
    simp only [foldlM_cons, bind_eq_ok] at h
    obtain ⟨between, h₁, h⟩ := h
    exact validateOperation_effective h₁ (ih h)

theorem executeBranch_idle
    (hvalid : operations.foldlM (validateOperation stored verified) footprint = .ok footprint')
    (heffective : footprint'.hasEffectiveMutation = false)
    (h : operations.foldlM (executeOperation revision) working = .ok working')
    (hstored : working.values = stored) :
    working'.values = working.values ∧ working'.leases = working.leases
      ∧ working'.events = working.events := by
  induction operations generalizing footprint working with
  | nil =>
    obtain rfl := pure_eq_ok.mp h
    exact ⟨rfl, rfl, rfl⟩
  | cons operation operations ih =>
    simp only [foldlM_cons, bind_eq_ok] at hvalid h
    obtain ⟨between, hvalid₁, hvalid⟩ := hvalid
    obtain ⟨middle, h₁, h⟩ := h
    subst hstored
    obtain ⟨hvalues, hleases, hevents⟩ := executeOperation_idle hvalid₁
      (validateBranch_effective hvalid heffective) h₁
    obtain ⟨hvalues', hleases', hevents'⟩ := ih hvalid h hvalues
    exact ⟨hvalues'.trans hvalues, hleases'.trans hleases, hevents'.trans hevents⟩

end InMemoryMetadataStore

end KuraMetadata
