import KuraMetadata.Store.Plans

/-! # The revision a transaction takes

The first pass of a transaction decides from the stored values whether it takes a revision, and
the second pass changes working copies of them. The decision is right: the second pass emits an
event exactly if the first pass took a revision, and every event and every value it binds carries
that revision. -/

namespace KuraMetadata.InMemoryMetadataStore

open Std List Except

variable {s : InMemoryMetadataStore} {values : ValueMap}
variable {revision : Int} {operations : List RequestOperation} {request : TransactionRequest}
variable {operation : RequestOperation} {plan : TransactionPlan}

/-! ## Events -/

theorem eventsOf_eq_nil_iff :
    eventsOf revision values operation = [] ↔ effective values operation = false := by
  cases operation with
  | range _ | put _ | delete request => simp [eventsOf, effective]

theorem flatMap_eventsOf_eq_nil_iff :
    operations.flatMap (eventsOf revision values) = []
      ↔ operations.any (effective values) = false := by
  rw [flatMap_eq_nil_iff, any_eq_false]
  refine forall₂_congr fun operation _ => ?_
  rw [eventsOf_eq_nil_iff, Bool.not_eq_true]

/-- An event and the value it binds carry the revision. -/
def Carries (revision : Int) (event : WatchEvent) : Prop :=
  event.revision = revision
    ∧ ∀ value previous, event.mutation = .put value previous → value.modRevision = revision

theorem carries_of_mem_eventsOf {event : WatchEvent}
    (h : event ∈ eventsOf revision values operation) :
    Carries revision event := by
  cases operation with
  | range _ => cases h
  | put request =>
    obtain rfl := mem_singleton.mp h
    refine ⟨rfl, fun value previous hmutation => ?_⟩
    cases hmutation
    rfl
  | delete request =>
    obtain ⟨entry, -, rfl⟩ := mem_map.mp h
    exact ⟨rfl, fun value previous hmutation => by cases hmutation⟩

/-! ## The decision -/

/-- The comparisons and the ownerships of the request all hold. -/
def Holds (s : InMemoryMetadataStore) (request : TransactionRequest) : Prop :=
  (∀ comparison ∈ request.comparisons, evaluateComparison s.values comparison = .ok true)
    ∧ ∀ ownership ∈ request.leaseOwnership,
        ownershipMatches s.leases request.leaseTick ownership = true

/-- How a branch that emits these events takes the store `s` to `t`. -/
structure Follows (s t : InMemoryMetadataStore) (operations : List RequestOperation)
    (events : List WatchEvent) : Prop where
  revision : t.revision = if events = [] then s.revision else s.revision + 1
  carries : ∀ event ∈ events, Carries t.revision event
  put : ∀ {request : PutRequest}, .put request ∈ operations →
    t.values[request.key]?
        = some (rebind s.values[request.key]? request.key request.value t.revision request.leaseId)
      ∧ putEvent s.values request.key request.value t.revision request.leaseId ∈ events
  delete : ∀ {request : DeleteRequest} {key : ByteSequence}, .delete request ∈ operations →
    request.range.containsKey key = true →
      t.values[key]? = none
        ∧ ∀ value, s.values[key]? = some value → ⟨t.revision, .erase value⟩ ∈ events
  untouched : ∀ {key : ByteSequence}, (∀ operation ∈ operations, writes operation key = false) →
    t.values[key]? = s.values[key]?
  idle : events = [] → t = { s with logicalTick := t.logicalTick }

theorem evaluateComparisons_of_forall {comparisons : List Compare}
    (h : ∀ comparison ∈ comparisons, evaluateComparison values comparison = .ok true) :
    evaluateComparisons values comparisons = .ok true := by
  unfold evaluateComparisons
  induction comparisons with
  | nil => rfl
  | cons comparison comparisons ih =>
    rw [forall_mem_cons] at h
    rw [foldlM_cons, h.1, ok_bind]
    exact ih h.2

theorem chooseBranch_holds_iff {succeeded : Bool} {verified : List LeaseOwnership}
    (h : s.chooseBranch request = .ok (succeeded, verified, operations)) :
    succeeded = true ↔ s.Holds request := by
  simp only [chooseBranch, bind_eq_ok, pure_eq_ok, Prod.mk.injEq] at h
  obtain ⟨hold, hhold, _, -, verified', -, rfl, -, -⟩ := h
  rw [Bool.and_eq_true, all_eq_true, Holds]
  refine and_congr_left fun _ => ⟨fun h => evaluateComparison_of_mem (h ▸ hhold), fun h => ?_⟩
  rw [evaluateComparisons_of_forall h] at hhold
  cases hhold
  rfl

theorem committed_of_idle (h : plan.hasEffectiveMutation = false)
    (hvalues : plan.working.values = s.values) (hleases : plan.working.leases = s.leases)
    (hrevision : plan.revision = s.revision) :
    s.committed request plan
      = { s with logicalTick := (s.committed request plan).logicalTick } := by
  simp [committed, h, hvalues, hleases, hrevision]

/-- Without an effective operation every key keeps what is bound to it. -/
theorem foldl_rewritten_of_ineffective (h : operations.any (effective values) = false)
    (key : ByteSequence) :
    operations.foldl (rewritten revision key) values[key]? = values[key]? := by
  induction operations with
  | nil => rfl
  | cons operation operations ih =>
    rw [any_cons, Bool.or_eq_false_iff] at h
    have hhere : rewritten revision key values[key]? operation = values[key]? := by
      cases operation with
      | range _ => rfl
      | put _ => cases h.1
      | delete request =>
        -- a range without entries holds no bound key
        have hempty : values.entriesIn request.range = [] := by simpa [effective] using h.1
        cases hvalue : values[key]? with
        | none => exact ite_self _
        | some value =>
          refine if_neg fun hcontains => ?_
          have hmem : (key, value) ∈ values.entriesIn request.range :=
            ValueMap.mem_entriesIn.mpr ⟨hvalue, hcontains⟩
          rw [hempty] at hmem
          cases hmem
    rw [foldl_cons, hhere, ih h.2]

theorem Executes.follows (hindexed : Indexed s.values s.leases)
    (h : s.Executes operations plan) (hapart : operations.Pairwise Apart) :
    Follows s (s.committed request plan) operations plan.working.events := by
  have hevents : plan.working.events = [] ↔ operations.any (effective s.values) = false := by
    rw [h.events, flatMap_eventsOf_eq_nil_iff]
  have hmem : ∀ {operation : RequestOperation}, operation ∈ operations →
      ∀ event ∈ eventsOf plan.revision s.values operation, event ∈ plan.working.events := by
    intro operation hmem event hevent
    rw [h.events, mem_flatMap]
    exact ⟨operation, hmem, hevent⟩
  refine
    { revision := ?_, carries := ?_, put := ?_, delete := ?_, untouched := ?_, idle := ?_ }
  · rw [committed_revision, h.revision]
    by_cases hany : operations.any (effective s.values) = true
    · rw [if_pos hany, if_neg (fun hnil => by simp [hevents.mp hnil] at hany)]
    · rw [if_neg hany, if_pos (hevents.mpr (by simpa using hany))]
  · intro event hevent
    rw [h.events, mem_flatMap] at hevent
    obtain ⟨operation, -, hevent⟩ := hevent
    rw [committed_revision]
    exact carries_of_mem_eventsOf hevent
  · intro request hput
    rw [committed_values, committed_revision, h.values,
      foldl_rewritten_of_writes hapart hput (by simp [writes])]
    exact ⟨if_pos rfl, hmem hput _ (mem_singleton_self _)⟩
  · intro request key hdelete hcontains
    rw [committed_values, committed_revision, h.values,
      foldl_rewritten_of_writes hapart hdelete hcontains]
    refine ⟨if_pos hcontains, fun value hvalue => hmem hdelete _ (mem_map.mpr ?_)⟩
    exact ⟨(key, value), ValueMap.mem_entriesIn.mpr ⟨hvalue, hcontains⟩, rfl⟩
  · intro key hfree
    rw [committed_values, h.values, foldl_rewritten_of_not_writes hfree]
  · intro hnil
    have hidle := hevents.mp hnil
    have hvalues : plan.working.values = s.values := by
      apply ExtTreeMap.ext_getElem?
      intro key
      rw [h.values, foldl_rewritten_of_ineffective hidle]
    refine committed_of_idle (h.flag.trans hidle) hvalues ?_ ?_
    · exact (hvalues ▸ h.leases.indexed).leases_unique hindexed h.leases.terms fun _ => rfl
    · rw [h.revision, if_neg (by simp [hidle])]

/-- The two passes of a transaction that returns: the flag of the first says whether the second
emits an event, and the store follows those events. -/
theorem decision_matches_effects {s₀ s t : InMemoryMetadataStore} {calls : List Call}
    (opened : Opened s₀) (run : Run s₀ calls s)
    {result : TransactionResult × Option EventBatch} (h : transaction request s = .ok result t) :
    ∃ verified operations footprint working,
      verifyOwnership s.leases request.leaseTick request.leaseOwnership = .ok verified
        ∧ (s.Holds request → operations = request.success)
        ∧ (¬ s.Holds request → operations = request.failure)
        ∧ (result.1.succeeded = true ↔ s.Holds request)
        ∧ operations.foldlM (validateOperation s.values verified) {} = .ok footprint
        ∧ operations.foldlM (executeOperation t.revision)
            { values := s.values, leases := s.leases } = .ok working
        ∧ (footprint.hasEffectiveMutation = true ↔ working.events ≠ [])
        ∧ result.2 = (if working.events = [] then none else some ⟨t.revision, working.events⟩)
        ∧ Follows s t operations working.events := by
  have hindexed := (wellFormed_of_run opened run).index
  obtain ⟨plan, hplan, -⟩ := transaction_committed h
  rw [transaction_of_plan hplan] at h
  cases h
  obtain ⟨succeeded, verified, operations, hchoice, hbranch⟩ := planTransaction_choice hplan
  obtain ⟨hlive, hoperations⟩ := chooseBranch_eq_ok hchoice
  obtain ⟨-, hapart, hsucceeded, hexecutes⟩ := planBranch_eq_ok hindexed hlive hbranch
  have hholds := chooseBranch_holds_iff hchoice
  simp only [planBranch, bind_eq_ok, pure_eq_ok] at hbranch
  obtain ⟨footprint, hfootprint, revision, -, working, hwork, rfl⟩ := hbranch
  have hflag : footprint.hasEffectiveMutation = true ↔ working.events ≠ [] := by
    rw [show footprint.hasEffectiveMutation = _ from hexecutes.flag,
      show working.events = _ from hexecutes.events, ne_eq, flatMap_eventsOf_eq_nil_iff,
      Bool.not_eq_false]
  refine ⟨verified, operations, footprint, working, ?_, ?_, ?_, ?_, hfootprint, ?_, hflag, ?_,
    hexecutes.follows hindexed hapart⟩
  · simp only [chooseBranch, bind_eq_ok, pure_eq_ok, Prod.mk.injEq] at hchoice
    obtain ⟨_, -, _, -, verified', hverified, -, rfl, -⟩ := hchoice
    exact hverified
  · intro hold
    rw [hoperations, if_pos (hholds.mpr hold)]
  · intro hfail
    rw [hoperations, if_neg (fun hold => hfail (hholds.mp hold))]
  · rw [← hholds]
  · rw [committed_revision]
    exact hwork
  · rw [committed_revision]
    by_cases heffective : footprint.hasEffectiveMutation = true
    · rw [if_neg (hflag.mp heffective), if_pos heffective]
    · rw [if_pos (by_contra fun hsome => heffective (hflag.mpr hsome)), if_neg heffective]

/-- One key is updated, one is created and one is deleted. -/
def mixedWrites : TransactionRequest :=
  { comparisons := [⟨[1], .version, .equal, .int64 1⟩]
    success := [.put { key := [1], value := [8] }, .delete { range := ⟨[2], [3]⟩ },
      .put { key := [4], value := [9] }] }

theorem decision_matches_effects_mixedWrites :
    ∃ result t verified operations footprint, ∃ working : Working,
      transaction mixedWrites (stateAfter emptyStore (leaseLife.take 2)) = .ok result t
        ∧ verifyOwnership (stateAfter emptyStore (leaseLife.take 2)).leases 0 [] = .ok verified
        ∧ operations.foldlM (validateOperation (stateAfter emptyStore (leaseLife.take 2)).values
            verified) {} = .ok footprint
        ∧ (footprint.hasEffectiveMutation = true ↔ working.events ≠ [])
        ∧ Follows (stateAfter emptyStore (leaseLife.take 2)) t operations working.events := by
  obtain ⟨result, t, h⟩ : ∃ result t,
      transaction mixedWrites (stateAfter emptyStore (leaseLife.take 2)) = .ok result t :=
    ⟨_, _, by rfl⟩
  obtain ⟨verified, operations, footprint, working, hverified, -, -, -, hfootprint, -, hflag, -,
    hfollows⟩ := decision_matches_effects emptyStore_opened
      (Run.of_operations emptyStore (leaseLife.take 2)) h
  exact ⟨result, t, verified, operations, footprint, working, h, hverified, hfootprint, hflag,
    hfollows⟩

end KuraMetadata.InMemoryMetadataStore
