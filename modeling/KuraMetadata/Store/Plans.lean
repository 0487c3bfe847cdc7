import KuraMetadata.Store.WriteSets

/-! # The plan of a transaction

`planTransaction` chooses a branch and then runs its two passes. Over an indexed store a plan
holds what the operations of the branch do one by one, in whatever order they stand. -/

namespace KuraMetadata.InMemoryMetadataStore

open Std List Except

variable {s : InMemoryMetadataStore} {values : ValueMap} {verified ownerships : List LeaseOwnership}
variable {request : TransactionRequest} {succeeded : Bool} {operations : List RequestOperation}
variable {footprint footprint' : BranchFootprint} {plan : TransactionPlan}

/-! ## The two halves of a plan -/

/-- The first statements of `transaction`: whether all comparisons and ownerships hold, the
ownerships that do, and the operations of the branch that is taken. -/
def chooseBranch (s : InMemoryMetadataStore) (request : TransactionRequest) :
    Except StoreException (Bool × List LeaseOwnership × List RequestOperation) := do
  let comparisonsHold ← evaluateComparisons s.values request.comparisons
  (if request.leaseOwnership.isEmpty then pure () else s.validateTick request.leaseTick)
  let verified ← verifyOwnership s.leases request.leaseTick request.leaseOwnership
  let succeeded := comparisonsHold
    && request.leaseOwnership.all (ownershipMatches s.leases request.leaseTick)
  return (succeeded, verified, if succeeded then request.success else request.failure)

/-- The two passes over the operations of a branch. -/
def planBranch (s : InMemoryMetadataStore) (succeeded : Bool) (verified : List LeaseOwnership)
    (operations : List RequestOperation) : Except StoreException TransactionPlan := do
  let footprint ← operations.foldlM (validateOperation s.values verified) {}
  let revision ← (if footprint.hasEffectiveMutation then s.nextRevision else pure s.revision)
  let working ← operations.foldlM (executeOperation revision)
    { values := s.values, leases := s.leases }
  return { succeeded, hasEffectiveMutation := footprint.hasEffectiveMutation, revision, working }

theorem planTransaction_eq (request : TransactionRequest) :
    s.planTransaction request
      = s.chooseBranch request >>= fun choice => s.planBranch choice.1 choice.2.1 choice.2.2 := by
  simp only [planTransaction, chooseBranch, planBranch, bind_assoc, pure_bind]

/-- The ownerships that have been verified hold. -/
theorem verifyOwnership_eq_ok {leases : LeaseMap} {tick : Nat}
    (h : verifyOwnership leases tick ownerships = .ok verified) :
    ∀ ownership ∈ verified, ownershipMatches leases tick ownership = true := by
  refine Except.foldlM_induct (P := fun verified : List LeaseOwnership =>
    ∀ ownership ∈ verified, ownershipMatches leases tick ownership = true) h (by simp) ?_
  intro verified verified' ownership hverified hstep
  rw [Except.throw_eq_error, Except.ite_error_eq_ok] at hstep
  by_cases hmatches : ownershipMatches leases tick ownership = true
  · rw [if_pos hmatches, pure_eq_ok] at hstep
    obtain ⟨-, rfl⟩ := hstep
    intro other hother
    rcases mem_append.mp hother with hother | hother
    · exact hverified other hother
    · exact mem_singleton.mp hother ▸ hmatches
  · rw [if_neg hmatches, pure_eq_ok] at hstep
    exact hstep.2 ▸ hverified

theorem live_of_verified {tick : Nat}
    (h : verifyOwnership s.leases tick ownerships = .ok verified) : Live verified s.leases := by
  intro ownership hmem
  have hmatches := verifyOwnership_eq_ok h ownership hmem
  unfold ownershipMatches at hmatches
  cases hlease : s.leases[ownership.id]? with
  | none => simp [hlease] at hmatches
  | some lease => exact ⟨lease, rfl⟩

theorem chooseBranch_eq_ok (h : s.chooseBranch request = .ok (succeeded, verified, operations)) :
    Live verified s.leases
      ∧ operations = if succeeded then request.success else request.failure := by
  simp only [chooseBranch, bind_eq_ok, pure_eq_ok, Prod.mk.injEq] at h
  obtain ⟨hold, -, _, -, verified', hverified, rfl, rfl, rfl⟩ := h
  exact ⟨live_of_verified hverified, rfl⟩

/-! ## A branch that is accepted -/

theorem validateOperation_alone {operation : RequestOperation}
    (h : validateOperation values verified footprint operation = .ok footprint') :
    ValidAlone values verified operation := by
  cases operation with
  | range request =>
    obtain ⟨hrange, hrevision, -⟩ := validateOperation_range_eq_ok.mp h
    exact ⟨_, validateOperation_range_eq_ok.mpr ⟨hrange, hrevision, rfl⟩⟩
  | put request =>
    obtain ⟨hkey, hlease, howned, -, -, hversion, -⟩ := validateOperation_put_eq_ok.mp h
    exact ⟨_, validateOperation_put_eq_ok.mpr
      ⟨hkey, hlease, howned, by simp, by simp, hversion, rfl⟩⟩
  | delete request =>
    obtain ⟨hrange, -⟩ := validateOperation_delete_eq_ok.mp h
    exact ⟨_, validateOperation_delete_eq_ok.mpr ⟨hrange, by simp, by simp, rfl⟩⟩

/-- The operations of a branch that passes are valid and apart. -/
theorem validateBranch_eq_ok
    (h : operations.foldlM (validateOperation values verified) {} = .ok footprint) :
    (∀ operation ∈ operations, ValidAlone values verified operation)
      ∧ operations.Pairwise Apart := by
  have hvalids : ∀ (operations : List RequestOperation) (before after : BranchFootprint),
      operations.foldlM (validateOperation values verified) before = .ok after →
      ∀ operation ∈ operations, ValidAlone values verified operation := by
    intro operations
    induction operations with
    | nil => exact fun _ _ _ => forall_mem_nil _
    | cons operation operations ih =>
      intro before after h
      simp only [foldlM_cons, bind_eq_ok] at h
      obtain ⟨between, h₁, h⟩ := h
      exact forall_mem_cons.mpr ⟨validateOperation_alone h₁, ih between after h⟩
  refine ⟨hvalids operations {} footprint h, ?_⟩
  rcases validateBranch_cases (hvalids operations {} footprint h) with ⟨-, hapart⟩ | ⟨⟨e, -, he⟩, -⟩
  · exact hapart
  · rw [h] at he
    cases he

/-- Whether an operation changes anything in the store. -/
def effective (values : ValueMap) : RequestOperation → Bool
  | .range _ => false
  | .put _ => true
  | .delete request => !(values.entriesIn request.range).isEmpty

theorem validateBranch_flag
    (h : operations.foldlM (validateOperation values verified) footprint = .ok footprint') :
    footprint'.hasEffectiveMutation
      = (footprint.hasEffectiveMutation || operations.any (effective values)) := by
  induction operations generalizing footprint with
  | nil =>
    obtain rfl := pure_eq_ok.mp h
    simp
  | cons operation operations ih =>
    simp only [foldlM_cons, bind_eq_ok] at h
    obtain ⟨between, h₁, h⟩ := h
    have hhere : between.hasEffectiveMutation
        = (footprint.hasEffectiveMutation || effective values operation) := by
      cases operation with
      | range request =>
        obtain ⟨-, -, rfl⟩ := validateOperation_range_eq_ok.mp h₁
        simp [effective]
      | put request =>
        obtain ⟨-, -, -, -, -, -, rfl⟩ := validateOperation_put_eq_ok.mp h₁
        simp [effective]
      | delete request =>
        obtain ⟨-, -, -, rfl⟩ := validateOperation_delete_eq_ok.mp h₁
        rfl
    rw [ih h, hhere, any_cons, Bool.or_assoc]

/-- What the plan of a branch holds when the operations of the branch are apart. -/
structure Executes (s : InMemoryMetadataStore) (operations : List RequestOperation)
    (plan : TransactionPlan) : Prop where
  flag : plan.hasEffectiveMutation = operations.any (effective s.values)
  revision : plan.revision
    = if operations.any (effective s.values) = true then s.revision + 1 else s.revision
  room : operations.any (effective s.values) = true → s.revision ≠ i64Max
  values : ∀ key, plan.working.values[key]?
    = operations.foldl (rewritten plan.revision key) s.values[key]?
  leases : Keeps s.leases plan.working
  events : plan.working.events = operations.flatMap (eventsOf plan.revision s.values)

theorem executeBranch_of_valid (revision : Int) (hindexed : Indexed s.values s.leases)
    (hlive : Live verified s.leases)
    (hvalids : ∀ operation ∈ operations, ValidAlone s.values verified operation) :
    ∃ working, operations.foldlM (executeOperation revision)
        { values := s.values, leases := s.leases } = .ok working ∧ Keeps s.leases working := by
  have hkeeps : Keeps s.leases { values := s.values, leases := s.leases } :=
    ⟨hindexed, fun _ => rfl⟩
  exact executeBranch_returns hkeeps hlive hvalids

theorem planBranch_eq_ok (hindexed : Indexed s.values s.leases) (hlive : Live verified s.leases)
    (h : s.planBranch succeeded verified operations = .ok plan) :
    (∀ operation ∈ operations, ValidAlone s.values verified operation)
      ∧ operations.Pairwise Apart ∧ plan.succeeded = succeeded ∧ s.Executes operations plan := by
  simp only [planBranch, bind_eq_ok, pure_eq_ok] at h
  obtain ⟨footprint, hfootprint, revision, hrevision, working, hwork, rfl⟩ := h
  obtain ⟨hvalids, hapart⟩ := validateBranch_eq_ok hfootprint
  have hflag : footprint.hasEffectiveMutation = operations.any (effective s.values) := by
    simpa using validateBranch_flag hfootprint
  have hkeeps : Keeps s.leases working := by
    obtain ⟨working', hwork', hkeeps⟩ := executeBranch_of_valid revision hindexed hlive hvalids
    rw [hwork] at hwork'
    cases hwork'
    exact hkeeps
  rw [hflag] at hrevision
  refine ⟨hvalids, hapart, rfl, hflag, ?_, ?_, executeBranch_values hwork, hkeeps, ?_⟩
  · split at hrevision
    · rw [if_pos ‹_›]
      exact (nextRevision_eq_ok.mp hrevision).2.symm
    · rw [if_neg ‹_›]
      exact (pure_eq_ok.mp hrevision).symm
  · intro heffective
    rw [if_pos heffective] at hrevision
    exact (nextRevision_eq_ok.mp hrevision).1
  · simpa using executeBranch_events hapart (fun _ _ _ _ => rfl) hwork

/-- Valid operations that are apart make a branch that is accepted. -/
theorem planBranch_returns (succeeded : Bool) (hindexed : Indexed s.values s.leases)
    (hlive : Live verified s.leases)
    (hvalids : ∀ operation ∈ operations, ValidAlone s.values verified operation)
    (hapart : operations.Pairwise Apart)
    (hroom : operations.any (effective s.values) = true → s.revision ≠ i64Max) :
    ∃ plan, s.planBranch succeeded verified operations = .ok plan := by
  rcases validateBranch_cases hvalids with ⟨⟨footprint, hfootprint⟩, -⟩ | ⟨-, hmeet⟩
  swap
  · exact absurd hapart hmeet
  have hflag : footprint.hasEffectiveMutation = operations.any (effective s.values) := by
    simpa using validateBranch_flag hfootprint
  obtain ⟨revision, hrevision⟩ : ∃ revision, (if footprint.hasEffectiveMutation = true
      then s.nextRevision else pure s.revision) = .ok revision := by
    by_cases heffective : footprint.hasEffectiveMutation = true
    · rw [if_pos heffective]
      exact ⟨_, nextRevision_eq_ok.mpr ⟨hroom (hflag ▸ heffective), rfl⟩⟩
    · exact ⟨s.revision, if_neg heffective⟩
  obtain ⟨working, hwork, -⟩ := executeBranch_of_valid revision hindexed hlive hvalids
  exact ⟨_, bind_eq_ok.mpr ⟨footprint, hfootprint, bind_eq_ok.mpr
    ⟨revision, hrevision, bind_eq_ok.mpr ⟨working, hwork, rfl⟩⟩⟩⟩

/-- The plans of two orders of one branch leave the same store. -/
theorem Executes.perm {operations' : List RequestOperation} {plan' : TransactionPlan}
    (h : s.Executes operations plan) (h' : s.Executes operations' plan')
    (hapart : operations.Pairwise Apart) (hperm : operations.Perm operations') :
    plan'.working.values = plan.working.values ∧ plan'.working.leases = plan.working.leases
      ∧ plan'.revision = plan.revision := by
  have hany : operations'.any (effective s.values) = operations.any (effective s.values) :=
    hperm.symm.any_eq
  have hrevision : plan'.revision = plan.revision := by rw [h.revision, h'.revision, hany]
  have hvalues : plan'.working.values = plan.working.values := by
    apply ExtTreeMap.ext_getElem?
    intro key
    rw [h.values, h'.values, hrevision, foldl_rewritten_perm hapart hperm]
  exact ⟨hvalues, (hvalues ▸ h'.leases.indexed).leases_unique h.leases.indexed h'.leases.terms
    h.leases.terms, hrevision⟩

/-! ## Transactions -/

/-- The store a transaction leaves. -/
def committed (s : InMemoryMetadataStore) (request : TransactionRequest) (plan : TransactionPlan) :
    InMemoryMetadataStore :=
  let logicalTick := if request.leaseOwnership.isEmpty then s.logicalTick else request.leaseTick
  if plan.hasEffectiveMutation then
    { s.published plan.working.values plan.working.leases
        ⟨plan.revision, plan.working.events⟩ with logicalTick }
  else
    { s with
      values := plan.working.values
      leases := plan.working.leases
      revision := plan.revision
      logicalTick }

theorem transaction_of_plan (h : s.planTransaction request = .ok plan) :
    transaction request s = .ok
      ({ header := { revision := plan.revision }, succeeded := plan.succeeded,
         responses := plan.working.responses },
        if plan.hasEffectiveMutation then
          some { revision := plan.revision, events := plan.working.events }
        else none) (s.committed request plan) := by
  simp only [transaction, EStateM.get_bind_apply, EStateM.ofExcept_bind_apply_of_ok h,
    EStateM.modify_bind_apply, committed]
  by_cases heffective : plan.hasEffectiveMutation = true
  · rw [if_pos heffective, if_pos heffective]
    rfl
  · rw [if_neg heffective, if_neg heffective]
    rfl

theorem transaction_of_error {e : StoreException} (h : s.planTransaction request = .error e) :
    transaction request s = .error e s := by
  simp only [transaction, EStateM.get_bind_apply, EStateM.ofExcept_bind_apply_of_error h]

theorem transaction_committed {result : TransactionResult × Option EventBatch}
    {t : InMemoryMetadataStore} (h : transaction request s = .ok result t) :
    ∃ plan, s.planTransaction request = .ok plan ∧ t = s.committed request plan := by
  obtain ⟨plan, hplan, -⟩ := transaction_eq_ok h
  rw [transaction_of_plan hplan] at h
  cases h
  exact ⟨plan, hplan, rfl⟩

@[simp]
theorem committed_values (request : TransactionRequest) (plan : TransactionPlan) :
    (s.committed request plan).values = plan.working.values := by
  by_cases h : plan.hasEffectiveMutation = true <;> simp [committed, published, h]

@[simp]
theorem committed_leases (request : TransactionRequest) (plan : TransactionPlan) :
    (s.committed request plan).leases = plan.working.leases := by
  by_cases h : plan.hasEffectiveMutation = true <;> simp [committed, published, h]

@[simp]
theorem committed_revision (request : TransactionRequest) (plan : TransactionPlan) :
    (s.committed request plan).revision = plan.revision := by
  by_cases h : plan.hasEffectiveMutation = true <;> simp [committed, published, h]

/-- The same transaction with the operations of its branches in another order. -/
structure Reorders (request request' : TransactionRequest) : Prop where
  comparisons : request'.comparisons = request.comparisons
  leaseOwnership : request'.leaseOwnership = request.leaseOwnership
  leaseTick : request'.leaseTick = request.leaseTick
  success : request.success.Perm request'.success
  failure : request.failure.Perm request'.failure

theorem Reorders.chooseBranch {request' : TransactionRequest} (h : Reorders request request')
    (hchoice : s.chooseBranch request = .ok (succeeded, verified, operations)) :
    ∃ operations', s.chooseBranch request' = .ok (succeeded, verified, operations')
      ∧ operations.Perm operations' := by
  simp only [InMemoryMetadataStore.chooseBranch, bind_eq_ok, pure_eq_ok,
    Prod.mk.injEq] at hchoice
  obtain ⟨hold, hhold, u, htick, verified', hverified, rfl, rfl, rfl⟩ := hchoice
  refine ⟨if (hold && request.leaseOwnership.all
      (ownershipMatches s.leases request.leaseTick)) = true
    then request'.success else request'.failure, ?_, ?_⟩
  · simp only [InMemoryMetadataStore.chooseBranch, h.comparisons, h.leaseOwnership, h.leaseTick,
      hhold, htick, hverified, ok_bind]
    rfl
  · split
    · exact h.success
    · exact h.failure

theorem planTransaction_of_choice
    (h : s.chooseBranch request = .ok (succeeded, verified, operations)) :
    s.planTransaction request = s.planBranch succeeded verified operations := by
  rw [planTransaction_eq, h]
  rfl

theorem planTransaction_choice (h : s.planTransaction request = .ok plan) :
    ∃ succeeded verified operations, s.chooseBranch request = .ok (succeeded, verified, operations)
        ∧ s.planBranch succeeded verified operations = .ok plan := by
  rw [planTransaction_eq, bind_eq_ok] at h
  obtain ⟨choice, hchoice, h⟩ := h
  exact ⟨choice.1, choice.2.1, choice.2.2, hchoice, h⟩

/-- The key lies in the write sets of the operations at two places of the branch. -/
def WrittenTwice (operations : List RequestOperation) (key : ByteSequence) : Prop :=
  ∃ (i j : Nat) (operation operation' : RequestOperation), i < j ∧ operations[i]? = some operation
    ∧ operations[j]? = some operation' ∧ writes operation key = true
    ∧ writes operation' key = true

theorem pairwise_apart_iff : operations.Pairwise Apart ↔ ∀ key, ¬ WrittenTwice operations key := by
  rw [pairwise_iff_getElem]
  constructor
  · rintro h key ⟨i, j, operation, operation', hij, hi, hj, hwrites⟩
    obtain ⟨hi', rfl⟩ := List.getElem?_eq_some_iff.mp hi
    obtain ⟨hj', rfl⟩ := List.getElem?_eq_some_iff.mp hj
    exact h i j hi' hj' hij key hwrites
  · intro h i j hi hj hij key hwrites
    exact h key ⟨i, j, _, _, hij, getElem?_eq_getElem hi, getElem?_eq_getElem hj, hwrites⟩

/-- The first pass is the only one that throws for a conflict. -/
theorem planBranch_conflict_iff (succeeded : Bool) (hindexed : Indexed s.values s.leases)
    (hlive : Live verified s.leases)
    (hvalids : ∀ operation ∈ operations, ValidAlone s.values verified operation) :
    (∃ e ∈ conflictErrors, s.planBranch succeeded verified operations = .error e)
      ↔ ¬ operations.Pairwise Apart := by
  constructor
  · rintro ⟨e, he, herror⟩ hapart
    by_cases hroom : operations.any (effective s.values) = true → s.revision ≠ i64Max
    · obtain ⟨plan, hplan⟩ := planBranch_returns succeeded hindexed hlive hvalids hapart hroom
      rw [hplan] at herror
      cases herror
    · -- the revision is exhausted, which is another error
      rw [Classical.not_imp, not_not] at hroom
      rcases validateBranch_cases hvalids with ⟨⟨footprint, hfootprint⟩, -⟩ | ⟨-, hmeet⟩
      · have hflag : footprint.hasEffectiveMutation = true := by
          rw [← hroom.1]
          simpa using validateBranch_flag hfootprint
        simp only [planBranch, hfootprint, ok_bind, if_pos hflag, nextRevision,
          if_pos hroom.2] at herror
        cases herror
        simp [conflictErrors] at he
      · exact hmeet hapart
  · intro hmeet
    rcases validateBranch_cases hvalids with ⟨-, hapart⟩ | ⟨⟨e, he, herror⟩, -⟩
    · exact absurd hapart hmeet
    · refine ⟨e, he, ?_⟩
      rw [planBranch, herror]
      rfl

/-- A branch of valid operations is rejected for its writes exactly if a key is in the write sets
of two of them, and the order of the operations of an accepted branch does not matter. -/
theorem write_sets_disjoint {s₀ s : InMemoryMetadataStore} {calls : List Call}
    (opened : Opened s₀) (run : Run s₀ calls s) (request : TransactionRequest) :
    (∀ succeeded verified operations,
        s.chooseBranch request = .ok (succeeded, verified, operations) →
        (∀ operation ∈ operations, ValidAlone s.values verified operation) →
        ((∃ e ∈ conflictErrors, transaction request s = .error e s)
          ↔ ∃ key, WrittenTwice operations key))
      ∧ ∀ result t, transaction request s = .ok result t →
          ∀ request', Reorders request request' →
            ∃ result' t', transaction request' s = .ok result' t' ∧ t'.values = t.values
              ∧ t'.leases = t.leases ∧ t'.revision = t.revision := by
  have hindexed := (wellFormed_of_run opened run).index
  constructor
  · intro succeeded verified operations hchoice hvalids
    have hconflict := planBranch_conflict_iff succeeded hindexed
      (chooseBranch_eq_ok hchoice).1 hvalids
    rw [pairwise_apart_iff, not_forall_not] at hconflict
    rw [← hconflict, ← planTransaction_of_choice hchoice]
    refine exists_congr fun e => and_congr_right fun he => ⟨fun herror => ?_, transaction_of_error⟩
    cases hplan : s.planTransaction request with
    | ok plan =>
      rw [transaction_of_plan hplan] at herror
      cases herror
    | error e' =>
      rw [transaction_of_error hplan] at herror
      cases herror
      rfl
  · intro result t h request' hreorders
    obtain ⟨plan, hplan, rfl⟩ := transaction_committed h
    obtain ⟨succeeded, verified, operations, hchoice, hbranch⟩ := planTransaction_choice hplan
    obtain ⟨operations', hchoice', hperm⟩ := hreorders.chooseBranch hchoice
    have hlive := (chooseBranch_eq_ok hchoice).1
    obtain ⟨hvalids, hapart, -, hexecutes⟩ := planBranch_eq_ok hindexed hlive hbranch
    obtain ⟨plan', hbranch'⟩ := planBranch_returns succeeded hindexed hlive
      (fun operation hmem => hvalids operation (hperm.mem_iff.mpr hmem))
      (hperm.pairwise hapart Apart.symm)
      (fun hany => hexecutes.room (hperm.any_eq.trans hany))
    obtain ⟨-, -, -, hexecutes'⟩ := planBranch_eq_ok hindexed hlive hbranch'
    obtain ⟨hvalues, hleases, hrevision⟩ := hexecutes.perm hexecutes' hapart hperm
    rw [← planTransaction_of_choice hchoice'] at hbranch'
    exact ⟨_, _, transaction_of_plan hbranch', by simpa using hvalues, by simpa using hleases,
      by simpa using hrevision⟩

/-- A put and a delete of two leased keys. -/
def putAndDelete : TransactionRequest :=
  { leaseOwnership := [⟨1, 1⟩]
    leaseTick := 3
    success := [.put { key := [1], value := [8], leaseId := 1 }, .delete { range := ⟨[2], [3]⟩ }] }

/-- A delete of a range that holds the key of a put. -/
def putInDelete : TransactionRequest :=
  { success := [.put { key := [2, 5], value := [8] }, .delete { range := ⟨[2], [3]⟩ }] }

theorem write_sets_disjoint_putAndDelete :
    (∃ result t result' t',
        transaction putAndDelete (stateAfter emptyStore (leaseLife.take 2)) = .ok result t
          ∧ transaction { putAndDelete with success := putAndDelete.success.reverse }
              (stateAfter emptyStore (leaseLife.take 2)) = .ok result' t'
          ∧ t'.values = t.values ∧ t'.leases = t.leases ∧ t'.revision = t.revision)
      ∧ ∃ e ∈ conflictErrors, transaction putInDelete (stateAfter emptyStore (leaseLife.take 2))
          = .error e (stateAfter emptyStore (leaseLife.take 2)) := by
  have run := Run.of_operations emptyStore (leaseLife.take 2)
  constructor
  · obtain ⟨result, t, h⟩ : ∃ result t,
        transaction putAndDelete (stateAfter emptyStore (leaseLife.take 2)) = .ok result t :=
      ⟨_, _, by rfl⟩
    obtain ⟨result', t', h', hsame⟩ := (write_sets_disjoint emptyStore_opened run putAndDelete).2
      result t h { putAndDelete with success := putAndDelete.success.reverse }
      ⟨rfl, rfl, rfl, (reverse_perm _).symm, .rfl⟩
    exact ⟨result, t, result', t', h, h', hsame⟩
  · refine ((write_sets_disjoint emptyStore_opened run putInDelete).1 true [] putInDelete.success
      (by rfl) ?_).mpr ⟨[2, 5], 0, 1, _, _, by decide, by rfl, by rfl, by decide, by decide⟩
    intro operation hmem
    simp only [putInDelete, mem_cons, not_mem_nil, or_false] at hmem
    rcases hmem with rfl | rfl
    · exact ⟨_, by rfl⟩
    · exact ⟨_, by rfl⟩

end KuraMetadata.InMemoryMetadataStore
