import KuraMetadata.Library.Linearization
import KuraMetadata.Linearizability.StateKey

/-! # The search decides

The operations of a search are a problem of ordering operations in time, and a mask is the set of
those left. One call of `search` tries the enabled operations in turn; what it finds out about the
problem, and what it leaves in its context, is proved by induction on the operations left. -/

namespace KuraMetadata.Linearizability

open Linearization List

variable {mask remaining : Mask} {i index : Nat} {candidate : SearchOperation} {state : ModelState}
variable {operations : List SearchOperation} {limits : CheckerLimits}

/-! ## Masks -/

/-- The positions in a mask. -/
def positions (mask : Mask) : Finset Nat := (Finset.range 64).filter fun i => mask.getLsbD i = true

theorem mem_positions : i ∈ positions mask ↔ mask.getLsbD i = true := by
  rw [positions, Finset.mem_filter, Finset.mem_range, and_iff_right_iff_imp]
  exact BitVec.lt_of_getLsbD

theorem getLsbD_bit : (bit index).getLsbD i = true ↔ i < 64 ∧ i = index := by
  rw [bit, BitVec.getLsbD_shiftLeft, BitVec.getLsbD_one]
  simp only [Bool.and_eq_true, decide_eq_true_eq, Bool.not_eq_true', decide_eq_false_iff_not]
  omega

theorem mask_eq_zero : mask = 0#64 ↔ positions mask = ∅ := by
  constructor
  · rintro rfl
    rw [Finset.eq_empty_iff_forall_notMem]
    intro i hi
    rw [mem_positions, BitVec.getLsbD_zero] at hi
    cases hi
  · intro h
    refine BitVec.eq_of_getLsbD_eq fun i _ => ?_
    have hi : i ∉ positions mask := by rw [h]; exact Finset.notMem_empty i
    rw [mem_positions, Bool.not_eq_true] at hi
    rw [hi, BitVec.getLsbD_zero]

theorem positions_and (mask mask' : Mask) :
    positions (mask &&& mask') = positions mask ∩ positions mask' := by
  ext i
  rw [Finset.mem_inter, mem_positions, mem_positions, mem_positions, BitVec.getLsbD_and,
    Bool.and_eq_true]

theorem positions_bit (h : index < 64) : positions (bit index) = {index} := by
  ext i
  rw [mem_positions, getLsbD_bit, Finset.mem_singleton]
  omega

theorem positions_without (mask : Mask) (index : Nat) :
    positions (mask &&& ~~~bit index) = (positions mask).erase index := by
  ext i
  rw [positions_and, Finset.mem_inter, Finset.mem_erase, mem_positions, mem_positions,
    BitVec.getLsbD_not, Bool.and_eq_true, Bool.not_eq_true', ← Bool.not_eq_true, getLsbD_bit,
    decide_eq_true_eq]
  constructor
  · rintro ⟨hi, hlt, hne⟩
    exact ⟨fun h => hne ⟨hlt, h⟩, hi⟩
  · rintro ⟨hne, hi⟩
    exact ⟨hi, BitVec.lt_of_getLsbD hi, fun h => hne h.2⟩

theorem positions_or (mask mask' : Mask) :
    positions (mask ||| mask') = positions mask ∪ positions mask' := by
  ext i
  rw [Finset.mem_union, mem_positions, mem_positions, mem_positions, BitVec.getLsbD_or,
    Bool.or_eq_true]

theorem positions_allRemaining {count : Nat} (h : count ≤ 64) :
    positions (allRemaining count) = Finset.range count := by
  ext i
  rw [mem_positions, Finset.mem_range, allRemaining]
  split
  · rename_i hcount
    rw [BitVec.getLsbD_allOnes, decide_eq_true_eq, hcount]
  · have hpow : 2 ^ count < 2 ^ 64 := Nat.pow_lt_pow_right (by decide) (by omega)
    have hone : 1 ≤ 2 ^ count := Nat.one_le_two_pow
    have hbit : (bit count).toNat = 2 ^ count := by
      rw [bit, BitVec.toNat_shiftLeft, BitVec.toNat_ofNat, Nat.one_mod_eq_one.mpr (by decide),
        Nat.one_shiftLeft, Nat.mod_eq_of_lt hpow]
    have hvalue : (bit count - 1#64).toNat = 2 ^ count - 1 := by
      rw [BitVec.toNat_sub_of_le, hbit]
      · rfl
      · rw [BitVec.le_def, hbit]
        exact hone
    rw [← BitVec.testBit_toNat, hvalue, Nat.testBit_two_pow_sub_one, decide_eq_true_eq]

/-! ## The problem of a search -/

/-- The operations of a search, by their positions. -/
def problemOf (operations : List SearchOperation) : Problem Nat ModelState where
  required i := ∃ operation, operations[i]? = some operation ∧ operation.required = true
  before i j := ∃ earlier later, operations[i]? = some earlier ∧ operations[j]? = some later
    ∧ earlier.precedes later = true
  step i state := operations[i]?.bind fun operation =>
    apply state operation.invocation.operation operation.expected

/-- What `check_internal` sees to before it searches. -/
structure Prepared (operations : List SearchOperation) : Prop where
  length_le : operations.length ≤ 64
  timely : ∀ operation ∈ operations, ∀ completion ∈ operation.completion,
    operation.invocation.invokedAt ≤ completion.completedAt
  predecessors : ∀ j later, operations[j]? = some later →
    ∀ i, i ∈ positions later.predecessors ↔ (problemOf operations).before i j

/-- When an operation begins. -/
def beginning (operations : List SearchOperation) (i : Nat) : Nat :=
  (operations[i]?.map fun operation => operation.invocation.invokedAt.toNat).getD 0

theorem precedes_iff {earlier later : SearchOperation} :
    earlier.precedes later = true
      ↔ ∃ completion ∈ earlier.completion, completion.completedAt < later.invocation.invokedAt := by
  rw [SearchOperation.precedes, Option.any_eq_true]
  simp only [decide_eq_true_eq, Option.mem_def]

theorem Prepared.beginning_lt (h : Prepared operations) {j : Nat}
    (hbefore : (problemOf operations).before i j) :
    beginning operations i < beginning operations j := by
  obtain ⟨earlier, later, hi, hj, hprecedes⟩ := hbefore
  obtain ⟨completion, hcompletion, hlt⟩ := precedes_iff.mp hprecedes
  have htimely := h.timely earlier (mem_of_getElem? hi) completion hcompletion
  rw [beginning, beginning, hi, hj]
  exact UInt64.lt_iff_toNat_lt.mp (UInt64.lt_of_le_of_lt htimely hlt)

theorem Prepared.before_trans (h : Prepared operations) {j k : Nat}
    (hij : (problemOf operations).before i j) (hjk : (problemOf operations).before j k) :
    (problemOf operations).before i k := by
  obtain ⟨earlier, middle, hi, hj, hfirst⟩ := hij
  obtain ⟨middle', later, hj', hk, hsecond⟩ := hjk
  rw [hj] at hj'
  obtain rfl := Option.some.inj hj'
  obtain ⟨completion, hcompletion, hlt⟩ := precedes_iff.mp hfirst
  obtain ⟨completion', hcompletion', hlt'⟩ := precedes_iff.mp hsecond
  have htimely := h.timely middle (mem_of_getElem? hj) completion' hcompletion'
  exact ⟨earlier, later, hi, hk, precedes_iff.mpr ⟨completion, hcompletion,
    UInt64.lt_trans hlt (UInt64.lt_of_le_of_lt htimely hlt')⟩⟩

/-- The tests of the loop of `search` pass over the operations that are not enabled. -/
theorem Prepared.passed_over_iff (h : Prepared operations)
    (hcandidate : operations[index]? = some candidate) :
    remaining &&& bit index = 0#64 ∨ candidate.predecessors &&& remaining ≠ 0#64
      ↔ ¬ Enabled (problemOf operations) (positions remaining) index := by
  have hindex : index < 64 :=
    Nat.lt_of_lt_of_le (List.getElem?_eq_some_iff.mp hcandidate).1 h.length_le
  rw [Ne, mask_eq_zero, mask_eq_zero, positions_and, positions_and, positions_bit hindex,
    ← Finset.disjoint_iff_inter_eq_empty, ← Finset.disjoint_iff_inter_eq_empty,
    Finset.disjoint_singleton_right, Finset.not_disjoint_iff]
  constructor
  · rintro (hpassed | ⟨i, hi, hleft⟩) henabled
    · exact hpassed henabled.mem
    · exact henabled.first i hleft ((h.predecessors index candidate hcandidate i).mp hi)
  · intro hpassed
    by_cases hmem : index ∈ positions remaining
    · refine .inr ?_
      by_contra hnone
      refine hpassed ⟨hmem, fun i hi hbefore => hnone ⟨i, ?_, hi⟩⟩
      exact (h.predecessors index candidate hcandidate i).mpr hbefore
    · exact .inl hmem

/-! ## What a search finds out -/

section

variable (operations : List SearchOperation) (limits : CheckerLimits)

/-- Every key remembered belongs to a dead state. -/
def Remembers (context : SearchContext) : Prop :=
  ∀ remaining state, stateKey remaining state ∈ context.deadStates →
    ¬ Solvable (problemOf operations) (positions remaining) state

/-- A limit on the states explored or remembered. -/
def Reached (context : SearchContext) : Prop :=
  limits.maxSearchStates ≤ context.explored ∨ limits.maxMemoEntries ≤ context.deadStates.card

/-- What is known when a part of the search, begun in a context, has ended: whether `P` holds, or
that a limit was reached. -/
structure Decides (P : Prop) (context : SearchContext) (r : SearchOutcome × SearchContext) :
    Prop where
  remembers : Remembers operations r.2
  explored_le : context.explored ≤ r.2.explored
  subset : context.deadStates ⊆ r.2.deadStates
  linearizable : r.1 = .linearizable → P
  notLinearizable : r.1 = .notLinearizable → ¬ P
  inconclusive : r.1 = .inconclusive → Reached limits r.2

/-- The calls on fewer operations decide them. -/
def DecidesBelow (depth : Nat) (recurse : Recurse) : Prop :=
  ∀ remaining state context, (positions remaining).card ≤ depth →
    positions remaining ⊆ Finset.range operations.length → Remembers operations context →
    Decides operations limits (Solvable (problemOf operations) (positions remaining) state) context
      (recurse remaining state context)

end

section

variable {P Q : Prop} {context context' : SearchContext} {r : SearchOutcome × SearchContext}

theorem Reached.mono (h : Reached limits context) (hexplored : context.explored ≤ context'.explored)
    (hsubset : context.deadStates ⊆ context'.deadStates) : Reached limits context' := by
  rcases h with h | h
  · exact .inl (h.trans hexplored)
  · exact .inr (h.trans (Finset.card_le_card hsubset))

theorem Decides.of_iff (h : Decides operations limits P context r) (hPQ : P ↔ Q) :
    Decides operations limits Q context r := propext hPQ ▸ h

theorem Decides.after (h : Decides operations limits P context' r)
    (hexplored : context.explored ≤ context'.explored)
    (hsubset : context.deadStates ⊆ context'.deadStates) : Decides operations limits P context r :=
  ⟨h.remembers, hexplored.trans h.explored_le, hsubset.trans h.subset, h.linearizable,
    h.notLinearizable, h.inconclusive⟩

theorem decides_false (hcontext : Remembers operations context) (hP : ¬ P) :
    Decides operations limits P context (.notLinearizable, context) :=
  ⟨hcontext, le_rfl, Finset.Subset.refl _, fun h => (by cases h), fun _ => hP,
    fun h => (by cases h)⟩

theorem decides_of_reached (hcontext : Remembers operations context)
    (hreached : Reached limits context) :
    Decides operations limits P context (.inconclusive, context) :=
  ⟨hcontext, le_rfl, Finset.Subset.refl _, fun h => (by cases h), fun h => (by cases h),
    fun _ => hreached⟩

section

variable {depth index : Nat} {recurse : Recurse}

/-- The candidate leads to no solution. -/
def DeadEnd (operations : List SearchOperation) (remaining : Mask) (state : ModelState)
    (index : Nat) : Prop :=
  Enabled (problemOf operations) (positions remaining) index →
    ¬ (¬ (problemOf operations).required index
        ∧ Solvable (problemOf operations) ((positions remaining).erase index) state)
      ∧ ¬ ∃ next, (problemOf operations).step index state = some next
        ∧ Solvable (problemOf operations) ((positions remaining).erase index) next

theorem required_iff (hcandidate : operations[index]? = some candidate) :
    (problemOf operations).required index ↔ candidate.required = true := by
  simp only [problemOf, hcandidate, Option.some.injEq, exists_eq_left']

theorem step_eq (hcandidate : operations[index]? = some candidate) :
    (problemOf operations).step index state
      = apply state candidate.invocation.operation candidate.expected := by
  simp only [problemOf, hcandidate, Option.bind_some]

theorem decides_searchOmitted (state : ModelState)
    (hrecurse : DecidesBelow operations limits depth recurse)
    (hcontext : Remembers operations context) (hcandidate : operations[index]? = some candidate)
    (hcard : ((positions remaining).erase index).card ≤ depth)
    (hrange : positions remaining ⊆ Finset.range operations.length) :
    Decides operations limits (¬ (problemOf operations).required index
        ∧ Solvable (problemOf operations) ((positions remaining).erase index) state) context
      (searchOmitted recurse candidate (remaining &&& ~~~bit index) state context) := by
  rw [required_iff hcandidate, searchOmitted]
  split
  · rename_i hrequired
    exact decides_false hcontext fun h => h.1 hrequired
  · rename_i hrequired
    have hdecides := hrecurse (remaining &&& ~~~bit index) state context
    rw [positions_without] at hdecides
    refine (hdecides hcard ((Finset.erase_subset _ _).trans hrange) hcontext).of_iff ?_
    exact (and_iff_right hrequired).symm

theorem decides_searchApplied (state : ModelState)
    (hrecurse : DecidesBelow operations limits depth recurse)
    (hcontext : Remembers operations context) (hcandidate : operations[index]? = some candidate)
    (hcard : ((positions remaining).erase index).card ≤ depth)
    (hrange : positions remaining ⊆ Finset.range operations.length) :
    Decides operations limits (∃ next, (problemOf operations).step index state = some next
        ∧ Solvable (problemOf operations) ((positions remaining).erase index) next) context
      (searchApplied recurse candidate (remaining &&& ~~~bit index) state context) := by
  rw [step_eq hcandidate, searchApplied]
  cases apply state candidate.invocation.operation candidate.expected with
  | none => exact decides_false hcontext (by rintro ⟨next, hnext, -⟩; cases hnext)
  | some next =>
    have hdecides := hrecurse (remaining &&& ~~~bit index) next context
    rw [positions_without] at hdecides
    refine (hdecides hcard ((Finset.erase_subset _ _).trans hrange) hcontext).of_iff ?_
    simp only [Option.some.injEq, exists_eq_left']

theorem eq_notLinearizable {outcome : SearchOutcome} (h : outcome ≠ .linearizable)
    (h' : outcome ≠ .inconclusive) : outcome = .notLinearizable := by
  cases outcome with
  | linearizable => exact absurd rfl h
  | notLinearizable => rfl
  | inconclusive => exact absurd rfl h'

theorem solvable_of_candidate
    (h : (¬ (problemOf operations).required index
        ∧ Solvable (problemOf operations) ((positions remaining).erase index) state)
      ∨ ∃ next, (problemOf operations).step index state = some next
        ∧ Solvable (problemOf operations) ((positions remaining).erase index) next)
    (henabled : Enabled (problemOf operations) (positions remaining) index) :
    Solvable (problemOf operations) (positions remaining) state := by
  rcases h with ⟨hrequired, hsolvable⟩ | ⟨next, hstep, hsolvable⟩
  · exact solvable_of_omit hrequired hsolvable
  · exact solvable_of_step henabled hstep hsolvable

/-- If every candidate leads to no solution, there is none. -/
theorem not_solvable_of_deadEnds (hprepared : Prepared operations)
    (hrange : positions remaining ⊆ Finset.range operations.length)
    (hne : (positions remaining).Nonempty)
    (hdead : ∀ index < operations.length, DeadEnd operations remaining state index) :
    ¬ Solvable (problemOf operations) (positions remaining) state := by
  intro hsolvable
  obtain ⟨index, henabled, hfound⟩ := hsolvable.exists_enabled
    (fun i j => hprepared.beginning_lt) (fun i j k => hprepared.before_trans) hne
  obtain ⟨homitted, happlied⟩ := hdead index (Finset.mem_range.mp (hrange henabled.mem)) henabled
  rcases hfound with hfound | hfound
  · exact homitted hfound
  · exact happlied hfound

/-- A state whose candidates all lead to no solution may be remembered. -/
theorem Remembers.insert (hcontext : Remembers operations context)
    (hdead : ¬ Solvable (problemOf operations) (positions remaining) state) :
    Remembers operations
      { context with deadStates := insert (stateKey remaining state) context.deadStates } := by
  intro remaining' state' hmem
  rcases Finset.mem_insert.mp hmem with hkey | hmem
  · obtain ⟨rfl, rfl⟩ := stateKey_injective hkey
    exact hdead
  · exact hcontext remaining' state' hmem

/-- The loop of `search`. The candidates before the ones left have led to no solution, unless a
limit was reached. -/
theorem decides_searchCandidates (hprepared : Prepared operations)
    (hrecurse : DecidesBelow operations limits depth recurse)
    (hcard : (positions remaining).card ≤ depth + 1)
    (hrange : positions remaining ⊆ Finset.range operations.length)
    (hne : (positions remaining).Nonempty) {items : List (SearchOperation × Nat)}
    (hitems : ∀ item ∈ items, operations[item.2]? = some item.1) {sawInconclusive : Bool}
    (hcontext : Remembers operations context)
    (hsaw : sawInconclusive = true → Reached limits context)
    (hdead : sawInconclusive = false → ∀ index < operations.length,
      index ∉ items.map (·.2) → DeadEnd operations remaining state index) :
    Decides operations limits (Solvable (problemOf operations) (positions remaining) state) context
      (searchCandidates recurse remaining state items sawInconclusive context) := by
  -- every candidate passed so far is a dead end, unless the search was cut short
  induction items generalizing sawInconclusive context with
  | nil =>
    rw [searchCandidates]
    cases sawInconclusive with
    | true => exact decides_of_reached hcontext (hsaw rfl)
    | false =>
      have hnone := not_solvable_of_deadEnds hprepared hrange hne fun index hindex =>
        hdead rfl index hindex not_mem_nil
      exact ⟨hcontext.insert hnone, le_rfl, Finset.subset_insert _ _, fun h => (by cases h),
        fun _ => hnone, fun h => (by cases h)⟩
  | cons item items ih =>
    obtain ⟨candidate, index⟩ := item
    obtain ⟨hcandidate, hitems⟩ := forall_mem_cons.mp hitems
    dsimp only at hcandidate
    rw [searchCandidates]
    by_cases hpassed : remaining &&& bit index = 0#64 ∨ candidate.predecessors &&& remaining ≠ 0#64
    · rw [if_pos hpassed]
      have hdisabled := (hprepared.passed_over_iff hcandidate).mp hpassed
      refine ih hitems hcontext hsaw fun hfalse other hother hlater => ?_
      by_cases heq : other = index
      · rw [heq]
        exact fun henabled => absurd henabled hdisabled
      · exact hdead hfalse other hother fun hmem =>
          hlater ((mem_cons.mp hmem).resolve_left heq)
    · rw [if_neg hpassed]
      dsimp only
      have henabled := not_not.mp (mt (hprepared.passed_over_iff hcandidate).mpr hpassed)
      have hcard' : ((positions remaining).erase index).card ≤ depth := by
        rw [Finset.card_erase_of_mem henabled.mem]
        omega
      have homitted := decides_searchOmitted state hrecurse hcontext hcandidate hcard' hrange
      generalize searchOmitted recurse candidate (remaining &&& ~~~bit index) state context
        = omitted at homitted ⊢
      have happlied := decides_searchApplied state hrecurse homitted.remembers
        hcandidate hcard' hrange
      generalize searchApplied recurse candidate (remaining &&& ~~~bit index) state omitted.2
        = applied at happlied ⊢
      split
      · rename_i hfound
        exact ⟨homitted.remembers, homitted.explored_le, homitted.subset,
          fun _ => solvable_of_candidate (.inl (homitted.linearizable hfound)) henabled,
          fun h => (by rw [hfound] at h; cases h), fun h => (by rw [hfound] at h; cases h)⟩
      · rename_i homitted_ne
        have happlied_after := happlied.after homitted.explored_le homitted.subset
        split
        · rename_i hfound
          exact ⟨happlied.remembers, happlied_after.explored_le, happlied_after.subset,
            fun _ => solvable_of_candidate (.inr (happlied.linearizable hfound)) henabled,
            fun h => (by rw [hfound] at h; cases h), fun h => (by rw [hfound] at h; cases h)⟩
        · rename_i happlied_ne
          refine (ih hitems happlied.remembers ?_ ?_).after happlied_after.explored_le
            happlied_after.subset
          · intro hany
            simp only [Bool.or_eq_true, decide_eq_true_eq] at hany
            rcases hany with (hany | hany) | hany
            · exact (hsaw hany).mono happlied_after.explored_le happlied_after.subset
            · exact (homitted.inconclusive hany).mono happlied.explored_le happlied.subset
            · exact happlied.inconclusive hany
          · intro hnone other hother hlater
            simp only [Bool.or_eq_false_iff, decide_eq_false_iff_not] at hnone
            by_cases heq : other = index
            · rw [heq]
              exact fun _ =>
                ⟨homitted.notLinearizable (eq_notLinearizable homitted_ne hnone.1.2),
                  happlied.notLinearizable (eq_notLinearizable happlied_ne hnone.2)⟩
            · exact hdead hnone.1.1 other hother fun hmem =>
                hlater ((mem_cons.mp hmem).resolve_left heq)

end

theorem mem_zipIdx {item : SearchOperation × Nat} (h : item ∈ operations.zipIdx) :
    operations[item.2]? = some item.1 := by
  rw [mem_zipIdx_iff_getElem?] at h
  exact h

theorem decides_search_zero (depth : Nat)
    (hcontext : Remembers operations context) (hzero : remaining = 0#64) :
    Decides operations limits (Solvable (problemOf operations) (positions remaining) state) context
      (search operations limits depth remaining state context) := by
  unfold search
  rw [if_pos hzero, mask_eq_zero.mp hzero]
  exact ⟨hcontext, le_rfl, Finset.Subset.refl _, fun _ => solvable_empty, fun h => (by cases h),
    fun h => (by cases h)⟩

/-- `search` decides whether the operations left can be ordered, or has reached a limit. -/
theorem decidesBelow_search (hprepared : Prepared operations) (limits : CheckerLimits)
    (depth : Nat) :
    DecidesBelow operations limits depth (search operations limits depth) := by
  induction depth with
  | zero =>
    intro remaining state context hcard hrange hcontext
    exact decides_search_zero 0 hcontext
      (mask_eq_zero.mpr (Finset.card_eq_zero.mp (Nat.le_zero.mp hcard)))
  | succ depth ih =>
    intro remaining state context hcard hrange hcontext
    by_cases hzero : remaining = 0#64
    · exact decides_search_zero _ hcontext hzero
    rw [search, if_neg hzero]
    have hne : (positions remaining).Nonempty :=
      Finset.nonempty_iff_ne_empty.mpr (mt mask_eq_zero.mpr hzero)
    by_cases hexplored : limits.maxSearchStates ≤ context.explored
    · rw [if_pos hexplored]
      exact decides_of_reached hcontext (.inl hexplored)
    rw [if_neg hexplored]
    dsimp only
    -- counting the call changes nothing else in the context
    suffices hcounted : Decides operations limits
        (Solvable (problemOf operations) (positions remaining) state)
        { context with explored := context.explored + 1 } _ from
      hcounted.after (Nat.le_succ _) (Finset.Subset.refl _)
    split
    · rename_i hmemo
      exact decides_false hcontext (hcontext remaining state hmemo)
    · split
      · rename_i hmemo
        exact decides_of_reached hcontext (.inr hmemo)
      · refine decides_searchCandidates hprepared ih hcard hrange hne
          (fun item => mem_zipIdx) hcontext (fun h => by cases h) fun _ index hindex hnone => ?_
        refine absurd ?_ hnone
        rw [zipIdx_map_snd]
        simpa using hindex

end

end KuraMetadata.Linearizability
