import KuraMetadata.Store.Fencing
import KuraMetadata.Store.Plans
import KuraMetadata.Store.Snapshots

/-! # Which keys a lease owns

A lease owns the keys whose last put was attached to it. That is a fact about the calls a store has
seen, while a cleanup looks at the index of attached keys. Both agree in every life of a store, so
a cleanup deletes exactly the keys its leases own. -/

namespace KuraMetadata

open InMemoryMetadataStore Std List Option

variable {ids : List Int} {code : LeaseResultCode} {tick : Nat}
variable {result : LeaseCleanupResult × Option EventBatch} {batch : Option EventBatch}
variable {s t : InMemoryMetadataStore} {key : ByteSequence} {value : KeyValue}

/-! ## Owners -/

/-- The generation that lives under a lease id. -/
def InMemoryMetadataStore.generation (s : InMemoryMetadataStore) (id : Int) :
    Option LeaseOwnership :=
  s.leases[id]?.map fun lease => ⟨id, lease.fencingToken⟩

/-- The generation the value of a key names. -/
def InMemoryMetadataStore.attachment (s : InMemoryMetadataStore) (key : ByteSequence) :
    Option LeaseOwnership :=
  s.values[key]?.bind fun value => s.generation value.leaseId

/-- Whether an operation of a branch puts the key, and the generation it attaches it to. -/
def RequestOperation.binds (s : InMemoryMetadataStore) (key : ByteSequence) :
    RequestOperation → Option (Option LeaseOwnership)
  | .put request => if request.key = key then some (s.generation request.leaseId) else none
  | .range _ => none
  | .delete _ => none

/-- Whether a call puts the key, and the generation it attaches it to: only a transaction attaches
a key, to the generation under the id at that time. -/
def Call.binds (call : Call) (key : ByteSequence) : Option (Option LeaseOwnership) :=
  match call.operation, call.reply with
  | .put key' _, some _ => if key' = key then some none else none
  | .compareAndSet key' _ _, some (.compareAndSet result) =>
    if result.succeeded = true ∧ key' = key then some none else none
  | .transaction request, some (.transaction result) =>
    (if result.succeeded then request.success else request.failure).findSome?
      (RequestOperation.binds call.before key)
  | _, _ => none

/-- The generation the last put of the key was attached to. For a key not put since the store was
opened that is what it was opened with. -/
def owner (s : InMemoryMetadataStore) (calls : List Call) (key : ByteSequence) :
    Option LeaseOwnership :=
  calls.foldl (fun owner call => (call.binds key).getD owner) (s.attachment key)

/-! ## One call -/

namespace InMemoryMetadataStore

variable {s s' : InMemoryMetadataStore} {key' newValue : ByteSequence}
variable {operations : List RequestOperation}

theorem generation_of_sameTerms (h : SameTerms s.leases s'.leases) (id : Int) :
    s'.generation id = s.generation id := by
  have hterms := h id
  unfold generation
  cases hlease : s.leases[id]? with
  | none =>
    rw [hlease] at hterms
    rw [map_eq_none_iff.mp hterms]
  | some lease =>
    rw [hlease, map_some, map_eq_some_iff] at hterms
    obtain ⟨lease', hlease', hterms⟩ := hterms
    rw [hlease', map_some, map_some, (Prod.mk.inj hterms).1]

/-- A value that stays bound stays with its generation. -/
theorem Change.attachment_eq (change : Change s batch s')
    (h : Indexed s.values s.leases) (h' : Indexed s'.values s'.leases)
    (hvalue : s.values[key]? = some value) (hvalue' : s'.values[key]? = some value) :
    s'.attachment key = s.attachment key := by
  rw [attachment, attachment, hvalue, hvalue', bind_some, bind_some]
  unfold InMemoryMetadataStore.generation
  by_cases hzero : value.leaseId = 0
  · rw [hzero, h.positive, h'.positive]
  · obtain ⟨lease, hlease, -⟩ := h.attached hvalue hzero
    obtain ⟨lease', hlease', -⟩ := h'.attached hvalue' hzero
    rw [hlease, hlease', map_some, map_some, change.fencingToken_eq hlease hlease']

theorem Change.values_eq (change : Change s none s') : s'.values = s.values := by
  rcases change with change | watchers
  · cases change <;> rfl
  · rfl

/-- What a call leaves bound to a key: the value from before or nothing, or the value of a put,
which names the generation the put was attached to. -/
def Binds (s s' : InMemoryMetadataStore) (key : ByteSequence)
    (bound : Option (Option LeaseOwnership)) : Prop :=
  bound = none ∧ (s'.values[key]? = s.values[key]? ∨ s'.values[key]? = none)
    ∨ ∃ value, s'.values[key]? = some value ∧ bound = some (s'.generation value.leaseId)

theorem binds_of_values_eq (h : s'.values = s.values) : Binds s s' key none :=
  .inl ⟨rfl, .inl (by rw [h])⟩

theorem putLocked_binds {result : PutResult × Option EventBatch}
    (h' : Indexed s'.values s'.leases) (h : putLocked key' newValue s = .ok result s') :
    Binds s s' key (if key' = key then some none else none) := by
  obtain ⟨leases, -, -, -, rfl⟩ := putLocked_eq_ok h
  by_cases hkey : key' = key
  · subst hkey
    rw [if_pos rfl]
    refine .inr ⟨_, ExtTreeMap.getElem?_insert_self, ?_⟩
    rw [generation, show (rebind s.values[key']? key' newValue (s.revision + 1) 0).leaseId = 0 from
      rfl, h'.positive]
    rfl
  · rw [if_neg hkey]
    refine .inl ⟨rfl, .inl ?_⟩
    show (s.values.insert key' _)[key]? = _
    rw [ExtTreeMap.getElem?_insert, if_neg]
    exact fun heq => hkey (LawfulEqCmp.compare_eq_iff_eq.mp heq)

theorem compareAndSet_binds {expectedModRevision : Int}
    {result : CompareAndSetResult × Option EventBatch} (h' : Indexed s'.values s'.leases)
    (h : compareAndSet key' expectedModRevision newValue s = .ok result s') :
    Binds s s' key (if result.1.succeeded = true ∧ key' = key then some none else none) := by
  simp only [compareAndSet, EStateM.ofExcept_bind_eq_ok, EStateM.ite_apply,
    EStateM.throw_bind_apply, EStateM.ite_error_eq_ok, EStateM.get_bind_apply] at h
  obtain ⟨_, -, -, h⟩ := h
  split at h
  · obtain ⟨put, t, hput, hresult⟩ := EStateM.bind_eq_ok.mp h
    cases hresult
    simpa using putLocked_binds h' hput
  · cases h
    exact binds_of_values_eq rfl

theorem erase_binds {result : DeleteResult × Option EventBatch} (h : erase key' s = .ok result s') :
    Binds s s' key none := by
  rcases erase_eq_ok h with ⟨-, -, rfl⟩ | ⟨previous, leases, -, -, -, -, rfl⟩
  · exact binds_of_values_eq rfl
  · refine .inl ⟨rfl, ?_⟩
    show (s.values.erase key')[key]? = _ ∨ (s.values.erase key')[key]? = none
    rw [ExtTreeMap.getElem?_erase]
    split
    · exact .inr rfl
    · exact .inl rfl

theorem removeLeases_binds (hindexed : Indexed s.values s.leases)
    (h : removeLeases ids code s = .ok result s') :
    Binds s { s' with logicalTick := tick } key none := by
  obtain ⟨-, -, ⟨-, -, rfl⟩ | ⟨-, attached, -, hattached, -, rfl⟩⟩ := removeLeases_eq_ok h
  · exact binds_of_values_eq rfl
  · refine .inl ⟨rfl, ?_⟩
    show (eraseValues s.values (sortedByKey attached))[key]? = _
      ∨ (eraseValues s.values (sortedByKey attached))[key]? = none
    cases hvalue : (eraseValues s.values (sortedByKey attached))[key]? with
    | none => exact .inr rfl
    | some value => exact .inl ((getElem?_cleaned_eq_some hindexed hattached).mp hvalue).1.symm

theorem findSome?_binds_of_no_put (h : ∀ request, .put request ∈ operations → request.key ≠ key) :
    operations.findSome? (RequestOperation.binds s key) = none := by
  rw [findSome?_eq_none_iff]
  intro operation hmem
  cases operation with
  | range _ | delete _ => rfl
  | put request => exact if_neg (h request hmem)

/-- The put of a key is the only one in a branch that is apart. -/
theorem findSome?_binds_of_put {request : PutRequest}
    (hapart : operations.Pairwise Apart) (hmem : .put request ∈ operations) :
    operations.findSome? (RequestOperation.binds s request.key)
      = some (s.generation request.leaseId) := by
  obtain ⟨before, after, rfl⟩ := append_of_mem hmem
  have hbefore : before.findSome? (RequestOperation.binds s request.key) = none := by
    refine findSome?_binds_of_no_put fun request' hmem' heq => ?_
    have h := (pairwise_append.mp hapart).2.2 _ hmem' _ mem_cons_self
    exact h request.key (by simp [writes, heq])
  rw [findSome?_append, hbefore, none_or, findSome?_cons, RequestOperation.binds,
    if_pos rfl]

theorem transaction_binds {request : TransactionRequest}
    {result : TransactionResult × Option EventBatch} (hindexed : Indexed s.values s.leases)
    (h : transaction request s = .ok result s') :
    Binds s s' key ((if result.1.succeeded then request.success else request.failure).findSome?
      (RequestOperation.binds s key)) := by
  obtain ⟨plan, hplan, rfl⟩ := transaction_committed h
  rw [transaction_of_plan hplan] at h
  cases h
  obtain ⟨succeeded, verified, operations, hchoice, hbranch⟩ := planTransaction_choice hplan
  obtain ⟨hlive, hoperations⟩ := chooseBranch_eq_ok hchoice
  obtain ⟨-, hapart, hsucceeded, hexecutes⟩ := planBranch_eq_ok hindexed hlive hbranch
  dsimp only
  rw [hsucceeded, ← hoperations]
  by_cases hput : ∃ request, RequestOperation.put request ∈ operations ∧ request.key = key
  · obtain ⟨put, hmem, rfl⟩ := hput
    refine .inr ⟨rebind s.values[put.key]? put.key put.value plan.revision put.leaseId, ?_, ?_⟩
    · rw [committed_values, hexecutes.values,
        foldl_rewritten_of_writes hapart hmem (by simp [writes])]
      exact if_pos rfl
    · have hterms : SameTerms s.leases (s.committed request plan).leases := by
        rw [committed_leases]
        exact hexecutes.leases.terms
      rw [findSome?_binds_of_put hapart hmem]
      exact congrArg some (generation_of_sameTerms hterms put.leaseId).symm
  · refine .inl ⟨findSome?_binds_of_no_put fun put hmem heq => hput ⟨put, hmem, heq⟩, ?_⟩
    rw [committed_values, hexecutes.values]
    by_cases hwritten : ∃ operation ∈ operations, writes operation key = true
    · obtain ⟨operation, hmem, hwrites⟩ := hwritten
      rw [foldl_rewritten_of_writes hapart hmem hwrites]
      cases operation with
      | range _ => cases hwrites
      | put put => exact absurd ⟨put, hmem, of_decide_eq_true hwrites⟩ hput
      | delete delete => exact .inr (if_pos hwrites)
    · refine .inl (foldl_rewritten_of_not_writes (fun operation hmem => ?_) _)
      by_contra hwrites
      exact hwritten ⟨operation, hmem, by simpa using hwrites⟩

end InMemoryMetadataStore

theorem Call.binds_of_run {operation : Operation} {reply : Reply}
    (h : operation.run s = .ok (reply, batch) t)
    (hindexed : Indexed s.values s.leases) (hafter : Indexed t.values t.leases)
    (key : ByteSequence) : Binds s t key ((Call.mk s operation).binds key) := by
  have hchange := run_change h
  unfold Call.binds
  rw [(Call.of_run_eq_ok h).2.2]
  cases operation
  all_goals
    obtain ⟨_, _, hrun, h⟩ := EStateM.bind_eq_ok.mp h
    cases h
  case put =>
    simp only [InMemoryMetadataStore.put, EStateM.ofExcept_bind_eq_ok] at hrun
    obtain ⟨_, -, hrun⟩ := hrun
    exact putLocked_binds hafter hrun
  case erase => exact erase_binds hrun
  case compareAndSet => exact compareAndSet_binds hafter hrun
  case transaction => exact transaction_binds hindexed hrun
  case revokeLease =>
    obtain ⟨-, ⟨lease, u, -, -, hremove, rfl⟩ | ⟨-, -, rfl⟩⟩ := revokeLease_eq_ok hrun
    · exact removeLeases_binds hindexed hremove
    · exact binds_of_values_eq rfl
  case expireLeases =>
    obtain ⟨-, u, hremove, rfl⟩ := expireLeases_eq_ok hrun
    exact removeLeases_binds hindexed hremove
  all_goals exact binds_of_values_eq hchange.values_eq

theorem Call.binds_after {call : Call} (hindexed : Indexed call.before.values call.before.leases)
    (hafter : Indexed call.after.values call.after.leases) (key : ByteSequence) :
    Binds call.before call.after key (call.binds key) := by
  obtain ⟨s, operation⟩ := call
  cases h : operation.run s with
  | error e t =>
    obtain ⟨hstate, -, hreply⟩ := Call.of_run_eq_error h
    have hbinds : (Call.mk s operation).binds key = none := by
      unfold Call.binds
      rw [hreply]
      split <;> first | rfl | contradiction
    rw [hbinds, hstate, atomic_run operation s e t h]
    exact binds_of_values_eq rfl
  | ok result t =>
    rw [(Call.of_run_eq_ok h).1] at hafter ⊢
    exact Call.binds_of_run h hindexed hafter key

/-! ## A life -/

variable {calls : List Call}

theorem Life.restorable (life : Life s calls t) (constructed : Constructed s) :
    ∃ initial, Restorable initial t := by
  induction life with
  | nil => exact ⟨_, constructed.restorable⟩
  | call life operation ih =>
    obtain ⟨initial, h⟩ := ih
    exact ⟨initial, h.change (Call.mk _ operation).change⟩
  | restart life restored ih => exact ⟨_, restorable_ofSnapshot restored⟩

/-- The value of a key names the generation that owns the key. -/
theorem Life.attachment_eq_owner (life : Life s calls t) (constructed : Constructed s)
    (h : t.values[key]? = some value) :
    t.attachment key = owner s calls key := by
  induction life generalizing value with
  | nil => rfl
  | call life operation ih =>
    rename_i calls t
    obtain ⟨_, hbefore⟩ := life.restorable constructed
    obtain ⟨_, hafter⟩ := (life.call operation).restorable constructed
    rw [owner, foldl_append, foldl_cons, foldl_nil, ← owner]
    rcases @Call.binds_after ⟨t, operation⟩ hbefore.index hafter.index key with
      ⟨hbinds, hsame | hnone⟩ | ⟨value', hvalue', hbinds⟩
    · rw [hsame] at h
      rw [hbinds, getD_none, ← ih h]
      exact (Call.mk t operation).change.attachment_eq hbefore.index hafter.index h (hsame.trans h)
    · rw [hnone] at h
      cases h
    · rw [hbinds, getD_some, InMemoryMetadataStore.attachment, hvalue', bind_some]
  | restart life restored ih =>
    obtain ⟨_, hbefore⟩ := life.restorable constructed
    obtain rfl := ofSnapshot_snapshot hbefore.index restored
    exact ih h

/-! ## Cleanups -/

/-- What a cleanup that removes the leases of some generations does to a store with the given
owners of keys. -/
structure Cleans (owner : ByteSequence → Option LeaseOwnership) (t t' : InMemoryMetadataStore)
    (removed : Int → StoredLease → Bool) (result : LeaseCleanupResult) : Prop where
  listed : ∀ id, id ∈ result.leases ↔ ∃ lease, t.leases[id]? = some lease ∧ removed id lease = true
  leases : ∀ id, t'.leases[id]? = t.leases[id]?.filter fun lease => !removed id lease
  deleted : ∀ value, value ∈ result.deletedKeys
    ↔ t.values[value.key]? = some value
      ∧ ∃ id lease, t.leases[id]? = some lease ∧ removed id lease = true
        ∧ owner value.key = some ⟨id, lease.fencingToken⟩
  increasing : result.deletedKeys.Pairwise fun a b => compare a.key b.key = .lt
  values : ∀ key, t'.values[key]?
    = if key ∈ result.deletedKeys.map KeyValue.key then none else t.values[key]?
  revision : t'.revision = (if result.leases = [] then t.revision else t.revision + 1)
    ∧ result.revision = t'.revision

instance : Std.Total keyLE :=
  ⟨fun a b => by
    unfold keyLE
    rw [@OrientedCmp.eq_swap _ compare _ b.key a.key]
    cases compare a.key b.key <;> simp⟩

instance : IsTrans KeyValue keyLE := ⟨fun _ _ _ hab hbc => TransCmp.isLE_trans hab hbc⟩

theorem sortedByKey_increasing {attached : List (List KeyValue)} (h : Indexed t.values t.leases)
    (distinct : ids.Nodup) (found : ids.mapM t.attachedValues = .ok attached) :
    (sortedByKey attached).Pairwise fun a b => compare a.key b.key = .lt := by
  refine ((pairwise_insertionSort keyLE _).and
    (sortedByKey_distinct h distinct found)).imp fun {a b} hab => ?_
  obtain ⟨hle, hne⟩ := hab
  have hne' : compare a.key b.key ≠ .eq := fun heq => hne (LawfulEqCmp.compare_eq_iff_eq.mp heq)
  unfold keyLE at hle
  cases hcompare : compare a.key b.key with
  | lt => rfl
  | eq => exact absurd hcompare hne'
  | gt =>
    rw [hcompare] at hle
    cases hle

theorem commitStaged_data {publication : Option StagedWatchPublication} {u : Unit}
    (h : commitStaged publication s = .ok u t) :
    t.values = s.values ∧ t.leases = s.leases ∧ t.revision = s.revision := by
  cases publication with
  | none | some publication =>
    cases h
    exact ⟨rfl, rfl, rfl⟩

theorem removeLeases_result (h : removeLeases ids code s = .ok result t) :
    result.1.revision = t.revision ∧ ∃ attached, ids.mapM s.attachedValues = .ok attached
        ∧ result.1.deletedKeys = sortedByKey attached
        ∧ t.values = eraseValues s.values (sortedByKey attached)
        ∧ t.leases = eraseLeases s.leases ids
        ∧ t.revision = if ids = [] then s.revision else s.revision + 1 := by
  simp only [removeLeases, EStateM.get_bind_apply, EStateM.ofExcept_bind_eq_ok,
    EStateM.modify_bind_apply] at h
  obtain ⟨attached, hattached, revision, hrevision, h⟩ := h
  have hrevision' : revision = if ids = [] then s.revision else s.revision + 1 := by
    cases ids with
    | nil => exact (Except.pure_eq_ok.mp hrevision).symm
    | cons id ids => exact (nextRevision_eq_ok.mp hrevision).2.symm
  obtain ⟨_, u, hcommit, h⟩ := EStateM.bind_eq_ok.mp h
  cases h
  obtain ⟨hvalues, hleases, hrevision''⟩ := commitStaged_data hcommit
  exact ⟨hrevision''.symm, attached, hattached, rfl, hvalues, hleases, hrevision''.trans hrevision'⟩

theorem removeLeases_cleans
    {owner : ByteSequence → Option LeaseOwnership} {removed : Int → StoredLease → Bool}
    (hindexed : Indexed s.values s.leases)
    (howner : ∀ key value, s.values[key]? = some value → s.attachment key = owner key)
    (distinct : ids.Nodup)
    (hids : ∀ id, id ∈ ids ↔ ∃ lease, s.leases[id]? = some lease ∧ removed id lease = true)
    (h : removeLeases ids code s = .ok result t) :
    Cleans owner s { t with logicalTick := tick } removed result.1 := by
  obtain ⟨-, hlisted, -⟩ := removeLeases_eq_ok h
  obtain ⟨hrevision, attached, hfound, hdeleted, hvalues, hleases, hnext⟩ := removeLeases_result h
  have hmem : ∀ value, value ∈ sortedByKey attached ↔ _ := fun value =>
    mem_sortedByKey hindexed hfound
  refine
    { listed := fun id => hlisted ▸ hids id, leases := fun id => ?_, deleted := fun value => ?_,
      increasing := hdeleted ▸ sortedByKey_increasing hindexed distinct hfound,
      values := fun key => ?_, revision := ⟨hlisted ▸ hnext, hrevision⟩ }
  · show t.leases[id]? = _
    apply Option.ext
    intro lease
    rw [hleases, getElem?_eraseLeases_eq_some, hids, filter_eq_some_iff, and_comm]
    refine and_congr_right fun hlease => ?_
    simp [hlease]
  · rw [hdeleted, hmem]
    refine and_congr_right fun hvalue => ?_
    have hattachment := howner _ _ hvalue
    rw [InMemoryMetadataStore.attachment, hvalue, bind_some,
      InMemoryMetadataStore.generation] at hattachment
    rw [← hattachment, hids]
    constructor
    · rintro ⟨lease, hlease, hremoved⟩
      exact ⟨value.leaseId, lease, hlease, hremoved, by rw [hlease]; rfl⟩
    · rintro ⟨id, lease, hlease, hremoved, hgeneration⟩
      obtain ⟨lease', -, heq⟩ := map_eq_some_iff.mp hgeneration
      obtain rfl := congrArg LeaseOwnership.id heq
      exact ⟨lease, hlease, hremoved⟩
  · show t.values[key]? = _
    rw [hvalues, hdeleted]
    apply Option.ext
    intro value
    rw [getElem?_eraseValues_eq_some]
    by_cases hkey : key ∈ (sortedByKey attached).map KeyValue.key
    · rw [if_pos hkey]
      simp [hkey]
    · rw [if_neg hkey]
      simp [hkey]

theorem mem_expiredAt {id : Int} :
    id ∈ s.expiredAt tick
      ↔ ∃ lease, s.leases[id]? = some lease ∧ decide (lease.expiryTick ≤ tick) = true := by
  simp only [expiredAt, List.mem_map, mem_filter, Prod.exists,
    ExtTreeMap.mem_toList_iff_getElem?_eq_some]
  constructor
  · rintro ⟨id', lease, ⟨hlease, hexpired⟩, rfl⟩
    exact ⟨lease, hlease, hexpired⟩
  · rintro ⟨lease, hlease, hexpired⟩
    exact ⟨id, lease, ⟨hlease, hexpired⟩, rfl⟩

/-- A cleanup deletes the keys its leases own, and nothing else. -/
theorem cleanup_deletes_owned_keys (constructed : Constructed s) (life : Life s calls t) :
    (∀ tick result, (Call.mk t (.expireLeases tick)).reply = some (.expireLeases result) →
        Cleans (owner s calls) t (Call.mk t (.expireLeases tick)).after
            (fun _ lease => lease.expiryTick ≤ tick) result
          ∧ ∀ (id : Int) (lease : StoredLease),
              (Call.mk t (.expireLeases tick)).after.leases[id]? = some lease →
              tick < lease.expiryTick)
      ∧ ∀ request result, (Call.mk t (.revokeLease request)).reply = some (.revokeLease result) →
          result.code = .ok →
          Cleans (owner s calls) t (Call.mk t (.revokeLease request)).after
              (fun id lease => id = request.id ∧ lease.fencingToken = request.fencingToken) result
            ∧ result.leases = [request.id] := by
  obtain ⟨_, hrestorable⟩ := life.restorable constructed
  have howner : ∀ key value, t.values[key]? = some value → t.attachment key = owner s calls key :=
    fun key value hvalue => life.attachment_eq_owner constructed hvalue
  constructor
  · intro tick result hreply
    obtain ⟨batch, t', hrun⟩ := Call.reply_eq_some hreply
    rw [(Call.of_run_eq_ok hrun).1]
    obtain ⟨_, _, hrun, h⟩ := EStateM.bind_eq_ok.mp hrun
    cases h
    obtain ⟨-, u, hremove, rfl⟩ := expireLeases_eq_ok hrun
    have hcleans : Cleans (owner s calls) t { u with logicalTick := tick }
        (fun _ lease => lease.expiryTick ≤ tick) _ :=
      removeLeases_cleans hrestorable.index howner (t.expiredAt_nodup tick)
        (fun _ => mem_expiredAt) hremove
    refine ⟨hcleans, fun id lease hlease => ?_⟩
    have hkept := hcleans.leases id
    rw [hlease] at hkept
    obtain ⟨-, hlive⟩ := filter_eq_some_iff.mp hkept.symm
    simpa using hlive
  · intro request result hreply hcode
    obtain ⟨batch, t', hrun⟩ := Call.reply_eq_some hreply
    rw [(Call.of_run_eq_ok hrun).1]
    obtain ⟨_, _, hrun, h⟩ := EStateM.bind_eq_ok.mp hrun
    cases h
    obtain ⟨-, ⟨lease, u, hlease, htoken, hremove, rfl⟩ | ⟨hfail, -⟩⟩ := revokeLease_eq_ok hrun
    swap
    · exact absurd hcode hfail
    refine ⟨removeLeases_cleans hrestorable.index howner (nodup_singleton _) (fun id => ?_)
      hremove, (removeLeases_eq_ok hremove).2.1⟩
    rw [mem_singleton]
    constructor
    · rintro rfl
      exact ⟨lease, hlease, by simp [htoken]⟩
    · rintro ⟨_, -, hnamed⟩
      exact (of_decide_eq_true hnamed).1

/-- Of two keys put under a lease, one has been put without it since. -/
theorem cleanup_deletes_owned_keys_overwritten :
    ∃ result, (Call.mk (stateAfter emptyStore (leaseLife.take 3)) (.expireLeases 6)).reply
        = some (.expireLeases result)
      ∧ result.deletedKeys.map KeyValue.key = [[1]]
      ∧ Cleans (owner emptyStore (callsFrom emptyStore (leaseLife.take 3)))
          (stateAfter emptyStore (leaseLife.take 3))
          (Call.mk (stateAfter emptyStore (leaseLife.take 3)) (.expireLeases 6)).after
          (fun _ lease => lease.expiryTick ≤ 6) result := by
  obtain ⟨result, hreply, hdeleted⟩ : ∃ result,
      (Call.mk (stateAfter emptyStore (leaseLife.take 3)) (.expireLeases 6)).reply
          = some (.expireLeases result)
        ∧ result.deletedKeys.map KeyValue.key = [[1]] := ⟨_, by rfl, by decide +kernel⟩
  have h := cleanup_deletes_owned_keys (@Constructed.ofRevision 0 {} emptyStore rfl)
    (Life.of_run (Run.of_operations emptyStore (leaseLife.take 3)))
  exact ⟨result, hreply, hdeleted, (h.1 6 result hreply).1⟩

end KuraMetadata
