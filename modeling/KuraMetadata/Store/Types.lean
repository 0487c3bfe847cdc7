import Mathlib.Data.List.Sort
import KuraMetadata.Raft.Types

/-! # Data of the in-memory metadata store

Keys, values, leases, watches, the requests the store accepts and the results it returns.
Signed 64-bit integers are `Int` and unsigned ones `Nat`; the guards that keep them in range
are those of the source. -/

namespace KuraMetadata

def i64Max : Int := 9223372036854775807

/-! ## Keys and values -/

/-- Bytes in unsigned lexicographic order, which is `compare` on lists. -/
abbrev ByteSequence := List UInt8

/-- A half-open range of keys, `[start, stop)`; `stop` is the source's `end`. -/
structure KeyRange where
  start : ByteSequence
  stop : ByteSequence
  deriving DecidableEq, Repr

def KeyRange.containsKey (range : KeyRange) (key : ByteSequence) : Bool :=
  (compare range.start key).isLE && (compare key range.stop).isLT

/-- `ranges_overlap`. -/
def KeyRange.overlap (left right : KeyRange) : Bool :=
  (compare left.start right.stop).isLT && (compare right.start left.stop).isLT

structure KeyValue where
  key : ByteSequence
  value : ByteSequence
  version : Int
  createRevision : Int
  modRevision : Int
  leaseId : Int
  deriving DecidableEq, Repr

abbrev ValueMap := Std.ExtTreeMap ByteSequence KeyValue compare

structure StoreRead where
  value : Option KeyValue
  revision : Int
  deriving DecidableEq, Repr

structure RangeRead where
  values : List KeyValue
  revision : Int
  deriving DecidableEq, Repr

structure PutResult where
  current : KeyValue
  previous : Option KeyValue
  revision : Int
  deriving DecidableEq, Repr

structure DeleteResult where
  deleted : Bool
  previous : Option KeyValue
  revision : Int
  deriving DecidableEq, Repr

structure CompareAndSetResult where
  succeeded : Bool
  current : Option KeyValue
  revision : Int
  deriving DecidableEq, Repr

/-! ## Leases -/

structure LeaseOwnership where
  id : Int
  fencingToken : Nat
  deriving DecidableEq, Repr

structure LeaseRecord where
  id : Int
  fencingToken : Nat
  grantedTtl : Nat
  expiryTick : Nat
  attachedKeys : List ByteSequence
  deriving DecidableEq, Repr

structure StoredLease where
  fencingToken : Nat
  grantedTtl : Nat
  expiryTick : Nat
  attachedKeys : Std.ExtTreeSet ByteSequence compare := ∅
  deriving DecidableEq

abbrev LeaseMap := Std.ExtTreeMap Int StoredLease compare

structure LeaseGrantRequest where
  requestedId : Int := 0
  ttl : Nat := 0
  tick : Nat := 0
  deriving DecidableEq, Repr

structure LeaseKeepAliveRequest where
  id : Int
  fencingToken : Nat
  tick : Nat
  deriving DecidableEq, Repr

structure LeaseTimeToLiveRequest where
  id : Int
  tick : Nat
  deriving DecidableEq, Repr

structure LeaseRevokeRequest where
  id : Int
  fencingToken : Nat
  tick : Nat
  deriving DecidableEq, Repr

inductive LeaseResultCode where
  | ok
  | notFound
  | expired
  | fencingTokenMismatch
  deriving DecidableEq, Repr

structure LeaseGrantResult where
  lease : LeaseRecord
  revision : Int
  deriving DecidableEq, Repr

structure LeaseLookupResult where
  code : LeaseResultCode := .ok
  lease : Option LeaseRecord := none
  remainingTtl : Nat := 0
  revision : Int
  deriving DecidableEq, Repr

structure LeaseCleanupResult where
  code : LeaseResultCode := .ok
  leases : List Int := []
  deletedKeys : List KeyValue := []
  revision : Int
  deriving DecidableEq, Repr

/-! ## Transactions -/

inductive CompareTarget where
  | version
  | createRevision
  | modRevision
  | value
  | leaseId
  deriving DecidableEq, Repr

inductive CompareResult where
  | equal
  | notEqual
  | greater
  | less
  deriving DecidableEq, Repr

/-- The variant a comparison holds as its expected value. -/
inductive Expected where
  | int64 (value : Int)
  | bytes (value : ByteSequence)
  deriving DecidableEq, Repr

structure Compare where
  key : ByteSequence
  target : CompareTarget
  result : CompareResult
  expected : Expected
  deriving DecidableEq, Repr

structure RangeRequest where
  range : KeyRange
  revision : Int := 0
  limit : Nat := 0
  deriving DecidableEq, Repr

structure PutRequest where
  key : ByteSequence
  value : ByteSequence
  leaseId : Int := 0
  returnPrevious : Bool := false
  deriving DecidableEq, Repr

structure DeleteRequest where
  range : KeyRange
  returnPrevious : Bool := false
  deriving DecidableEq, Repr

inductive RequestOperation where
  | range (request : RangeRequest)
  | put (request : PutRequest)
  | delete (request : DeleteRequest)
  deriving DecidableEq, Repr

structure TransactionRequest where
  comparisons : List Compare := []
  leaseOwnership : List LeaseOwnership := []
  leaseTick : Nat := 0
  success : List RequestOperation := []
  failure : List RequestOperation := []
  deriving DecidableEq, Repr

structure DeleteRangeResult where
  deleted : Nat
  previous : List KeyValue
  revision : Int
  deriving DecidableEq, Repr

inductive TransactionOperationResult where
  | range (result : RangeRead)
  | put (result : PutResult)
  | delete (result : DeleteRangeResult)
  deriving DecidableEq, Repr

structure ResponseHeader where
  clusterId : Nat := 0
  memberId : Nat := 0
  revision : Int := 0
  raftTerm : Nat := 0
  deriving DecidableEq, Repr

structure TransactionResult where
  header : ResponseHeader
  succeeded : Bool
  responses : List TransactionOperationResult
  deriving DecidableEq, Repr

/-! ## Watches -/

/-- A put always carries the value it bound and an erase the value it unbound; the source keeps
both in options beside a type tag. -/
inductive MutationEvent where
  | put (current : KeyValue) (previous : Option KeyValue)
  | erase (previous : KeyValue)
  deriving DecidableEq, Repr

structure WatchEvent where
  revision : Int
  mutation : MutationEvent
  deriving DecidableEq, Repr

inductive WatchFilter where
  | includeAll
  | excludePut
  | excludeErase
  deriving DecidableEq, Repr

structure WatchRequest where
  id : Int
  range : KeyRange
  startRevision : Int := 0
  filter : WatchFilter := .includeAll
  progressNotifications : Bool := false
  deriving DecidableEq, Repr

inductive StatusCode where
  | ok
  | invalidArgument
  | comparisonFailed
  | compacted
  | futureRevision
  | leaseNotFound
  | notLeader
  | noQuorum
  | deadlineExceeded
  | permissionDenied
  | quotaExceeded
  | corruption
  deriving DecidableEq, Repr

structure WatchResponse where
  header : ResponseHeader
  id : Int
  events : List WatchEvent := []
  compactRevision : Int := 0
  status : StatusCode := .ok
  cancelled : Bool := false
  deriving DecidableEq, Repr

structure EventBatch where
  revision : Int
  events : List WatchEvent
  deriving DecidableEq, Repr

structure WatchState where
  request : WatchRequest
  pending : List WatchResponse := []
  terminal : Option WatchResponse := none
  deriving DecidableEq, Repr

abbrev WatchMap := Std.ExtTreeMap Int WatchState compare

/-! ## The store -/

/-- The limits the store itself enforces. -/
structure StoreLimits where
  maxWatchers : Nat := 10000
  maxWatchHistoryRevisions : Nat := 1024
  maxWatchPendingResponses : Nat := 128
  maxActiveLeases : Nat := 10000
  deriving DecidableEq, Repr

structure InMemoryMetadataStore where
  values : ValueMap := ∅
  limits : StoreLimits := {}
  revision : Int
  compactRevision : Int
  history : List EventBatch := []
  watchers : WatchMap := ∅
  leases : LeaseMap := ∅
  logicalTick : Nat := 0
  nextLeaseId : Int := 1
  nextFencingToken : Nat := 1
  deriving DecidableEq

structure InMemoryStoreSnapshot where
  values : List KeyValue := []
  leases : List LeaseRecord := []
  revision : Int := 0
  logicalTick : Nat := 0
  nextLeaseId : Int := 1
  nextFencingToken : Nat := 1
  deriving DecidableEq, Repr

/-- What the store's operations throw: the standard exceptions with their texts, and
`StoreError`. -/
inductive StoreException where
  | invalidArgument (what : String)
  | overflowError (what : String)
  | logicError (what : String)
  | storeError (code : StatusCode) (message : String) (compactRevision : Int)
  deriving DecidableEq, Repr

end KuraMetadata
