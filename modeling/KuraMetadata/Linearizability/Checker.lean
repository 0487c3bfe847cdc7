import KuraMetadata.Library.Except
import KuraMetadata.Store.Types

/-! # The linearizability checker

The acceptance tests record what clients asked for and what they were told, and `check` decides
whether the record can be explained by one order of the operations. It searches the orders depth
first, remembers the dead ends it has left, and gives up when it reaches one of its limits. -/

namespace KuraMetadata.Linearizability

/-! ## Histories -/

abbrev OperationId := UInt64
abbrev ClientId := UInt64
abbrev LogicalTime := UInt64

inductive Operation where
  | get (key : ByteSequence)
  | put (key value : ByteSequence)
  | erase (key : ByteSequence)
  | compareAndSwap (key : ByteSequence) (expected desired : Option ByteSequence)
  deriving DecidableEq, Repr, Inhabited

namespace Operation

def key : Operation → ByteSequence
  | .get key => key
  | .put key _ => key
  | .erase key => key
  | .compareAndSwap key _ _ => key

def mutating : Operation → Bool
  | .get _ => false
  | _ => true

end Operation

structure VersionedValue where
  value : ByteSequence
  modificationRevision : Int
  deriving DecidableEq, Repr

inductive Result where
  | get (value : Option VersionedValue) (revision : Int)
  | put (revision : Int)
  | erase (erased : Bool) (revision : Int)
  | compareAndSwap (exchanged : Bool) (revision : Int)
  deriving DecidableEq, Repr

def Result.revision : Result → Int
  | .get _ revision => revision
  | .put revision => revision
  | .erase _ revision => revision
  | .compareAndSwap _ revision => revision

inductive CompletionKind where
  | succeeded
  | failed
  | timedOut
  | indeterminate
  deriving DecidableEq, Repr

structure Invocation where
  operationId : OperationId
  clientId : ClientId
  invokedAt : LogicalTime
  operation : Operation
  deriving DecidableEq, Repr, Inhabited

structure Completion where
  operationId : OperationId
  completedAt : LogicalTime
  kind : CompletionKind
  result : Option Result
  deriving DecidableEq, Repr

structure History where
  invocations : List Invocation
  completions : List Completion
  deriving DecidableEq, Repr

/-- The completion of an operation, in the map that `check_internal` builds. An ID that is there
already is not replaced. -/
def History.completion? (history : History) (id : OperationId) : Option Completion :=
  history.completions.find? fun completion => completion.operationId = id

/-! ## Validation -/

structure InvalidHistory where
  message : String
  deriving DecidableEq, Repr

def operationMatchesResult : Operation → Result → Bool
  | .get _, .get _ _ => true
  | .put _ _, .put _ => true
  | .erase _, .erase _ _ => true
  | .compareAndSwap _ _ _, .compareAndSwap _ _ => true
  | _, _ => false

/-- One pass of the first loop of `validate`, with the IDs seen so far. -/
def validateInvocation (ids : List OperationId) (invocation : Invocation) :
    Except InvalidHistory (List OperationId) := do
  if invocation.operationId = 0 ∨ invocation.clientId = 0 then
    throw ⟨"operation and client IDs must be nonzero"⟩
  if invocation.operationId ∈ ids then throw ⟨"duplicate invocation operation ID"⟩
  if invocation.operation.key.isEmpty then throw ⟨"operation key must be nonempty"⟩
  return invocation.operationId :: ids

/-- The checks on the result of a successful completion. -/
def validateResult (result : Result) : Except InvalidHistory Unit := do
  if result.revision < 0 then throw ⟨"result revision must be nonnegative"⟩
  match result with
  | .get (some value) revision =>
    if value.modificationRevision ≤ 0 ∨ revision < value.modificationRevision then
      throw ⟨"get value revision is invalid"⟩
  | _ => return ()

/-- The checks on what a completion reports. -/
def validateOutcome (operation : Operation) (completion : Completion) :
    Except InvalidHistory Unit :=
  if completion.kind = .succeeded then
    match completion.result with
    | none => throw ⟨"successful completion has a mismatched result"⟩
    | some result =>
      if !operationMatchesResult operation result then
        throw ⟨"successful completion has a mismatched result"⟩
      else validateResult result
  else if completion.result.isSome then
    throw ⟨"non-successful completion must not carry a result"⟩
  else pure ()

/-- One pass of the second loop of `validate`, with the IDs seen so far. -/
def validateCompletion (invocations : List Invocation) (ids : List OperationId)
    (completion : Completion) : Except InvalidHistory (List OperationId) :=
  match invocations.find? fun invocation => invocation.operationId = completion.operationId with
  | none => throw ⟨"completion has no invocation"⟩
  | some invocation => do
    if completion.operationId ∈ ids then throw ⟨"duplicate completion operation ID"⟩
    if completion.completedAt < invocation.invokedAt then
      throw ⟨"completion precedes invocation"⟩
    validateOutcome invocation.operation completion
    return completion.operationId :: ids

def validate (history : History) : Except InvalidHistory Unit := do
  let _ ← history.invocations.foldlM validateInvocation []
  let _ ← history.completions.foldlM (validateCompletion history.invocations) []
  return ()

/-! ## The sequential model -/

structure ModelState where
  revision : Int := 0
  values : Std.ExtTreeMap ByteSequence VersionedValue compare := ∅
  deriving DecidableEq

def currentEquals (state : ModelState) (key : ByteSequence) (expected : Option ByteSequence) :
    Bool :=
  state.values[key]?.map (·.value) = expected

def nextRevision (current : Int) : Option Int :=
  if current = i64Max then none else some (current + 1)

/-- An operation has its result if none is expected or the expected one is the actual one. -/
def accepts (expected : Option Result) (actual : Result) : Bool :=
  expected.all fun result => result = actual

/-- `apply`: the state after the operation, or `none` if it returns false. -/
def apply (state : ModelState) (operation : Operation) (expected : Option Result) :
    Option ModelState :=
  match operation with
  | .get key =>
    if accepts expected (.get state.values[key]? state.revision) then some state else none
  | .put key value => do
    let next ← nextRevision state.revision
    if accepts expected (.put next) then
      some { revision := next, values := state.values.insert key ⟨value, next⟩ }
    else none
  | .erase key =>
    if key ∈ state.values then do
      let next ← nextRevision state.revision
      if accepts expected (.erase true next) then
        some { revision := next, values := state.values.erase key }
      else none
    else if accepts expected (.erase false state.revision) then some state
    else none
  | .compareAndSwap key current desired =>
    if currentEquals state key current then
      if desired.isSome ∨ key ∈ state.values then do
        let next ← nextRevision state.revision
        if accepts expected (.compareAndSwap true next) then
          match desired with
          | some value => some { revision := next, values := state.values.insert key ⟨value, next⟩ }
          | none => some { revision := next, values := state.values.erase key }
        else none
      else if accepts expected (.compareAndSwap true state.revision) then some state
      else none
    else if accepts expected (.compareAndSwap false state.revision) then some state
    else none

/-! ## Text -/

abbrev Text := List Char

/-- A byte in lowercase hexadecimal. -/
def hexByte (byte : UInt8) : Text :=
  [Nat.digitChar (byte.toNat / 16), Nat.digitChar (byte.toNat % 16)]

def hex (value : ByteSequence) : Text :=
  if value.isEmpty then ['-'] else value.flatMap hexByte

/-- `std::to_string` of an unsigned integer. -/
def decimal (value : Nat) : Text := Nat.toDigits 10 value

/-- `std::to_string` of a signed integer. -/
def signedDecimal : Int → Text
  | .ofNat value => decimal value
  | .negSucc value => '-' :: decimal (value + 1)

/-! ## The search -/

structure CheckerLimits where
  maxOperations : Nat := 64
  maxSearchStates : Nat := 200000
  maxMemoEntries : Nat := 100000
  deriving DecidableEq, Repr

/-- A set of operations, by their positions. -/
abbrev Mask := BitVec 64

def bit (index : Nat) : Mask := 1#64 <<< index

structure SearchOperation where
  invocation : Invocation
  completion : Option Completion
  required : Bool
  predecessors : Mask := 0#64
  deriving DecidableEq

/-- `SearchOutcome`, and `CheckOutcome` with the same values. -/
inductive SearchOutcome where
  | linearizable
  | notLinearizable
  | inconclusive
  deriving DecidableEq, Repr

/-- `SearchContext`, without the members that stay as they are. -/
structure SearchContext where
  explored : Nat := 0
  deadStates : Finset Text := ∅
  deriving DecidableEq

/-- The part of a state key for one entry of the store. -/
def entryKey (entry : ByteSequence × VersionedValue) : Text :=
  '|' :: (hex entry.1 ++ '=' :: (hex entry.2.value
    ++ '@' :: signedDecimal entry.2.modificationRevision))

def stateKey (remaining : Mask) (state : ModelState) : Text :=
  decimal remaining.toNat ++ '|' :: (signedDecimal state.revision
    ++ state.values.toList.flatMap entryKey)

/-- The calls of `search` on the operations left. -/
abbrev Recurse := Mask → ModelState → SearchContext → SearchOutcome × SearchContext

/-- The branch of `search` that omits a candidate. -/
def searchOmitted (recurse : Recurse) (candidate : SearchOperation) (after : Mask)
    (state : ModelState) (context : SearchContext) : SearchOutcome × SearchContext :=
  if candidate.required then (.notLinearizable, context) else recurse after state context

/-- The result a candidate has to have. -/
def SearchOperation.expected (candidate : SearchOperation) : Option Result :=
  if candidate.required then candidate.completion.bind (·.result) else none

/-- The branch of `search` that applies a candidate. -/
def searchApplied (recurse : Recurse) (candidate : SearchOperation) (after : Mask)
    (state : ModelState) (context : SearchContext) : SearchOutcome × SearchContext :=
  match apply state candidate.invocation.operation candidate.expected with
  | none => (.notLinearizable, context)
  | some next => recurse after next context

/-- The loop of `search` over the operations from a position on. -/
def searchCandidates (recurse : Recurse) (remaining : Mask) (state : ModelState) :
    List (SearchOperation × Nat) → Bool → SearchContext → SearchOutcome × SearchContext
  | [], sawInconclusive, context =>
    if sawInconclusive then (.inconclusive, context)
    else (.notLinearizable,
      { context with deadStates := insert (stateKey remaining state) context.deadStates })
  | (candidate, index) :: rest, sawInconclusive, context =>
    if remaining &&& bit index = 0#64 ∨ candidate.predecessors &&& remaining ≠ 0#64 then
      searchCandidates recurse remaining state rest sawInconclusive context
    else
      let after := remaining &&& ~~~bit index
      let omitted := searchOmitted recurse candidate after state context
      if omitted.1 = .linearizable then omitted
      else
        let applied := searchApplied recurse candidate after state omitted.2
        if applied.1 = .linearizable then applied
        else
          searchCandidates recurse remaining state rest
            (sawInconclusive || omitted.1 = .inconclusive || applied.1 = .inconclusive) applied.2

/-- `search`. Each call decides one operation, so a depth of as many calls as there are operations
left is never exceeded. -/
def search (operations : List SearchOperation) (limits : CheckerLimits) : Nat → Recurse
  | depth, remaining, state, context =>
    if remaining = 0#64 then (.linearizable, context)
    else if limits.maxSearchStates ≤ context.explored then (.inconclusive, context)
    else
      let context := { context with explored := context.explored + 1 }
      if stateKey remaining state ∈ context.deadStates then (.notLinearizable, context)
      else if limits.maxMemoEntries ≤ context.deadStates.card then (.inconclusive, context)
      else
        match depth with
        | 0 => (.inconclusive, context)
        | depth + 1 =>
          searchCandidates (search operations limits depth) remaining state operations.zipIdx
            false context

/-! ## Preparing the search -/

/-- One pass of the loop of `check_internal` over the invocations: operations known not to have
taken effect and reads without a result are dropped. -/
def History.retain (history : History) (invocation : Invocation) : Option SearchOperation :=
  let found := history.completion? invocation.operationId
  if found.any fun completion => completion.kind = .failed ∨ completion.kind = .timedOut then none
  else
    let required := found.any fun completion => completion.kind = .succeeded
    if !required && !invocation.operation.mutating then none
    else some { invocation, completion := found, required }

/-- The operations the search decides on, by their IDs. -/
def History.retained (history : History) : List SearchOperation :=
  (history.invocations.filterMap history.retain).insertionSort fun left right =>
    left.invocation.operationId ≤ right.invocation.operationId

/-- Whether an operation was complete before another was invoked. -/
def SearchOperation.precedes (earlier later : SearchOperation) : Bool :=
  earlier.completion.any fun completion => completion.completedAt < later.invocation.invokedAt

/-- The inner loop of `check_internal` over the operations that may come earlier. -/
def predecessorsOf (operations : List SearchOperation) (operation : SearchOperation) (later : Nat) :
    Mask :=
  operations.zipIdx.foldl (fun mask item =>
    if item.2 ≠ later ∧ item.1.precedes operation then mask ||| bit item.2 else mask) 0#64

/-- The outer loop of `check_internal`. -/
def withPredecessors (operations : List SearchOperation) : List SearchOperation :=
  operations.zipIdx.map fun item =>
    { item.1 with predecessors := predecessorsOf operations item.1 item.2 }

/-- The mask of all operations. -/
def allRemaining (count : Nat) : Mask :=
  if count = 64 then BitVec.allOnes 64 else bit count - 1#64

/-- The search on the operations of a history, with what it leaves of its context. -/
def searchHistory (history : History) (limits : CheckerLimits) : SearchOutcome × SearchContext :=
  let operations := withPredecessors history.retained
  search operations limits operations.length (allRemaining operations.length) {} {}

structure InternalResult where
  outcome : SearchOutcome
  explored : Nat
  deriving DecidableEq, Repr

def checkInternal (history : History) (limits : CheckerLimits) :
    Except InvalidHistory InternalResult := do
  validate history
  if limits.maxOperations = 0 ∨ limits.maxSearchStates = 0 ∨ limits.maxMemoEntries = 0 then
    return ⟨.inconclusive, 0⟩
  if limits.maxOperations < history.invocations.length then return ⟨.inconclusive, 0⟩
  if 64 < history.retained.length then return ⟨.inconclusive, 0⟩
  let searched := searchHistory history limits
  return ⟨searched.1, searched.2.explored⟩

/-! ## The replay text -/

/-- A field and the separator before it. -/
def field (text : Text) : Text := ' ' :: text

/-- An optional byte sequence. -/
def optionalHex : Option ByteSequence → Text
  | none => ['~']
  | some value => hex value

def operationText : Operation → Text
  | .get key => ['g', 'e', 't'] ++ field (hex key)
  | .put key value => ['p', 'u', 't'] ++ field (hex key) ++ field (hex value)
  | .erase key => ['e', 'r', 'a', 's', 'e'] ++ field (hex key)
  | .compareAndSwap key expected desired =>
    ['c', 'a', 's'] ++ field (hex key) ++ field (optionalHex expected)
      ++ field (optionalHex desired)

def invocationText (invocation : Invocation) : Text :=
  ['i'] ++ field (decimal invocation.operationId.toNat)
    ++ field (decimal invocation.clientId.toNat) ++ field (decimal invocation.invokedAt.toNat)
    ++ field (operationText invocation.operation) ++ ['\n']

def completionKindName : CompletionKind → Text
  | .succeeded => ['s', 'u', 'c', 'c', 'e', 'e', 'd', 'e', 'd']
  | .failed => ['f', 'a', 'i', 'l', 'e', 'd']
  | .timedOut => ['t', 'i', 'm', 'e', 'd', '_', 'o', 'u', 't']
  | .indeterminate => ['i', 'n', 'd', 'e', 't', 'e', 'r', 'm', 'i', 'n', 'a', 't', 'e']

def booleanText (value : Bool) : Text := if value then ['1'] else ['0']

def resultText : Result → Text
  | .get value revision =>
    ['g', 'e', 't'] ++ field (signedDecimal revision) ++ field (booleanText value.isSome)
      ++ match value with
        | none => []
        | some value => field (hex value.value) ++ field (signedDecimal value.modificationRevision)
  | .put revision => ['p', 'u', 't'] ++ field (signedDecimal revision)
  | .erase erased revision =>
    ['e', 'r', 'a', 's', 'e'] ++ field (booleanText erased) ++ field (signedDecimal revision)
  | .compareAndSwap exchanged revision =>
    ['c', 'a', 's'] ++ field (booleanText exchanged) ++ field (signedDecimal revision)

def completionText (completion : Completion) : Text :=
  ['c'] ++ field (decimal completion.operationId.toNat)
    ++ field (decimal completion.completedAt.toNat) ++ field (completionKindName completion.kind)
    ++ (if completion.kind = .succeeded then
        (completion.result.map fun result => field (resultText result)).getD []
      else []) ++ ['\n']

/-- `linear-history-v1`. -/
def replayHeader : Text :=
  ['l', 'i', 'n', 'e', 'a', 'r', '-', 'h', 'i', 's', 't', 'o', 'r', 'y', '-', 'v', '1', '\n']

def serialize (history : History) : Except InvalidHistory Text := do
  validate history
  let invocations := history.invocations.insertionSort fun left right =>
    left.operationId ≤ right.operationId
  let completions := history.completions.insertionSort fun left right =>
    left.operationId ≤ right.operationId
  return replayHeader ++ invocations.flatMap invocationText ++ completions.flatMap completionText

/-! ## Checking a history -/

structure Counterexample where
  history : History
  replay : Text
  deriving DecidableEq, Repr

structure CheckResult where
  outcome : SearchOutcome
  exploredStates : Nat
  counterexample : Option Counterexample := none
  deriving DecidableEq, Repr

def History.without (history : History) (id : OperationId) : History :=
  { invocations := history.invocations.filter fun invocation => invocation.operationId ≠ id
    completions := history.completions.filter fun completion => completion.operationId ≠ id }

/-- The inner loop of `check`: the first operation without which the history is still not
linearizable is removed. -/
def removeOperation (limits : CheckerLimits) (reduced : History) :
    List OperationId → Nat → Except InvalidHistory (Option History × Nat)
  | [], explored => pure (none, explored)
  | id :: ids, explored =>
    let candidate := reduced.without id
    if candidate.invocations.isEmpty then removeOperation limits reduced ids explored
    else do
      let result ← checkInternal candidate limits
      if result.outcome = .notLinearizable then
        return (some candidate, explored + result.explored)
      else removeOperation limits reduced ids (explored + result.explored)

/-- The outer loop of `check`. Each pass but the last removes an operation and never the only one,
so there are at most as many passes as operations. -/
def minimize (limits : CheckerLimits) : Nat → History → Nat → Except InvalidHistory (History × Nat)
  | 0, reduced, explored => pure (reduced, explored)
  | passes + 1, reduced, explored => do
    let ids := (reduced.invocations.map (·.operationId)).insertionSort (· ≤ ·)
    let removed ← removeOperation limits reduced ids explored
    match removed.1 with
    | none => return (reduced, removed.2)
    | some candidate => minimize limits passes candidate removed.2

def check (history : History) (limits : CheckerLimits) : Except InvalidHistory CheckResult := do
  let result ← checkInternal history limits
  if result.outcome = .notLinearizable then
    let minimized ← minimize limits history.invocations.length history result.explored
    let replay ← serialize minimized.1
    return { outcome := .notLinearizable, exploredStates := minimized.2,
             counterexample := some ⟨minimized.1, replay⟩ }
  else return { outcome := result.outcome, exploredStates := result.explored }

end KuraMetadata.Linearizability
