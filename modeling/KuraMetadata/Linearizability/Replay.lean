import Mathlib.Algebra.Ring.Int.Defs
import KuraMetadata.Linearizability.Histories
import KuraMetadata.Linearizability.StateKey

/-! # The replay text of a history

`serialize` writes a history as a header and one line for each record, in the order of the operation
IDs, and `parse` reads such a text. The fields of a line are decimal numbers, byte sequences in
hexadecimal and names; `-` stands for the empty byte sequence and `~` for one that is absent. -/

namespace KuraMetadata.Linearizability

open List Except

variable {result : Result} {completion : Completion}

/-! ## Reading fields -/

/-- The characters that `operator>>` skips. -/
def isSpace (c : Char) : Bool := c ∈ [' ', '\t', '\n', '\x0b', '\x0c', '\r']

def nibble (value : Char) : Except InvalidHistory Nat :=
  if '0' ≤ value ∧ value ≤ '9' then pure (value.toNat - '0'.toNat)
  else if 'a' ≤ value ∧ value ≤ 'f' then pure (value.toNat - 'a'.toNat + 10)
  else throw ⟨"invalid hexadecimal digit in replay"⟩

/-- The loop of `unhex`. -/
def unhexBytes : Text → Except InvalidHistory ByteSequence
  | high :: low :: rest => do
    let high ← nibble high
    let low ← nibble low
    let bytes ← unhexBytes rest
    return UInt8.ofNat (16 * high + low) :: bytes
  | _ => return []

def unhex (text : Text) : Except InvalidHistory ByteSequence :=
  if text = ['-'] then return []
  else if text.isEmpty ∨ text.length % 2 ≠ 0 then throw ⟨"invalid byte sequence in replay"⟩
  else unhexBytes text

/-- The conditional expression around `unhex` for the optional values of a compare-and-swap. -/
def unhexOptional (text : Text) : Except InvalidHistory (Option ByteSequence) :=
  if text = ['~'] then return none else return some (← unhex text)

/-- The number that digits stand for. There has to be one. -/
def digitsValue (digits : Text) : Option Nat :=
  if digits ≠ [] ∧ digits.all Char.isDigit then some (Nat.ofDigitChars 10 digits 0) else none

/-- `std::from_chars`, where it reads the token to its end. Only a signed type takes a sign. -/
def fromChars (signed : Bool) : Text → Option Int
  | [] => none
  | c :: token =>
    if c = '-' ∧ signed then (digitsValue token).map fun value => -(value : Int)
    else (digitsValue (c :: token)).map fun value => (value : Int)

/-- `integer`, for the type with the given least and greatest values. -/
def integer (least greatest : Int) (token : Text) (field : String) : Except InvalidHistory Int :=
  match fromChars (decide (least < 0)) token with
  | none => throw ⟨"invalid " ++ field ++ " in replay"⟩
  | some value =>
    if least ≤ value ∧ value ≤ greatest then return value
    else throw ⟨"invalid " ++ field ++ " in replay"⟩

/-- `integer` for the types of IDs and times. -/
def unsignedInteger (token : Text) (field : String) : Except InvalidHistory UInt64 := do
  let value ← integer 0 (2 ^ 64 - 1) token field
  return UInt64.ofNat value.toNat

def revision (token : Text) : Except InvalidHistory Int := do
  let value ← integer (-2 ^ 63) i64Max token "revision"
  if value < 0 then throw ⟨"negative revision in replay"⟩
  return value

def boolean (token : Text) : Except InvalidHistory Bool :=
  if token = ['0'] then return false
  else if token = ['1'] then return true
  else throw ⟨"invalid boolean in replay"⟩

/-! ## Reading records -/

/-- The operation of an invocation record, from its name and what follows. -/
def parseOperation (name : Text) : List Text → Except InvalidHistory Operation
  | [key] => do
    if name = ['g', 'e', 't'] then return .get (← unhex key)
    if name = ['e', 'r', 'a', 's', 'e'] then return .erase (← unhex key)
    throw ⟨"invalid invocation replay record"⟩
  | [key, value] => do
    if name = ['p', 'u', 't'] then return .put (← unhex key) (← unhex value)
    throw ⟨"invalid invocation replay record"⟩
  | [key, expected, desired] => do
    if name = ['c', 'a', 's'] then
      return .compareAndSwap (← unhex key) (← unhexOptional expected) (← unhexOptional desired)
    throw ⟨"invalid invocation replay record"⟩
  | _ => throw ⟨"invalid invocation replay record"⟩

/-- An invocation record, from the tokens after the first. -/
def parseInvocation : List Text → Except InvalidHistory Invocation
  | operationId :: clientId :: invokedAt :: name :: arguments => do
    let operationId ← unsignedInteger operationId "operation ID"
    let clientId ← unsignedInteger clientId "client ID"
    let invokedAt ← unsignedInteger invokedAt "invocation time"
    let operation ← parseOperation name arguments
    return { operationId, clientId, invokedAt, operation }
  | _ => throw ⟨"truncated invocation replay record"⟩

/-- The result of a get, whose last two tokens are there only if a value is. -/
def parseGetResult (first second : Text) (rest : List Text) : Except InvalidHistory Result := do
  let present ← boolean second
  if (present = false ∧ rest.length ≠ 0) ∨ (present = true ∧ rest.length ≠ 2) then
    throw ⟨"invalid get completion replay"⟩
  let current ← revision first
  match rest with
  | [value, modification] => return .get (some ⟨← unhex value, ← revision modification⟩) current
  | _ => return .get none current

/-- The result of a completion record, from its name and what follows. -/
def parseResult : List Text → Except InvalidHistory Result
  | [name, first] => do
    if name = ['p', 'u', 't'] then return .put (← revision first)
    throw ⟨"invalid success completion replay"⟩
  | name :: first :: second :: rest => do
    if name = ['g', 'e', 't'] then return (← parseGetResult first second rest)
    if name = ['e', 'r', 'a', 's', 'e'] ∧ rest = [] then
      return .erase (← boolean first) (← revision second)
    if name = ['c', 'a', 's'] ∧ rest = [] then
      return .compareAndSwap (← boolean first) (← revision second)
    throw ⟨"invalid success completion replay"⟩
  | _ => throw ⟨"invalid success completion replay"⟩

/-- The kind of a completion that did not succeed. -/
def parseFailure (name : Text) : Option CompletionKind :=
  [CompletionKind.failed, .timedOut, .indeterminate].find?
    fun kind => completionKindName kind = name

/-- A completion record, from all its tokens. -/
def parseCompletion : List Text → Except InvalidHistory Completion
  | letter :: operationId :: completedAt :: kind :: rest => do
    if letter ≠ ['c'] then throw ⟨"invalid completion replay record"⟩
    let operationId ← unsignedInteger operationId "operation ID"
    let completedAt ← unsignedInteger completedAt "completion time"
    match parseFailure kind with
    | some kind =>
      if rest ≠ [] then throw ⟨"non-success completion has replay result"⟩
      return { operationId, completedAt, kind, result := none }
    | none =>
      if kind ≠ completionKindName .succeeded then
        throw ⟨"unknown completion kind in replay"⟩
      let result ← parseResult rest
      return { operationId, completedAt, kind := .succeeded, result := some result }
  | _ => throw ⟨"invalid completion replay record"⟩

/-- One pass of the loop of `parse`. -/
def parseRecord (history : History) (line : Text) : Except InvalidHistory History := do
  if line.isEmpty then throw ⟨"blank line in replay"⟩
  match line.fieldsBy isSpace with
  | [] => throw ⟨"empty replay record"⟩
  | letter :: rest =>
    if letter = ['i'] then
      let invocation ← parseInvocation rest
      return { history with invocations := history.invocations ++ [invocation] }
    else
      let completion ← parseCompletion (letter :: rest)
      return { history with completions := history.completions ++ [completion] }

def parse (replay : Text) : Except InvalidHistory History :=
  match replay.linesEndedBy '\n' with
  | [] => throw ⟨"unsupported linearizability replay header"⟩
  | header :: records => do
    if header ++ ['\n'] ≠ replayHeader then
      throw ⟨"unsupported linearizability replay header"⟩
    let history ← records.foldlM parseRecord { invocations := [], completions := [] }
    validate history
    return history

/-! ## Fields that were written -/

/-- A field of the text. -/
abbrev Word (text : Text) : Prop := List.IsField isSpace text

theorem Plain.not_space {c : Char} (h : Plain c) : isSpace c = false := by
  have hspaces : [' ', '\t', '\n', '\x0b', '\x0c', '\r'].all (fun c => ¬ Plain c) = true := by
    decide
  exact decide_eq_false fun hc => of_decide_eq_true (all_eq_true.mp hspaces c hc) h

theorem decimal_ne_nil (n : Nat) : decimal n ≠ [] := Nat.toDigits_ne_nil

theorem word_decimal (n : Nat) : Word (decimal n) :=
  ⟨decimal_ne_nil n, fun _ hc => Plain.not_space (.inl (isDigit_of_mem_decimal hc))⟩

theorem word_signedDecimal (n : Int) : Word (signedDecimal n) := by
  refine ⟨?_, fun _ hc => (plain_of_mem_signedDecimal hc).not_space⟩
  cases n with
  | ofNat n => exact decimal_ne_nil n
  | negSucc n => exact cons_ne_nil _ _

theorem hex_ne_nil (value : ByteSequence) : hex value ≠ [] := by
  cases value with
  | nil | cons byte value => exact cons_ne_nil _ _

theorem word_hex (value : ByteSequence) : Word (hex value) :=
  ⟨hex_ne_nil value, fun _ hc => (mem_hex hc).not_space⟩

theorem word_optionalHex (value : Option ByteSequence) : Word (optionalHex value) := by
  cases value with
  | none => exact List.IsField.of_all (cons_ne_nil _ _) rfl
  | some value => exact word_hex value

theorem word_completionKindName (kind : CompletionKind) : Word (completionKindName kind) := by
  cases kind <;> exact List.IsField.of_all (cons_ne_nil _ _) rfl

theorem word_booleanText (value : Bool) : Word (booleanText value) := by
  cases value <;> exact List.IsField.of_all (cons_ne_nil _ _) rfl

theorem nibble_digitChar {n : Nat} (h : n < 16) : nibble n.digitChar = .ok n := by
  have hall : ∀ n < 16, nibble n.digitChar = .ok n := by decide
  exact hall n h

theorem unhexBytes_flatMap (value : ByteSequence) :
    unhexBytes (value.flatMap hexByte) = .ok value := by
  induction value with
  | nil => rfl
  | cons byte value ih =>
    have hbyte := byte.toNat_lt
    have hhigh : nibble (Nat.digitChar (byte.toNat / 16)) = .ok (byte.toNat / 16) :=
      nibble_digitChar (by omega)
    have hlow : nibble (Nat.digitChar (byte.toNat % 16)) = .ok (byte.toNat % 16) :=
      nibble_digitChar (by omega)
    simp only [flatMap_cons, hexByte, cons_append, nil_append, unhexBytes, hhigh, hlow,
      ih, ok_bind, Nat.div_add_mod, UInt8.ofNat_toNat]
    rfl

theorem length_flatMap_hexByte (value : ByteSequence) :
    (value.flatMap hexByte).length = 2 * value.length := by
  induction value with
  | nil => rfl
  | cons byte value ih => simp only [flatMap_cons, length_append, ih, hexByte,
      length_cons, length_nil]; omega

theorem unhex_hex (value : ByteSequence) : unhex (hex value) = .ok value := by
  cases value with
  | nil => rfl
  | cons byte value =>
    have hdash : hex (byte :: value) ≠ ['-'] := fun h =>
      absurd (hex_injective (h.trans (show ['-'] = hex [] from rfl))) (cons_ne_nil _ _)
    have hlength : (hex (byte :: value)).length % 2 = 0 := by
      rw [show hex (byte :: value) = (byte :: value).flatMap hexByte from rfl,
        length_flatMap_hexByte]
      omega
    have hnonempty :
        ¬ ((hex (byte :: value)).isEmpty = true ∨ (hex (byte :: value)).length % 2 ≠ 0) := by
      rw [List.isEmpty_iff]
      exact fun h => h.elim (hex_ne_nil _) (· hlength)
    rw [unhex, if_neg hdash, if_neg hnonempty]
    exact unhexBytes_flatMap (byte :: value)

theorem unhexOptional_optionalHex (value : Option ByteSequence) :
    unhexOptional (optionalHex value) = .ok value := by
  cases value with
  | none => rfl
  | some value =>
    have htilde : optionalHex (some value) ≠ ['~'] := fun h => by
      have hmem : '~' ∈ hex value := by
        rw [show hex value = ['~'] from h]
        exact mem_singleton_self _
      exact absurd (mem_hex hmem) (by decide)
    rw [unhexOptional, if_neg htilde, show optionalHex (some value) = hex value from rfl, unhex_hex]
    rfl

theorem digitsValue_decimal (n : Nat) : digitsValue (decimal n) = some n := by
  have hdigits : decimal n ≠ [] ∧ (decimal n).all Char.isDigit = true :=
    ⟨decimal_ne_nil n, all_eq_true.mpr fun _ hc => isDigit_of_mem_decimal hc⟩
  rw [digitsValue, if_pos hdigits]
  exact congrArg some Nat.ofDigitChars_ten_toDigits

theorem fromChars_decimal (signed : Bool) (n : Nat) :
    fromChars signed (decimal n) = some (n : Int) := by
  obtain ⟨c, token, htoken⟩ := exists_cons_of_ne_nil (decimal_ne_nil n)
  have hc : c ≠ '-' := by
    rintro rfl
    exact absurd (isDigit_of_mem_decimal (htoken ▸ mem_cons_self)) (by decide)
  rw [htoken, fromChars, if_neg (fun h => hc h.1), ← htoken, digitsValue_decimal]
  rfl

theorem integer_decimal {least greatest : Int} {n : Nat} (hleast : least ≤ n)
    (hgreatest : n ≤ greatest)
    (field : String) : integer least greatest (decimal n) field = .ok (n : Int) := by
  simp only [integer, fromChars_decimal, if_pos (And.intro hleast hgreatest)]
  rfl

theorem unsignedInteger_decimal (value : UInt64) (field : String) :
    unsignedInteger (decimal value.toNat) field = .ok value := by
  have hvalue := value.toNat_lt
  rw [unsignedInteger, integer_decimal (by omega) (by omega), ok_bind, Int.toNat_natCast,
    UInt64.ofNat_toNat]
  rfl

theorem revision_signedDecimal {value : Int} (hnonneg : 0 ≤ value) (hmax : value ≤ i64Max) :
    revision (signedDecimal value) = .ok value := by
  obtain ⟨n, rfl⟩ := Int.eq_ofNat_of_zero_le hnonneg
  have hread : integer (-2 ^ 63) i64Max (decimal n) "revision" = .ok (n : Int) :=
    integer_decimal (by omega) hmax _
  rw [revision, show signedDecimal (n : Int) = decimal n from rfl, hread, ok_bind,
    if_neg (by omega)]
  rfl

theorem boolean_booleanText (value : Bool) : boolean (booleanText value) = .ok value := by
  cases value <;> rfl

/-! ## Records that were written -/

def operationFields : Operation → List Text
  | .get key => [['g', 'e', 't'], hex key]
  | .put key value => [['p', 'u', 't'], hex key, hex value]
  | .erase key => [['e', 'r', 'a', 's', 'e'], hex key]
  | .compareAndSwap key expected desired =>
    [['c', 'a', 's'], hex key, optionalHex expected, optionalHex desired]

/-- The fields of an invocation record after the first. -/
def invocationFields (invocation : Invocation) : List Text :=
  decimal invocation.operationId.toNat :: decimal invocation.clientId.toNat
    :: decimal invocation.invokedAt.toNat :: operationFields invocation.operation

def resultFields : Result → List Text
  | .get none revision => [['g', 'e', 't'], signedDecimal revision, booleanText false]
  | .get (some value) revision =>
    [['g', 'e', 't'], signedDecimal revision, booleanText true, hex value.value,
      signedDecimal value.modificationRevision]
  | .put revision => [['p', 'u', 't'], signedDecimal revision]
  | .erase erased revision =>
    [['e', 'r', 'a', 's', 'e'], booleanText erased, signedDecimal revision]
  | .compareAndSwap exchanged revision =>
    [['c', 'a', 's'], booleanText exchanged, signedDecimal revision]

/-- The fields of a completion record after the first. -/
def completionFields (completion : Completion) : List Text :=
  decimal completion.operationId.toNat :: decimal completion.completedAt.toNat
    :: completionKindName completion.kind
    :: if completion.kind = .succeeded then (completion.result.map resultFields).getD [] else []

/-- A record without the end of its line. -/
def recordLine (letter : Text) (fields : List Text) : Text := letter ++ fields.flatMap (' ' :: ·)

theorem invocationText_eq (invocation : Invocation) :
    invocationText invocation = recordLine ['i'] (invocationFields invocation) ++ ['\n'] := by
  have hoperation : field (operationText invocation.operation)
      = (operationFields invocation.operation).flatMap (' ' :: ·) := by
    cases invocation.operation <;> simp [operationText, operationFields, field]
  rw [invocationText, hoperation]
  simp [recordLine, invocationFields, field]

theorem field_resultText (result : Result) :
    field (resultText result) = (resultFields result).flatMap (' ' :: ·) := by
  cases result with
  | get value revision => cases value <;> simp [resultText, resultFields, field]
  | put revision | erase erased revision | compareAndSwap exchanged revision =>
    simp [resultText, resultFields, field]

theorem completionText_eq (completion : Completion) :
    completionText completion = recordLine ['c'] (completionFields completion) ++ ['\n'] := by
  obtain ⟨id, time, kind, result⟩ := completion
  rw [completionText]
  by_cases hkind : kind = .succeeded
  · cases result with
    | none => simp [recordLine, completionFields, field, hkind]
    | some result =>
      simp only [hkind, if_true, Option.map_some, Option.getD_some, field_resultText]
      simp [recordLine, completionFields, field]
  · simp [recordLine, completionFields, field, hkind]

theorem word_name {name : Text}
    (h : name ∈ [['g', 'e', 't'], ['p', 'u', 't'], ['e', 'r', 'a', 's', 'e'], ['c', 'a', 's']]) :
    Word name := by
  simp only [mem_cons, not_mem_nil, or_false] at h
  rcases h with rfl | rfl | rfl | rfl <;> exact List.IsField.of_all (cons_ne_nil _ _) rfl

theorem word_invocationFields (invocation : Invocation) :
    ∀ text ∈ invocationFields invocation, Word text := by
  rw [invocationFields]
  simp only [forall_mem_cons, word_decimal, true_and]
  cases invocation.operation <;>
    simp [operationFields, word_name, word_hex, word_optionalHex]

theorem word_completionFields (completion : Completion) :
    ∀ text ∈ completionFields completion, Word text := by
  rw [completionFields]
  simp only [forall_mem_cons, word_decimal, word_completionKindName, true_and]
  split
  · cases completion.result with
    | none => exact forall_mem_nil _
    | some result =>
      cases result with
      | get value revision =>
        cases value <;> simp [resultFields, word_name, word_signedDecimal, word_booleanText,
          word_hex]
      | put revision => simp [resultFields, word_name, word_signedDecimal]
      | erase erased revision | compareAndSwap exchanged revision =>
        simp [resultFields, word_name, word_signedDecimal, word_booleanText]
  · exact forall_mem_nil _

section

variable {letter : Text} {fields : List Text}

theorem fieldsBy_recordLine (hletter : Word letter) (hfields : ∀ text ∈ fields, Word text) :
    (recordLine letter fields).fieldsBy isSpace = letter :: fields :=
  fieldsBy_flatMap hletter hfields (by decide)

theorem newline_notMem_recordLine (hletter : Word letter) (hfields : ∀ text ∈ fields, Word text) :
    '\n' ∉ recordLine letter fields :=
  notMem_flatMap_separator (by decide) (by decide) hletter hfields

theorem recordLine_ne_nil (hletter : Word letter) : recordLine letter fields ≠ [] :=
  append_ne_nil_of_left_ne_nil hletter.ne_nil _

end

theorem word_invocationLetter : Word ['i'] := List.IsField.of_all (cons_ne_nil _ _) rfl

theorem word_completionLetter : Word ['c'] := List.IsField.of_all (cons_ne_nil _ _) rfl

/-! ## Reading records that were written -/

theorem parseInvocation_invocationFields (invocation : Invocation) :
    parseInvocation (invocationFields invocation) = .ok invocation := by
  obtain ⟨id, client, time, operation⟩ := invocation
  cases operation <;>
    simp [invocationFields, operationFields, parseInvocation, parseOperation,
      unsignedInteger_decimal, unhex_hex, unhexOptional_optionalHex]

/-- The revisions of a result, and the nonnegative values of their type. -/
structure Result.Representable (result : Result) : Prop where
  nonneg : 0 ≤ result.revision
  max : result.revision ≤ i64Max
  value : ∀ value revision, result = .get (some value) revision →
    0 ≤ value.modificationRevision ∧ value.modificationRevision ≤ i64Max

theorem parseResult_resultFields (h : result.Representable) :
    parseResult (resultFields result) = .ok result := by
  have hrevision := revision_signedDecimal h.nonneg h.max
  cases result with
  | get value revision =>
    cases value with
    | none =>
      simp only [Result.revision] at hrevision
      simp [resultFields, parseResult, parseGetResult, hrevision, boolean_booleanText]
    | some value =>
      obtain ⟨hnonneg, hmax⟩ := h.value value revision rfl
      simp only [Result.revision] at hrevision
      simp [resultFields, parseResult, parseGetResult, hrevision, boolean_booleanText, unhex_hex,
        revision_signedDecimal hnonneg hmax]
  | put revision =>
    simp only [Result.revision] at hrevision
    simp [resultFields, parseResult, hrevision]
  | erase erased revision | compareAndSwap exchanged revision =>
    simp only [Result.revision] at hrevision
    simp [resultFields, parseResult, hrevision, boolean_booleanText]

/-- A completion whose record determines it: it has a result exactly if it has succeeded. -/
structure Completion.Representable (completion : Completion) : Prop where
  succeeded : completion.kind = .succeeded →
    ∃ result, completion.result = some result ∧ result.Representable
  failed : completion.kind ≠ .succeeded → completion.result = none

theorem parseCompletion_completionFields (h : completion.Representable) :
    parseCompletion (['c'] :: completionFields completion) = .ok completion := by
  obtain ⟨id, time, kind, result⟩ := completion
  by_cases hkind : kind = .succeeded
  · obtain ⟨result, rfl, hfits⟩ := h.succeeded hkind
    have hname : parseFailure (completionKindName .succeeded) = none := by decide
    simp [completionFields, parseCompletion, unsignedInteger_decimal, hkind, hname,
      parseResult_resultFields hfits]
  · obtain rfl : result = none := h.failed hkind
    have hname : parseFailure (completionKindName kind) = some kind := by
      cases kind <;> first | rfl | exact absurd rfl hkind
    simp [completionFields, parseCompletion, unsignedInteger_decimal, hkind, hname]

section

variable {history : History}

theorem parseRecord_invocation (invocation : Invocation) :
    parseRecord history (recordLine ['i'] (invocationFields invocation))
      = .ok { history with invocations := history.invocations ++ [invocation] } := by
  have hfields := word_invocationFields invocation
  rw [parseRecord, fieldsBy_recordLine word_invocationLetter hfields]
  simp [recordLine_ne_nil word_invocationLetter, parseInvocation_invocationFields]

theorem parseRecord_completion (h : completion.Representable) :
    parseRecord history (recordLine ['c'] (completionFields completion))
      = .ok { history with completions := history.completions ++ [completion] } := by
  have hfields := word_completionFields completion
  rw [parseRecord, fieldsBy_recordLine word_completionLetter hfields]
  simp [recordLine_ne_nil word_completionLetter, parseCompletion_completionFields h]

theorem foldlM_parseRecord_invocations (invocations : List Invocation) (history : History) :
    (invocations.map fun invocation => recordLine ['i'] (invocationFields invocation)).foldlM
        parseRecord history
      = .ok { history with invocations := history.invocations ++ invocations } := by
  induction invocations generalizing history with
  | nil => simp
  | cons invocation invocations ih =>
    rw [map_cons, foldlM_cons, parseRecord_invocation, ok_bind, ih]
    simp

theorem foldlM_parseRecord_completions {completions : List Completion}
    (h : ∀ completion ∈ completions, completion.Representable) (history : History) :
    (completions.map fun completion => recordLine ['c'] (completionFields completion)).foldlM
        parseRecord history
      = .ok { history with completions := history.completions ++ completions } := by
  induction completions generalizing history with
  | nil => simp
  | cons completion completions ih =>
    obtain ⟨hfits, h⟩ := forall_mem_cons.mp h
    rw [map_cons, foldlM_cons, parseRecord_completion hfits, ok_bind, ih h]
    simp

/-! ## The round trip -/

/-- The text of a history, in the order of its records. -/
def History.text (history : History) : Text :=
  replayHeader ++ history.invocations.flatMap invocationText
    ++ history.completions.flatMap completionText

theorem lines_text (history : History) :
    history.text.linesEndedBy '\n' = replayHeader.dropLast
        :: (history.invocations.map fun invocation =>
          recordLine ['i'] (invocationFields invocation))
        ++ history.completions.map fun completion =>
          recordLine ['c'] (completionFields completion) := by
  have hheader : replayHeader = replayHeader.dropLast ++ ['\n'] := by decide
  have hcompletions := linesEndedBy_flatMap history.completions
    (fun completion _ => completionText_eq completion)
    (fun completion _ => newline_notMem_recordLine word_completionLetter
      (word_completionFields completion)) []
  have hinvocations := linesEndedBy_flatMap history.invocations
    (fun invocation _ => invocationText_eq invocation)
    (fun invocation _ => newline_notMem_recordLine word_invocationLetter
      (word_invocationFields invocation)) (history.completions.flatMap completionText)
  rw [append_nil] at hcompletions
  rw [History.text, append_assoc, hheader, append_assoc, singleton_append,
    linesEndedBy_append_cons (by decide), hinvocations, hcompletions]
  simp

/-- The revisions of the results of a history are values of their type. -/
def History.Representable (history : History) : Prop :=
  ∀ completion ∈ history.completions, ∀ result ∈ completion.result, result.revision ≤ i64Max

theorem fits_of_validateResult (h : validateResult result = .ok ())
    (hmax : result.revision ≤ i64Max) : result.Representable := by
  simp only [validateResult, throw_eq_error, error_bind, ite_error_eq_ok] at h
  refine ⟨Int.not_lt.mp h.1, hmax, fun value revision hresult => ?_⟩
  obtain ⟨-, h⟩ := h
  subst hresult
  simp only [ite_error_eq_ok] at h
  have hmax : revision ≤ i64Max := hmax
  omega

theorem fits_of_validateOutcome {operation : Operation}
    (h : validateOutcome operation completion = .ok ())
    (hmax : ∀ result ∈ completion.result, result.revision ≤ i64Max) : completion.Representable := by
  unfold validateOutcome at h
  constructor
  · intro hkind
    rw [if_pos hkind] at h
    cases hresult : completion.result with
    | none => rw [hresult] at h; cases h
    | some result =>
      rw [hresult] at h
      simp only [throw_eq_error, ite_error_eq_ok] at h
      exact ⟨result, rfl, fits_of_validateResult h.2 (hmax result hresult)⟩
  · intro hkind
    rw [if_neg hkind] at h
    simp only [throw_eq_error, ite_error_eq_ok] at h
    simpa using h.1

theorem History.WellFormed.completion_fits (h : history.WellFormed)
    (hfits : history.Representable) :
    ∀ completion ∈ history.completions, completion.Representable := by
  intro completion hmem
  obtain ⟨invocation, -, hanswers⟩ := h.answers completion hmem
  exact fits_of_validateOutcome hanswers.outcome (hfits completion hmem)

theorem History.Representable.of_sameRecords {other : History} (h : history.Representable)
    (hsame : history.SameRecords other) : other.Representable :=
  fun completion hmem => h completion (hsame.completions.mem_iff.mpr hmem)

variable (h : history.WellFormed)
include h

/-- The text of a history is read as that history. -/
theorem History.WellFormed.parse_text (hfits : history.Representable) :
    parse history.text = .ok history := by
  have hheader : ¬ replayHeader.dropLast ++ ['\n'] ≠ replayHeader := by decide
  have hrecords := foldlM_parseRecord_completions (h.completion_fits hfits)
    { history with completions := [] }
  simp only [parse, lines_text, cons_append, if_neg hheader, foldlM_append,
    foldlM_parseRecord_invocations, ok_bind, nil_append, hrecords, validate_eq_ok.mpr h]
  rfl

theorem History.WellFormed.serialize_eq :
    serialize history = .ok history.sorted.text := by
  rw [serialize, validate_eq_ok.mpr h, ok_bind]
  rfl

theorem History.WellFormed.sorted_sorted :
    history.sorted.sorted = history.sorted :=
  h.sorted_eq_iff.mpr history.sameRecords_sorted

theorem History.WellFormed.parse_sorted_text (hfits : history.Representable) :
    parse history.sorted.text = .ok history.sorted :=
  h.sorted.parse_text (hfits.of_sameRecords history.sameRecords_sorted.symm)

end

/-- The text of a history can be read back. The history that `parse` reads has the records in the
order of their operation IDs, and its text is the same; another history has that text exactly if it
has the same records. -/
theorem replay_round_trip (history : History) (hvalid : validate history = .ok ())
    (hfits : history.Representable) :
    (serialize history >>= parse) = .ok history.sorted
      ∧ (serialize history >>= parse >>= serialize) = serialize history
      ∧ ∀ other : History, validate other = .ok () → other.Representable →
        (serialize other = serialize history ↔ other.SameRecords history) := by
  have h := validate_eq_ok.mp hvalid
  have hparse := h.parse_sorted_text hfits
  have hserialize := h.sorted.serialize_eq
  rw [h.sorted_sorted] at hserialize
  rw [h.serialize_eq, ok_bind, hparse, ok_bind, hserialize]
  refine ⟨rfl, rfl, fun other hvalid' hfits' => ?_⟩
  have h' := validate_eq_ok.mp hvalid'
  rw [h'.serialize_eq, ← h.sorted_eq_iff]
  constructor
  · intro htext
    have hparse' := h'.parse_sorted_text hfits'
    rw [Except.ok.inj htext, hparse] at hparse'
    exact (Except.ok.inj hparse').symm
  · intro hsorted
    rw [hsorted]

/-- A compare-and-swap from an absent value to an empty one, and a read of the empty value, with
the records in another order. -/
def emptyValues : History where
  invocations := [⟨2, 2, 3, .get [0]⟩, ⟨1, 1, 1, .compareAndSwap [0] none (some [])⟩]
  completions := [⟨2, 4, .succeeded, some (.get (some ⟨[], 1⟩) i64Max)⟩,
    ⟨1, 2, .succeeded, some (.compareAndSwap true 1)⟩]

theorem replay_round_trip_emptyValues :
    validate emptyValues = .ok ()
      ∧ (serialize emptyValues >>= parse) = .ok ⟨emptyValues.invocations.reverse,
        emptyValues.completions.reverse⟩ := by
  have hvalid : validate emptyValues = .ok () := by decide +kernel
  have hfits : emptyValues.Representable := by
    simp only [History.Representable, emptyValues, forall_mem_cons, Option.mem_some_iff,
      forall_eq', Result.revision]
    decide
  exact ⟨hvalid, (replay_round_trip emptyValues hvalid hfits).1⟩

end KuraMetadata.Linearizability
