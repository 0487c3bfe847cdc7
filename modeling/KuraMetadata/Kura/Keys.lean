import KuraMetadata.Store.KeyRanges
import KuraMetadata.Library.Fields
import KuraMetadata.Library.Guarded

/-! # Keys of the Kura tables

A table's keys lie below a path that is built from two identifiers, the catalog's and the
table's. Identifiers are free of slashes, so the paths of two tables have no key in common, and
the keys of one table are told apart by what follows the path. -/

namespace KuraMetadata.Kura

open List Except

open LittleEndian (bytes readLe)

variable {root tableId value : ByteSequence} {catalogId : Identifier}

/-- What a client's calls throw: the exceptions the store throws too, `std::length_error` and
`KuraClientError`. -/
inductive ClientException where
  | standard (exception : StoreException)
  | lengthError (what : String)
  | kuraClientError (code : StatusCode) (message : String)
  deriving DecidableEq, Repr

/-- The bytes of a literal. -/
def ascii (text : List Char) : ByteSequence := text.map Char.toUInt8

def slash : UInt8 := '/'.toUInt8

/-! ## Identifiers -/

/-- The characters `validate_identifier` accepts. -/
def identifierByte (character : UInt8) : Bool :=
  ('a'.toUInt8 ≤ character && character ≤ 'z'.toUInt8)
    || ('A'.toUInt8 ≤ character && character ≤ 'Z'.toUInt8)
    || ('0'.toUInt8 ≤ character && character ≤ '9'.toUInt8)
    || character = '-'.toUInt8 || character = '_'.toUInt8 || character = '.'.toUInt8

def validateIdentifier (value : ByteSequence) (kind : String) : Except ClientException Unit :=
  if value.isEmpty || !value.all identifierByte then
    throw (.standard (.invalidArgument (kind ++ " must use [A-Za-z0-9._-]")))
  else pure ()

/-- What passes `validate_identifier`. -/
def IsIdentifier (value : ByteSequence) : Prop :=
  value ≠ [] ∧ ∀ character ∈ value, identifierByte character = true

instance : DecidablePred IsIdentifier := fun _ => inferInstanceAs (Decidable (_ ∧ _))

/-- The catalog id a client was constructed with. -/
abbrev Identifier := { value : ByteSequence // IsIdentifier value }

theorem validateIdentifier_eq_ok {kind : String} {u : Unit} :
    validateIdentifier value kind = .ok u ↔ IsIdentifier value := by
  simp only [validateIdentifier, throw_eq_error, ite_error_eq_ok, pure_eq_ok,
    Bool.or_eq_true, List.isEmpty_iff, Bool.not_eq_true', all_eq_false, not_or, not_exists,
    not_and, not_not, and_true, IsIdentifier, ne_eq]

theorem slash_not_identifierByte : identifierByte slash = false := by decide

theorem IsIdentifier.slash_notMem (h : IsIdentifier value) : slash ∉ value := by
  intro hmem
  have := h.2 slash hmem
  rw [slash_not_identifierByte] at this
  cases this

/-! ## The keys -/

/-- Where the paths of all tables begin. -/
def catalogsRoot : ByteSequence :=
  ascii ['/', 'k', 'u', 'r', 'a', '/', 'v', '1', '/', 'c', 'a', 't', 'a', 'l', 'o', 'g', 's', '/']

/-- The path of a table, `table_prefix` for a table id it accepts. -/
def tableRoot (catalogId tableId : ByteSequence) : ByteSequence :=
  catalogsRoot
    ++ (catalogId ++ (ascii ['/', 't', 'a', 'b', 'l', 'e', 's', '/'] ++ (tableId ++ [slash])))

def tablePrefix (catalogId : Identifier) (tableId : ByteSequence) :
    Except ClientException ByteSequence := do
  validateIdentifier tableId "table ID"
  return tableRoot catalogId tableId

def currentName : ByteSequence := ascii ['c', 'u', 'r', 'r', 'e', 'n', 't']
def writerName : ByteSequence := ascii ['w', 'r', 'i', 't', 'e', 'r']
def snapshotsName : ByteSequence := ascii ['s', 'n', 'a', 'p', 's', 'h', 'o', 't', 's', '/']
def readersName : ByteSequence := ascii ['r', 'e', 'a', 'd', 'e', 'r', 's', '/']

/-- The key of the pointer to the table's current snapshot. -/
def currentKey (root : ByteSequence) : ByteSequence := root ++ currentName

/-- The key that the writer of the table holds. -/
def writerKey (root : ByteSequence) : ByteSequence := root ++ writerName

def snapshotKey (root snapshotId : ByteSequence) : ByteSequence :=
  root ++ (snapshotsName ++ snapshotId)

/-- The start of the keys of all readers. -/
def readersRoot (root : ByteSequence) : ByteSequence := root ++ readersName

def readerKey (root readerId : ByteSequence) : ByteSequence := readersRoot root ++ readerId

def exactKeyEnd (key : ByteSequence) : ByteSequence := key ++ [0]

/-! ## Tables do not meet -/

theorem tablePrefix_eq_ok :
    tablePrefix catalogId tableId = .ok root
      ↔ IsIdentifier tableId ∧ tableRoot catalogId tableId = root := by
  simp only [tablePrefix, bind_eq_ok, validateIdentifier_eq_ok, pure_eq_ok,
    exists_const]

/-- The path of some table, for accepted identifiers. -/
def IsTableRoot (root : ByteSequence) : Prop :=
  ∃ catalogId tableId, IsIdentifier catalogId ∧ IsIdentifier tableId
    ∧ root = tableRoot catalogId tableId

theorem isTableRoot_of_tablePrefix
    (h : tablePrefix catalogId tableId = .ok root) : IsTableRoot root := by
  obtain ⟨htable, rfl⟩ := tablePrefix_eq_ok.mp h
  exact ⟨catalogId, tableId, catalogId.2, htable, rfl⟩

/-- A key determines the identifiers of the table it lies in. -/
theorem tableRoot_append_inj {catalogId catalogId' tableId' rest rest' : ByteSequence}
    (hcatalog : IsIdentifier catalogId) (htable : IsIdentifier tableId)
    (hcatalog' : IsIdentifier catalogId') (htable' : IsIdentifier tableId')
    (h : tableRoot catalogId tableId ++ rest = tableRoot catalogId' tableId' ++ rest') :
    catalogId = catalogId' ∧ tableId = tableId' ∧ rest = rest' := by
  have hshape : ∀ catalogId tableId rest : ByteSequence, tableRoot catalogId tableId ++ rest
        = catalogsRoot ++ (catalogId ++ slash :: (ascii ['t', 'a', 'b', 'l', 'e', 's', '/']
            ++ (tableId ++ slash :: rest))) := by
    intro catalogId tableId rest
    simp only [tableRoot, append_assoc, singleton_append]
    rfl
  rw [hshape, hshape, append_cancel_left_eq] at h
  obtain ⟨hcatalogs, h⟩ := append_cons_inj hcatalog.slash_notMem hcatalog'.slash_notMem h
  rw [append_cancel_left_eq] at h
  obtain ⟨htables, hrests⟩ := append_cons_inj htable.slash_notMem htable'.slash_notMem h
  exact ⟨hcatalogs, htables, hrests⟩

theorem IsTableRoot.eq_of_isPrefix {root' key : ByteSequence} (h : IsTableRoot root)
    (h' : IsTableRoot root') (hkey : root <+: key) (hkey' : root' <+: key) : root = root' := by
  obtain ⟨catalogId, tableId, hcatalog, htable, rfl⟩ := h
  obtain ⟨catalogId', tableId', hcatalog', htable', rfl⟩ := h'
  obtain ⟨rest, rfl⟩ := hkey
  obtain ⟨rest', hrest⟩ := hkey'
  obtain ⟨rfl, rfl, -⟩ := tableRoot_append_inj hcatalog' htable' hcatalog htable hrest
  rfl

/-! ## The keys of one table -/

section

variable (root id id' : ByteSequence)

theorem isPrefix_currentKey : root <+: currentKey root := prefix_append _ _

theorem isPrefix_writerKey : root <+: writerKey root := prefix_append _ _

theorem isPrefix_snapshotKey : root <+: snapshotKey root id := prefix_append _ _

theorem isPrefix_readerKey : root <+: readerKey root id :=
  (prefix_append _ _).trans (prefix_append _ _)

@[simp]
theorem snapshotKey_inj : snapshotKey root id = snapshotKey root id' ↔ id = id' := by
  simp only [snapshotKey, append_cancel_left_eq]

@[simp]
theorem readerKey_inj : readerKey root id = readerKey root id' ↔ id = id' := by
  simp only [readerKey, append_cancel_left_eq]

@[simp]
theorem currentKey_ne_writerKey : currentKey root ≠ writerKey root := by
  simp only [currentKey, writerKey, ne_eq, append_cancel_left_eq]
  decide

@[simp]
theorem currentKey_ne_snapshotKey : currentKey root ≠ snapshotKey root id := by
  simp only [currentKey, snapshotKey, ne_eq, append_cancel_left_eq]
  exact fun h => absurd (List.cons.inj h).1 (by decide)

@[simp]
theorem currentKey_ne_readerKey : currentKey root ≠ readerKey root id := by
  simp only [currentKey, readerKey, readersRoot, ne_eq, append_assoc,
    append_cancel_left_eq]
  exact fun h => absurd (List.cons.inj h).1 (by decide)

@[simp]
theorem writerKey_ne_snapshotKey : writerKey root ≠ snapshotKey root id := by
  simp only [writerKey, snapshotKey, ne_eq, append_cancel_left_eq]
  exact fun h => absurd (List.cons.inj h).1 (by decide)

@[simp]
theorem writerKey_ne_readerKey : writerKey root ≠ readerKey root id := by
  simp only [writerKey, readerKey, readersRoot, ne_eq, append_assoc,
    append_cancel_left_eq]
  exact fun h => absurd (List.cons.inj h).1 (by decide)

@[simp]
theorem snapshotKey_ne_readerKey : snapshotKey root id ≠ readerKey root id' := by
  simp only [snapshotKey, readerKey, readersRoot, ne_eq, append_assoc,
    append_cancel_left_eq]
  exact fun h => absurd (List.cons.inj h).1 (by decide)

end

/-! ## Snapshot pointers

A pointer is stored as the marker `KSP1` and four fields, each after its length in four
bytes. The decoder accepts exactly these byte strings, and reads nothing outside of its input. -/

variable {value encoded : ByteSequence}

structure SnapshotPointer where
  snapshotId : ByteSequence
  manifestUri : ByteSequence
  schemaId : ByteSequence
  integrityHash : ByteSequence
  deriving DecidableEq, Repr

def pointerMagic : ByteSequence := ascii ['K', 'S', 'P', '1']

def u32Max : Nat := 4294967295

/-! ## Encoding -/

/-- `append_field`, with `append_u32` for the length. -/
def appendField (output value : ByteSequence) : Except ClientException ByteSequence :=
  if u32Max < value.length then throw (.lengthError "snapshot pointer field is too large")
  else pure (output ++ (bytes 4 value.length ++ value))

def encodePointer (pointer : SnapshotPointer) : Except ClientException ByteSequence := do
  validateIdentifier pointer.snapshotId "snapshot ID"
  validateIdentifier pointer.schemaId "schema ID"
  if pointer.manifestUri.isEmpty then
    throw (.standard (.invalidArgument "manifest URI must not be empty"))
  if pointer.integrityHash.isEmpty then
    throw (.standard (.invalidArgument "integrity hash must not be empty"))
  let encoded ← appendField pointerMagic pointer.snapshotId
  let encoded ← appendField encoded pointer.manifestUri
  let encoded ← appendField encoded pointer.schemaId
  appendField encoded pointer.integrityHash

/-! ## Decoding -/

/-- `read_u32`: the value and the offset after it. -/
def readU32 (input : ByteSequence) (offset : Nat) : Except ClientException (Nat × Nat) :=
  if input.length - min input.length offset < 4 then
    throw (.kuraClientError .corruption "truncated snapshot pointer length")
  else pure (readLe 4 input offset, offset + 4)

/-- `read_field`: the field and the offset after it. -/
def readField (input : ByteSequence) (offset : Nat) :
    Except ClientException (ByteSequence × Nat) := do
  let (size, offset) ← readU32 input offset
  if input.length - min input.length offset < size then
    throw (.kuraClientError .corruption "truncated snapshot pointer field")
  return ((input.drop offset).take size, offset + size)

def decodePointer (input : ByteSequence) : Except ClientException SnapshotPointer := do
  if input.length < pointerMagic.length || input.take pointerMagic.length ≠ pointerMagic then
    throw (.kuraClientError .corruption "snapshot pointer has an invalid format marker")
  let (snapshotId, offset) ← readField input pointerMagic.length
  let (manifestUri, offset) ← readField input offset
  let (schemaId, offset) ← readField input offset
  let (integrityHash, offset) ← readField input offset
  if offset ≠ input.length then
    throw (.kuraClientError .corruption "snapshot pointer has trailing bytes")
  return { snapshotId, manifestUri, schemaId, integrityHash }

/-! ## Round trip -/

theorem appendField_eq_ok {output result : ByteSequence} :
    appendField output value = .ok result
      ↔ value.length ≤ u32Max ∧ output ++ (bytes 4 value.length ++ value) = result := by
  simp only [appendField, throw_eq_error, ite_error_eq_ok, pure_eq_ok,
    Nat.not_lt]

variable {pointer : SnapshotPointer}

/-- What the encoder accepts, and the bytes it writes. -/
theorem encodePointer_eq_ok :
    encodePointer pointer = .ok encoded
      ↔ IsIdentifier pointer.snapshotId ∧ IsIdentifier pointer.schemaId
        ∧ pointer.manifestUri ≠ [] ∧ pointer.integrityHash ≠ []
        ∧ pointer.snapshotId.length ≤ u32Max ∧ pointer.manifestUri.length ≤ u32Max
        ∧ pointer.schemaId.length ≤ u32Max ∧ pointer.integrityHash.length ≤ u32Max
        ∧ encoded = pointerMagic ++ ((bytes 4 pointer.snapshotId.length ++ pointer.snapshotId)
            ++ ((bytes 4 pointer.manifestUri.length ++ pointer.manifestUri)
            ++ ((bytes 4 pointer.schemaId.length ++ pointer.schemaId)
            ++ ((bytes 4 pointer.integrityHash.length ++ pointer.integrityHash) ++ [])))) := by
  simp only [encodePointer, bind_eq_ok, validateIdentifier_eq_ok, throw_eq_error,
    error_bind, ite_error_eq_ok, appendField_eq_ok, List.isEmpty_iff, exists_const,
    append_nil, append_assoc, ne_eq]
  constructor
  · rintro ⟨hid, hschema, huri, hhash, _, ⟨h₁, rfl⟩, _, ⟨h₂, rfl⟩, _, ⟨h₃, rfl⟩, h₄, rfl⟩
    exact ⟨hid, hschema, huri, hhash, h₁, h₂, h₃, h₄, by simp only [append_assoc]⟩
  · rintro ⟨hid, hschema, huri, hhash, h₁, h₂, h₃, h₄, rfl⟩
    exact ⟨hid, hschema, huri, hhash, _, ⟨h₁, rfl⟩, _, ⟨h₂, rfl⟩, _, ⟨h₃, rfl⟩, h₄,
      by simp only [append_assoc]⟩

/-- Where a field stands in the input, it is read and the offset moves to what follows it. -/
theorem readField_of_drop {input after : ByteSequence} {offset : Nat}
    (h : value.length ≤ u32Max) (hoffset : offset ≤ input.length)
    (hdrop : input.drop offset = (bytes 4 value.length ++ value) ++ after) :
    ∃ offset', readField input offset = .ok (value, offset') ∧ offset' ≤ input.length
      ∧ input.drop offset' = after := by
  have hlength : input.length - offset = 4 + value.length + after.length := by
    rw [← length_drop, hdrop]
    simp only [length_append, LittleEndian.length_bytes]
  have hsize : readLe 4 input offset = value.length := by
    have hfits : value.length < 256 ^ 4 := by
      have : u32Max < 256 ^ 4 := by decide
      omega
    rw [readLe, hdrop, append_assoc, take_append_of_le_length (by simp),
      take_of_length_le (by simp), LittleEndian.value_bytes hfits]
  have hrest : input.drop (offset + 4) = value ++ after := by
    rw [← drop_drop, hdrop, append_assoc, drop_append_of_le_length (by simp),
      drop_of_length_le (by simp), nil_append]
  refine ⟨offset + 4 + value.length, ?_, by omega, ?_⟩
  · have hread : readU32 input offset = .ok (value.length, offset + 4) := by
      rw [readU32, if_neg (by omega), hsize]
      rfl
    simp only [readField, hread, ok_bind]
    rw [if_neg (by omega), hrest, take_left]
    rfl
  · rw [← drop_drop, hrest, drop_left]

/-- The marker and the four fields, each after its length. -/
def pointerBytes (pointer : SnapshotPointer) : ByteSequence :=
  pointerMagic ++ ((bytes 4 pointer.snapshotId.length ++ pointer.snapshotId)
    ++ ((bytes 4 pointer.manifestUri.length ++ pointer.manifestUri)
    ++ ((bytes 4 pointer.schemaId.length ++ pointer.schemaId)
    ++ ((bytes 4 pointer.integrityHash.length ++ pointer.integrityHash) ++ []))))

/-- The lengths of the fields fit four bytes. -/
structure SnapshotPointer.Fits (pointer : SnapshotPointer) : Prop where
  snapshotId : pointer.snapshotId.length ≤ u32Max
  manifestUri : pointer.manifestUri.length ≤ u32Max
  schemaId : pointer.schemaId.length ≤ u32Max
  integrityHash : pointer.integrityHash.length ≤ u32Max

theorem decodePointer_pointerBytes (h : pointer.Fits) :
    decodePointer (pointerBytes pointer) = .ok pointer := by
  generalize hencoded : pointerBytes pointer = encoded
  have hlength : pointerMagic.length ≤ encoded.length := by
    rw [← hencoded, pointerBytes, length_append]
    omega
  have hmagic : encoded.take pointerMagic.length = pointerMagic := by
    rw [← hencoded, pointerBytes, take_left]
  obtain ⟨offset₁, hread₁, hle₁, hdrop₁⟩ := readField_of_drop h.snapshotId hlength
    (by rw [← hencoded, pointerBytes, drop_left])
  obtain ⟨offset₂, hread₂, hle₂, hdrop₂⟩ := readField_of_drop h.manifestUri hle₁ hdrop₁
  obtain ⟨offset₃, hread₃, hle₃, hdrop₃⟩ := readField_of_drop h.schemaId hle₂ hdrop₂
  obtain ⟨offset₄, hread₄, hle₄, hdrop₄⟩ := readField_of_drop h.integrityHash hle₃ hdrop₃
  have hend : offset₄ = encoded.length := by
    have := List.drop_eq_nil_iff.mp hdrop₄
    omega
  simp only [decodePointer, hread₁, hread₂, hread₃, hread₄, ok_bind, hmagic, hend]
  simp [hlength]

theorem decodePointer_encoded
    (h : encodePointer pointer = .ok encoded) : decodePointer encoded = .ok pointer := by
  obtain ⟨-, -, -, -, h₁, h₂, h₃, h₄, rfl⟩ := encodePointer_eq_ok.mp h
  exact decodePointer_pointerBytes ⟨h₁, h₂, h₃, h₄⟩

theorem encodePointer_ne_nil (h : encodePointer pointer = .ok encoded) : encoded ≠ [] := by
  obtain ⟨-, -, -, -, -, -, -, -, rfl⟩ := encodePointer_eq_ok.mp h
  exact append_ne_nil_of_left_ne_nil (by decide) _

theorem encodePointer_inj {pointer' : SnapshotPointer}
    (h : encodePointer pointer = .ok encoded) (h' : encodePointer pointer' = .ok encoded) :
    pointer = pointer' := by
  have hdecoded := decodePointer_encoded h
  rw [decodePointer_encoded h'] at hdecoded
  exact (Except.ok.inj hdecoded).symm

/-! ## What the decoder accepts -/

def IsCorruption (e : ClientException) : Prop := ∃ message, e = .kuraClientError .corruption message

theorem readU32_ensures (input : ByteSequence) (offset : Nat) :
    (readU32 input offset).Ensures IsCorruption fun read =>
      offset + 4 ≤ input.length ∧ read = (readLe 4 input offset, offset + 4) :=
  ensures_ite_error (fun _ => ⟨_, rfl⟩) fun h => ⟨by omega, rfl⟩

/-- A field that is read stands in the input, after its length. -/
theorem readField_ensures (input : ByteSequence) (offset : Nat) :
    (readField input offset).Ensures IsCorruption fun read =>
      read.1.length ≤ u32Max ∧ read.2 ≤ input.length
        ∧ input.drop offset = (bytes 4 read.1.length ++ read.1) ++ input.drop read.2 := by
  refine (readU32_ensures input offset).bind ?_
  rintro _ ⟨hle, rfl⟩
  refine ensures_ite_error (fun _ => ⟨_, rfl⟩) fun hsize => ?_
  have hlength : ((input.drop (offset + 4)).take (readLe 4 input offset)).length
      = readLe 4 input offset := by
    rw [List.length_take, length_drop]
    omega
  refine Except.ensures_pure.mpr ⟨?_, ?_, ?_⟩
  · rw [hlength]
    exact Nat.le_of_lt_succ (LittleEndian.readLe_lt 4 input offset)
  · show offset + 4 + readLe 4 input offset ≤ input.length
    omega
  · dsimp only
    rw [hlength, append_assoc, ← drop_drop (i := readLe 4 input offset),
      take_append_drop]
    exact LittleEndian.drop_eq_append hle

/-- The decoder returns a pointer for its bytes, and reports corruption for all others. -/
theorem decodePointer_ensures (input : ByteSequence) :
    (decodePointer input).Ensures IsCorruption fun pointer =>
      pointer.Fits ∧ input = pointerBytes pointer := by
  refine ensures_ite_error (fun _ => ⟨_, rfl⟩) fun hmagic => ?_
  have htake : input.take pointerMagic.length = pointerMagic := by
    by_contra hne
    exact hmagic (by simp [hne])
  refine (readField_ensures input _).bind fun field₁ h₁ => ?_
  refine (readField_ensures input _).bind fun field₂ h₂ => ?_
  refine (readField_ensures input _).bind fun field₃ h₃ => ?_
  refine (readField_ensures input _).bind fun field₄ h₄ => ?_
  refine ensures_ite_error (fun _ => ⟨_, rfl⟩) fun hend => ?_
  refine Except.ensures_pure.mpr ⟨⟨h₁.1, h₂.1, h₃.1, h₄.1⟩, ?_⟩
  have hrest : input.drop field₄.2 = [] := List.drop_eq_nil_iff.mpr (by omega)
  rw [pointerBytes, ← hrest, ← h₄.2.2, ← h₃.2.2, ← h₂.2.2, ← h₁.2.2]
  exact (take_append_drop pointerMagic.length input).symm.trans (by rw [htake])

/-! ## The bounds of the reads -/

def guardedReadU32 (input : ByteSequence) (offset : Nat) :
    Except (Option ClientException) (Nat × Nat) :=
  if input.length - min input.length offset < 4 then
    throw (some (.kuraClientError .corruption "truncated snapshot pointer length"))
  else do
    let size ← Guarded.field 4 input offset
    return (size, offset + 4)

def guardedReadField (input : ByteSequence) (offset : Nat) :
    Except (Option ClientException) (ByteSequence × Nat) := do
  let read ← guardedReadU32 input offset
  if input.length - min input.length read.2 < read.1 then
    throw (some (.kuraClientError .corruption "truncated snapshot pointer field"))
  let value ← Guarded.span input read.2 read.1
  return (value, read.2 + read.1)

/-- `decode_pointer`, with the bounds its reads rely on. -/
def guardedDecodePointer (input : ByteSequence) :
    Except (Option ClientException) SnapshotPointer := do
  if input.length < pointerMagic.length || input.take pointerMagic.length ≠ pointerMagic then
    throw (some (.kuraClientError .corruption "snapshot pointer has an invalid format marker"))
  let snapshotId ← guardedReadField input pointerMagic.length
  let manifestUri ← guardedReadField input snapshotId.2
  let schemaId ← guardedReadField input manifestUri.2
  let integrityHash ← guardedReadField input schemaId.2
  if integrityHash.2 ≠ input.length then
    throw (some (.kuraClientError .corruption "snapshot pointer has trailing bytes"))
  return { snapshotId := snapshotId.1, manifestUri := manifestUri.1, schemaId := schemaId.1,
           integrityHash := integrityHash.1 }

theorem guardedReadField_eq (input : ByteSequence) (offset : Nat) :
    guardedReadField input offset = (readField input offset).mapError some := by
  have hread : guardedReadU32 input offset = (readU32 input offset).mapError some := by
    refine Guarded.ite_error fun h => ?_
    rw [Guarded.field_bind (by omega)]
    rfl
  refine Guarded.bind (readU32_ensures input offset) hread ?_
  rintro _ ⟨hle, rfl⟩
  refine Guarded.ite_error fun hsize => ?_
  rw [Guarded.span_bind (by omega)]
  rfl

theorem guardedDecodePointer_eq (input : ByteSequence) :
    guardedDecodePointer input = (decodePointer input).mapError some := by
  refine Guarded.ite_error fun _ => ?_
  refine Guarded.bind (readField_ensures input _) (guardedReadField_eq input _) fun _ _ => ?_
  refine Guarded.bind (readField_ensures input _) (guardedReadField_eq input _) fun _ _ => ?_
  refine Guarded.bind (readField_ensures input _) (guardedReadField_eq input _) fun _ _ => ?_
  refine Guarded.bind (readField_ensures input _) (guardedReadField_eq input _) fun _ _ => ?_
  exact Guarded.ite_error fun _ => rfl

/-- Pointers and their encodings determine each other. Every other byte string is reported as
corrupt, and no read leaves the input. -/
theorem pointer_codec_exact :
    (∀ pointer encoded, encodePointer pointer = .ok encoded → decodePointer encoded = .ok pointer)
      ∧ (∀ pointer pointer' encoded, encodePointer pointer = .ok encoded →
        encodePointer pointer' = .ok encoded → pointer = pointer')
      ∧ (∀ input pointer, decodePointer input = .ok pointer ↔
        pointer.Fits ∧ pointerBytes pointer = input)
      ∧ (∀ input, (¬ ∃ pointer : SnapshotPointer, pointer.Fits ∧ pointerBytes pointer = input) →
        ∃ message, decodePointer input = .error (.kuraClientError .corruption message))
      ∧ ∀ input, guardedDecodePointer input = (decodePointer input).mapError some := by
  refine ⟨fun _ _ => decodePointer_encoded, fun _ _ _ => encodePointer_inj,
    fun input pointer => ⟨fun h => ?_, ?_⟩, fun input hother => ?_, guardedDecodePointer_eq⟩
  · have hensures := decodePointer_ensures input
    rw [h] at hensures
    exact ⟨hensures.1, hensures.2.symm⟩
  · rintro ⟨hfits, rfl⟩
    exact decodePointer_pointerBytes hfits
  · obtain ⟨e, he, message, rfl⟩ | ⟨pointer, -, hfits, hinput⟩ :=
      (decodePointer_ensures input).cases
    · exact ⟨message, he⟩
    · exact absurd ⟨pointer, hfits, hinput.symm⟩ hother

/-- A pointer with fields of one byte, and its encoding without the last byte. -/
theorem pointer_codec_exact_short :
    decodePointer (pointerBytes ⟨[1], [2], [3], [4]⟩) = .ok ⟨[1], [2], [3], [4]⟩
      ∧ guardedDecodePointer (pointerBytes ⟨[1], [2], [3], [4]⟩).dropLast
        = .error (some (.kuraClientError .corruption "truncated snapshot pointer field")) := by
  obtain ⟨-, -, haccepts, -, hguarded⟩ := pointer_codec_exact
  refine ⟨(haccepts _ _).mpr ⟨⟨by decide, by decide, by decide, by decide⟩, rfl⟩, ?_⟩
  rw [hguarded]
  rfl

end KuraMetadata.Kura
