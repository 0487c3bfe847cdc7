import KuraMetadata.Linearizability.Checker
import KuraMetadata.Library.OrderedMap
import KuraMetadata.Library.Fields

/-! # State keys

The search remembers dead states by a text. Numbers and byte sequences are written without the
characters that separate them, so the text determines the operations left and the state. -/

namespace KuraMetadata.Linearizability

open List

variable {n : Nat} {c : Char} {value : ByteSequence}

/-! ## Fields of a text -/

/-- The characters of numbers and byte sequences. -/
def Plain (c : Char) : Prop := c.isDigit = true ∨ c ∈ ['a', 'b', 'c', 'd', 'e', 'f', '-']

instance : DecidablePred Plain := fun _ => inferInstanceAs (Decidable (_ ∨ _))

theorem decimal_injective {m : Nat} (h : decimal m = decimal n) : m = n := by
  have hread := congrArg (Nat.ofDigitChars 10 · 0) h
  simpa only [decimal, Nat.ofDigitChars_ten_toDigits] using hread

theorem isDigit_of_mem_decimal (h : c ∈ decimal n) : c.isDigit = true :=
  Nat.isDigit_of_mem_toDigits (by decide) (by decide) h

theorem signedDecimal_injective {m n : Int} (h : signedDecimal m = signedDecimal n) : m = n := by
  have hsign : ∀ {k : Nat} {l : Text}, decimal k ≠ '-' :: l := fun hk =>
    absurd (isDigit_of_mem_decimal (c := '-') (by rw [hk]; exact mem_cons_self)) (by decide)
  cases m with
  | ofNat m =>
    cases n with
    | ofNat n => exact congrArg Int.ofNat (decimal_injective h)
    | negSucc n => exact absurd h hsign
  | negSucc m =>
    cases n with
    | ofNat n => exact absurd h.symm hsign
    | negSucc n =>
      have hdigits := decimal_injective (List.cons.inj h).2
      rw [Nat.succ_injective hdigits]

theorem plain_of_mem_signedDecimal {n : Int} (h : c ∈ signedDecimal n) : Plain c := by
  cases n with
  | ofNat n => exact .inl (isDigit_of_mem_decimal h)
  | negSucc n =>
    rcases mem_cons.mp h with rfl | h
    · exact .inr (by decide)
    · exact .inl (isDigit_of_mem_decimal h)

/-! ## Byte sequences -/

theorem digitChar_injective {m : Nat} (hm : m < 16) (hn : n < 16)
    (h : Nat.digitChar m = Nat.digitChar n) : m = n := by
  have hall : ∀ m < 16, ∀ n < 16, Nat.digitChar m = Nat.digitChar n → m = n := by decide
  exact hall m hm n hn h

theorem digitChar_plain (h : n < 16) : Plain n.digitChar ∧ n.digitChar ≠ '-' := by
  have hall : ∀ n < 16, Plain n.digitChar ∧ n.digitChar ≠ '-' := by decide
  exact hall n h

theorem mem_hexByte {byte : UInt8} (h : c ∈ hexByte byte) : Plain c ∧ c ≠ '-' := by
  have hbyte := byte.toNat_lt
  rcases mem_cons.mp h with rfl | h
  · exact digitChar_plain (by omega)
  · rw [mem_singleton.mp h]
    exact digitChar_plain (by omega)

theorem flatMap_hexByte_injective {value' : ByteSequence}
    (h : value.flatMap hexByte = value'.flatMap hexByte) : value = value' := by
  induction value generalizing value' with
  | nil =>
    cases value' with
    | nil => rfl
    | cons byte value' => cases h
  | cons byte value ih =>
    cases value' with
    | nil => cases h
    | cons byte' value' =>
      have hbyte := byte.toNat_lt
      have hbyte' := byte'.toNat_lt
      simp only [flatMap_cons, hexByte, cons_append, nil_append,
        List.cons.injEq] at h
      obtain ⟨hhigh, hlow, hrest⟩ := h
      have hhigh := digitChar_injective (by omega) (by omega) hhigh
      have hlow := digitChar_injective (by omega) (by omega) hlow
      rw [ih hrest, UInt8.toNat_inj.mp (show byte.toNat = byte'.toNat by omega)]

theorem mem_hex (h : c ∈ hex value) : Plain c := by
  unfold hex at h
  split at h
  · rw [mem_singleton.mp h]
    exact .inr (by decide)
  · obtain ⟨byte, -, h⟩ := mem_flatMap.mp h
    exact (mem_hexByte h).1

theorem hex_injective {value' : ByteSequence} (h : hex value = hex value') : value = value' := by
  have hdash : ∀ value : ByteSequence, value.flatMap hexByte ≠ ['-'] := by
    intro value hvalue
    have hmem : '-' ∈ value.flatMap hexByte := by rw [hvalue]; exact mem_singleton_self _
    obtain ⟨byte, -, hmem⟩ := mem_flatMap.mp hmem
    exact (mem_hexByte hmem).2 rfl
  cases value with
  | nil =>
    cases value' with
    | nil => rfl
    | cons byte' value' => exact absurd h.symm (hdash (byte' :: value'))
  | cons byte value =>
    cases value' with
    | nil => exact absurd h (hdash (byte :: value))
    | cons byte' value' => exact flatMap_hexByte_injective h

/-! ## Keys of states -/

/-- The characters that separate the fields of a state key. -/
def Separator (c : Char) : Prop := c ∈ ['|', '=', '@']

instance : DecidablePred Separator := fun c => inferInstanceAs (Decidable (c ∈ _))

theorem Plain.not_separator (h : Plain c) : ¬ Separator c := by
  intro hc
  have hplain : ['|', '=', '@'].all (fun c => ¬ Plain c) = true := by decide
  exact of_decide_eq_true (all_eq_true.mp hplain c hc) h

theorem separator_cons (h : Separator c) (rest : Text) : ∀ d ∈ (c :: rest).head?, Separator d := by
  intro d hd
  obtain rfl : c = d := by simpa using hd
  exact h

theorem separator_entries (entries : List (ByteSequence × VersionedValue)) :
    ∀ c ∈ (entries.flatMap entryKey).head?, Separator c := by
  cases entries with
  | nil => simp
  | cons entry entries => exact separator_cons (by decide) _

theorem entryKeys_injective {entries entries' : List (ByteSequence × VersionedValue)}
    (h : entries.flatMap entryKey = entries'.flatMap entryKey) : entries = entries' := by
  induction entries generalizing entries' with
  | nil =>
    cases entries' with
    | nil => rfl
    | cons entry' entries' => cases h
  | cons entry entries ih =>
    cases entries' with
    | nil => cases h
    | cons entry' entries' =>
      obtain ⟨key, value, revision⟩ := entry
      obtain ⟨key', value', revision'⟩ := entry'
      simp only [flatMap_cons, entryKey, cons_append, append_assoc,
        List.cons.injEq, true_and] at h
      -- the fields one after the other
      obtain ⟨hkey, h⟩ := append_inj_of_separated (fun c hc => (mem_hex hc).not_separator)
        (fun c hc => (mem_hex hc).not_separator) (separator_cons (by decide) _)
        (separator_cons (by decide) _) h
      obtain ⟨hvalue, h⟩ := append_inj_of_separated (fun c hc => (mem_hex hc).not_separator)
        (fun c hc => (mem_hex hc).not_separator) (separator_cons (by decide) _)
        (separator_cons (by decide) _) (List.cons.inj h).2
      obtain ⟨hrevision, h⟩ := append_inj_of_separated
        (fun c hc => (plain_of_mem_signedDecimal hc).not_separator)
        (fun c hc => (plain_of_mem_signedDecimal hc).not_separator) (separator_entries _)
        (separator_entries _) (List.cons.inj h).2
      rw [hex_injective hkey, hex_injective hvalue, signedDecimal_injective hrevision, ih h]

theorem stateKey_injective {remaining remaining' : Mask} {state state' : ModelState}
    (h : stateKey remaining state = stateKey remaining' state') :
    remaining = remaining' ∧ state = state' := by
  obtain ⟨revision, values⟩ := state
  obtain ⟨revision', values'⟩ := state'
  obtain ⟨hremaining, h⟩ := append_inj_of_separated
    (fun c hc => Plain.not_separator (.inl (isDigit_of_mem_decimal hc)))
    (fun c hc => Plain.not_separator (.inl (isDigit_of_mem_decimal hc)))
    (separator_cons (by decide) _) (separator_cons (by decide) _) h
  obtain ⟨hrevision, h⟩ := append_inj_of_separated
    (fun c hc => (plain_of_mem_signedDecimal hc).not_separator)
    (fun c hc => (plain_of_mem_signedDecimal hc).not_separator) (separator_entries _)
    (separator_entries _) (List.cons.inj h).2
  refine ⟨BitVec.toNat_inj.mp (decimal_injective hremaining), ?_⟩
  obtain rfl : revision = revision' := signedDecimal_injective hrevision
  obtain rfl : values = values' := Std.ExtTreeMap.toList_inj.mp (entryKeys_injective h)
  rfl

end KuraMetadata.Linearizability
