import Mathlib.Data.List.TakeWhile
import KuraMetadata.Store.Restore

/-! # Ranges of keys

The range from a byte string to `prefix_range_end` of it holds exactly the keys that begin with
the string, and the range from a key to the key followed by a zero byte holds that key only. -/

namespace KuraMetadata

open Std List

variable {bytes stop : ByteSequence}

/-- `prefix_range_end`: the loop looks for the last byte that can be incremented. -/
def prefixRangeEnd (bytes : ByteSequence) : Option ByteSequence :=
  match bytes.reverse.dropWhile (· = 255) with
  | [] => none
  | byte :: rest => some (rest.reverse ++ [byte + 1])

/-! ## Lexicographic order -/

theorem compare_cons_cons (a b : UInt8) (x y : ByteSequence) :
    compare (a :: x) (b :: y) = (compare a b).then (compare x y) := by
  simp [List.compare_eq_compareLex]

theorem compare_cons_cons_of_lt {a b : UInt8} (h : a < b) (x y : ByteSequence) :
    compare (a :: x) (b :: y) = .lt := by
  rw [compare_cons_cons, compare_eq_lt.mpr h]
  rfl

theorem compare_cons_cons_of_gt {a b : UInt8} (h : b < a) (x y : ByteSequence) :
    compare (a :: x) (b :: y) = .gt := by
  rw [compare_cons_cons, compare_eq_gt.mpr h]
  rfl

theorem compare_cons_cons_self (a : UInt8) (x y : ByteSequence) :
    compare (a :: x) (a :: y) = compare x y := by
  have hself : compare a a = .eq := LawfulEqCmp.compare_eq_iff_eq.mpr rfl
  rw [compare_cons_cons, hself]
  rfl

/-- A string of bytes 255 is above every string it is not a prefix of. -/
theorem replicate_isLE_iff (n : Nat) (key : ByteSequence) :
    (compare (List.replicate n (255 : UInt8)) key).isLE = true ↔ List.replicate n 255 <+: key := by
  induction n generalizing key with
  | zero => cases key <;> simp
  | succ n ih =>
    rw [replicate_succ]
    cases key with
    | nil => simp
    | cons byte key =>
      by_cases hbyte : byte = 255
      · rw [hbyte, compare_cons_cons_self, ih, cons_prefix_cons]
        simp
      · have hlt : byte < 255 := by
          have := byte.toNat_lt
          rw [UInt8.lt_iff_toNat_lt]
          have hne : byte.toNat ≠ (255 : UInt8).toNat := fun h => hbyte (UInt8.toNat_inj.mp h)
          have htop : (255 : UInt8).toNat = 255 := rfl
          omega
        rw [compare_cons_cons_of_gt hlt, cons_prefix_cons]
        simp [Ne.symm hbyte]

/-- The range whose end differs from its start in one byte, before bytes 255 only. -/
theorem containsKey_successor {byte : UInt8} (hbyte : byte ≠ 255) (head : ByteSequence) (n : Nat)
    (key : ByteSequence) :
    KeyRange.containsKey ⟨head ++ byte :: List.replicate n 255, head ++ [byte + 1]⟩ key = true
      ↔ head ++ byte :: List.replicate n 255 <+: key := by
  have hnext : byte < byte + 1 := UInt8.lt_add_one hbyte
  rw [KeyRange.containsKey, Bool.and_eq_true]
  induction head generalizing key with
  | nil =>
    rw [nil_append, nil_append]
    cases key with
    | nil => simp
    | cons first key =>
      rw [cons_prefix_cons]
      rcases lt_trichotomy byte first with h | rfl | h
      · -- a first byte above `byte` is at least its successor
        have hle : byte + 1 ≤ first := by
          have hsucc : (byte + 1).toNat = byte.toNat + 1 := by
            have := byte.toNat_lt
            have hne : byte.toNat ≠ 255 := fun h => hbyte (UInt8.toNat_inj.mp h)
            rw [UInt8.toNat_add, show (1 : UInt8).toNat = 1 from rfl]
            omega
          rw [UInt8.le_iff_toNat_le, hsucc]
          exact UInt8.lt_iff_toNat_lt.mp h
        rw [compare_cons_cons_of_lt h]
        rcases UInt8.lt_or_eq_of_le hle with hlt | rfl
        · rw [compare_cons_cons_of_gt hlt]
          simp [UInt8.ne_of_lt h]
        · rw [compare_cons_cons_self]
          cases key <;> simp [UInt8.ne_of_lt h]
      · rw [compare_cons_cons_self, compare_cons_cons_of_lt hnext, replicate_isLE_iff]
        simp
      · rw [compare_cons_cons_of_gt h]
        simp [(UInt8.ne_of_lt h).symm]
  | cons first head ih =>
    rw [cons_append, cons_append]
    cases key with
    | nil => simp
    | cons byte' key =>
      rw [cons_prefix_cons]
      rcases lt_trichotomy first byte' with h | rfl | h
      · rw [compare_cons_cons_of_gt h]
        simp [UInt8.ne_of_lt h]
      · rw [compare_cons_cons_self, compare_cons_cons_self, and_iff_right rfl]
        exact ih key
      · rw [compare_cons_cons_of_gt h]
        simp [(UInt8.ne_of_lt h).symm]

/-- Where a range end exists, the string is cut at the byte the end increments. -/
theorem prefixRangeEnd_eq_some (h : prefixRangeEnd bytes = some stop) :
    ∃ head byte n, byte ≠ 255 ∧ bytes = head ++ byte :: List.replicate n 255
      ∧ stop = head ++ [byte + 1] := by
  unfold prefixRangeEnd at h
  split at h
  · cases h
  · rename_i byte rest hdrop
    cases h
    have hbyte : byte ≠ 255 := by
      have hhead := head?_dropWhile_not (fun b : UInt8 => decide (b = 255)) bytes.reverse
      rw [hdrop] at hhead
      simpa using hhead
    have hones : bytes.reverse.takeWhile (· = 255)
        = List.replicate (bytes.reverse.takeWhile (· = 255)).length 255 := by
      refine List.eq_replicate_iff.mpr ⟨rfl, fun b hb => ?_⟩
      simpa using mem_takeWhile_imp hb
    have hsplit := takeWhile_append_dropWhile (p := fun b : UInt8 => decide (b = 255))
      (l := bytes.reverse)
    rw [hdrop, hones] at hsplit
    generalize (bytes.reverse.takeWhile (· = 255)).length = n at hsplit
    refine ⟨rest.reverse, byte, n, hbyte, ?_, rfl⟩
    calc bytes = bytes.reverse.reverse := (reverse_reverse bytes).symm
      _ = (List.replicate n 255 ++ byte :: rest).reverse := by rw [hsplit]
      _ = rest.reverse ++ byte :: List.replicate n 255 := by simp

/-- The range up to `prefix_range_end` holds the keys that begin with the string. -/
theorem containsKey_prefixRange (h : prefixRangeEnd bytes = some stop) (key : ByteSequence) :
    KeyRange.containsKey ⟨bytes, stop⟩ key = true ↔ bytes <+: key := by
  obtain ⟨head, byte, n, hbyte, rfl, rfl⟩ := prefixRangeEnd_eq_some h
  exact containsKey_successor hbyte head n key

/-- The range from a key to the key followed by a zero byte. -/
theorem containsKey_exact (key other : ByteSequence) :
    KeyRange.containsKey ⟨key, key ++ [0]⟩ other = true ↔ other = key := by
  rw [KeyRange.containsKey, Bool.and_eq_true]
  induction key generalizing other with
  | nil =>
    cases other with
    | nil => simp
    | cons byte other =>
      rw [nil_append, compare_cons_cons]
      simp only [reduceCtorEq, iff_false, not_and]
      intro _
      rcases lt_trichotomy byte 0 with h | rfl | h
      · exact absurd h (by simp)
      · cases other <;> simp
      · rw [compare_eq_gt.mpr h]
        simp
  | cons first key ih =>
    cases other with
    | nil => simp
    | cons byte other =>
      rw [cons_append, List.cons.injEq]
      rcases lt_trichotomy first byte with h | rfl | h
      · rw [compare_cons_cons_of_gt h]
        simp [(UInt8.ne_of_lt h).symm]
      · rw [compare_cons_cons_self, compare_cons_cons_self, ih]
        simp
      · rw [compare_cons_cons_of_gt h]
        simp [UInt8.ne_of_lt h]

theorem compare_append_left (head x y : ByteSequence) :
    compare (head ++ x) (head ++ y) = compare x y := by
  induction head with
  | nil => rfl
  | cons byte head ih => rw [cons_append, cons_append, compare_cons_cons_self, ih]

/-- There is no end only for strings of bytes 255. -/
theorem prefixRangeEnd_eq_none : prefixRangeEnd bytes = none ↔ ∀ byte ∈ bytes, byte = 255 := by
  unfold prefixRangeEnd
  cases hdrop : bytes.reverse.dropWhile (· = 255) with
  | nil => simpa using hdrop
  | cons byte rest =>
    simp only [reduceCtorEq, false_iff]
    intro hall
    have hnil : bytes.reverse.dropWhile (· = 255) = [] := by simpa using hall
    rw [hdrop] at hnil
    cases hnil

theorem compare_prefixRangeEnd (h : prefixRangeEnd bytes = some stop) :
    compare bytes stop = .lt := by
  obtain ⟨head, byte, n, hbyte, rfl, rfl⟩ := prefixRangeEnd_eq_some h
  rw [compare_append_left, compare_cons_cons_of_lt (UInt8.lt_add_one hbyte)]

theorem InMemoryMetadataStore.range_of_lt {s : InMemoryMetadataStore} {start : ByteSequence}
    (hstart : start ≠ []) (h : compare start stop = .lt) :
    range start stop s
      = .ok { values := (s.values.entriesIn ⟨start, stop⟩).map Prod.snd, revision := s.revision }
        s := by
  have hstop : stop ≠ [] := by
    rintro rfl
    cases start <;> simp_all
  have hstart : validateKey start = .ok () := validateKey_eq_ok.mpr hstart
  have hstop : validateKey stop = .ok () := validateKey_eq_ok.mpr hstop
  simp only [range, EStateM.ofExcept_bind_apply_of_ok hstart,
    EStateM.ofExcept_bind_apply_of_ok hstop, h]
  rfl

/-- The range up to `prefix_range_end` is the range of the keys with the prefix, and reading it
gives the values of those keys in their order. -/
theorem prefix_range_exact {s t : InMemoryMetadataStore} {calls : List Call} (opened : Opened s)
    (run : Run s calls t) (bytes : ByteSequence) :
    (prefixRangeEnd bytes = none ↔ bytes = [] ∨ ∀ byte ∈ bytes, byte = 255)
      ∧ ∀ stop, prefixRangeEnd bytes = some stop →
        compare bytes stop = .lt
          ∧ (∀ key, (compare bytes key).isLE = true ∧ compare key stop = .lt ↔ bytes <+: key)
          ∧ ∃ result, t.range bytes stop = .ok result t
            ∧ (∀ value, value ∈ result.values
              ↔ t.values[value.key]? = some value ∧ bytes <+: value.key)
            ∧ (result.values.map (·.key)).Pairwise fun key later => compare key later = .lt := by
  have keyed := @(wellFormed_of_run opened run).index.keyed
  refine ⟨?_, fun stop hstop => ⟨compare_prefixRangeEnd hstop, fun key => ?_, _,
    InMemoryMetadataStore.range_of_lt ?_ (compare_prefixRangeEnd hstop), fun value => ?_, ?_⟩⟩
  · rw [prefixRangeEnd_eq_none]
    exact ⟨.inr, fun h => h.elim (fun hnil => hnil ▸ forall_mem_nil _) id⟩
  · rw [← containsKey_prefixRange hstop, KeyRange.containsKey, Bool.and_eq_true]
    cases compare key stop <;> simp
  · rintro rfl
    cases hstop
  · simp only [mem_map, ValueMap.mem_entriesIn, containsKey_prefixRange hstop]
    constructor
    · rintro ⟨⟨key, _⟩, ⟨hkey, hprefix⟩, rfl⟩
      rw [keyed hkey]
      exact ⟨hkey, hprefix⟩
    · exact fun h => ⟨(value.key, value), h, rfl⟩
  · -- the entries are in the order of their keys, which are the keys of their values
    rw [ValueMap.entriesIn_eq_filter, map_map, pairwise_map]
    refine List.Pairwise.imp_of_mem (fun {entry later} hentry hlater hlt => ?_)
      (ExtTreeMap.ordered_keys_toList.filter _)
    rw [mem_filter, ExtTreeMap.mem_toList_iff_getElem?_eq_some] at hentry hlater
    show compare entry.2.key later.2.key = .lt
    rw [keyed hentry.1, keyed hlater.1]
    exact hlt

/-- A store with two keys, read under the prefix of one of them. -/
theorem prefix_range_exact_leaseLife :
    prefixRangeEnd [2] = some [3]
      ∧ ∃ result, (stateAfter emptyStore (leaseLife.take 2)).range [2] [3]
          = .ok result (stateAfter emptyStore (leaseLife.take 2)) := by
  have hstop : prefixRangeEnd [2] = some [3] := by decide
  obtain ⟨-, -, result, hresult, -⟩ := (prefix_range_exact emptyStore_opened
    (Run.of_operations emptyStore (leaseLife.take 2)) [2]).2 [3] hstop
  exact ⟨hstop, result, hresult⟩

end KuraMetadata
