import Mathlib.Data.List.Infix
import KuraMetadata.Storage.Types

/-! # File names that carry a number

A WAL segment and a snapshot are named by a 64-bit number, written with twenty decimal digits
between a fixed prefix and a fixed suffix. A name is read back as the number it was written
from, and no other name is read at all. -/

namespace KuraMetadata.Storage

open List

/-- The last `width` decimal digits of a value, the highest first. -/
def decimalDigits : Nat → Nat → List UInt8
  | 0, _ => []
  | width + 1, value => decimalDigits width (value / 10) ++ [UInt8.ofNat (48 + value % 10)]

/-- `decimal_name`: a 64-bit value has at most twenty digits, so padding to that width never
exceeds it. -/
def decimalName (before : FileName) (value : Nat) (after : FileName) : FileName :=
  before ++ decimalDigits 20 value ++ after

/-- One pass of the loop of `parse_decimal_name`. -/
def parseDigit (value : Nat) (character : UInt8) : Option Nat :=
  if character < 48 ∨ 57 < character then none
  else if (u64Max - (character.toNat - 48)) / 10 < value then none
  else some (value * 10 + (character.toNat - 48))

def parseDecimalName (name before after : FileName) : Option Nat :=
  if name.length ≠ before.length + 20 + after.length ∨ !before.isPrefixOf name
      ∨ !after.isSuffixOf name then none
  else ((name.drop before.length).take 20).foldlM parseDigit 0

/-! ## Digits -/

@[simp]
theorem length_decimalDigits (width value : Nat) : (decimalDigits width value).length = width := by
  induction width generalizing value with
  | zero => rfl
  | succ width ih => rw [decimalDigits, length_append, ih, length_singleton]

theorem parseDigit_eq_some {value next : Nat} {character : UInt8} :
    parseDigit value character = some next
      ↔ 48 ≤ character.toNat ∧ character.toNat ≤ 57 ∧ next = value * 10 + (character.toNat - 48)
        ∧ next ≤ u64Max := by
  simp only [parseDigit, UInt8.lt_iff_toNat_lt]
  have hlow : (48 : UInt8).toNat = 48 := rfl
  have hhigh : (57 : UInt8).toNat = 57 := rfl
  rw [hlow, hhigh]
  have hmax : u64Max = 18446744073709551615 := rfl
  split
  · rename_i hrange
    simp only [reduceCtorEq, false_iff]
    omega
  · rename_i hrange
    split
    · rename_i hover
      simp only [reduceCtorEq, false_iff]
      omega
    · rename_i hfits
      rw [Option.some.injEq]
      omega

theorem foldlM_parseDigit_decimalDigits {width value : Nat} (hwidth : value < 10 ^ width)
    (hvalue : value ≤ u64Max) : (decimalDigits width value).foldlM parseDigit 0 = some value := by
  induction width generalizing value with
  | zero =>
    rw [Nat.pow_zero] at hwidth
    obtain rfl : value = 0 := by omega
    rfl
  | succ width ih =>
    rw [Nat.pow_succ] at hwidth
    have hdigit : (UInt8.ofNat (48 + value % 10)).toNat = 48 + value % 10 := by
      rw [UInt8.toNat_ofNat']
      omega
    have hlast : parseDigit (value / 10) (UInt8.ofNat (48 + value % 10)) = some value :=
      parseDigit_eq_some.mpr ⟨by omega, by omega, by omega, hvalue⟩
    rw [decimalDigits, foldlM_append, ih (by omega) (by omega)]
    show parseDigit (value / 10) _ >>= pure = _
    rw [hlast]
    rfl

/-- The characters that are read as a value are its digits. -/
theorem eq_decimalDigits_of_foldlM {characters : List UInt8} {value : Nat}
    (h : characters.foldlM parseDigit 0 = some value) :
    characters = decimalDigits characters.length value ∧ value ≤ u64Max := by
  induction characters using List.reverseRecOn generalizing value with
  | nil =>
    cases h
    exact ⟨rfl, Nat.zero_le _⟩
  | append_singleton characters character ih =>
    rw [foldlM_append, Option.bind_eq_bind, Option.bind_eq_some_iff] at h
    obtain ⟨before, hbefore, h⟩ := h
    rw [foldlM_cons, Option.bind_eq_bind, Option.bind_eq_some_iff] at h
    obtain ⟨next, hdigit, hnext⟩ := h
    cases hnext
    obtain ⟨hlow, hhigh, hvalue, hmax⟩ := parseDigit_eq_some.mp hdigit
    obtain ⟨hcharacters, -⟩ := ih hbefore
    refine ⟨?_, hmax⟩
    have hlast : UInt8.ofNat (48 + value % 10) = character := by
      apply UInt8.toNat_inj.mp
      rw [UInt8.toNat_ofNat']
      omega
    rw [length_append, length_singleton, decimalDigits, hlast,
      show value / 10 = before by omega, ← hcharacters]

/-! ## Names -/

variable {before after name : FileName} {value : Nat}

theorem parseDecimalName_decimalName (before after : FileName) (h : value ≤ u64Max) :
    parseDecimalName (decimalName before value after) before after = some value := by
  have hlength : (decimalName before value after).length = before.length + 20 + after.length := by
    simp [decimalName, Nat.add_assoc]
  have hbefore : before.isPrefixOf (decimalName before value after) = true := by
    rw [List.isPrefixOf_iff_prefix, decimalName, append_assoc]
    exact prefix_append _ _
  have hafter : after.isSuffixOf (decimalName before value after) = true := by
    rw [isSuffixOf_iff_suffix]
    exact suffix_append _ _
  have hdigits : ((decimalName before value after).drop before.length).take 20
      = decimalDigits 20 value := by
    rw [decimalName, append_assoc, drop_left, take_left' (length_decimalDigits 20 _)]
  rw [parseDecimalName, if_neg (by simp [hlength, hbefore, hafter]), hdigits]
  exact foldlM_parseDigit_decimalDigits (Nat.lt_of_le_of_lt h (by decide)) h

theorem parseDecimalName_eq_some (h : parseDecimalName name before after = some value) :
    name = decimalName before value after ∧ value ≤ u64Max := by
  unfold parseDecimalName at h
  split at h
  · cases h
  · rename_i hshape
    simp only [ne_eq, not_or, not_not, Bool.not_eq_true, Bool.not_eq_false',
      List.isPrefixOf_iff_prefix, isSuffixOf_iff_suffix] at hshape
    obtain ⟨hlength, ⟨rest, rfl⟩, hsuffix⟩ := hshape
    rw [length_append] at hlength
    rw [drop_left] at h
    obtain ⟨hdigits, hmax⟩ := eq_decimalDigits_of_foldlM h
    have htake : (rest.take 20).length = 20 := by
      rw [List.length_take]
      omega
    have hrest : after <:+ rest := by
      refine suffix_of_suffix_length_le hsuffix (suffix_append _ _) (by omega)
    obtain ⟨front, rfl⟩ := hrest
    rw [length_append] at hlength
    rw [htake, take_left' (by omega)] at hdigits
    rw [hdigits, decimalName, append_assoc]
    exact ⟨rfl, hmax⟩

/-! ## The order of names -/

theorem compare_append_of_length_eq {x y x' y' : List UInt8} (h : x.length = y.length) :
    compare (x ++ x') (y ++ y') = (compare x y).then (compare x' y') := by
  induction x generalizing y with
  | nil =>
    obtain rfl := List.length_eq_zero_iff.mp h.symm
    rfl
  | cons a x ih =>
    obtain ⟨b, y, rfl⟩ := exists_cons_of_length_eq_add_one h.symm
    have hlength : x.length = y.length := by simpa using h
    simp only [cons_append, List.compare_eq_compareLex, List.compareLex_cons_cons] at ih ⊢
    rw [ih hlength, Ordering.then_assoc]

/-- Digits of one number are ordered as the numbers. -/
theorem compare_decimalDigits {width value value' : Nat} (h : value < 10 ^ width)
    (h' : value' < 10 ^ width) :
    compare (decimalDigits width value) (decimalDigits width value') = compare value value' := by
  have hdigit : ∀ a < 10, ∀ b < 10,
      compare [UInt8.ofNat (48 + a)] [UInt8.ofNat (48 + b)] = compare a b := by decide
  induction width generalizing value value' with
  | zero =>
    rw [Nat.pow_zero] at h h'
    obtain rfl : value = 0 := by omega
    obtain rfl : value' = 0 := by omega
    rfl
  | succ width ih =>
    rw [Nat.pow_succ] at h h'
    rw [decimalDigits, decimalDigits, compare_append_of_length_eq (by simp),
      ih (by omega) (by omega), hdigit _ (by omega) _ (by omega)]
    -- the higher digits decide, and the last one where they agree
    rcases Nat.lt_trichotomy (value / 10) (value' / 10) with hlt | heq | hgt
    · rw [Nat.compare_eq_lt.mpr hlt, Nat.compare_eq_lt.mpr (show value < value' by omega)]
      rfl
    · rw [Nat.compare_eq_eq.mpr heq]
      rcases Nat.lt_trichotomy (value % 10) (value' % 10) with hlt | hsame | hgt
      · rw [Nat.compare_eq_lt.mpr hlt, Nat.compare_eq_lt.mpr (by omega)]
        rfl
      · rw [Nat.compare_eq_eq.mpr hsame, Nat.compare_eq_eq.mpr (by omega)]
        rfl
      · rw [Nat.compare_eq_gt.mpr hgt, Nat.compare_eq_gt.mpr (by omega)]
        rfl
    · rw [Nat.compare_eq_gt.mpr hgt, Nat.compare_eq_gt.mpr (show value' < value by omega)]
      rfl

/-- File names with a fixed prefix and suffix stand for the 64-bit numbers, each for one, and are
ordered as the numbers. -/
theorem decimal_names_exact (before after : FileName) :
    (∀ value ≤ u64Max, parseDecimalName (decimalName before value after) before after = some value)
      ∧ (∀ name value, parseDecimalName name before after = some value →
        value ≤ u64Max ∧ name = decimalName before value after)
      ∧ (∀ number, u64Max < number → number < 10 ^ 20 →
        parseDecimalName (decimalName before number after) before after = none)
      ∧ ∀ value ≤ u64Max, ∀ value' ≤ u64Max,
        compare (decimalName before value after) (decimalName before value' after)
          = compare value value' := by
  have hmax : u64Max < 10 ^ 20 := by decide
  have hself : ∀ name : FileName, compare name name = .eq := fun _ => Std.ReflCmp.compare_self
  have horder : ∀ {value value' : Nat}, value < 10 ^ 20 → value' < 10 ^ 20 →
      compare (decimalName before value after) (decimalName before value' after)
        = compare value value' := by
    intro value value' h h'
    rw [decimalName, decimalName, append_assoc, append_assoc,
      compare_append_of_length_eq rfl, compare_append_of_length_eq (by simp), hself before,
      hself after, compare_decimalDigits h h', Ordering.then_eq]
    rfl
  refine ⟨fun value h => parseDecimalName_decimalName before after h, fun name value h => ?_,
    fun number hlarge hdigits => ?_, fun value h value' h' => horder (by omega) (by omega)⟩
  · exact (parseDecimalName_eq_some h).symm
  · cases hparse : parseDecimalName (decimalName before number after) before after with
    | none => rfl
    | some value =>
      -- the name would be that of a smaller number too
      obtain ⟨hname, hvalue⟩ := parseDecimalName_eq_some hparse
      have hsame := horder hdigits (show value < 10 ^ 20 by omega)
      rw [hname, hself] at hsame
      have := Nat.compare_eq_eq.mp hsame.symm
      omega

/-- The last 64-bit number, and the next one. -/
theorem decimal_names_exact_last :
    parseDecimalName (decimalName [119] u64Max []) [119] [] = some u64Max
      ∧ parseDecimalName (decimalName [119] (u64Max + 1) []) [119] [] = none := by
  obtain ⟨hread, -, hlarge, -⟩ := decimal_names_exact [119] []
  exact ⟨hread u64Max le_rfl, hlarge (u64Max + 1) (Nat.lt_succ_self _) (by decide)⟩

end KuraMetadata.Storage
