import Mathlib.Data.Nat.Bitwise
import KuraMetadata.Library.LittleEndian

/-! # Reflected cyclic redundancy checks

The register of a reflected CRC is shifted right once for each bit, and the polynomial is added
when a one falls out. A string of bytes is taken in as the integer it stands for: the register
after it is the one before it, with that integer added, shifted once for each of its bits. So
two strings that differ only within the width of the register leave it different, whatever
surrounds them. -/

namespace Crc

open LittleEndian

/-- One shift of the register. -/
def shift (poly value : Nat) : Nat :=
  if value % 2 = 1 then (value >>> 1) ^^^ poly else value >>> 1

/-- The register after one byte. -/
def byte (poly value : Nat) (byte : UInt8) : Nat :=
  Nat.repeat (shift poly) 8 (value ^^^ byte.toNat)

variable {poly n : Nat}

/-! ## Shifts -/

theorem shift_lt (hpoly : poly < 2 ^ n) {v : Nat} (hv : v < 2 ^ n) : shift poly v < 2 ^ n := by
  have hhalf : v >>> 1 < 2 ^ n := lt_of_le_of_lt (Nat.shiftRight_le v 1) hv
  unfold shift
  split
  · exact Nat.xor_lt_two_pow hhalf hpoly
  · exact hhalf

/-- The top bit of a shifted register tells whether the polynomial was added. -/
theorem shift_injOn (hpoly : poly.testBit n = true) {v w : Nat} (hv : v < 2 ^ (n + 1))
    (hw : w < 2 ^ (n + 1)) (h : shift poly v = shift poly w) : v = w := by
  have hclear : ∀ {x : Nat}, x < 2 ^ (n + 1) → (x >>> 1).testBit n = false := by
    intro x hx
    rw [Nat.testBit_shiftRight, Nat.add_comm]
    exact Nat.testBit_lt_two_pow hx
  have htop : ∀ {x : Nat}, x < 2 ^ (n + 1) → (shift poly x).testBit n = decide (x % 2 = 1) := by
    intro x hx
    unfold shift
    split
    · rename_i hodd
      rw [Nat.testBit_xor, hclear hx, hpoly, decide_eq_true hodd]
      rfl
    · rename_i heven
      rw [hclear hx, decide_eq_false heven]
  have hparity : (v % 2 = 1) ↔ (w % 2 = 1) := by
    rw [← decide_eq_decide, ← htop hv, ← htop hw, h]
  have hhalf : v >>> 1 = w >>> 1 := by
    unfold shift at h
    by_cases hodd : v % 2 = 1
    · rw [if_pos hodd, if_pos (hparity.mp hodd)] at h
      exact Nat.xor_left_inj.mp h
    · rw [if_neg hodd, if_neg fun hw => hodd (hparity.mpr hw)] at h
      exact h
  rw [Nat.shiftRight_one, Nat.shiftRight_one] at hhalf
  omega

/-- What is added above the low bit comes out of a shift one place lower. -/
theorem shift_xor_double (x y : Nat) : shift poly (x ^^^ 2 * y) = shift poly x ^^^ y := by
  have hparity : (x ^^^ 2 * y) % 2 = x % 2 := by
    rw [Nat.xor_mod_two_eq, Nat.add_mul_mod_self_left]
  have hhalf : (x ^^^ 2 * y) >>> 1 = (x >>> 1) ^^^ y := by
    rw [Nat.shiftRight_xor_distrib, Nat.shiftRight_one (2 * y),
      Nat.mul_div_cancel_left y (by decide)]
  unfold shift
  rw [hparity, hhalf]
  split
  · rw [Nat.xor_assoc, Nat.xor_comm y, ← Nat.xor_assoc]
  · rfl

theorem repeat_shift_lt (hpoly : poly < 2 ^ n) (k : Nat) {v : Nat} (hv : v < 2 ^ n) :
    Nat.repeat (shift poly) k v < 2 ^ n := by
  induction k with
  | zero => exact hv
  | succ k ih => exact shift_lt hpoly ih

theorem repeat_shift_injOn (hpoly : poly < 2 ^ (n + 1)) (htop : poly.testBit n = true) (k : Nat)
    {v w : Nat} (hv : v < 2 ^ (n + 1)) (hw : w < 2 ^ (n + 1))
    (h : Nat.repeat (shift poly) k v = Nat.repeat (shift poly) k w) : v = w := by
  induction k with
  | zero => exact h
  | succ k ih =>
    exact ih (shift_injOn htop (repeat_shift_lt hpoly k hv) (repeat_shift_lt hpoly k hw) h)

theorem repeat_shift_xor (k x y : Nat) :
    Nat.repeat (shift poly) k (x ^^^ 2 ^ k * y) = Nat.repeat (shift poly) k x ^^^ y := by
  induction k generalizing y with
  | zero => rw [Nat.pow_zero, Nat.one_mul]; rfl
  | succ k ih =>
    have hpow : 2 ^ (k + 1) * y = 2 ^ k * (2 * y) := by ring
    show shift poly (Nat.repeat (shift poly) k (x ^^^ 2 ^ (k + 1) * y)) = _
    rw [hpow, ih, shift_xor_double]
    rfl

theorem repeat_add {α : Type} (f : α → α) (k l : Nat) (a : α) :
    Nat.repeat f (k + l) a = Nat.repeat f k (Nat.repeat f l a) := by
  induction k with
  | zero => rw [Nat.zero_add]; rfl
  | succ k ih =>
    rw [Nat.succ_add]
    show f (Nat.repeat f (k + l) a) = f (Nat.repeat f k (Nat.repeat f l a))
    rw [ih]

/-! ## Strings -/

/-- The register after some bytes. -/
def update (poly value : Nat) (l : List UInt8) : Nat := l.foldl (byte poly) value

theorem update_append (v : Nat) (l l' : List UInt8) :
    update poly v (l ++ l') = update poly (update poly v l) l' := List.foldl_append

theorem value_cons (b : UInt8) (l : List UInt8) : value (b :: l) = b.toNat ^^^ 2 ^ 8 * value l := by
  have hb : b.toNat < 2 ^ 8 := b.toNat_lt
  apply Nat.eq_of_testBit_eq
  intro i
  rw [LittleEndian.value, Nat.add_comm, show (256 : Nat) = 2 ^ 8 from rfl,
    Nat.testBit_two_pow_mul_add _ hb, Nat.testBit_xor, Nat.testBit_two_pow_mul]
  by_cases hi : i < 8
  · have hge : ¬ i ≥ 8 := Nat.not_le.mpr hi
    rw [if_pos hi, decide_eq_false hge, Bool.false_and, Bool.xor_false]
  · have hclear : b.toNat.testBit i = false :=
      Nat.testBit_lt_two_pow (hb.trans_le (Nat.pow_le_pow_right (by decide) (Nat.not_lt.mp hi)))
    rw [if_neg hi, hclear, decide_eq_true (Nat.not_lt.mp hi), Bool.true_and, Bool.false_xor]

/-- Bytes are taken in as the integer they stand for. -/
theorem update_eq (v : Nat) (l : List UInt8) :
    update poly v l = Nat.repeat (shift poly) (8 * l.length) (v ^^^ value l) := by
  induction l generalizing v with
  | nil =>
    rw [value, Nat.xor_zero]
    rfl
  | cons b l ih =>
    show update poly (byte poly v b) l = _
    rw [ih, byte, ← repeat_shift_xor, ← repeat_add, Nat.xor_assoc, ← value_cons, List.length_cons]
    congr 1

section

variable (hpoly : poly < 2 ^ (n + 1)) (htop : poly.testBit n = true)

include hpoly in
theorem update_lt {v : Nat} (hv : v < 2 ^ (n + 1)) (hn : 7 ≤ n) (l : List UInt8) :
    update poly v l < 2 ^ (n + 1) := by
  induction l generalizing v with
  | nil => exact hv
  | cons b l ih =>
    have hb : b.toNat < 2 ^ (n + 1) :=
      b.toNat_lt.trans_le (Nat.pow_le_pow_right (by decide) (Nat.succ_le_succ hn))
    exact ih (repeat_shift_lt hpoly 8 (Nat.xor_lt_two_pow hv hb))

include hpoly htop

/-- Strings of one length within the width of the register are told apart. -/
theorem update_inj_of_length_le {v : Nat} (hv : v < 2 ^ (n + 1)) {l l' : List UInt8}
    (hlength : l.length = l'.length) (hwidth : 8 * l.length ≤ n + 1)
    (h : update poly v l = update poly v l') : l = l' := by
  have hfits : ∀ {x : List UInt8}, x.length = l.length → v ^^^ value x < 2 ^ (n + 1) := by
    intro x hx
    refine Nat.xor_lt_two_pow hv ((value_lt x).trans_le ?_)
    rw [hx, show (256 : Nat) = 2 ^ 8 from rfl, ← Nat.pow_mul]
    exact Nat.pow_le_pow_right (by decide) hwidth
  rw [update_eq, update_eq, ← hlength] at h
  have hxor := repeat_shift_injOn hpoly htop _ (hfits rfl) (hfits hlength.symm) h
  exact value_inj hlength (Nat.xor_right_inj.mp hxor)

theorem update_injOn {v w : Nat} (hv : v < 2 ^ (n + 1)) (hw : w < 2 ^ (n + 1)) (hn : 7 ≤ n)
    {l : List UInt8} (h : update poly v l = update poly w l) : v = w := by
  induction l generalizing v w with
  | nil => exact h
  | cons b l ih =>
    have hb : b.toNat < 2 ^ (n + 1) :=
      b.toNat_lt.trans_le (Nat.pow_le_pow_right (by decide) (Nat.succ_le_succ hn))
    have hvb := Nat.xor_lt_two_pow hv hb
    have hwb := Nat.xor_lt_two_pow hw hb
    have hbyte := ih (repeat_shift_lt hpoly 8 hvb) (repeat_shift_lt hpoly 8 hwb) h
    exact Nat.xor_left_inj.mp (repeat_shift_injOn hpoly htop 8 hvb hwb hbyte)

/-- A burst within the width of the register is detected, whatever stands around it. -/
theorem update_burst {v : Nat} (hv : v < 2 ^ (n + 1)) (hn : 7 ≤ n)
    {before burst burst' : List UInt8}
    {after : List UInt8} (hlength : burst.length = burst'.length)
    (hwidth : 8 * burst.length ≤ n + 1)
    (h : update poly v (before ++ burst ++ after) = update poly v (before ++ burst' ++ after)) :
    burst = burst' := by
  rw [update_append, update_append, update_append _ (before ++ burst'), update_append] at h
  have hbefore := update_lt hpoly hv hn before
  have hburst := update_injOn hpoly htop (update_lt hpoly hbefore hn burst)
    (update_lt hpoly hbefore hn burst') hn h
  exact update_inj_of_length_le hpoly htop hbefore hlength hwidth hburst

end

end Crc
