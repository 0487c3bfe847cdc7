import Mathlib.Tactic.Common
import Mathlib.Tactic.Ring

/-! # Little-endian integers and fields of byte strings

An integer of `width` bytes is written with its low byte first. A record is a concatenation of
such fields, and `readLe` reads one at an offset. Where the fields before it have fixed widths,
the field is found by evaluation. -/

namespace LittleEndian

/-- The low `width` bytes of a value. -/
def bytes : Nat → Nat → List UInt8
  | 0, _ => []
  | width + 1, value => UInt8.ofNat value :: bytes width (value / 256)

/-- The integer some bytes stand for. -/
def value : List UInt8 → Nat
  | [] => 0
  | byte :: rest => byte.toNat + 256 * value rest

@[simp]
theorem length_bytes (width v : Nat) : (bytes width v).length = width := by
  induction width generalizing v with
  | zero => rfl
  | succ width ih => rw [bytes, List.length_cons, ih]

theorem value_lt (l : List UInt8) : value l < 256 ^ l.length := by
  induction l with
  | nil => exact Nat.one_pos
  | cons byte rest ih =>
    have hbyte := byte.toNat_lt
    rw [value, List.length_cons, Nat.pow_succ]
    omega

@[simp]
theorem value_bytes {width v : Nat} (h : v < 256 ^ width) : value (bytes width v) = v := by
  induction width generalizing v with
  | zero =>
    rw [Nat.pow_zero] at h
    show 0 = v
    omega
  | succ width ih =>
    rw [Nat.pow_succ] at h
    rw [bytes, value, ih (by omega), UInt8.toNat_ofNat']
    omega

@[simp]
theorem bytes_value (l : List UInt8) : bytes l.length (value l) = l := by
  induction l with
  | nil => rfl
  | cons byte rest ih =>
    have hbyte := byte.toNat_lt
    have hdiv : (byte.toNat + 256 * value rest) / 256 = value rest := by omega
    have hlow : UInt8.ofNat (byte.toNat + 256 * value rest) = byte := by
      apply UInt8.toNat_inj.mp
      rw [UInt8.toNat_ofNat']
      omega
    rw [List.length_cons, value, bytes, hdiv, ih, hlow]

theorem value_inj {l l' : List UInt8} (hlength : l.length = l'.length) (h : value l = value l') :
    l = l' := by
  rw [← bytes_value l, ← bytes_value l', hlength, h]

/-! ## Fields -/

/-- The field of `width` bytes at `offset`. -/
def readLe (width : Nat) (l : List UInt8) (offset : Nat) : Nat := value ((l.drop offset).take width)

theorem readLe_lt (width : Nat) (l : List UInt8) (offset : Nat) :
    readLe width l offset < 256 ^ width := by
  refine (value_lt _).trans_le (Nat.pow_le_pow_right (by decide) ?_)
  rw [List.length_take]
  exact Nat.min_le_left _ _

/-- A byte string from an offset on begins with the field read there. -/
theorem drop_eq_append {width offset : Nat} {l : List UInt8} (h : offset + width ≤ l.length) :
    l.drop offset = bytes width (readLe width l offset) ++ l.drop (offset + width) := by
  have hlength : ((l.drop offset).take width).length = width := by
    rw [List.length_take, List.length_drop]
    omega
  have hfield : bytes width (readLe width l offset) = (l.drop offset).take width := by
    have hbytes := bytes_value ((l.drop offset).take width)
    rw [hlength] at hbytes
    exact hbytes
  rw [hfield, ← List.drop_drop, List.take_append_drop]

theorem bytes_inj {width v w : Nat} (hv : v < 256 ^ width) (hw : w < 256 ^ width)
    (h : bytes width v = bytes width w) : v = w := by
  rw [← value_bytes hv, ← value_bytes hw, h]

end LittleEndian
