import KuraMetadata.Library.Except
import KuraMetadata.Library.LittleEndian

/-! # Decoders that stay within their input

In a guarded decoder every access states the bound it relies on. The error `none` is a bound that
does not hold, and `some` an error the decoder reports itself. A decoder keeps to its bounds if
the guarded one gives the same result on every input. -/

namespace Guarded

variable {ε α β : Type} {x : Except ε α} {y : Except (Option ε) α}

/-- A bound the next step relies on. -/
def require (p : Prop) [Decidable p] : Except (Option ε) Unit :=
  if p then .ok () else .error none

/-- The bytes of an interval of offsets. -/
def span (l : List UInt8) (offset count : Nat) : Except (Option ε) (List UInt8) := do
  require (offset + count ≤ l.length)
  return (l.drop offset).take count

/-- The integer of `width` bytes at an offset. -/
def field (width : Nat) (l : List UInt8) (offset : Nat) : Except (Option ε) Nat := do
  let bytes ← span l offset width
  return LittleEndian.value bytes

section

variable {l : List UInt8} {width offset count : Nat}

theorem require_bind {p : Prop} [Decidable p] {f : Unit → Except (Option ε) β} (h : p) :
    (require p >>= f) = f () := by
  rw [require, if_pos h]
  rfl

theorem span_bind {f : List UInt8 → Except (Option ε) β} (h : offset + count ≤ l.length) :
    (span l offset count >>= f) = f ((l.drop offset).take count) := by
  rw [span, require_bind h]
  rfl

theorem field_bind {f : Nat → Except (Option ε) β} (h : offset + width ≤ l.length) :
    (field width l offset >>= f) = f (LittleEndian.readLe width l offset) :=
  congrArg (· >>= f) (span_bind h)

end

theorem ite_error_iff {p q : Prop} {_ : Decidable p} {_ : Decidable q} {e : ε} (hpq : p ↔ q)
    (h : ¬ q → y = x.mapError some) :
    (if p then .error (some e) else y) = (if q then .error e else x).mapError some := by
  by_cases hq : q
  · rw [if_pos (hpq.mpr hq), if_pos hq]
    rfl
  · rw [if_neg fun hp => hq (hpq.mp hp), if_neg hq, h hq]

theorem ite_error {p : Prop} {_ : Decidable p} {e : ε} (h : ¬ p → y = x.mapError some) :
    (if p then .error (some e) else y) = (if p then .error e else x).mapError some :=
  ite_error_iff Iff.rfl h

theorem bind {E : ε → Prop} {P : α → Prop} {f : α → Except ε β} {g : α → Except (Option ε) β}
    (hx : x.Ensures E P) (h : y = x.mapError some) (hg : ∀ a, P a → g a = (f a).mapError some) :
    (y >>= g) = (x >>= f).mapError some := by
  rw [h]
  cases x with
  | error e => rfl
  | ok a => exact hg a hx

end Guarded
