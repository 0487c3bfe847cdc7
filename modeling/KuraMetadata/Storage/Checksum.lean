import KuraMetadata.Library.Crc

/-! # The CRC32C checksum of `durable_storage.cpp`

The accumulator is a 32-bit register; a byte is xored into the low end and the register is
then shifted eight times with the reflected polynomial `0x82f63b78`. The register stays
below `2^32` because a shift never adds bits, so plain `Nat` operations model it. -/

namespace KuraMetadata

/-- One of the eight shifts of `Crc32cAccumulator::update`: the mask `0U - (value & 1U)`
selects the polynomial exactly when the low bit is set. -/
def crc32cShift (value : Nat) : Nat :=
  if value % 2 = 1 then (value >>> 1) ^^^ 0x82f63b78 else value >>> 1

/-- `Crc32cAccumulator::update` on one byte. -/
def crc32cByte (value : Nat) (byte : UInt8) : Nat :=
  Nat.repeat crc32cShift 8 (value ^^^ byte.toNat)

/-- `crc32c`: a fresh accumulator, updated with every byte, then finished. -/
def crc32c (bytes : List UInt8) : Nat :=
  bytes.foldl crc32cByte 0xffffffff ^^^ 0xffffffff

/-! ## What the checksum detects -/

theorem crc32c_eq_update (bytes : List UInt8) :
    crc32c bytes = Crc.update 0x82f63b78 0xffffffff bytes ^^^ 0xffffffff := rfl

theorem crc32c_lt (bytes : List UInt8) : crc32c bytes < 2 ^ 32 := by
  rw [crc32c_eq_update]
  refine Nat.xor_lt_two_pow ?_ (by decide)
  exact @Crc.update_lt 0x82f63b78 31 (by decide) _ (by decide) (by decide) bytes

theorem crc32c_burst {before burst burst' after : List UInt8}
    (hlength : burst.length = burst'.length) (hwidth : burst.length ≤ 4)
    (h : crc32c (before ++ burst ++ after) = crc32c (before ++ burst' ++ after)) :
    burst = burst' := by
  rw [crc32c_eq_update, crc32c_eq_update, Nat.xor_left_inj] at h
  exact @Crc.update_burst 0x82f63b78 31 (by decide) (by decide) _ (by decide) (by decide) before
    burst burst' after hlength (by omega) h

theorem crc32c_set {bytes : List UInt8} {i : Nat} {byte : UInt8} (hi : i < bytes.length)
    (h : crc32c (bytes.set i byte) = crc32c bytes) : bytes.set i byte = bytes := by
  have hsplit : bytes = bytes.take i ++ [bytes[i]] ++ bytes.drop (i + 1) := by
    rw [List.append_assoc, List.singleton_append, List.getElem_cons_drop, List.take_append_drop]
  have hset : bytes.set i byte = bytes.take i ++ [byte] ++ bytes.drop (i + 1) := by
    rw [List.set_eq_take_append_cons_drop, if_pos hi, List.append_assoc, List.singleton_append]
  rw [hset] at h ⊢
  conv at h => rhs; rw [hsplit]
  have hburst := @crc32c_burst (bytes.take i) [byte] [bytes[i]] (bytes.drop (i + 1)) rfl (by simp) h
  rw [hburst]
  exact hsplit.symm

structure Crc32cAccumulator where
  value : Nat := 0xffffffff
  deriving DecidableEq, Repr

def Crc32cAccumulator.update (accumulator : Crc32cAccumulator) (bytes : List UInt8) :
    Crc32cAccumulator :=
  { value := bytes.foldl crc32cByte accumulator.value }

def Crc32cAccumulator.finish (accumulator : Crc32cAccumulator) : Nat :=
  accumulator.value ^^^ 0xffffffff

/-- A checksum may be taken part by part, and detects every change within four consecutive
bytes. -/
theorem crc32c_accumulates_and_detects :
    (∀ a b, ((({} : Crc32cAccumulator).update a).update b).finish = crc32c (a ++ b))
      ∧ ∀ {bytes bytes' : List UInt8} {start : Nat}, bytes.length = bytes'.length → bytes ≠ bytes' →
        (∀ i : Nat, bytes[i]? ≠ bytes'[i]? → start ≤ i ∧ i < start + 4) →
        crc32c bytes ≠ crc32c bytes' := by
  refine ⟨fun a b => ?_, fun {bytes bytes' start} hlength hne hwindow h => hne ?_⟩
  · rw [crc32c, List.foldl_append]
    rfl
  · have hcut : ∀ l : List UInt8,
        l = l.take start ++ (l.drop start).take 4 ++ l.drop (start + 4) := by
      intro l
      rw [List.append_assoc, ← List.drop_drop, List.take_append_drop, List.take_append_drop]
    -- the strings agree before the window and after it
    have hbefore : bytes.take start = bytes'.take start := by
      refine List.ext_getElem? fun i => ?_
      rw [List.getElem?_take, List.getElem?_take]
      split
      · by_contra hi
        have := hwindow i hi
        omega
      · rfl
    have hafter : bytes.drop (start + 4) = bytes'.drop (start + 4) := by
      refine List.ext_getElem? fun i => ?_
      rw [List.getElem?_drop, List.getElem?_drop]
      by_contra hi
      have := hwindow _ hi
      omega
    rw [hcut bytes, hcut bytes', hbefore, hafter] at h ⊢
    rw [crc32c_burst (by simp [hlength]) (by simp) h]

/-- Four bytes changed at once. -/
theorem crc32c_accumulates_and_detects_four :
    crc32c [1, 2, 3, 4, 5, 6] ≠ crc32c [1, 7, 8, 9, 0, 6] := by
  refine @crc32c_accumulates_and_detects.2 _ _ 1 rfl (by decide) fun i hi => ?_
  by_contra hout
  rcases (by omega : i = 0 ∨ 5 ≤ i) with rfl | hle
  · exact hi rfl
  · obtain ⟨k, rfl⟩ := Nat.exists_eq_add_of_le' hle
    exact hi rfl

namespace Storage

open LittleEndian List

/-! ## Checksummed strings -/

/-- A string with the checksum of its two parts between them. -/
def checksummed (head body : List UInt8) : List UInt8 :=
  head ++ (bytes 4 (crc32c (head ++ body)) ++ body)

theorem checksummed_eq_of_set {head head' body body' : List UInt8} {i : Nat} {byte : UInt8}
    (hhead : head'.length = head.length) (hbody : body'.length = body.length)
    (h : checksummed head' body' = (checksummed head body).set i byte) :
    checksummed head' body' = checksummed head body := by
  rw [checksummed, checksummed] at h
  by_cases hi : i < head.length
  · -- the change is in the first part
    rw [set_append_left _ _ hi] at h
    obtain ⟨rfl, h⟩ := append_inj h (by rw [hhead, length_set])
    obtain ⟨hcrc, rfl⟩ := append_inj h (by rw [length_bytes, length_bytes])
    have hsum := bytes_inj (crc32c_lt _) (crc32c_lt _) hcrc
    rw [← set_append_left _ _ hi] at hsum
    have hset := crc32c_set (by rw [length_append]; omega) hsum
    rw [set_append_left _ _ hi] at hset
    rw [(append_inj hset (length_set)).1]
  · rw [set_append_right _ _ (Nat.le_of_not_lt hi)] at h
    obtain ⟨rfl, h⟩ := append_inj h hhead
    by_cases hchecksum : i - head'.length < 4
    · -- the change is in the checksum
      rw [set_append_left _ _ (by rw [length_bytes]; exact hchecksum)] at h
      obtain ⟨-, rfl⟩ := append_inj h (by rw [length_set, length_bytes, length_bytes])
      rfl
    · rw [set_append_right _ _ (by rw [length_bytes]; omega), length_bytes] at h
      obtain ⟨hcrc, rfl⟩ := append_inj h (by rw [length_bytes, length_bytes])
      have hsum := bytes_inj (crc32c_lt _) (crc32c_lt _) hcrc
      generalize i - head'.length - 4 = k at hsum ⊢
      by_cases hk : k < body.length
      · have hset : (head' ++ body).set (head'.length + k) byte = head' ++ body.set k byte := by
          rw [set_append_right _ _ (Nat.le_add_right _ _), Nat.add_sub_cancel_left]
        rw [← hset] at hsum
        have hsame := crc32c_set (by rw [length_append]; omega) hsum
        rw [hset] at hsame
        rw [append_cancel_left hsame]
      · rw [set_eq_of_length_le (Nat.le_of_not_lt hk)]

end Storage

end KuraMetadata
