import Mathlib.Algebra.Group.Nat.Defs
import TapeFlow.Graph.Ty
import TapeFlow.Machine.Memory

/-!
# Bytes, words and allocations

What is written to memory is read back: a word through its bytes, a range of
bytes through the allocation it was written to.

* `ofLittleEndian_littleEndian` — the bytes of a word determine it.
* `Allocation.toList_write` — what a write inside an allocation leaves there.
* `Allocation.read_singleton`, `Allocation.write_all` — the two cases the tape
  needs: one cell, and a whole allocation.
-/

namespace TapeFlow

/-! ## Words -/

@[simp] theorem length_littleEndian (n : Nat) (word : UInt64) :
    (littleEndian n word).length = n := by
  induction n generalizing word with
  | zero => rfl
  | succ n ih => rw [littleEndian, List.length_cons, ih]

/-- Reading back the low bytes of a word leaves the word without its high
ones. -/
theorem toNat_ofLittleEndian_littleEndian {n : Nat} (hn : n ≤ 8) (word : UInt64) :
    (ofLittleEndian (littleEndian n word)).toNat = word.toNat % 256 ^ n := by
  induction n generalizing word with
  | zero => simp [littleEndian, ofLittleEndian, Nat.mod_one]
  | succ n ih =>
    have h256 : (256 : UInt64).toNat = 256 := rfl
    have hrest := ih (by omega) (word / 256)
    rw [UInt64.toNat_div, h256] at hrest
    have hword : word.toNat % 256 ^ (n + 1) =
        word.toNat % 256 + 256 * (word.toNat / 256 % 256 ^ n) := by
      rw [Nat.pow_succ', Nat.mod_mul]
    have hsmall : word.toNat % 256 ^ (n + 1) < 2 ^ 64 :=
      Nat.lt_of_le_of_lt (Nat.mod_le _ _) word.toNat_lt
    rw [hword] at hsmall ⊢
    simp only [littleEndian, ofLittleEndian, UInt64.toNat_add, UInt64.toNat_mul, hrest, h256,
      UInt8.toNat_toUInt64, UInt64.toNat_toUInt8]
    -- neither the product nor the sum wraps
    generalize word.toNat / 256 % 256 ^ n = high at hsmall ⊢
    rw [Nat.mod_eq_of_lt (by omega : 256 * high < 2 ^ 64), Nat.mod_eq_of_lt hsmall]

/-- The bytes of a word determine it. -/
@[simp] theorem ofLittleEndian_littleEndian (word : UInt64) :
    ofLittleEndian (littleEndian 8 word) = word := by
  rw [← UInt64.toNat_inj, toNat_ofLittleEndian_littleEndian (Nat.le_refl 8)]
  exact Nat.mod_eq_of_lt word.toNat_lt

@[simp] theorem ofLittleEndian_singleton (b : UInt8) : ofLittleEndian [b] = b.toUInt64 := by
  simp [ofLittleEndian]

/-- A byte is not changed by cutting it down to a byte. -/
@[simp] theorem truncate_i8_toUInt64 (b : UInt8) : Ty.i8.truncate b.toUInt64 = b.toUInt64 := by
  rw [← UInt64.toNat_inj]
  simp [Ty.truncate]

/-- Cutting a word down to a byte keeps its low byte. -/
@[simp] theorem toUInt8_truncate_i8 (word : UInt64) : (Ty.i8.truncate word).toUInt8 = word.toUInt8 := by
  rw [← UInt8.toNat_inj]
  simp [Ty.truncate]

theorem toUInt64_eq_zero_iff (b : UInt8) : b.toUInt64 = 0 ↔ b = 0 := by
  rw [← UInt64.toNat_inj, ← UInt8.toNat_inj]
  simp

/-! ## Allocations -/

namespace Allocation

/-- A write inside an allocation replaces a range and keeps the rest. -/
theorem toList_write (a : Allocation) (offset : Nat) (bytes : List UInt8)
    (h : offset + bytes.length ≤ a.size) :
    (a.write offset bytes).toList =
      a.toList.take offset ++ bytes ++ a.toList.drop (offset + bytes.length) := by
  induction bytes generalizing a offset with
  | nil => simp [write]
  | cons b bs ih =>
    rw [List.length_cons] at h
    have hlen : offset < a.toList.length := by simp; omega
    rw [write, ih _ _ (by simp; omega), Array.toList_setIfInBounds, List.take_set, List.drop_set,
      if_pos (by omega), List.take_succ_eq_append_getElem hlen,
      List.set_append_right _ _ (List.length_take_le _ _)]
    rw [List.length_take, Nat.min_eq_left (Nat.le_of_lt hlen), Nat.sub_self]
    simp [Nat.add_assoc, Nat.add_comm 1]

/-- A write over a whole allocation leaves nothing of it. -/
theorem write_all (a : Allocation) {bytes : List UInt8} (h : bytes.length = a.size) :
    a.write 0 bytes = bytes.toArray := by
  apply Array.toList_inj.1
  simp [toList_write a 0 bytes (by omega), h]

/-- Reading a whole allocation. -/
theorem read_all (bytes : List UInt8) : Allocation.read bytes.toArray 0 bytes.length = bytes := by
  simp [read]

/-- Reading one byte. -/
theorem read_singleton {a : Allocation} {offset : Nat} {b : UInt8} (h : a[offset]? = some b) :
    a.read offset 1 = [b] := by
  obtain ⟨hlt, rfl⟩ := Array.getElem?_eq_some_iff.1 h
  have hdrop := List.drop_eq_getElem_cons (l := a.toList) (i := offset) (by simpa using hlt)
  simp [read, Array.toList_extract, List.extract_eq_take_drop, hdrop]

end Allocation

end TapeFlow
