/-!
# Checked memory

Memory is a list of allocations, each an array of bytes of a fixed length.  An
address is an allocation and an offset into it, so no arithmetic on an offset
leads from one allocation to another.  Words are stored with their low byte
first.
-/

namespace TapeFlow

/-- The low `n` bytes of a word, the lowest first. -/
def littleEndian : Nat → UInt64 → List UInt8
  | 0, _ => []
  | n + 1, word => word.toUInt8 :: littleEndian n (word / 256)

/-- The word whose bytes these are, the lowest first. -/
def ofLittleEndian : List UInt8 → UInt64
  | [] => 0
  | b :: bs => b.toUInt64 + 256 * ofLittleEndian bs

/-- The bytes of one allocation. -/
abbrev Allocation := Array UInt8

namespace Allocation

/-- What fresh memory is filled with, so that code that forgets to set it up
can be told by its results. -/
def freshByte : UInt8 := 0xcd

/-- Fresh memory. -/
def fresh (size : Nat) : Allocation := Array.replicate size freshByte

/-- The bytes from an offset on. -/
def read (a : Allocation) (offset length : Nat) : List UInt8 :=
  (a.extract offset (offset + length)).toList

/-- Replace the bytes from an offset on. -/
def write (a : Allocation) (offset : Nat) : List UInt8 → Allocation
  | [] => a
  | b :: bs => write (a.setIfInBounds offset b) (offset + 1) bs

@[simp] theorem size_write (a : Allocation) (offset : Nat) (bytes : List UInt8) :
    (a.write offset bytes).size = a.size := by
  induction bytes generalizing a offset with
  | nil => rfl
  | cons b bs ih => simp [write, ih]

end Allocation

/-- All allocations, in the order they were made. -/
structure Memory where
  /-- The allocations. -/
  allocations : Array Allocation := #[]
  deriving DecidableEq, Inhabited

namespace Memory

/-- Make an allocation; its number is the number of allocations before it. -/
def allocate (m : Memory) (size : Nat) : Memory := ⟨m.allocations.push (.fresh size)⟩

/-- The length of an allocation. -/
def size? (m : Memory) (alloc : Nat) : Option Nat := m.allocations[alloc]?.map Array.size

/-- The bytes of an allocation from an offset on; none if there is no such
allocation. -/
def read (m : Memory) (alloc offset length : Nat) : List UInt8 :=
  match m.allocations[alloc]? with
  | some a => a.read offset length
  | none => []

/-- Replace the bytes of an allocation from an offset on. -/
def write (m : Memory) (alloc offset : Nat) (bytes : List UInt8) : Memory :=
  ⟨m.allocations.modify alloc fun a => a.write offset bytes⟩

end Memory

end TapeFlow
