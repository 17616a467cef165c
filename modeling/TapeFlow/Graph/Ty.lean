/-!
# Value types

The code works on untyped memory with a few integer widths.  A type says how
many bytes a value takes in memory and how many of its bits count; all values
are kept as 64-bit words.
-/

namespace TapeFlow

/-- The type of a value. -/
inductive Ty where
  /-- A truth value. -/
  | i1
  /-- A cell. -/
  | i8
  /-- A status code. -/
  | i32
  /-- A data pointer or a length. -/
  | i64
  /-- An address. -/
  | ptr
  /-- No value. -/
  | void
  deriving DecidableEq, Inhabited

namespace Ty

/-- The name of a type in a listing. -/
def name : Ty → String
  | i1 => "i1"
  | i8 => "i8"
  | i32 => "i32"
  | i64 => "i64"
  | ptr => "ptr"
  | void => "void"

/-- The bytes a value takes in memory; a truth value takes a whole one. -/
def size : Ty → UInt64
  | i1 | i8 => 1
  | i32 => 4
  | i64 | ptr => 8
  | void => 0

/-- The bits of an integer type. -/
def bitWidth? : Ty → Option Nat
  | i1 => some 1
  | i8 => some 8
  | i32 => some 32
  | i64 => some 64
  | ptr | void => none

/-- Keep the bits of a word that count at a type. -/
def truncate (ty : Ty) (word : UInt64) : UInt64 :=
  match ty with
  | i1 => word % 2
  | i8 => word % 0x100
  | i32 => word % 0x100000000
  | i64 | ptr | void => word

/-- Cutting a word down twice is cutting it down once. -/
@[simp] theorem truncate_truncate (ty : Ty) (word : UInt64) :
    ty.truncate (ty.truncate word) = ty.truncate word := by
  cases ty <;> simp [truncate, ← UInt64.toNat_inj]

end Ty

end TapeFlow
