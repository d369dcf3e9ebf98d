/-!
The predeclared scalar types.
-/
namespace TreeLowering

/-- The scalar types, in the order of their numbers from one. -/
inductive Scalar where
  | bool | i8 | i16 | i32 | i64 | u8 | u16 | u32 | u64 | mm | f32 | f64 | void
deriving DecidableEq, Repr, Inhabited

namespace Scalar

/-- Every scalar type, in order. -/
def all : List Scalar := [
  .bool, .i8, .i16, .i32, .i64, .u8, .u16, .u32, .u64, .mm, .f32, .f64, .void]

/-- The scalar type with a number; numbers start at one. -/
def ofNumber? : Nat → Option Scalar
  | 0 => none
  | n + 1 => all[n]?

/-- The number of a scalar type. -/
def number (k : Scalar) : Nat := all.idxOf k + 1

/-- The name of a scalar type. -/
def name : Scalar → String
  | .bool => "bool"
  | .i8 => "i8" | .i16 => "i16" | .i32 => "i32" | .i64 => "i64"
  | .u8 => "u8" | .u16 => "u16" | .u32 => "u32" | .u64 => "u64"
  | .mm => "mm"
  | .f32 => "f32" | .f64 => "f64"
  | .void => "void"

/-- The width in bits; void has none. -/
def bits : Scalar → Nat
  | .bool => 1
  | .i8 | .u8 => 8
  | .i16 | .u16 => 16
  | .i32 | .u32 | .f32 => 32
  | .i64 | .u64 | .mm | .f64 => 64
  | .void => 0

/-- Whether a scalar type is `bool`. -/
def isBoolean (k : Scalar) : Bool := k = .bool

/-- Whether a scalar type is an integer type without a sign. -/
def isUnsigned : Scalar → Bool
  | .u8 | .u16 | .u32 | .u64 | .mm => true
  | _ => false

/-- Whether a scalar type is an integer type. -/
def isInteger : Scalar → Bool
  | .i8 | .i16 | .i32 | .i64 => true
  | k => k.isUnsigned

/-- Whether a scalar type is a floating-point type. -/
def isFloat : Scalar → Bool
  | .f32 | .f64 => true
  | _ => false

/-- Whether a scalar type is `void`. -/
def isVoid (k : Scalar) : Bool := k = .void

/-- The classes of a scalar type as a sum of powers of two: boolean, integer, unsigned, float,
    void. -/
def classes (k : Scalar) : Nat :=
  k.isBoolean.toNat + 2 * k.isInteger.toNat + 4 * k.isUnsigned.toNat + 8 * k.isFloat.toNat +
    16 * k.isVoid.toNat

end Scalar

end TreeLowering
