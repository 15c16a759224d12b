import LoopKernel.Checked

/-!
# Element types

The types of array elements and scalars.
-/

namespace LoopKernel

/-- An element type. -/
inductive Dtype where
  | int32
  | int64
  | float32
  | float64
deriving DecidableEq, Repr

namespace Dtype

/-- The name of a type. -/
def name : Dtype → String
  | .int32 => "int32"
  | .int64 => "int64"
  | .float32 => "float32"
  | .float64 => "float64"

/-- The type of a name. -/
def ofName? : String → Option Dtype
  | "int32" => some .int32
  | "int64" => some .int64
  | "float32" => some .float32
  | "float64" => some .float64
  | _ => none

/-- Size of an element in bytes. -/
def itemsize : Dtype → Nat
  | .int32 | .float32 => 4
  | .int64 | .float64 => 8

/-- Elements are at least four bytes long. -/
theorem four_le_itemsize (t : Dtype) : 4 ≤ t.itemsize := by cases t <;> decide

/-- Whether elements are floating-point numbers. -/
def isFloat : Dtype → Bool
  | .float32 | .float64 => true
  | .int32 | .int64 => false

/-- The integers of the type; types other than `int32` use those of 64-bit words. -/
def integers : Dtype → WordRange
  | .int32 => .signed32
  | _ => .signed64

end Dtype

end LoopKernel
