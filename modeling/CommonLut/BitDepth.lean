import CommonLut.Scalar
import CommonLut.Text.Blank

/-!
# Bit depths

The numeric domain of a node's input or output. An integer depth of `n` bits carries code values
from zero to `2 ^ n - 1`; a float depth carries values as they are.

Main definitions: `BitDepth`, `BitDepth.normalize`, `BitDepth.denormalize`, `BitDepth.ofToken?`.
-/

namespace CommonLut

/-- The depths of the format. -/
inductive BitDepth where
  | uint8
  | uint10
  | uint12
  | uint16
  | float16
  | float32
deriving DecidableEq, Repr, Inhabited

namespace BitDepth

/-- Every bit depth. -/
def all : List BitDepth := [uint8, uint10, uint12, uint16, float16, float32]

/-! ## §1 Tokens -/

/-- The token of a depth in a document. -/
def token : BitDepth → String
  | uint8 => "8i"
  | uint10 => "10i"
  | uint12 => "12i"
  | uint16 => "16i"
  | float16 => "16f"
  | float32 => "32f"

/-- The depth with a token; blanks around the token mean nothing. -/
def ofToken? (s : String) : Option BitDepth :=
  all.find? fun d => d.token == Text.trim s

/-! ## §2 Scaling -/

/-- Whether the depth carries values as they are. -/
def isFloat : BitDepth → Bool
  | float16 | float32 => true
  | _ => false

/-- Whether the depth carries code values. -/
def isInteger (d : BitDepth) : Bool := !d.isFloat

/-- The value that stands for full intensity: the largest code value, one for a float depth. -/
def fullScale {α : Type} [Scalar α] : BitDepth → α
  | uint8 => 255.0
  | uint10 => 1023.0
  | uint12 => 4095.0
  | uint16 => 65535.0
  | float16 | float32 => 1.0

variable {α : Type} [Scalar α]

/-- Scales a value of this depth so that full intensity becomes one. -/
@[specialize] def normalize (d : BitDepth) (x : α) : α :=
  if d.isFloat then x else x / d.fullScale

/-- Scales a normalized value to this depth. An integer depth clamps it to the code values. -/
@[specialize] def denormalize (d : BitDepth) (x : α) : α :=
  if d.isFloat then x
  else Scalar.atMost d.fullScale (Scalar.atLeast 0.0 (x * d.fullScale))

end BitDepth

end CommonLut
