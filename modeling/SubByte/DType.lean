/-
# Element types — what a buffer may hold

Activations, scales, biases and outputs are of one float type; packed weights and gather
indices are 32-bit words.  Bytes and signed words can be held as well, although no
product reads them.
-/
import SubByte.Binary.Basic

namespace SubByte

/-- The storage formats of activations, scales, biases and outputs. -/
inductive FloatType where
  | f32
  | f16
  | bf16
deriving DecidableEq, Repr

/-- The type of a buffer's elements. -/
inductive DType where
  | float (type : FloatType)
  | u8
  | u32
  | i32
deriving DecidableEq, Repr

namespace FloatType

/-- The format in which a float type is stored. -/
def format : FloatType → Format
  | f32 => .single
  | f16 => .half
  | bf16 => .brain

end FloatType

namespace DType

/-- The values of an element type. -/
abbrev Elem : DType → Type
  | float t => Binary t.format
  | u8 => UInt8
  | u32 => UInt32
  | i32 => Int32

/-- The float type among the element types, if it is one. -/
def floatType? : DType → Option FloatType
  | float t => some t
  | _ => none

/-- The name that messages use. -/
def name : DType → String
  | float .f32 => "F32"
  | float .f16 => "F16"
  | float .bf16 => "BF16"
  | u8 => "U8"
  | u32 => "U32"
  | i32 => "I32"

end DType

end SubByte
