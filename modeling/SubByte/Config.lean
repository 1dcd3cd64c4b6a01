/-
# Configuration — code widths and group sizes

Six code widths and three group sizes are supported.  Both are types of their own, so
that everything behind `Config.ofParameters` works with a pair that is known to be good;
raw parameters are looked at once, the width before the group size.
-/
import SubByte.Error

namespace SubByte

/-- The supported widths of a code. -/
inductive CodeWidth where
  | two
  | three
  | four
  | five
  | six
  | eight
deriving DecidableEq, Repr

/-- The supported numbers of consecutive weights that share a scale and a bias. -/
inductive GroupSize where
  | g32
  | g64
  | g128
deriving DecidableEq, Repr

namespace CodeWidth

/-- All widths, ascending. -/
def all : List CodeWidth := [two, three, four, five, six, eight]

/-- The bits of one code. -/
def bits : CodeWidth → Nat
  | two => 2
  | three => 3
  | four => 4
  | five => 5
  | six => 6
  | eight => 8

/-- The largest code. -/
def maxCode (width : CodeWidth) : Nat :=
  1 <<< width.bits - 1

/-- The width of the given number of bits. -/
def ofBits (bits : Nat) : Except QuantError CodeWidth :=
  match bits with
  | 2 => .ok two
  | 3 => .ok three
  | 4 => .ok four
  | 5 => .ok five
  | 6 => .ok six
  | 8 => .ok eight
  | _ => .error (.invalidBits bits)

/-- The name of a width. -/
def label (width : CodeWidth) : String :=
  toString width.bits ++ "-bit"

theorem ofBits_bits (width : CodeWidth) : ofBits width.bits = .ok width := by
  cases width <;> rfl

theorem bits_pos (width : CodeWidth) : 0 < width.bits := by
  cases width <;> decide

end CodeWidth

namespace GroupSize

/-- All sizes, ascending. -/
def all : List GroupSize := [g32, g64, g128]

/-- The weights of one group. -/
def size : GroupSize → Nat
  | g32 => 32
  | g64 => 64
  | g128 => 128

/-- The group size of the given number of weights. -/
def ofSize (size : Nat) : Except QuantError GroupSize :=
  match size with
  | 32 => .ok g32
  | 64 => .ok g64
  | 128 => .ok g128
  | _ => .error (.invalidGroupSize size)

theorem ofSize_size (group : GroupSize) : ofSize group.size = .ok group := by
  cases group <;> rfl

theorem size_pos (group : GroupSize) : 0 < group.size := by
  cases group <;> decide

end GroupSize

/-- How weights are quantized. -/
structure Config where
  width : CodeWidth
  group : GroupSize
deriving DecidableEq, Repr

namespace Config

/-- Four bits in groups of 64. -/
def standard : Config := ⟨.four, .g64⟩

/-- The configuration of raw parameters; of two bad ones the width is reported. -/
def ofParameters (bits groupSize : Nat) : Except QuantError Config := do
  let width ← CodeWidth.ofBits bits
  let group ← GroupSize.ofSize groupSize
  return ⟨width, group⟩

theorem ofParameters_eq (config : Config) :
    ofParameters config.width.bits config.group.size = .ok config := by
  simp [ofParameters, CodeWidth.ofBits_bits, GroupSize.ofSize_size, bind, Except.bind, pure,
    Except.pure]

end Config

end SubByte
