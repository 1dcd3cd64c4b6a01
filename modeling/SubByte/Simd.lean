/-
# SIMD level — what the machine can do, and what it is told to

A detected level can be overridden by a word: three words turn lanes off, and all
others, whether they are meant to keep the level or mean nothing, keep it.  The word is
taken without the white space around it and without regard to the case of ASCII letters.
-/

namespace SubByte

/-- Instruction-set levels. -/
inductive SimdLevel where
  | scalar
  | sse2
  | avx2
  | neon
deriving DecidableEq, Repr

/-- The characters of the Unicode property White_Space. -/
def isBlank (c : Char) : Bool :=
  let v := c.toNat
  (9 ≤ v && v ≤ 13) || v = 32 || v = 133 || v = 160 || v = 5760 || (8192 ≤ v && v ≤ 8202)
    || v = 8232 || v = 8233 || v = 8239 || v = 8287 || v = 12288

/-- A text without the white space at its ends. -/
def trimBlanks (s : List Char) : List Char :=
  ((s.dropWhile isBlank).reverse.dropWhile isBlank).reverse

namespace SimdLevel

/-- All levels. -/
def all : List SimdLevel := [scalar, sse2, avx2, neon]

/-- The name of a level. -/
def name : SimdLevel → String
  | scalar => "scalar"
  | sse2 => "sse2"
  | avx2 => "avx2"
  | neon => "neon"

/-- Whether lanes are to be had. -/
def hasLanes (level : SimdLevel) : Bool :=
  level ≠ scalar

/-- The words that turn lanes off. -/
def disablingWords : List String := ["off", "scalar", "0"]

/-- The level in effect, given the overriding word if there is one. -/
def resolve (override : Option String) (detected : SimdLevel) : SimdLevel :=
  match override with
  | none => detected
  | some text =>
    let word := String.ofList ((trimBlanks text.toList).map Char.toLower)
    if disablingWords.contains word then scalar else detected

end SimdLevel

end SubByte
