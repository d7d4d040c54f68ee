import Mathlib.Data.Int.Log
import Mathlib.Data.Rat.Floor

/-!
# Rounding to binary floating point

The rounding of an exact number to the nearest number of a binary format, with ties to the even
one and with gradual underflow. A result is an exact number again. The exponents of a format are
bounded below only, so numbers that are too large for the format are out of scope.

## Main definitions

* `roundEven`: the nearest integer.
* `Format`, `Format.round`: a binary format, and the nearest number of it.
* `binary32`, `binary64`: single and double precision.
-/

namespace Floats

/-- The nearest integer, the even one of two. -/
def roundEven (q : ℚ) : ℤ :=
  if q - ⌊q⌋ < 1 / 2 then ⌊q⌋ else if 1 / 2 < q - ⌊q⌋ then ⌊q⌋ + 1 else ⌊q⌋ + ⌊q⌋ % 2

/-- The numbers of a binary format: `precision` binary digits, of which the last is worth at least
`2 ^ minExp`. -/
structure Format where
  precision : ℕ
  minExp : ℤ

namespace Format

variable (F : Format)

/-- What the last digit of a number near `q` is worth. -/
def ulp (q : ℚ) : ℚ := 2 ^ max (Int.log 2 |q| + 1 - F.precision) F.minExp

/-- The nearest number of the format. -/
def round (q : ℚ) : ℚ := roundEven (q / F.ulp q) * F.ulp q

end Format

def binary32 : Format := ⟨24, -149⟩

def binary64 : Format := ⟨53, -1074⟩

end Floats
