import Mathlib.Algebra.Order.Ring.Rat
import GenericOs.Library.Rounding

/-! # The random generator of `Random.c` -/

namespace GenericOs.Random

structure Seed where
  x : BitVec 64
  y : BitVec 64
  z : BitVec 64
  w : BitVec 64
  deriving DecidableEq

/-- `SEED` before the first call. -/
def seed : Seed :=
  { x := 1565656567876664, y := 5486757654245657683, z := 94587956787643467, w := BitVec.ofNat 64 (2 ^ 63 - 1) }

/-- `(double)x` has 53 significant bits. -/
def double (x : BitVec 64) : Nat := Rounding.round 53 x.toNat

/-- The result and the new `SEED`. The divisor is rounded to a power of two: the quotient is exact. -/
def random (s : Seed) : ℚ × Seed :=
  let t := s.x ^^^ (s.x <<< 11)
  let x := s.y
  let y := s.z
  let z := s.w
  let w := (s.w ^^^ (s.w >>> 19)) ^^^ (t ^^^ (t >>> 8))
  (double w / double (~~~0), { x := x, y := y, z := z, w := w })

end GenericOs.Random
