/-!
# Double precision

The values of a calculation are binary floating-point numbers of 64 bits. This module relates
their bit patterns to exact arithmetic on natural numbers.

The *magnitude* of a number is its bit pattern without the sign. Magnitudes are ordered as the
numbers are, and every finite one is a whole number of units of `2⁻¹⁰⁷⁴`: `units` counts them, and
`nearest` is the magnitude closest to a quotient of natural numbers.
-/

namespace InfixCalculator

/-- The quotient of two natural numbers, rounded to the nearest natural number. A half goes to the
even neighbour. -/
def roundDiv (num den : Nat) : Nat :=
  let floor := num / den
  let twice := 2 * (num % den)
  if twice < den ∨ (twice = den ∧ floor % 2 = 0) then floor else floor + 1

/-- What a bit pattern stands for. -/
inductive Binary64 where
  | nan
  /-- A number beyond all finite ones. -/
  | infinity (negative : Bool)
  | finite (negative : Bool) (magnitude : Nat)
  deriving DecidableEq, Repr

namespace Binary64

-- Powers are written by name, because which of them `^` stands for depends on the imports.

/-- The number of magnitudes that share an exponent. -/
def binade : Nat := Nat.pow 2 52

/-- The unit of magnitudes is one part in so many. -/
def unitsPerOne : Nat := Nat.pow 2 1074

/-- The magnitude of infinity, above all finite ones. -/
def infinityMagnitude : Nat := 2047 * binade

/-- How many units of `2⁻¹⁰⁷⁴` a finite magnitude is. The two lowest binades have the spacing of
one unit, and each further one doubles it. -/
def units (magnitude : Nat) : Nat :=
  let doublings := magnitude / binade - 1
  (magnitude - doublings * binade) * Nat.pow 2 doublings

/-- The magnitude nearest to `num / den`. A tie goes to the even magnitude, and a quotient too large
for the finite ones is infinite. -/
def nearest (num den : Nat) : Nat :=
  let scaled := num * unitsPerOne
  -- the spacing of the binade that holds the quotient
  let doublings := (scaled / den).log2 - 52
  -- rounding up to the end of a binade gives the first magnitude of the next one
  min (doublings * binade + roundDiv scaled (den * Nat.pow 2 doublings)) infinityMagnitude

/-- The nonnegative number of a magnitude. -/
def toFloat (magnitude : Nat) : Float :=
  Float.ofBits magnitude.toUInt64

/-- What the bits of a number stand for. -/
def ofFloat (x : Float) : Binary64 :=
  let bits := x.toBits.toNat
  let negative := decide (Nat.pow 2 63 ≤ bits)
  let magnitude := bits % Nat.pow 2 63
  if magnitude < infinityMagnitude then finite negative magnitude
  else if magnitude = infinityMagnitude then infinity negative
  else nan

end Binary64

end InfixCalculator
