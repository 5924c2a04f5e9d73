import InfixCalculator.Binary64

/-!
# Decimal numbers

Nonnegative numbers with finitely many decimal digits, the double-precision number nearest to each
of them, and their positional notation.

Among the decimals that read back as a given number, the one with the fewest digits is wanted, and
among those the nearest. The multiples of `10 ^ e` form a grid; if any point of it reads back as the
number, so does one of the two points around the number. The grids are therefore tried from the
coarsest to the finest, on each the two neighbours, and the first hit is the answer (`shortest`).
-/

namespace InfixCalculator

/-- The number `digits · 10 ^ exponent`. -/
structure Decimal where
  /-- The digits, read as a natural number. -/
  digits : Nat
  /-- The place of the last digit: `0` for the units, `-2` for the hundredths. -/
  exponent : Int
  deriving DecidableEq, Repr

namespace Decimal

/-- The numerator of a decimal as a fraction over `denominator`. -/
def numerator (d : Decimal) : Nat :=
  d.digits * Nat.pow 10 d.exponent.toNat

/-- The power of ten below the fraction bar. -/
def denominator (d : Decimal) : Nat :=
  Nat.pow 10 (-d.exponent).toNat

/-- The magnitude nearest to a decimal. -/
def magnitude (d : Decimal) : Nat :=
  Binary64.nearest d.numerator d.denominator

/-- A natural number written with at least `width` digits. -/
def padded (width n : Nat) : String :=
  String.ofList (List.replicate (width - (Nat.toDigits 10 n).length) '0' ++ Nat.toDigits 10 n)

/-- A decimal in positional notation: the integer part, and behind a point all decimals down to the
place of the last digit. -/
def toPlain (d : Decimal) : String :=
  match d.exponent with
  | .ofNat zeros => (d.digits * Nat.pow 10 zeros).repr
  | .negSucc n =>
    let places := n + 1
    (d.digits / Nat.pow 10 places).repr ++ "." ++ padded places (d.digits % Nat.pow 10 places)

/-! ## The shortest decimal of a number -/

/-- A number that lies on or above a point of a grid, and below the next one. -/
structure Position where
  /-- The point below, as a multiple of the grid's spacing. -/
  floor : Nat
  /-- Whether the point above is at least as near. -/
  upper : Bool

/-- Where a magnitude lies on the grid of the multiples of `10 ^ exponent`. -/
def position (magnitude : Nat) (exponent : Int) : Position :=
  let num := Binary64.units magnitude * Nat.pow 10 (-exponent).toNat
  let den := Binary64.unitsPerOne * Nat.pow 10 exponent.toNat
  { floor := num / den, upper := den ≤ 2 * (num % den) }

/-- The point of the grid nearest to a magnitude among those that read back as it; of two equally
near ones the upper. -/
def onGrid? (magnitude : Nat) (exponent : Int) : Option Decimal :=
  let position := position magnitude exponent
  let below : Decimal := ⟨position.floor, exponent⟩
  let above : Decimal := ⟨position.floor + 1, exponent⟩
  let candidates := if position.upper then [above, below] else [below, above]
  candidates.find? (·.magnitude = magnitude)

/-- The first hit on the grids from the given exponent down, or else the decimal on the last one. -/
def firstHit (grid? : Int → Option Decimal) (last : Decimal) (exponent : Int) :
    (finer : Nat) → Decimal
  | 0 => last
  | finer + 1 =>
    match grid? exponent with
    | some decimal => decimal
    | none => firstHit grid? last (exponent - 1) finer

/-- The exponent of a grid whose spacing exceeds the magnitude. -/
def coarsest (magnitude : Nat) : Nat :=
  -- an integer part below `2 ^ (l + 1)` is below `8 ^ (l / 3 + 1)`, hence below that power of ten
  (Binary64.units magnitude / Binary64.unitsPerOne).log2 / 3 + 1

/-- The exponent of the finest grid. It holds every magnitude, since its spacing divides
the unit. -/
def finest : Int := -1074

/-- The shortest decimal that reads back as a finite magnitude. -/
def shortest (magnitude : Nat) : Decimal :=
  let last : Decimal := ⟨(position magnitude finest).floor, finest⟩
  firstHit (onGrid? magnitude) last (coarsest magnitude) (coarsest magnitude - finest).toNat

/-- The tenth is not a double, but no shorter decimal reads back as the double nearest to it. -/
example : shortest 0x3FB999999999999A = ⟨1, -1⟩ := by decide +kernel

/-- Both neighbours with one decimal read back as this number halfway between them. -/
example : shortest 0x430C6BF526340002 = ⟨10000000000000003, -1⟩ := by decide +kernel

end Decimal

end InfixCalculator
