import InfixCalculator.Decimal

/-!
# Texts of values

A value has two texts. The displayed one always has a decimal part, gives every digit of an integer
and does not tell the two zeros apart. The plain one is the shortest decimal, with the sign of zero.
Neither uses an exponent.
-/

namespace InfixCalculator.Value

/-- The sign that stands in front of a text. -/
def sign (negative : Bool) : String :=
  if negative then "-" else ""

/-- The decimal that a finite magnitude is displayed as: the magnitude itself with one zero behind
the point if it is an integer, the shortest decimal otherwise. -/
def displayed (magnitude : Nat) : Decimal :=
  if Binary64.units magnitude % Binary64.unitsPerOne = 0 then
    { digits := Binary64.units magnitude / Binary64.unitsPerOne * 10, exponent := -1 }
  else Decimal.shortest magnitude

/-- A value as it is shown as a result. -/
def display (x : Float) : String :=
  match Binary64.ofFloat x with
  | .nan => "NaN"
  | .infinity negative => sign negative ++ "Infinity"
  | .finite negative magnitude => sign (negative && magnitude ≠ 0) ++ (displayed magnitude).toPlain

/-- A value as it is noted in a journal. -/
def plain (x : Float) : String :=
  match Binary64.ofFloat x with
  | .nan => "NaN"
  | .infinity negative => sign negative ++ "inf"
  | .finite negative magnitude => sign negative ++ (Decimal.shortest magnitude).toPlain

/-- An integer is displayed with all its digits, but noted with no more than identify it. -/
example :
    let x := Binary64.toFloat 0x43B0000000000000
    display x = "1152921504606846976.0" ∧ plain x = "1152921504606847000" := by
  decide +kernel

/-- The negative zero is displayed without its sign, but noted with it. -/
example :
    let x := Float.ofBits 0x8000000000000000
    display x = "0.0" ∧ plain x = "-0" := by
  decide +kernel

/-- Whether two values cannot be told apart: they have the same bits, or neither is a number. -/
def same (x y : Float) : Bool :=
  x.toBits = y.toBits || (x.isNaN && y.isNaN)

end InfixCalculator.Value
