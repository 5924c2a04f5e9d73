/-!
# Points and rectangles

Drawing is done in single precision: every operation is rounded by itself, in the order in which it
is written.
-/

namespace InfixCalculator

/-- A point of the plane, or a displacement. -/
structure Point where
  x : Float32
  y : Float32

/-- A rectangle with sides parallel to the axes. -/
structure Rect where
  /-- The corner with the least coordinates. -/
  min : Point
  /-- The corner with the greatest coordinates. -/
  max : Point

namespace Rect

/-- The rectangle of the given size with the given least corner. -/
def ofSize (min : Point) (width height : Float32) : Rect :=
  ⟨min, ⟨min.x + width, min.y + height⟩⟩

/-- The horizontal extent. -/
def width (rect : Rect) : Float32 :=
  rect.max.x - rect.min.x

/-- The vertical extent. -/
def height (rect : Rect) : Float32 :=
  rect.max.y - rect.min.y

/-- The point in the middle. -/
def center (rect : Rect) : Point :=
  ⟨(rect.min.x + rect.max.x) / 2, (rect.min.y + rect.max.y) / 2⟩

end Rect

/-- The number nearest to `x` in the range from `low` to `high`. What is not a number stays so. -/
def clamp (low high x : Float32) : Float32 :=
  if x < low then low
  else if high < x then high
  else x

end InfixCalculator
