import InfixCalculator.Layout

/-!
# The drawing of a tree

A tree is drawn into a zone of the screen: the background first, then a segment from every node to
its parent, then the nodes. The zone is tall enough for every level of a tree of moderate depth;
what does not fit is reached by zooming about the middle of the zone and by moving the drawing.
-/

namespace InfixCalculator

/-- A colour with its opacity. -/
structure Color where
  red : UInt8
  green : UInt8
  blue : UInt8
  alpha : UInt8
  deriving DecidableEq, Repr

/-- Something that is painted. A disc is filled, a ring is the outline of a circle, and a text
stands around its point. -/
inductive Shape where
  | background (zone : Rect)
  | segment (start stop : Point) (width : Float32) (color : Color)
  | disc (center : Point) (radius : Float32) (fill : Color)
  | ring (center : Point) (radius : Float32) (width : Float32) (color : Color)
  | text (center : Point) (content : String) (size : Float32) (color : Color)

/-- The part of the screen that a tree is drawn into, and how it is looked at. -/
structure View where
  zone : Rect
  zoom : Float32
  /-- How far the drawing has been moved. -/
  offset : Point

namespace View

/-- The point of the screen where a point of the layout appears: magnified about the middle of the
zone, then moved. -/
def toScreen (view : View) (point : Point) : Point :=
  let middle := view.zone.center
  ⟨middle.x + (point.x - view.zone.width / 2) * view.zoom + view.offset.x,
   middle.y + (point.y - view.zone.height / 2) * view.zoom + view.offset.y⟩

end View

namespace Drawing

def operationFill : Color := ⟨0x21, 0x96, 0xF3, 255⟩

def numeralFill : Color := ⟨0xE3, 0xF2, 0xFD, 255⟩

def operationInk : Color := ⟨255, 255, 255, 255⟩

def numeralInk : Color := ⟨0, 0, 0, 255⟩

/-- Outlines and segments. -/
def lineColor : Color := ⟨0x19, 0x76, 0xD2, 255⟩

/-- The radius of a node. -/
def radius : Float32 := 30

/-- The width of outlines and segments. -/
def lineWidth : Float32 := 2

/-- The size of labels. -/
def labelSize : Float32 := 18

/-- The vertical coordinate of the root. -/
def rootHeight : Float32 := 60

/-- The least height of a zone. -/
def minHeight : Float32 := 300

/-- The greatest height of a zone. -/
def maxHeight : Float32 := 600

/-- The segment from a node to its parent; the root has none. -/
def segment? (view : View) (places : Array Place) (place : Place) : Option Shape := do
  let parent ← places[← place.parent]?
  return .segment (view.toScreen parent.center) (view.toScreen place.center)
    (lineWidth * view.zoom) lineColor

/-- A node: a filled circle, its outline, and its label, which is painted even if it is empty. -/
def node (view : View) (place : Place) : List Shape :=
  let center := view.toScreen place.center
  let radius := radius * view.zoom
  [.disc center radius (if place.isOperation then operationFill else numeralFill),
   .ring center radius (lineWidth * view.zoom) lineColor,
   .text center place.label (labelSize * view.zoom)
    (if place.isOperation then operationInk else numeralInk)]

end Drawing

namespace Tree

/-- The height of the zone that a tree is drawn into: room for every level, within bounds. -/
def zoneHeight (tree : Tree) : Float32 :=
  clamp Drawing.minHeight Drawing.maxHeight
    (Drawing.rootHeight + Float32.ofNat (tree.depth - 1) * Layout.levelHeight + Drawing.radius * 2)

/-- The zone that a tree is drawn into, given its upper left corner and its width. -/
def zone (tree : Tree) (corner : Point) (width : Float32) : Rect :=
  Rect.ofSize corner width tree.zoneHeight

/-- The shapes of a drawing in the order in which they are painted. -/
def drawing (tree : Tree) (view : View) : List Shape :=
  let half := view.zone.width / 2
  let places := tree.layout ⟨half, Drawing.rootHeight⟩ half
  .background view.zone ::
    places.toList.filterMap (Drawing.segment? view places) ++
    places.toList.flatMap (Drawing.node view)

end Tree

end InfixCalculator
