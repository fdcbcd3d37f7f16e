import MapChain.Json.Path
import MapChain.SourceMap.Lookup

/-!
# Relocating the nodes of a tree

A node of a syntax tree carries its location in a member `loc` or `location`, an object whose
members `start` and `end` are points: objects with a line and a column. `relocate` moves every such
point to where a source map says it comes from. The two points of a location move independently, and
a point that the map does not resolve stays. Nothing is added or removed.

The tree is changed in place while it is walked. A value that is visited has the points of its
locations moved, two levels below it, and then the values in it wait to be visited themselves.
Locations may stand anywhere, inside other locations and inside points as well.
-/

namespace MapChain

namespace Relocate

/-! ## Points -/

/-- The members of a node that hold its location. -/
def locationNames : List String := ["loc", "location"]

/-- The members of a location that hold its points. -/
def pointNames : List String := ["start", "end"]

/-- The ways from a node to the points of its locations. -/
def pointPaths : List Json.Path :=
  locationNames.flatMap fun key => pointNames.map fun edge => [.member key, .member edge]

/-- The position that the members of a point give. -/
def position? (members : Fields) : Option Position := do
  let line ← (← members.get? "line").uint32?
  let column ← (← members.get? "column").uint32?
  return ⟨line, column⟩

/-- Where a point comes from. -/
def target? (map : SourceMap) (members : Fields) : Option Position :=
  (position? members).bind fun p => (map.trace p).map (·.position)

/-- Sets the line and the column of a point. -/
def setPosition (p : Position) (members : Fields) : Fields :=
  (members.insert "line" (.ofUInt32 p.line)).insert "column" (.ofUInt32 p.column)

/-! ## The walk -/

/-- A tree that is being walked. -/
structure Walk where
  tree : Json
  /-- The paths of the values to visit, the next one first. -/
  pending : List Json.Path
  /-- The number of points that have been moved. -/
  moved : Nat

namespace Walk

/-- Moves the point that a path leads to, if it leads to one and the map resolves it. -/
def movePoint (map : SourceMap) (w : Walk) (point : Json.Path) : Walk :=
  match (w.tree.at? point).bind Json.fields? with
  | none => w
  | some members =>
    match target? map members with
    | none => w
    | some p =>
      { w with
        tree := w.tree.modify (fun _ => .object (setPosition p members)) point
        moved := w.moved + 1 }

/-- Moves the points of the locations of a value. -/
def movePoints (map : SourceMap) (w : Walk) (node : Json.Path) : Walk :=
  (pointPaths.map (node ++ ·)).foldl (movePoint map) w

/-- Visits the next value. Of the values in it the last one is visited first. -/
def step (map : SourceMap) (w : Walk) : Walk :=
  match w.pending with
  | [] => w
  | node :: pending =>
    let w := movePoints map { w with pending } node
    { w with pending := (w.tree.pathsBelow node).reverse ++ w.pending }

/-- Visits a number of values. -/
def run (map : SourceMap) : Nat → Walk → Walk
  | 0, w => w
  | n + 1, w => run map n (w.step map)

end Walk

end Relocate

/-- Moves every location of a tree to where it comes from; the number says how many points moved.
Every value is visited once. -/
def relocate (map : SourceMap) (tree : Json) : Json × Nat :=
  let w := Relocate.Walk.run map tree.paths.length ⟨tree, [[]], 0⟩
  (w.tree, w.moved)

end MapChain
