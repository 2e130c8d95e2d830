import Juggling.Curve.Line
import Juggling.Curve.Spline
import Juggling.Event
import Juggling.Placement

namespace Juggling

/-- Event times closer than this are the same moment. -/
def timeTolerance {α : Type} [Scalar α] : α := 1e-9

/-- Where one juggler stands and faces over a loop. -/
inductive Track (α : Type) where
  | standing (p : Placement α)
  /-- Curves over one period from the first declared position on. The angle is the `x` of its
  curve. -/
  | moving (start period : α) (place : Spline α) (angle : Line α)

namespace Track

variable {α : Type} [Scalar α]

/-- Positions within the loop in the order of their declaration, except those at the time of an
earlier one. -/
def used (loop : Window α) (positions : List (Position α)) : List (Position α) :=
  positions.foldl (fun kept p ↦
    if p.time < loop.low - timeTolerance || loop.high - timeTolerance ≤ p.time
        || kept.any fun k ↦ Scalar.abs (k.time - p.time) < timeTolerance
    then kept else kept ++ [p]) []

def sorted (positions : List (Position α)) : List (Position α) :=
  positions.mergeSort fun p q ↦ Scalar.precedes p.time q.time

/-- A difference of angles, in degrees, the short way round. -/
def shortWay (d : α) : α :=
  let r := Scalar.remainder d 360
  if 180 < r then r - 360 else r

/-- Angles that follow an angle, each reached the short way round. -/
def unwrap (before : α) : List α → List α
  | [] => []
  | a :: as =>
    let next := before + shortWay (a - before)
    next :: unwrap next as

/-- A closed way through positions in order of time. -/
def through (period : α) (first second : Position α) (rest : List (Position α)) :
    Except (CurveError α) (Track α) := do
  let stops := second :: rest ++ [first]
  -- The way closes at the first position, one period later.
  let times := first.time :: second.time :: rest.map (·.time) ++ [first.time + period]
  let angles := first.angle :: unwrap first.angle (stops.map (·.angle))
  let places := first.place :: stops.map (·.place)
  let place ← Spline.ofKnots (← Knots.ofLists places times none none)
  let turns ← Knots.ofLists (angles.map fun a ↦ ⟨a, 0, 0⟩) times none none
  .ok (.moving first.time period place ⟨turns⟩)

def build (juggler jugglers : Nat) (positions : List (Position α)) (loop : Window α) :
    Except (CurveError α) (Track α) :=
  match sorted (used loop positions) with
  | [] => .ok (.standing (Placement.default juggler jugglers))
  | [p] => .ok (.standing ⟨p.place, p.angle⟩)
  | first :: second :: rest => through (loop.high - loop.low) first second rest

def wrap (start period t : α) : α := start + Scalar.remainder (t - start) period

def place : Track α → α → Coordinate α
  | standing p, _ => p.place
  | moving start period c _, t => c.position (wrap start period t)

/-- In degrees. -/
def angle : Track α → α → α
  | standing p, _ => p.angle
  | moving start period _ c, t => (c.position (wrap start period t)).x

def placement (k : Track α) (t : α) : Placement α := ⟨k.place t, k.angle t⟩

def bound? : Track α → Extreme → Option (Coordinate α)
  | standing p, _ => some p.place
  | moving _ _ c _, e => c.extreme e c.knots.range

end Track

end Juggling
