import Juggling.Curve.Knots

namespace Juggling

structure Leg (α : Type) where
  start : Knot α
  stop : Knot α

/-- The curve that runs straight from knot to knot. Velocities at the ends play no part. -/
structure Line (α : Type) where
  knots : Knots α

namespace Leg

variable {α : Type}

def ofKnots (before : Knot α) : List (Knot α) → List (Leg α)
  | [] => []
  | k :: ks => ⟨before, k⟩ :: ofKnots k ks

variable [Scalar α]

/-- Before and after the leg its line goes on. -/
def position (leg : Leg α) (t : α) : Coordinate α :=
  let fraction := (t - leg.start.time) / (leg.stop.time - leg.start.time)
  leg.start.position.lerp leg.stop.position fraction

end Leg

namespace Line

variable {α : Type} [Scalar α]

def position (c : Line α) (t : α) : Coordinate α :=
  let k := c.knots
  (pieceAt (·.start.time) t ⟨k.first, k.second⟩ (Leg.ofKnots k.second k.rest)).position t

/-- Between knots a component runs straight, so the ends of the window and the knots inside it
decide. -/
def extreme (c : Line α) (e : Extreme) (w : Window α) : Option (Coordinate α) := do
  let w ← c.knots.range.clip? w
  let inner := c.knots.toList.filter fun k ↦ w.inside k.time
  e.ofList? (c.position w.low :: c.position w.high :: inner.map Knot.position)

instance : Curve Line where
  ofKnots k := .ok ⟨k⟩
  position := position
  extreme := extreme

end Line

end Juggling
