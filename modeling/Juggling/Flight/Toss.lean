import Juggling.Curve.Knots
import Juggling.Flight.Modifier

namespace Juggling

structure Launch (α : Type) where
  start : Knot α
  stop : Knot α

namespace Launch

variable {α : Type} [Scalar α]

def duration (l : Launch α) : α := l.stop.time - l.start.time

def range (l : Launch α) : Window α := ⟨l.start.time, l.stop.time⟩

end Launch

/-- A free flight: uniform motion to the side and constant pull downwards. -/
structure Toss (α : Type) where
  launch : Launch α
  /-- On leaving the hand. -/
  velocity : Coordinate α
  g : α

namespace Toss

variable {α : Type} [Scalar α]

def ofLaunch (g : α) (l : Launch α) : Toss α :=
  let d := l.duration
  let delta := l.stop.position - l.start.position
  { launch := l
    velocity := ⟨delta.x / d, delta.y / d, (delta.z + 0.5 * g * d * d) / d⟩
    g }

def build [Numeral α] (m : Modifier) (l : Launch α) : Except (FlightError α) (Toss α) := do
  m.rejectUnknown .toss ["g"]
  let g ← m.number "g" Modifier.gravity
  .ok (ofLaunch g l)

def position (f : Toss α) (t : α) : Coordinate α :=
  let p := f.launch.start.position
  let s := t - f.launch.start.time
  ⟨p.x + f.velocity.x * s, p.y + f.velocity.y * s, p.z + f.velocity.z * s - 0.5 * f.g * s * s⟩

def startVelocity (f : Toss α) : Coordinate α := f.velocity

def endVelocity (f : Toss α) : Coordinate α :=
  ⟨f.velocity.x, f.velocity.y, f.velocity.z - f.g * f.launch.duration⟩

/-- When the vertical velocity is zero, if it ever changes. -/
def turnTime? (f : Toss α) : Option α :=
  if f.g == 0 then none else some (f.launch.start.time + f.velocity.z / f.g)

def extreme (f : Toss α) (e : Extreme) (w : Window α) : Option (Coordinate α) := do
  let w ← f.launch.range.clip? w
  let turn := f.turnTime?.toList.filter w.inside
  e.ofList? (f.position w.low :: f.position w.high :: turn.map f.position)

end Toss

end Juggling
