import Juggling.Flight.Aim
import Juggling.Flight.Toss

namespace Juggling

/-- A flight that strikes the floor before the catch. -/
structure Bounce (α : Type) where
  launch : Launch α
  court : Court α
  /-- Velocity to the side along `x` and along `y`. -/
  sideways : α × α
  course : Course α

namespace Bounce

variable {α : Type} [Scalar α]

def knownKeys : List String := ["bounces", "bounceplane", "bouncefrac", "g", "forced", "hyper"]

/-- More bounces than the largest count are taken as that. -/
def countOf (x : α) : Nat := min (Scalar.floorInt x).toNat (Text.natLimit - 1)

def build [Numeral α] (m : Modifier) (l : Launch α) : Except (FlightError α) (Bounce α) := do
  m.rejectUnknown .bounce knownKeys
  let bounces : α ← m.number "bounces" 1
  if bounces < 1 || !Scalar.isWhole bounces then
    throw (.invalidNumber "bounces" bounces)
  let kept : α ← m.number "bouncefrac" 0.9
  if !(0 < kept && kept ≤ 1) then
    throw (.invalidNumber "bouncefrac" kept)
  let g : α ← m.number "g" Modifier.gravity
  if g ≤ 0 then
    throw (.invalidNumber "g" g)
  let floor : α ← m.number "bounceplane" 0
  let forced ← m.flag "forced"
  let hyper ← m.flag "hyper"
  let p := l.start.position
  let q := l.stop.position
  if p.z ≤ floor || q.z ≤ floor then
    throw .notAboveFloor
  let court : Court α := { floor, kept, g }
  let aim : Aim α :=
    { court, bounces := countOf bounces, startHeight := p.z, endHeight := q.z
      duration := l.duration, forced, hyper }
  let speed ← aim.launchSpeed
  -- The speed was found for this very course, so it exists.
  match court.course? aim.bounces p.z l.duration speed with
  | none => throw .wrongBounceCount
  | some course =>
    return { launch := l, court, sideways := ((q.x - p.x) / l.duration, (q.y - p.y) / l.duration)
             course := course.later l.start.time }

def heightAt (f : Bounce α) (t : α) : α :=
  (pieceAt Arc.time t f.course.first f.course.rebounds).heightAt f.court.g t

def position (f : Bounce α) (t : α) : Coordinate α :=
  let p := f.launch.start.position
  let s := t - f.launch.start.time
  ⟨p.x + f.sideways.1 * s, p.y + f.sideways.2 * s, Scalar.larger (f.heightAt t) f.court.floor⟩

def startVelocity (f : Bounce α) : Coordinate α :=
  ⟨f.sideways.1, f.sideways.2, f.course.first.speed⟩

def endVelocity (f : Bounce α) : Coordinate α := ⟨f.sideways.1, f.sideways.2, f.course.endSpeed⟩

/-- Contacts with the floor and the tops of the arcs are the only turns. -/
def turns (f : Bounce α) : List α :=
  (f.course.first :: f.course.rebounds).flatMap fun a ↦ [a.time, a.apex f.court.g]

def extreme (f : Bounce α) (e : Extreme) (w : Window α) : Option (Coordinate α) := do
  let w ← f.launch.range.clip? w
  e.ofList? (f.position w.low :: f.position w.high :: (f.turns.filter w.inside).map f.position)

end Bounce

end Juggling
