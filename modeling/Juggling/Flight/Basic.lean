import Juggling.Flight.Bounce

namespace Juggling

/-- The way of a prop from a throw to the catch. Outside the time of the flight it goes on as it
starts and ends. -/
inductive Flight (α : Type) where
  | toss (f : Toss α)
  | bounce (f : Bounce α)

namespace Flight

variable {α : Type} [Scalar α]

def build [Numeral α] (kind : ThrowKind) (modifier : String) (l : Launch α) :
    Except (FlightError α) (Flight α) :=
  if l.start.time < l.stop.time then
    match kind with
    | .toss => (Toss.build (Modifier.parse modifier) l).map toss
    | .bounce => (Bounce.build (Modifier.parse modifier) l).map bounce
  else .error (.nonPositiveDuration l.start.time l.stop.time)

def kind : Flight α → ThrowKind
  | toss _ => .toss
  | bounce _ => .bounce

def range : Flight α → Window α
  | toss f => f.launch.range
  | bounce f => f.launch.range

def position : Flight α → α → Coordinate α
  | toss f => f.position
  | bounce f => f.position

def startVelocity : Flight α → Coordinate α
  | toss f => f.startVelocity
  | bounce f => f.startVelocity

def endVelocity : Flight α → Coordinate α
  | toss f => f.endVelocity
  | bounce f => f.endVelocity

/-- Over the part of a window that the flight takes, unless that is empty. -/
def extreme : Flight α → Extreme → Window α → Option (Coordinate α)
  | toss f => f.extreme
  | bounce f => f.extreme

end Flight

namespace FlightError

variable {α : Type} [Numeral α]

def message : FlightError α → String
  | unknownThrowType name => s!"unknown throw type \"{name}\""
  | unknownParameter kind key => s!"unknown parameter \"{key}\" for {kind.name} throw"
  | invalidText key value => s!"invalid value \"{value}\" for parameter \"{key}\""
  | invalidNumber key value =>
    s!"invalid value \"{Numeral.write value}\" for parameter \"{key}\""
  | nonPositiveDuration start stop =>
    s!"throw at t={Numeral.write start} must land after it starts (catch at t={Numeral.write stop})"
  | notAboveFloor => infeasible "throw and catch must both be above the floor"
  | noLaunchSpeed bounces duration =>
    infeasible s!"no launch speed gives {bounces} bounce(s) in {Numeral.writeFixed 3 duration}s"
  | wrongBounceCount => infeasible "solver converged outside the bounce count"
where
  infeasible (reason : String) : String := "bounce path cannot be satisfied: " ++ reason

end FlightError

end Juggling
