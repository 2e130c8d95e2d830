import Juggling.Curve.Knots
import Juggling.Flight.Basic
import Juggling.Hand
import Juggling.Permutation.Notation
import Juggling.Document.Element

namespace Juggling

inductive UserError (α : Type) where
  | handNeverTouched (juggler : Nat) (hand : Hand)
  | pathNeverTouched (path : Nat)
  | successiveThrows (path : Nat)
  | successiveCatches (path : Nat)
  | handChangedWhileHeld (path : Nat)
  | flight (path : Nat) (source : FlightError α)
  | jugglerOutOfRange (juggler jugglers : Nat)
  | pathOutOfRange (path paths : Nat)
  | propOutOfRange (prop props : Nat)
  | assignmentLength (got expected : Nat)
  | noEvents
  | delaySymmetryCount (count : Nat)
  | invalidDelay (delay : α)
  | delayMovesJugglers
  | symmetryGroupTooLarge (limit : Nat)
  | eventCollision (juggler : Nat) (hand : Hand) (time : α)
  | expansionLimit (limit : Nat)
  | invalidTimeScale (factor : α)
  | permutation (source : PermutationError)
  | document (source : DocumentError)

/-- Ways in which something that always holds does not hold. -/
inductive InternalError (α : Type) where
  | notLaidOut
  | emptyOrbit (master : Nat)
  | masterSelectionUnstable (rounds : Nat)
  | missingVelocityPath (juggler : Nat) (hand : Hand) (time : α)
  | danglingVelocityRef (path link : Nat)
  | missingDelayImage (juggler : Nat) (hand : Hand) (time : α)
  | missingHandCurve (juggler : Nat) (hand : Hand) (time : α)
  | missingPathLink (path : Nat) (time : α)
  | unreachableHand (juggler : Nat) (hand : Hand) (distance : α)
  | nonFinite (what : String)
  | curve (source : CurveError α)

inductive PatternError (α : Type) where
  | user (source : UserError α)
  | internal (source : InternalError α)

variable {α : Type}

instance : Coe (UserError α) (PatternError α) := ⟨.user⟩

instance : Coe (InternalError α) (PatternError α) := ⟨.internal⟩

/-- Passes a result on with its error seen from further outside. -/
def lift {ε δ β : Type} (f : ε → δ) : Except ε β → Except δ β
  | .ok x => .ok x
  | .error e => .error (f e)

variable [Numeral α]

def CurveError.message : CurveError α → String
  | tooFewKnots count => s!"a curve needs at least two knots, got {count}"
  | lengthMismatch positions times => s!"{positions} positions but {times} times"
  | timesNotIncreasing index time =>
    s!"knot times must increase (knot {index} at t={Numeral.write time})"
  | notCalculated => "curve has not been calculated"
  | nonFinite => "curve solve produced a non-finite value"

def UserError.message : UserError α → String
  | handNeverTouched j h => s!"juggler {j} {h.name} hand is never touched by any event"
  | pathNeverTouched p => s!"path {p} is never touched by any event"
  | successiveThrows p => s!"path {p} is thrown twice without a catch in between"
  | successiveCatches p => s!"path {p} is caught without being thrown"
  | handChangedWhileHeld p => s!"path {p} changes hands without being thrown"
  | flight p source => s!"path {p}: {source.message}"
  | jugglerOutOfRange j n => s!"juggler {j} does not exist (pattern has {n})"
  | pathOutOfRange p n => s!"path {p} does not exist (pattern has {n})"
  | propOutOfRange p n => s!"prop {p} does not exist (pattern has {n})"
  | assignmentLength got expected =>
    s!"prop assignment lists {got} paths, expected {expected}"
  | noEvents => "pattern has no events"
  | delaySymmetryCount count => s!"pattern needs exactly one delay symmetry, found {count}"
  | invalidDelay delay =>
    s!"delay symmetry must have a positive delay, got {Numeral.write delay}"
  | delayMovesJugglers => "delay symmetry cannot permute jugglers"
  | symmetryGroupTooLarge limit =>
    s!"symmetries generate more than {limit} distinct images per period"
  | eventCollision j h time =>
    s!"two events for juggler {j} {h.name} hand at t={Numeral.write time}"
  | expansionLimit limit => s!"event expansion exceeded {limit} events"
  | invalidTimeScale factor =>
    s!"time scale factor must be positive and finite, got {Numeral.write factor}"
  | permutation source => source.message
  | document source => source.message

def InternalError.message : InternalError α → String
  | notLaidOut => "pattern is not laid out"
  | emptyOrbit master => s!"orbit of master event {master} has no images"
  | masterSelectionUnstable rounds =>
    s!"master event selection did not settle after {rounds} rebuilds"
  | missingVelocityPath j h time =>
    s!"juggler {j} {h.name} hand at t={Numeral.write time} has no path to take its velocity from"
  | danglingVelocityRef path link =>
    s!"velocity reference to link {link} of path {path} does not exist"
  | missingDelayImage j h time =>
    s!"juggler {j} {h.name} hand: delay image of the event at t={Numeral.write time} was not generated"
  | missingHandCurve j h time => s!"juggler {j} {h.name} hand has no curve at t={Numeral.write time}"
  | missingPathLink path time => s!"path {path} has no link at t={Numeral.write time}"
  | unreachableHand j h distance =>
    s!"juggler {j} {h.name} hand is {Numeral.writeFixed 1 distance} cm from the shoulder, out of reach"
  | nonFinite what => s!"{what} is not finite"
  | curve source => source.message

def PatternError.message : PatternError α → String
  | user source => source.message
  | internal source => "internal error: " ++ source.message

end Juggling
