import Juggling.Coordinate
import Juggling.Hand
import Juggling.Flight.Throw

namespace Juggling

inductive TransitionKind where
  | throwing
  | catching
  | softCatching
  | grabCatching
  | holding
  deriving DecidableEq

/-- What happens to one path at an event. Type and modifier are those of the flight after a
throw. -/
structure Transition where
  kind : TransitionKind
  path : Nat
  throwKind : ThrowKind := .toss
  modifier : String := ""
  deriving DecidableEq

/-- A moment at which one hand of one juggler does something, in the frame of that juggler. -/
structure Event (α : Type) where
  time : α
  place : Coordinate α
  juggler : Nat
  hand : Hand
  transitions : List Transition
  deriving DecidableEq

/-- Where one juggler stands at one moment, and the angle in degrees he faces. -/
structure Position (α : Type) where
  time : α
  place : Coordinate α
  angle : α
  juggler : Nat
  deriving DecidableEq

namespace TransitionKind

def tag : TransitionKind → String
  | .throwing => "throw"
  | .catching => "catch"
  | .softCatching => "softcatch"
  | .grabCatching => "grabcatch"
  | .holding => "holding"

def ofTag? : String → Option TransitionKind
  | "throw" => some .throwing
  | "catch" => some .catching
  | "softcatch" => some .softCatching
  | "grabcatch" => some .grabCatching
  | "holding" => some .holding
  | _ => none

def isCatch : TransitionKind → Bool
  | .catching | .softCatching | .grabCatching => true
  | .throwing | .holding => false

/-- Throws and soft catches move the hand as fast as the prop. -/
def determinesVelocity : TransitionKind → Bool
  | .throwing | .softCatching => true
  | .catching | .grabCatching | .holding => false

end TransitionKind

namespace Event

variable {α : Type}

def transitionForPath? (e : Event α) (path : Nat) : Option Transition :=
  e.transitions.find? (·.path == path)

def find? (e : Event α) (kind : TransitionKind) : Option Transition :=
  e.transitions.find? (·.kind == kind)

def has (e : Event α) (kind : TransitionKind) : Bool := e.transitions.any (·.kind == kind)

def determinesVelocity (e : Event α) : Bool := e.transitions.any (·.kind.determinesVelocity)

def hasHand (e : Event α) (juggler : Nat) (hand : Hand) : Bool :=
  e.juggler == juggler && e.hand == hand

end Event

end Juggling
