import Juggling.Pose
import Juggling.Pattern.Basic

namespace Juggling.Pattern

variable {α β : Type} (p : Pattern α)

/-- The layout of a pattern that has not been changed since. -/
def laidOut : Except (InternalError α) (Layout α) :=
  match p.layout, p.state with
  | some l, .clean => .ok l
  | _, _ => .error .notLaidOut

def ask (f : Layout α → Except (InternalError α) β) : Except (PatternError α) β :=
  lift .internal (p.laidOut.bind f)

/-- Asks the layout about a path, which has to exist. -/
def askPath (path : Nat) (f : Layout α → Except (InternalError α) β) :
    Except (PatternError α) β := do
  lift .user (p.declarations.checkPath path)
  p.ask f

/-- Asks the layout about a juggler, who has to exist. -/
def askJuggler (juggler : Nat) (f : Layout α → Except (InternalError α) β) :
    Except (PatternError α) β := do
  lift .user (p.declarations.checkJuggler juggler)
  p.ask f

def loop : Except (PatternError α) (Window α) := p.ask fun l ↦ .ok l.loop

variable [Scalar α]

def pathPlace (path : Nat) (t : α) : Except (PatternError α) (Coordinate α) :=
  p.askPath path fun l ↦ l.pathPlace path t

def isHeld (path : Nat) (t : α) : Except (PatternError α) Bool :=
  p.askPath path fun l ↦ l.isHeld path t

def pathExtreme (e : Extreme) (path : Nat) : Except (PatternError α) (Option (Coordinate α)) :=
  p.askPath path fun l ↦ l.pathExtreme e path

def handPlace (juggler : Nat) (hand : Hand) (t : α) : Except (PatternError α) (Coordinate α) :=
  p.askJuggler juggler fun l ↦ l.handPlace juggler hand t

def handExtreme (e : Extreme) (juggler : Nat) (hand : Hand) :
    Except (PatternError α) (Option (Coordinate α)) :=
  p.askJuggler juggler fun l ↦ l.handExtreme e juggler hand

def placement (juggler : Nat) (t : α) : Except (PatternError α) (Placement α) :=
  p.askJuggler juggler fun l ↦ .ok (l.placement juggler t)

def bodyExtreme (e : Extreme) (juggler : Nat) : Except (PatternError α) (Coordinate α) :=
  p.askJuggler juggler fun l ↦ (l.bodyExtreme e juggler).map fun c ↦
    match e with
    | .highest => c + Pose.bodyExtent.2
    | .lowest => c + Pose.bodyExtent.1

/-- The pose of a juggler, whose hands have to be within reach. -/
def pose (juggler : Nat) (t : α) : Except (PatternError α) (Pose α) :=
  p.askJuggler juggler fun l ↦ do
    let left ← l.handPlace juggler .left t
    let right ← l.handPlace juggler .right t
    Pose.solve juggler (l.placement juggler t) ⟨left, right⟩

end Juggling.Pattern
