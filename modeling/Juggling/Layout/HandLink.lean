import Juggling.Layout.PathLink

namespace Juggling

/-- Where a hand takes its velocity from: a link of a path. -/
inductive VelocityRef where
  /-- The start of the flight that leaves the hand. -/
  | throw (path link : Nat)
  /-- The end of the flight that arrives in the hand. -/
  | softCatch (path link : Nat)
  deriving DecidableEq

/-- A hand between two of its events that follow each other. -/
structure HandLink (α : Type) where
  juggler : Nat
  hand : Hand
  start : Moment α
  stop : Moment α
  startVelocity : Option VelocityRef
  endVelocity : Option VelocityRef
  /-- The number of the curve that the hand follows. -/
  curve : Option Nat := none

namespace VelocityRef

variable {α : Type}

/-- The first throw of an event determines the velocity of the hand, else its first soft catch,
unless the flight lies beyond an end of the timeline. -/
def ofMoment (paths : Numbered (PathHistory α)) (m : Moment α) :
    Except (InternalError α) (Option VelocityRef) :=
  let e := m.event
  let noneIf (beyond : Bool) : Except (InternalError α) (Option VelocityRef) :=
    if beyond then .ok none else .error (.missingVelocityPath e.juggler e.hand e.time)
  match e.find? .throwing, e.find? .softCatching with
  | some t, _ =>
    let h := paths.getD t.path .empty
    match h.flightFrom? m with
    | some link => .ok (some (.throw t.path link))
    | none => noneIf (h.endsAt m)
  | none, some t =>
    let h := paths.getD t.path .empty
    match h.flightTo? m with
    | some link => .ok (some (.softCatch t.path link))
    | none => noneIf (h.startsAt m)
  | none, none => .ok none

def flight (paths : Numbered (PathHistory α)) (path link : Nat) :
    Except (InternalError α) (Flight α) :=
  match (paths.get? path).bind (·.links[link]?) with
  | none => .error (.danglingVelocityRef path link)
  | some l =>
    match l.flight? with
    | some f => .ok f
    | none => .error (.missingPathLink path l.start.time)

def resolve [Scalar α] (paths : Numbered (PathHistory α)) :
    VelocityRef → Except (InternalError α) (Coordinate α)
  | throw path link => (flight paths path link).map Flight.startVelocity
  | softCatch path link => (flight paths path link).map Flight.endVelocity

end VelocityRef

namespace HandLink

variable {α : Type}

def build (paths : Numbered (PathHistory α)) (moments : List (Moment α)) (juggler : Nat)
    (hand : Hand) : Except (InternalError α) (List (HandLink α)) := do
  let stops ← (Moment.ofHand moments juggler hand).mapM fun m ↦
    (VelocityRef.ofMoment paths m).map fun v ↦ (m, v)
  return (steps stops).map fun ((m, v), (n, w)) ↦
    { juggler, hand, start := m, stop := n, startVelocity := v, endVelocity := w }

def buildAll (paths : Numbered (PathHistory α)) (moments : List (Moment α)) (jugglers : Nat) :
    Except (InternalError α) (Numbered (Hands (List (HandLink α)))) := do
  let links ← (List.range' 1 jugglers).mapM fun j ↦ do
    let left ← build paths moments j .left
    let right ← build paths moments j .right
    return ⟨left, right⟩
  return .ofList links

end HandLink

end Juggling
