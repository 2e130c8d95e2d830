import Juggling.Layout.Timeline

namespace Juggling

/-- One transition of one moment. -/
structure Touch (α : Type) where
  moment : Moment α
  transition : Transition

/-- How a prop gets from one touch to the next. -/
inductive Passage (α : Type) where
  | held (juggler : Nat) (hand : Hand)
  | thrown (kind : ThrowKind) (modifier : String) (flight : Flight α)

structure PathLink (α : Type) where
  path : Nat
  start : Touch α
  stop : Touch α
  passage : Passage α

/-- All touches of one path in order, and the links between them. -/
structure PathHistory (α : Type) where
  touches : List (Touch α)
  links : List (PathLink α)

namespace Touch

variable {α : Type}

def time (t : Touch α) : α := t.moment.time

def ofPath (moments : List (Moment α)) (path : Nat) : List (Touch α) :=
  moments.flatMap fun m ↦ (m.event.transitions.filter (·.path == path)).map fun t ↦ ⟨m, t⟩

end Touch

namespace PathLink

variable {α : Type}

def isHeld (l : PathLink α) : Bool :=
  match l.passage with
  | .held .. => true
  | .thrown .. => false

def flight? (l : PathLink α) : Option (Flight α) :=
  match l.passage with
  | .held .. => none
  | .thrown _ _ f => some f

variable [Scalar α]

def range (l : PathLink α) : Window α := ⟨l.start.time, l.stop.time⟩

def knot (place : Event α → Coordinate α) (t : Touch α) : Knot α := ⟨t.time, place t.moment.event⟩

/-- A throw flies to the catch after it. Everything else stays in the hand it is in. -/
def passage? [Numeral α] (place : Event α → Coordinate α) (path : Nat) (a b : Touch α) :
    Except (UserError α) (Passage α) :=
  let e := a.moment.event
  let throws := a.transition.kind == .throwing
  if b.transition.kind.isCatch then
    if throws then
      let kind := a.transition.throwKind
      let modifier := a.transition.modifier
      lift (.flight path) <|
        (Flight.build kind modifier ⟨knot place a, knot place b⟩).map (.thrown kind modifier)
    else .error (.successiveCatches path)
  else if throws && b.transition.kind == .throwing then .error (.successiveThrows path)
  else if b.moment.event.hasHand e.juggler e.hand then .ok (.held e.juggler e.hand)
  else .error (.handChangedWhileHeld path)

def build [Numeral α] (place : Event α → Coordinate α) (path : Nat) (a b : Touch α) :
    Except (UserError α) (PathLink α) :=
  (passage? place path a b).map fun p ↦ ⟨path, a, b, p⟩

end PathLink

namespace PathHistory

variable {α : Type}

def empty : PathHistory α := ⟨[], []⟩

/-- The index of the link that flies away from a moment. -/
def flightFrom? (h : PathHistory α) (m : Moment α) : Option Nat :=
  h.links.findIdx? fun l ↦ !l.isHeld && l.start.moment.index == m.index

def flightTo? (h : PathHistory α) (m : Moment α) : Option Nat :=
  h.links.findIdx? fun l ↦ !l.isHeld && l.stop.moment.index == m.index

def startsAt (h : PathHistory α) (m : Moment α) : Bool :=
  (h.touches.head?.map (·.moment.index)) == some m.index

def endsAt (h : PathHistory α) (m : Moment α) : Bool :=
  (h.touches.getLast?.map (·.moment.index)) == some m.index

variable [Scalar α] [Numeral α]

def build (place : Event α → Coordinate α) (moments : List (Moment α)) (path : Nat) :
    Except (UserError α) (PathHistory α) := do
  let touches := Touch.ofPath moments path
  let links ← (steps touches).mapM fun (a, b) ↦ PathLink.build place path a b
  return ⟨touches, links⟩

def buildAll (place : Event α → Coordinate α) (moments : List (Moment α)) (paths : Nat) :
    Except (UserError α) (Numbered (PathHistory α)) := do
  let histories ← (List.range' 1 paths).mapM (build place moments)
  return .ofList histories

end PathHistory

end Juggling
