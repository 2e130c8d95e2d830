import Juggling.Coordinate

namespace Juggling

/-- Why there is no curve, or no place on it. -/
inductive CurveError (α : Type) where
  | tooFewKnots (count : Nat)
  | lengthMismatch (positions times : Nat)
  | timesNotIncreasing (index : Nat) (time : α)
  | notCalculated
  | nonFinite

structure Knot (α : Type) where
  time : α
  position : Coordinate α

/-- At least two knots at increasing times, and the velocities asked for at the ends. -/
structure Knots (α : Type) where
  first : Knot α
  second : Knot α
  rest : List (Knot α)
  startVelocity : Option (Coordinate α)
  endVelocity : Option (Coordinate α)

/-- A window of time; only its two ends are ever looked at. -/
structure Window (α : Type) where
  low : α
  high : α

namespace Window

variable {α : Type} [Scalar α]

/-- The part that two windows share, unless they are disjoint. -/
def clip? (w v : Window α) : Option (Window α) :=
  let low := Scalar.larger v.low w.low
  let high := Scalar.smaller v.high w.high
  if low ≤ high then some ⟨low, high⟩ else none

/-- Strictly between the ends. -/
def inside (w : Window α) (t : α) : Bool := w.low < t && t < w.high

end Window

namespace Knots

variable {α : Type}

def toList (k : Knots α) : List (Knot α) := k.first :: k.second :: k.rest

variable [Scalar α]

/-- The first time that is not later than the one before it, with its index. -/
def firstDecrease? (index : Nat) (before : α) : List α → Option (Nat × α)
  | [] => none
  | t :: ts => if before < t then firstDecrease? (index + 1) t ts else some (index, t)

def ofLists (positions : List (Coordinate α)) (times : List α)
    (startVelocity endVelocity : Option (Coordinate α)) : Except (CurveError α) (Knots α) :=
  if positions.length ≠ times.length then
    .error (.lengthMismatch positions.length times.length)
  else match times.zipWith Knot.mk positions with
    | first :: second :: rest =>
      match firstDecrease? 1 first.time (second.time :: rest.map Knot.time) with
      | some (index, time) => .error (.timesNotIncreasing index time)
      | none => .ok { first, second, rest, startVelocity, endVelocity }
    | knots => .error (.tooFewKnots knots.length)

def endTime (k : Knots α) : α := (k.rest.getLast?.getD k.second).time

def range (k : Knots α) : Window α := ⟨k.first.time, k.endTime⟩

end Knots

/-- Curves that are determined by their knots. Outside the knots they go on as their outermost
pieces do. -/
class Curve (β : Type → Type) where
  ofKnots {α : Type} [Scalar α] : Knots α → Except (CurveError α) (β α)
  position {α : Type} [Scalar α] : β α → α → Coordinate α
  /-- Over the part of a window that the knots span, unless that is empty. -/
  extreme {α : Type} [Scalar α] : β α → Extreme → Window α → Option (Coordinate α)

/-- Of pieces in order of their starts, the last that has started by `t`, or the first of all. -/
def pieceAt {α β : Type} [Scalar α] (start : β → α) (t : α) : β → List β → β
  | piece, [] => piece
  | piece, next :: pieces => if start next ≤ t then pieceAt start t next pieces else piece

end Juggling
