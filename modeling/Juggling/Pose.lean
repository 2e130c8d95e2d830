import Juggling.Error
import Juggling.Placement

namespace Juggling

structure Arm (α : Type) where
  shoulder : Coordinate α
  elbow : Coordinate α
  hand : Coordinate α

structure Pose (α : Type) where
  arms : Hands (Arm α)
  waist : Hands (Coordinate α)
  headBottom : Hands (Coordinate α)
  headTop : Hands (Coordinate α)

namespace Pose

variable {α : Type} [Scalar α]

/-- From the shoulder to the elbow. -/
def upperLength : α := 41

/-- From the elbow to the hand. -/
def lowerLength : α := 40

def shoulderHalfWidth : α := 23

def shoulderHeight : α := 40

def waistHalfWidth : α := 17

def waistHeight : α := -5

def headHalfWidth : α := 10

def headHeight : α := 26

def neckHeight : α := 5

/-- A landmark relative to the body; left is towards negative `x`. -/
def landmark (hand : Hand) (halfWidth height : α) : Coordinate α :=
  match hand with
  | .left => ⟨-halfWidth, 0, height⟩
  | .right => ⟨halfWidth, 0, height⟩

/-- How far a body reaches around its place, whichever way it faces: the lower and the upper
corner of a box. -/
def bodyExtent : Coordinate α × Coordinate α :=
  let reach : α := Scalar.larger shoulderHalfWidth waistHalfWidth
  let top : α := shoulderHeight + neckHeight + headHeight
  (⟨-reach, -reach, waistHeight⟩, ⟨reach, reach, top⟩)

def divide (v : Coordinate α) (k : α) : Coordinate α := v.map (· / k)

/-- Directions shorter than this are none. -/
def shortest : α := 1e-9

/-- The part of a direction that is square to a unit vector. -/
def square (u hint : Coordinate α) : Coordinate α := hint - hint.dot u • u

/-- The elbow of an arm, bent down and away from the body, unless the hand is out of reach. -/
def elbow? (shoulder hand outward : Coordinate α) : Option (Coordinate α) :=
  let reach := hand - shoulder
  let d := reach.length
  let up : α := upperLength
  let low : α := lowerLength
  if !Scalar.isFinite d || up + low < d || d < Scalar.abs (up - low) then none
  else do
    let u := divide reach d
    -- The law of cosines at the shoulder.
    let cosine := Scalar.clamp (-1) 1 ((up * up + d * d - low * low) / (2 * up * d))
    let sine := Scalar.sqrt (1 - cosine * cosine)
    let down : Coordinate α := -⟨0, 0, 1⟩
    -- A direction along the arm leaves nothing to bend to, so the next one is tried.
    let bend ← ([outward + down, down, outward].map (square u)).find? fun w ↦ shortest < w.length
    let elbow := shoulder + up • (cosine • u + sine • divide bend bend.length)
    if elbow.isFinite then some elbow else none

def solve (juggler : Nat) (p : Placement α) (hands : Hands (Coordinate α)) :
    Except (InternalError α) (Pose α) := do
  if !p.place.isFinite || !Scalar.isFinite p.angle then
    throw (.nonFinite "juggler position")
  let arm (hand : Hand) : Except (InternalError α) (Arm α) :=
    let shoulder := p.locate (landmark hand shoulderHalfWidth shoulderHeight)
    let target := hands.get hand
    let outward := Placement.rotate (landmark hand 1 0) p.angle
    match elbow? shoulder target outward with
    | some elbow => .ok ⟨shoulder, elbow, target⟩
    | none => .error (.unreachableHand juggler hand (shoulder.distance target))
  let head : α := shoulderHeight + neckHeight
  let marks (halfWidth height : α) : Hands (Coordinate α) :=
    Hands.ofFn fun hand ↦ p.locate (landmark hand halfWidth height)
  return {
    arms := ⟨← arm .left, ← arm .right⟩
    waist := marks waistHalfWidth waistHeight
    headBottom := marks headHalfWidth head
    headTop := marks headHalfWidth (head + headHeight) }

end Pose

end Juggling
