import Juggling.Coordinate

namespace Juggling

/-- Where a juggler stands and the angle in degrees he faces. -/
structure Placement (α : Type) where
  place : Coordinate α
  angle : α

/-- The rows of a rotation about the vertical axis. -/
structure Rotation (α : Type) where
  first : Coordinate α
  second : Coordinate α
  third : Coordinate α

namespace Rotation

variable {α : Type} [Scalar α]

def identity : Rotation α := ⟨⟨1, 0, 0⟩, ⟨0, 1, 0⟩, ⟨0, 0, 1⟩⟩

def ofDegrees (angle : α) : Rotation α :=
  let a := Scalar.radians angle
  if a == 0 then identity
  else
    let c := Scalar.cos a
    let s := Scalar.sin a
    ⟨⟨c, -s, 0⟩, ⟨s, c, 0⟩, ⟨0, 0, 1⟩⟩

def apply (r : Rotation α) (v : Coordinate α) : Coordinate α :=
  ⟨r.first.dot v, r.second.dot v, r.third.dot v⟩

end Rotation

namespace Placement

variable {α : Type} [Scalar α]

def rotate (v : Coordinate α) (angle : α) : Coordinate α := (Rotation.ofDegrees angle).apply v

/-- Hands work so far in front of the body. -/
def reachForward : α := 30

/-- Height at which a juggler stands who has no declared position. -/
def defaultHeight : α := 100

/-- Radius of the circle on which several jugglers stand without declared positions. -/
def defaultRadius : α := 70

/-- One juggler stands in the middle, several stand evenly on a circle and face its centre. -/
def default (juggler jugglers : Nat) : Placement α :=
  if jugglers ≤ 1 then ⟨⟨0, 0, defaultHeight⟩, 0⟩
  else
    let a : α := 360 * Scalar.ofNat (juggler - 1) / Scalar.ofNat jugglers
    let r := Scalar.radians a
    ⟨⟨defaultRadius * Scalar.cos r, defaultRadius * Scalar.sin r, defaultHeight⟩, a + 90⟩

def locate (p : Placement α) (v : Coordinate α) : Coordinate α := p.place + rotate v p.angle

/-- A place where a hand works, in space. -/
def toGlobal (p : Placement α) (v : Coordinate α) : Coordinate α :=
  p.locate ⟨v.x, v.y + reachForward, v.z⟩

end Placement

end Juggling
