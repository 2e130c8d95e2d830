import Juggling.Scalar

namespace Juggling

/-- A point or a vector in space; `z` points up. -/
structure Coordinate (α : Type) where
  x : α
  y : α
  z : α
  deriving DecidableEq

/-- Which end of a range of values is asked for. -/
inductive Extreme where
  | highest
  | lowest
  deriving DecidableEq

namespace Coordinate

variable {α : Type}

def map (f : α → α) (a : Coordinate α) : Coordinate α := ⟨f a.x, f a.y, f a.z⟩

def zipWith (f : α → α → α) (a b : Coordinate α) : Coordinate α :=
  ⟨f a.x b.x, f a.y b.y, f a.z b.z⟩

variable [Scalar α]

instance : Zero (Coordinate α) := ⟨⟨0, 0, 0⟩⟩

instance : Add (Coordinate α) := ⟨zipWith (· + ·)⟩

instance : Sub (Coordinate α) := ⟨zipWith (· - ·)⟩

instance : Neg (Coordinate α) := ⟨map (- ·)⟩

instance : SMul α (Coordinate α) := ⟨fun k a ↦ a.map (k * ·)⟩

instance : BEq (Coordinate α) := ⟨fun a b ↦ a.x == b.x && a.y == b.y && a.z == b.z⟩

def max (a b : Coordinate α) : Coordinate α := zipWith Scalar.larger a b

def min (a b : Coordinate α) : Coordinate α := zipWith Scalar.smaller a b

def dot (a b : Coordinate α) : α := a.x * b.x + a.y * b.y + a.z * b.z

def cross (a b : Coordinate α) : Coordinate α :=
  ⟨a.y * b.z - a.z * b.y, a.z * b.x - a.x * b.z, a.x * b.y - a.y * b.x⟩

def length (a : Coordinate α) : α := Scalar.sqrt (a.dot a)

def distance (a b : Coordinate α) : α := (a - b).length

/-- Components nearer to zero than `epsilon` become zero. -/
def truncate (a : Coordinate α) (epsilon : α) : Coordinate α :=
  a.map fun v ↦ if Scalar.abs v < epsilon then 0 else v

def isFinite (a : Coordinate α) : Bool :=
  Scalar.isFinite a.x && Scalar.isFinite a.y && Scalar.isFinite a.z

def lerp (a b : Coordinate α) (fraction : α) : Coordinate α := a + fraction • (b - a)

end Coordinate

namespace Extreme

variable {α : Type} [Scalar α]

/-- The corner of the box around two points. -/
def pick : Extreme → Coordinate α → Coordinate α → Coordinate α
  | .highest => Coordinate.max
  | .lowest => Coordinate.min

def pick? (e : Extreme) : Option (Coordinate α) → Option (Coordinate α) → Option (Coordinate α)
  | some a, some b => some (e.pick a b)
  | some a, none => some a
  | none, b => b

def ofList? (e : Extreme) : List (Coordinate α) → Option (Coordinate α)
  | [] => none
  | p :: ps => some (ps.foldl e.pick p)

end Extreme

end Juggling
