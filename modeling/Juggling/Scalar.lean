namespace Juggling

/-- The numbers that times, places and angles are measured in. Machine numbers are one instance,
exact numbers another: nothing below depends on which. -/
class Scalar (α : Type) where
  add (x y : α) : α
  sub (x y : α) : α
  mul (x y : α) : α
  div (x y : α) : α
  neg (x : α) : α
  lt (x y : α) : Prop
  le (x y : α) : Prop
  beq (x y : α) : Bool
  /-- The number nearest to an integer. -/
  ofInt : Int → α
  /-- The number nearest to `m * 10 ^ e`, or to `m / 10 ^ e` when the flag is set. -/
  ofDecimal (m : Nat) (below : Bool) (e : Nat) : α
  decLt (x y : α) : Decidable (lt x y)
  decLe (x y : α) : Decidable (le x y)
  /-- A total order that refines `≤`, for sorting. -/
  precedes : α → α → Bool
  /-- The greatest integer that is not above a number. -/
  floorInt : α → Int
  /-- What is left of the first number after whole multiples of the second, never negative. -/
  remainder : α → α → α
  sqrt : α → α
  sin : α → α
  cos : α → α
  pi : α

namespace Scalar

variable {α : Type} [Scalar α]

-- Where numbers have operations of a richer structure as well, those are meant.
instance (priority := low) : Add α := ⟨add⟩

instance (priority := low) : Sub α := ⟨sub⟩

instance (priority := low) : Mul α := ⟨mul⟩

instance (priority := low) : Div α := ⟨div⟩

instance (priority := low) : Neg α := ⟨neg⟩

instance (priority := low) : LT α := ⟨lt⟩

instance (priority := low) : LE α := ⟨le⟩

instance (priority := low) : BEq α := ⟨beq⟩

instance (priority := 50) (n : Nat) : OfNat α n := ⟨ofInt n⟩

instance (priority := 50) : OfScientific α := ⟨ofDecimal⟩

instance (x y : α) : Decidable (x < y) := decLt x y

instance (x y : α) : Decidable (x ≤ y) := decLe x y

/-- Equal to itself: everything but an undefined result. -/
def isDefined (x : α) : Bool := x == x

def isFinite (x : α) : Bool := x - x == 0

def abs (x : α) : α := if x < 0 then -x else x

/-- The larger of two numbers; an undefined one gives way to the other. -/
def larger (x y : α) : α := if x < y then y else if isDefined x then x else y

def smaller (x y : α) : α := if y < x then y else if isDefined x then x else y

/-- `1` from zero upwards and `-1` below; an undefined number stays undefined. -/
def sign (x : α) : α := if x < 0 then -1 else if isDefined x then 1 else x

def clamp (low high x : α) : α := if x < low then low else if high < x then high else x

def floor (x : α) : α := ofInt (floorInt x)

def isWhole (x : α) : Bool := floor x == x

def ofNat (n : Nat) : α := ofInt n

def radians (degrees : α) : α := degrees * (pi / 180)

end Scalar

end Juggling
