import Juggling.Numeral
import Juggling.Scalar

namespace Juggling.Decimal.Binary

/-- The greatest integer not above a machine number, zero for what is no number. -/
def floorInt : Binary → Int
  | .finite negative m e =>
    let m : Int := if negative then -m else m
    match e with
    | .ofNat n => m * Int.ofNat (Nat.pow 2 n)
    | .negSucc n => Int.fdiv m (Int.ofNat (Nat.pow 2 (n + 1)))
  | .infinite _ | .undefined => 0

/-- What is left of `x` after whole multiples of `y`, with the sign of `x`. The result has no more
digits than its operands, so nothing is rounded. -/
def truncatedRemainder (x y : Float) : Float :=
  match ofFloat x, ofFloat y with
  | .finite negative m e, .finite _ n f =>
    if n = 0 then 0 / 0
    else
      -- Over the smaller power of two both mantissas are integers.
      let g := min e f
      scale negative (m * Nat.pow 2 (e - g).toNat % (n * Nat.pow 2 (f - g).toNat)) g
  | .finite _ _ _, .infinite _ => x
  | _, _ => 0 / 0

/-- The remainder moved up from below zero by one multiple of `y`. -/
def remainder (x y : Float) : Float :=
  let r := truncatedRemainder x y
  if r < 0 then r + y.abs else r

end Juggling.Decimal.Binary

namespace Juggling

open Decimal

/-- A machine number. Undefined ones have a sign as well, by which they are ordered and which a
`Float` does not show. -/
structure Double where
  value : Float
  /-- Whether an undefined number is negative. -/
  below : Bool := false

namespace Double

def isUndefined (x : Double) : Bool := x.value.isNaN

/-- The result of an operation. An undefined operand passes its sign on. -/
def result (v : Float) (below : Bool) : Double := ⟨v, v.isNaN && below⟩

def map (f : Float → Float) (x : Double) : Double :=
  result (f x.value) (!x.isUndefined || x.below)

/-- Of two undefined operands the first passes its sign on, and without one an undefined result is
negative. -/
def map₂ (f : Float → Float → Float) (x y : Double) : Double :=
  result (f x.value y.value)
    (if x.isUndefined then x.below else !y.isUndefined || y.below)

/-- Orders numbers by size, undefined ones outermost and the negative zero first. -/
def sortKey (x : Double) : Int :=
  let bits := x.value.toBits.toNat
  let magnitude := bits % Nat.pow 2 63
  if bits.testBit 63 || x.below then -magnitude - 1 else magnitude

def ofSpelling (s : Numeral.Spelling) : Double := ⟨Decimal.ofSpelling s, s == .undefined true⟩

instance : Scalar Double where
  add := map₂ (· + ·)
  sub := map₂ (· - ·)
  mul := map₂ (· * ·)
  div := map₂ (· / ·)
  neg x := result (-x.value) !x.below
  lt x y := x.value < y.value
  le x y := x.value ≤ y.value
  beq x y := x.value == y.value
  ofInt n := ⟨Float.ofInt n, false⟩
  ofDecimal m below e := ⟨Float.ofScientific m below e, false⟩
  decLt x y := inferInstanceAs (Decidable (x.value < y.value))
  decLe x y := inferInstanceAs (Decidable (x.value ≤ y.value))
  precedes x y := x.sortKey ≤ y.sortKey
  floorInt x := (Binary.ofFloat x.value).floorInt
  remainder := map₂ Binary.remainder
  sqrt := map Float.sqrt
  sin := map Float.sin
  cos := map Float.cos
  pi := ⟨3.141592653589793, false⟩

/-- Written with the fewest digits that read back, never with an exponent. -/
instance : Numeral Double where
  read? s := (Numeral.spelling? s.toList).map ofSpelling
  write x := Decimal.render "0" (fun m e ↦ (Decimal.shortest .up m e).positional) x.value
  writeFixed places x :=
    Decimal.render (Decimal.fixedDigits places 0 0) (fun m e ↦ Decimal.fixedDigits places m e)
      x.value

end Double

end Juggling
