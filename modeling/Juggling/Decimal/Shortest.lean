import Juggling.Decimal.Binary

namespace Juggling.Decimal

/-- A positive decimal number `digits * 10 ^ place`. -/
structure Digits where
  digits : Nat
  place : Int
  deriving DecidableEq

namespace Digits

def leading (d : Digits) : Int :=
  d.place + (Nat.toDigits 10 d.digits).length - 1

/-- All digits in their places, without an exponent. -/
def positional (d : Digits) : String :=
  let cs := Nat.toDigits 10 d.digits
  match d.place with
  | .ofNat n => String.ofList (cs ++ List.replicate n '0')
  | .negSucc n =>
    if n + 1 < cs.length then
      String.ofList (cs.take (cs.length - (n + 1)) ++ '.' :: cs.drop (cs.length - (n + 1)))
    else
      String.ofList ('0' :: '.' :: List.replicate (n + 1 - cs.length) '0' ++ cs)

/-- One digit before the point, then the exponent of ten with its sign. -/
def scientific (d : Digits) : String :=
  let fraction := match Nat.toDigits 10 d.digits with
    | c :: [] => [c]
    | c :: rest => c :: '.' :: rest
    | [] => []
  let mark := if d.leading < 0 then "e-" else "e+"
  String.ofList fraction ++ mark ++ toString d.leading.natAbs

end Digits

/-- Which of two neighbours is taken where both are equally near. -/
inductive Tie where
  | up
  | toEven
  deriving DecidableEq

/-- The interval of numbers that round to one machine number, with all three points over one
denominator. -/
structure Rounding where
  low : Nat
  value : Nat
  high : Nat
  den : Nat
  /-- Whether the ends of the interval round to the number as well. -/
  closed : Bool

namespace Rounding

/-- The interval around `m * 2 ^ e`. Below a power of two the next number is only half as far. -/
def around (m : Nat) (e : Int) : Rounding :=
  -- In quarters of the last bit both ends of the interval are whole.
  let (unit, den) := power 1 2 (e - 2)
  let gap := if m = Nat.pow 2 Binary.mantissaBits ∧ Binary.leastExponent < e then 1 else 2
  { low := (4 * m - gap) * unit, value := 4 * m * unit, high := (4 * m + 2) * unit, den
    closed := m % 2 == 0 }

def inUnits (r : Rounding) (k : Int) : Rounding :=
  match k with
  | .ofNat n => { r with den := r.den * Nat.pow 10 n }
  | .negSucc n =>
    let f := Nat.pow 10 (n + 1)
    { r with low := r.low * f, value := r.value * f, high := r.high * f }

def holds (r : Rounding) (n : Nat) : Bool :=
  let x := n * r.den
  if r.closed then r.low ≤ x && x ≤ r.high else r.low < x && x < r.high

/-- Whether the upper neighbour of the value is the nearer one, or wins where both are equally
near. -/
def roundsUp (tie : Tie) (r : Rounding) : Bool :=
  match compare (2 * (r.value % r.den)) r.den with
  | .lt => false
  | .gt => true
  | .eq => tie == .up || r.value / r.den % 2 == 1

/-- The whole number nearest to the value among its two neighbours that lie in the interval. -/
def nearest? (tie : Tie) (r : Rounding) : Option Nat :=
  let q := r.value / r.den
  match r.holds q, r.holds (q + 1) with
  | false, false => none
  | true, false => some q
  | false, true => some (q + 1)
  | true, true => some (if r.roundsUp tie then q + 1 else q)

/-- Tries the places from `k` downwards. -/
def search (tie : Tie) (r : Rounding) : Nat → Int → Digits
  | 0, k => ⟨(r.inUnits k).value / (r.inUnits k).den, k⟩
  | fuel + 1, k =>
    match (r.inUnits k).nearest? tie with
    | some n => ⟨n, k⟩
    | none => search tie r fuel (k - 1)

end Rounding

/-- Digits that any machine number can be told apart by. -/
def enoughDigits : Nat := 17

/-- The fewest digits that read back as `m * 2 ^ e`, and of those the nearest to it. -/
def shortest (tie : Tie) (m : Nat) (e : Int) : Digits :=
  let r := Rounding.around m e
  let d := r.search tie enoughDigits (leadingPlace r.value r.den)
  -- Rounding up at the leading place may give ten, which is one at the place before.
  if d.digits = 10 then ⟨1, d.place + 1⟩ else d

/-- The value of `m * 2 ^ e` with so many places after the point, rounded half to even. -/
def fixedDigits (places m : Nat) (e : Int) : String :=
  let (num, den) := power m 2 e
  let n := roundDiv (num * Nat.pow 10 places) den
  let cs := Nat.toDigits 10 n
  -- At least one digit stands before the point.
  let cs := List.replicate (places + 1 - cs.length) '0' ++ cs
  let whole := cs.take (cs.length - places)
  let rest := cs.drop (cs.length - places)
  String.ofList (if places = 0 then whole else whole ++ '.' :: rest)

end Juggling.Decimal
