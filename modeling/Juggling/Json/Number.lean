import Juggling.Numeral

namespace Juggling.Json

/-- The parts of a number: its sign, the digits before and after the point, and the exponent. -/
structure NumberParts where
  negative : Bool
  whole : List Char
  fraction : List Char
  exponent : Option (Bool × List Char)

namespace NumberParts

def split? (s : List Char) : Option (NumberParts × List Char) :=
  let (negative, s) : Bool × List Char := match s with
    | '-' :: s => (true, s)
    | s => (false, s)
  let whole := s.takeWhile Char.isDigit
  let s := s.dropWhile Char.isDigit
  -- At least one digit, and none after a leading zero.
  if whole.isEmpty || (whole.head? = some '0' && 1 < whole.length) then none
  else do
    let (fraction, s) ← match s with
      | '.' :: s =>
        let ds := s.takeWhile Char.isDigit
        if ds.isEmpty then none else some (ds, s.dropWhile Char.isDigit)
      | s => some ([], s)
    let (exponent, s) ← match s with
      | 'e' :: s | 'E' :: s =>
        let (below, s) : Bool × List Char := match s with
          | '-' :: s => (true, s)
          | '+' :: s => (false, s)
          | s => (false, s)
        let ds := s.takeWhile Char.isDigit
        if ds.isEmpty then none else some (some (below, ds), s.dropWhile Char.isDigit)
      | s => some (none, s)
    some (⟨negative, whole, fraction, exponent⟩, s)

/-- Digits that fit into 64 bits together; those from the first that does not fit are left out. -/
def significand (n : Nat) : List Char → Nat × List Char
  | [] => (n, [])
  | c :: cs =>
    let m := 10 * n + (c.toNat - '0'.toNat)
    if m < Text.natLimit then significand m cs else (n, c :: cs)

def greatestPower : Nat := 308

/-- `x * 10 ^ e`, by one multiplication or division where the power of ten is a machine number. -/
def scaleTen : Nat → Float → Int → Option Float
  | 0, x, _ => some x
  | fuel + 1, x, e =>
    if e.natAbs ≤ greatestPower then
      let p := Float.ofScientific 1 false e.natAbs
      if 0 ≤ e then
        let y := x * p
        if y.isFinite then some y else none
      else some (x / p)
    else if x == 0 then some x
    else if 0 ≤ e then none
    -- The power is too small for a machine number, so a part of it goes first.
    else scaleTen fuel (x / Float.ofScientific 1 false greatestPower) (e + greatestPower)

/-- Exponents beyond this are not told apart. -/
def exponentLimit : Nat := Nat.pow 2 31

/-- The exponent as written, cut off at the limit. -/
def writtenExponent (p : NumberParts) : Int :=
  match p.exponent with
  | none => 0
  | some (below, ds) =>
    let n := min (Text.digitsValue ds) exponentLimit
    if below then -(n : Int) else n

/-- The number as a machine number, unless it is too large for one. The leading digits make an
integer, which a power of ten then scales; digits of the fraction fill it up even where digits
before the point have been left out. -/
def toFloat? (p : NumberParts) : Option Float :=
  let (n, cut) := significand 0 p.whole
  let (n, lost) := significand n p.fraction
  let used := p.fraction.length - lost.length
  let place : Int := (cut.length : Int) - used + p.writtenExponent
  if n = 0 then some (if p.negative then -0.0 else 0)
  else (scaleTen 8 (Float.ofNat n) place).map fun x ↦ if p.negative then -x else x

/-- The number as an integer of 64 bits, when it is written as one. -/
def toInt? (p : NumberParts) : Option Int :=
  let n := Text.digitsValue p.whole
  if !p.fraction.isEmpty || p.exponent.isSome then none
  else if p.negative then
    if 0 < n && n ≤ Nat.pow 2 63 then some (-(n : Int)) else none
  else if n < Text.natLimit then some n else none

end NumberParts

/-- The text of a machine number: in full where the leading digit is not too far from the point,
otherwise with an exponent. -/
def floatText (x : Float) : String :=
  Decimal.render "0.0" (fun m e ↦
    let d := Decimal.shortest .toEven m e
    if -5 ≤ d.leading ∧ d.leading ≤ 15 then
      if 0 ≤ d.place then d.positional ++ ".0" else d.positional
    else d.scientific) x

/-- A number as it is written back: integers as they are, all others as machine numbers. -/
def numberText? (spelling : String) : Option String := do
  let (p, rest) ← NumberParts.split? spelling.toList
  if !rest.isEmpty then none
  match p.toInt? with
  | some n => some (toString n)
  | none => p.toFloat?.map floatText

def numberFloat? (spelling : String) : Option Float := do
  let (p, rest) ← NumberParts.split? spelling.toList
  if rest.isEmpty then p.toFloat? else none

end Juggling.Json
