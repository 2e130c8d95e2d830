namespace Juggling.Decimal

/-- What the 64 bits of a machine number stand for: `mantissa * 2 ^ exponent` with a sign, or one
of the values that are no number. -/
inductive Binary where
  | finite (negative : Bool) (mantissa : Nat) (exponent : Int)
  | infinite (negative : Bool)
  | undefined
  deriving DecidableEq

namespace Binary

def mantissaBits : Nat := 52

/-- Exponent of the last bit of the numbers nearest to zero. -/
def leastExponent : Int := -1074

def ofBits (bits : Nat) : Binary :=
  let negative := bits.testBit 63
  let exponent : Nat := bits / Nat.pow 2 mantissaBits % Nat.pow 2 11
  let mantissa : Nat := bits % Nat.pow 2 mantissaBits
  if exponent = 2047 then
    if mantissa = 0 then .infinite negative else .undefined
  else if exponent = 0 then
    .finite negative mantissa leastExponent
  else
    .finite negative (mantissa + Nat.pow 2 mantissaBits) (leastExponent + (exponent - 1))

def ofFloat (x : Float) : Binary := ofBits x.toBits.toNat

/-- `m * 2 ^ e`, which must be a machine number. -/
def scale (negative : Bool) (m : Nat) (e : Int) : Float :=
  let x := (Float.ofNat m).scaleB e
  if negative then -x else x

end Binary

/-- The quotient rounded to the nearest whole number, a half going to the even neighbour. -/
def roundDiv (num den : Nat) : Nat :=
  let q := num / den
  let r := num % den
  if 2 * r < den then q
  else if den < 2 * r then q + 1
  else if q % 2 = 0 then q else q + 1

/-- `m * base ^ e` as a fraction. -/
def power (m base : Nat) (e : Int) : Nat × Nat :=
  match e with
  | .ofNat n => (m * Nat.pow base n, 1)
  | .negSucc n => (m, Nat.pow base (n + 1))

/-- Place of the leading digit of a positive `num / den`: the greatest `k` with
`10 ^ k ≤ num / den`. -/
def leadingPlace (num den : Nat) : Int :=
  if den ≤ num then
    (digitCount (num / den) : Int) - 1
  else
    let n := digitCount (den / num)
    if den ≤ num * Nat.pow 10 (n - 1) then -((n : Int) - 1) else -(n : Int)
where
  digitCount (n : Nat) : Nat := (Nat.toDigits 10 n).length

end Juggling.Decimal
