import Juggling.Text
import Juggling.Decimal.Shortest

namespace Juggling

/-- Numbers that documents and messages spell out. -/
class Numeral (α : Type) where
  read? : String → Option α
  write : α → String
  /-- With so many places after the point. -/
  writeFixed : Nat → α → String

namespace Numeral

/-- What a text that spells a number says. -/
inductive Spelling where
  | decimal (negative : Bool) (digits : Nat) (place : Int)
  | infinite (negative : Bool)
  | undefined (negative : Bool)
  deriving DecidableEq

/-- The exponent after an `e`: a sign and at least one digit. -/
def exponent? (s : List Char) : Option Int :=
  let (negative, ds) : Bool × List Char := match s with
    | '-' :: ds => (true, ds)
    | '+' :: ds => (false, ds)
    | ds => (false, ds)
  if ds.isEmpty || ds.any (!·.isDigit) then none
  else
    let n : Int := Text.digitsValue ds
    some (if negative then -n else n)

/-- Digits with at most one point among them and at least one digit, then perhaps an exponent. -/
def decimal? (negative : Bool) (s : List Char) : Option Spelling :=
  let whole := s.takeWhile Char.isDigit
  let s := s.dropWhile Char.isDigit
  let (fraction, s) : List Char × List Char := match s with
    | '.' :: s => (s.takeWhile Char.isDigit, s.dropWhile Char.isDigit)
    | s => ([], s)
  if whole.isEmpty && fraction.isEmpty then none
  else
    let digits := Text.digitsValue (whole ++ fraction)
    let place : Int := -(fraction.length : Int)
    match s with
    | [] => some (.decimal negative digits place)
    | 'e' :: s | 'E' :: s => (exponent? s).map fun e ↦ .decimal negative digits (place + e)
    | _ => none

/-- One sign, then a decimal number or the name of a value that is none. -/
def spelling? (s : List Char) : Option Spelling :=
  let (negative, s) : Bool × List Char := match s with
    | '-' :: s => (true, s)
    | '+' :: s => (false, s)
    | s => (false, s)
  match String.ofList (Text.lower s) with
  | "inf" | "infinity" => some (.infinite negative)
  | "nan" => some (.undefined negative)
  | _ => decimal? negative s

end Numeral

namespace Decimal

/-- Numbers from this power of ten on are beyond every machine number. -/
def overflowPlace : Int := 310

/-- Numbers below this power of ten are nearer to zero than to every other machine number. -/
def underflowPlace : Int := -400

def infinity : Float := 1 / 0

def toFloat (digits : Nat) (place : Int) : Float :=
  let size : Int := (Nat.toDigits 10 digits).length + place
  if digits = 0 ∨ size < underflowPlace then 0
  else if overflowPlace < size then infinity
  else match place with
    | .ofNat n => Float.ofScientific (digits * Nat.pow 10 n) false 0
    | .negSucc n => Float.ofScientific digits true (n + 1)

def ofSpelling : Numeral.Spelling → Float
  | .decimal false digits place => toFloat digits place
  | .decimal true digits place => -toFloat digits place
  | .infinite false => infinity
  | .infinite true => -infinity
  | .undefined _ => 0 / 0

def signed (negative : Bool) (s : String) : String := if negative then "-" ++ s else s

/-- The text of a machine number, given how a positive size is written. -/
def render (zero : String) (size : Nat → Int → String) (x : Float) : String :=
  match Binary.ofFloat x with
  | .finite negative m e => signed negative (if m = 0 then zero else size m e)
  | .infinite negative => signed negative "inf"
  | .undefined => "NaN"

end Decimal

end Juggling
