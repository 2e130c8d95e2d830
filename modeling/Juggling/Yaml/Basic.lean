import Juggling.Json.Number

namespace Juggling

/-- A YAML text as a tree. A scalar is plain when no quotes surround it. -/
inductive Yaml where
  | scalar (text : String) (plain : Bool)
  | sequence (items : List Yaml)
  | mapping (entries : List (Yaml × Yaml))

namespace Yaml

/-- What a plain scalar stands for. -/
inductive Resolved where
  | null
  | bool (b : Bool)
  | integer (n : Int)
  | float (x : Float)
  | text
  deriving BEq

def nothing : Yaml := .scalar "" true

def isNullWord (s : String) : Bool := ["null", "Null", "NULL", "~"].contains s

def boolWord? (s : String) : Option Bool :=
  if ["true", "True", "TRUE"].contains s then some true
  else if ["false", "False", "FALSE"].contains s then some false
  else none

/-- Digits after needless zeros are text, as in `007`. -/
def hasLeadingZeros (s : List Char) : Bool :=
  let ds := match s with
    | '-' :: ds | '+' :: ds => ds
    | ds => ds
  1 < ds.length && ds.head? == some '0' && ds.all Char.isDigit

def digit? (base : Nat) (c : Char) : Option Nat :=
  let n :=
    if c.isDigit then c.toNat - '0'.toNat
    else if c.isLower then c.toNat - 'a'.toNat + 10
    else if c.isUpper then c.toNat - 'A'.toNat + 10
    else base
  if n < base then some n else none

def digits? (base : Nat) (s : List Char) : Option Nat :=
  if s.isEmpty then none
  else s.foldlM (fun n c ↦ (digit? base c).map (base * n + ·)) 0

/-- A number without its sign: decimal, or in base 16, 8 or 2 after `0x`, `0o` or `0b`. -/
def magnitude? : List Char → Option Nat
  | '0' :: 'x' :: s => digits? 16 s
  | '0' :: 'o' :: s => digits? 8 s
  | '0' :: 'b' :: s => digits? 2 s
  | s => if hasLeadingZeros s then none else digits? 10 s

/-- Integers of up to 128 bits. -/
def integer? (s : List Char) : Option Int :=
  let sized (n : Int) : Option Int :=
    if -Int.ofNat (Nat.pow 2 127) ≤ n ∧ n < Int.ofNat (Nat.pow 2 128) then some n else none
  match s with
  | '-' :: s => (magnitude? s).bind fun n ↦ sized (-n)
  | '+' :: s => (magnitude? s).bind fun n ↦ sized n
  | s => (magnitude? s).bind fun n ↦ sized n

/-- A finite number in decimal spelling, or one of the marked names of the others. -/
def float? (s : List Char) : Option Float :=
  let unsigned := match s with
    | '+' :: s => s
    | s => s
  if [".inf", ".Inf", ".INF"].contains (String.ofList unsigned) then some Decimal.infinity
  else if ["-.inf", "-.Inf", "-.INF"].contains (String.ofList s) then some (-Decimal.infinity)
  else if [".nan", ".NaN", ".NAN"].contains (String.ofList s) then some (0 / 0)
  else if s.head? == some '+' && (unsigned.head? == some '+' || unsigned.head? == some '-') then none
  else ((Numeral.spelling? unsigned).map Decimal.ofSpelling).filter Float.isFinite

/-- Tells what a plain scalar stands for from its text alone. -/
def resolve (s : String) : Resolved :=
  if s.isEmpty || isNullWord s then .null
  else match boolWord? s with
    | some b => .bool b
    | none =>
      let cs := s.toList
      match integer? cs with
      | some n => .integer n
      | none =>
        if hasLeadingZeros cs then .text
        else match float? cs with
          | some x => .float x
          | none => .text

end Yaml

end Juggling
