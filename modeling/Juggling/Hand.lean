import Juggling.Text

namespace Juggling

inductive Hand where
  | left
  | right
  deriving DecidableEq

structure Hands (β : Type) where
  left : β
  right : β
  deriving DecidableEq

namespace Hand

def all : List Hand := [left, right]

def other : Hand → Hand
  | left => right
  | right => left

/-- Left hands come first. -/
def index : Hand → Nat
  | left => 0
  | right => 1

def name : Hand → String
  | left => "left"
  | right => "right"

def ofName? (s : String) : Option Hand :=
  match Text.lowered (Text.trimmed s) with
  | "left" => some left
  | "right" => some right
  | _ => none

/-- The name of a hand, after the number of its juggler unless that is the first. -/
def label (juggler : Nat) (hand : Hand) : String :=
  if juggler = 1 then hand.name else s!"{juggler}:{hand.name}"

/-- Reads a label; what is left over is the part that does not name a hand. -/
def parseLabel (s : String) : Except String (Nat × Hand) :=
  let named (juggler : Nat) (h : String) : Except String (Nat × Hand) :=
    match ofName? h with
    | some hand => .ok (juggler, hand)
    | none => .error h
  match Text.cut? ':' s.toList with
  | none => named 1 s
  | some (j, h) =>
    match Text.readNat? (Text.trim j) with
    | some (juggler + 1) => named (juggler + 1) (String.ofList h)
    | _ => .error s

end Hand

namespace Hands

variable {β γ : Type}

def get (v : Hands β) : Hand → β
  | .left => v.left
  | .right => v.right

def set (v : Hands β) (x : β) : Hand → Hands β
  | .left => { v with left := x }
  | .right => { v with right := x }

def map (f : β → γ) (v : Hands β) : Hands γ := ⟨f v.left, f v.right⟩

def ofFn (f : Hand → β) : Hands β := ⟨f .left, f .right⟩

def toList (v : Hands β) : List β := [v.left, v.right]

end Hands

end Juggling
