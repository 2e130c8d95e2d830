import Juggling.Text

namespace Juggling

inductive ThrowKind where
  | toss
  | bounce
  deriving DecidableEq

/-- Why a throw has no flight. -/
inductive FlightError (α : Type) where
  | unknownThrowType (name : String)
  | unknownParameter (kind : ThrowKind) (key : String)
  | invalidText (key value : String)
  | invalidNumber (key : String) (value : α)
  | nonPositiveDuration (start stop : α)
  | notAboveFloor
  | noLaunchSpeed (bounces : Nat) (duration : α)
  | wrongBounceCount

namespace ThrowKind

def name : ThrowKind → String
  | toss => "toss"
  | bounce => "bounce"

def ofName? (s : String) : Option ThrowKind :=
  match Text.lowered (Text.trimmed s) with
  | "" | "toss" => some toss
  | "bounce" => some bounce
  | _ => none

def parse {α : Type} (s : String) : Except (FlightError α) ThrowKind :=
  match ofName? s with
  | some k => .ok k
  | none => .error (.unknownThrowType s)

end ThrowKind

end Juggling
