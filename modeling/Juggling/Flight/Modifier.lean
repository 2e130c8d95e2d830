import Juggling.Scalar
import Juggling.Numeral
import Juggling.Flight.Throw

namespace Juggling

/-- Settings of a throw, in the order in which their keys first appear. -/
structure Modifier where
  settings : List (String × String)
  deriving DecidableEq

namespace Modifier

/-- A key that is set again keeps its place. -/
def set (settings : List (String × String)) (key value : String) : List (String × String) :=
  match settings with
  | [] => [(key, value)]
  | (k, v) :: rest => if k = key then (key, value) :: rest else (k, v) :: set rest key value

/-- A key without a value is switched on. -/
def setting (part : List Char) : String × String :=
  match Text.cut? '=' part with
  | some (key, value) =>
    (String.ofList (Text.lower (Text.trim key)), String.ofList (Text.trim value))
  | none => (String.ofList (Text.lower part), "true")

/-- Reads a list such as `g=500; hyper`. -/
def parse (s : String) : Modifier :=
  let parts := ((Text.split ';' s.toList).map Text.trim).filter (!·.isEmpty)
  ⟨parts.foldl (fun settings part ↦ set settings (setting part).1 (setting part).2) []⟩

variable {α : Type}

/-- Refuses the first key that is not among the known ones. -/
def rejectUnknown (m : Modifier) (kind : ThrowKind) (known : List String) :
    Except (FlightError α) Unit :=
  match m.settings.find? fun (key, _) ↦ !known.contains key with
  | some (key, _) => .error (.unknownParameter kind key)
  | none => .ok ()

variable [Scalar α] [Numeral α]

/-- A finite number, or the default where the key is absent. -/
def number (m : Modifier) (key : String) (default : α) : Except (FlightError α) α :=
  match m.settings.lookup key with
  | none => .ok default
  | some v =>
    match (Numeral.read? v : Option α).filter Scalar.isFinite with
    | some x => .ok x
    | none => .error (.invalidText key v)

def flag (m : Modifier) (key : String) : Except (FlightError α) Bool :=
  match m.settings.lookup key with
  | none | some "false" | some "0" | some "no" => .ok false
  | some "true" | some "1" | some "yes" => .ok true
  | some v => .error (.invalidText key v)

/-- Pull of the ground in cm/s². -/
def gravity : α := 980

end Modifier

end Juggling
