import Juggling.Numeral

namespace Juggling

inductive Format where
  | json
  | yaml
  deriving DecidableEq

/-- Why a document does not say what it should. -/
inductive DocumentError where
  | malformed (format : Format)
  | unexpectedRoot (expected found : String)
  | missingAttribute (tag key : String)
  | invalidAttribute (tag key value : String)
  | invalidHand (value : String)
  deriving DecidableEq

def DocumentError.message : DocumentError → String
  | malformed .json => "failed to parse JSON"
  | malformed .yaml => "failed to parse YAML"
  | unexpectedRoot expected found => s!"expected a <{expected}> node, found <{found}>"
  | missingAttribute tag key => s!"<{tag}> is missing attribute \"{key}\""
  | invalidAttribute tag key value => s!"<{tag}> has invalid {key}=\"{value}\""
  | invalidHand value => s!"invalid hand \"{value}\" (expected [juggler:]left|right)"

/-- A node of a document: a tag, attributes in the order of their first mention, perhaps a text,
and nodes below it. -/
structure Element where
  tag : String
  attributes : List (String × String) := []
  text : Option String := none
  children : List Element := []
  deriving BEq

namespace Element

/-- Sets an attribute; one that is there already keeps its place. -/
def insert {β : Type} (attributes : List (String × β)) (key : String) (value : β) :
    List (String × β) :=
  match attributes with
  | [] => [(key, value)]
  | (k, v) :: rest => if k = key then (key, value) :: rest else (k, v) :: insert rest key value

/-- Attributes in the order of their first mention; the last value counts, and has to be a
scalar. -/
def scalars? (members : List (String × Option String)) : Option (List (String × String)) :=
  (members.foldl (fun as (k, v) ↦ insert as k v) []).mapM fun (k, v) ↦ v.map (k, ·)

def attr (e : Element) (key value : String) : Element :=
  { e with attributes := insert e.attributes key value }

def withText (e : Element) (s : String) : Element := { e with text := some s }

def child (e c : Element) : Element := { e with children := e.children ++ [c] }

def tagged (e : Element) (tag : String) : List Element := e.children.filter (·.tag == tag)

def get? (e : Element) (key : String) : Option String := e.attributes.lookup key

def require (e : Element) (key : String) : Except DocumentError String :=
  match e.get? key with
  | some v => .ok v
  | none => .error (.missingAttribute e.tag key)

/-- A number in the value of an attribute, blanks around it aside. -/
def readNumber {α : Type} [Numeral α] (e : Element) (key value : String) :
    Except DocumentError α :=
  match Numeral.read? (Text.trimmed value) with
  | some x => .ok x
  | none => .error (.invalidAttribute e.tag key value)

def readNat (e : Element) (key value : String) : Except DocumentError Nat :=
  match Text.readNat? (Text.trim value.toList) with
  | some n => .ok n
  | none => .error (.invalidAttribute e.tag key value)

def numberD {α : Type} [Numeral α] (e : Element) (key : String) (default : α) :
    Except DocumentError α :=
  match e.get? key with
  | none => .ok default
  | some v => e.readNumber key v

def natD (e : Element) (key : String) (default : Nat) : Except DocumentError Nat :=
  match e.get? key with
  | none => .ok default
  | some v => e.readNat key v

def number {α : Type} [Numeral α] (e : Element) (key : String) : Except DocumentError α := do
  e.readNumber key (← e.require key)

def nat (e : Element) (key : String) : Except DocumentError Nat := do
  e.readNat key (← e.require key)

end Element

end Juggling
