import Juggling.Yaml.Basic
import Juggling.Yaml.Token.Scan

namespace Juggling.Yaml

namespace Reader

/-- Tokens that end an entry of a block mapping, or of a sequence that is not indented below its
key. -/
def endsEntry : List Token → Bool
  | .key :: _ | .value :: _ | .blockEnd :: _ => true
  | _ => false

def endsItem : List Token → Bool
  | .item :: _ | .blockEnd :: _ => true
  | _ => false

/-- Tokens that end a key or a value between brackets. -/
def endsFlow (close : Token) : List Token → Bool
  | t :: _ => t == .comma || t == close
  | [] => false

/-- What has been read, and the tokens after it. -/
abbrev Parsed (β : Type) := β × List Token

/-- The entries between brackets have commas between them and perhaps one at their end. -/
def separated (first : Bool) (ts : List Token) : Option (List Token) :=
  if first then some ts
  else match ts with
    | .comma :: ts => some ts
    | _ => none

mutual

/-- A node. Collections of a block are allowed where `block` says so; a value in one may be a
sequence in the column of its key. -/
def node (fuel : Nat) (block value : Bool) (ts : List Token) : Option (Parsed Yaml) :=
  match fuel, ts with
  | 0, _ | _, [] => none
  | fuel + 1, t :: rest =>
    match t, block, value with
    | .scalar s plain, _, _ => some (.scalar s plain, rest)
    | .item, _, true => (columnItems fuel ts).map fun (xs, ts) ↦ (.sequence xs, ts)
    | .openBracket, _, _ => (flowItems fuel true rest).map fun (xs, ts) ↦ (.sequence xs, ts)
    | .openBrace, _, _ => (flowEntries fuel true rest).map fun (es, ts) ↦ (.mapping es, ts)
    | .blockSequence, true, _ => (items fuel rest).map fun (xs, ts) ↦ (.sequence xs, ts)
    | .blockMapping, true, _ => (entries fuel rest).map fun (es, ts) ↦ (.mapping es, ts)
    | _, _, _ => none

def optional (fuel : Nat) (missing block value : Bool) (ts : List Token) : Option (Parsed Yaml) :=
  match fuel with
  | 0 => none
  | fuel + 1 => if missing then some (nothing, ts) else node fuel block value ts

def items (fuel : Nat) (ts : List Token) : Option (Parsed (List Yaml)) :=
  match fuel, ts with
  | fuel + 1, .item :: ts => do
    let (x, ts) ← optional fuel (endsItem ts) true false ts
    let (xs, ts) ← items fuel ts
    some (x :: xs, ts)
  | _ + 1, .blockEnd :: ts => some ([], ts)
  | _, _ => none

/-- The items of a sequence that is not indented, which has no end of its own. -/
def columnItems (fuel : Nat) (ts : List Token) : Option (Parsed (List Yaml)) :=
  match fuel, ts with
  | 0, _ => none
  | fuel + 1, .item :: ts => do
    let (x, ts) ← optional fuel (endsItem ts || endsEntry ts) true false ts
    let (xs, ts) ← columnItems fuel ts
    some (x :: xs, ts)
  | _ + 1, ts => some ([], ts)

def entries (fuel : Nat) (ts : List Token) : Option (Parsed (List (Yaml × Yaml))) :=
  match fuel, ts with
  | fuel + 1, .key :: ts => do
    let (k, ts) ← optional fuel (endsEntry ts) true true ts
    let (v, ts) ← match ts with
      | .value :: ts => optional fuel (endsEntry ts) true true ts
      | ts => some (nothing, ts)
    let (es, ts) ← entries fuel ts
    some ((k, v) :: es, ts)
  | _ + 1, .blockEnd :: ts => some ([], ts)
  | _, _ => none

/-- The items of a sequence between brackets. A key among them starts a mapping of one entry. -/
def flowItems (fuel : Nat) (first : Bool) (ts : List Token) : Option (Parsed (List Yaml)) :=
  match fuel, ts with
  | 0, _ => none
  | _ + 1, .closeBracket :: ts => some ([], ts)
  | fuel + 1, ts => do
    match ← separated first ts with
    | .closeBracket :: ts => some ([], ts)
    | .key :: ts =>
      let (k, ts) ← match ts with
        | .value :: rest | .comma :: rest | .closeBracket :: rest => some (nothing, rest)
        | ts => node fuel false false ts
      let (v, ts) ← flowValue fuel .closeBracket ts
      let (xs, ts) ← flowItems fuel false ts
      some (.mapping [(k, v)] :: xs, ts)
    | ts =>
      let (x, ts) ← node fuel false false ts
      let (xs, ts) ← flowItems fuel false ts
      some (x :: xs, ts)

/-- The entries of a mapping between braces. One without a key of its own has no value. -/
def flowEntries (fuel : Nat) (first : Bool) (ts : List Token) :
    Option (Parsed (List (Yaml × Yaml))) :=
  match fuel, ts with
  | 0, _ => none
  | _ + 1, .closeBrace :: ts => some ([], ts)
  | fuel + 1, ts => do
    match ← separated first ts with
    | .closeBrace :: ts => some ([], ts)
    | .key :: ts =>
      let missing := ts.head? == some .value || endsFlow .closeBrace ts
      let (k, ts) ← optional fuel missing false false ts
      let (v, ts) ← flowValue fuel .closeBrace ts
      let (es, ts) ← flowEntries fuel false ts
      some ((k, v) :: es, ts)
    | ts =>
      let (k, ts) ← node fuel false false ts
      let (es, ts) ← flowEntries fuel false ts
      some ((k, nothing) :: es, ts)

/-- The value of a key between brackets, which may be missing. -/
def flowValue (fuel : Nat) (close : Token) (ts : List Token) : Option (Parsed Yaml) :=
  match fuel, ts with
  | 0, _ => none
  | fuel + 1, .value :: ts => optional fuel (endsFlow close ts) false false ts
  | _ + 1, ts => some (nothing, ts)

end

def document (ts : List Token) : Option Yaml := do
  let (x, ts) ← match ts with
    | [] => some (nothing, [])
    | .documentStart :: ts =>
      let missing := ts.isEmpty || ts.head? == some .documentStart || ts.head? == some .documentEnd
      optional (4 * ts.length + 4) missing true false ts
    | ts => node (4 * ts.length + 4) true false ts
  if ts.all (· == .documentEnd) then some x else none

end Reader

/-- Reads a text that holds one document. Every step of the reader either takes a token or is one
of a few between two that do. -/
def parse? (text : String) : Option Yaml := (tokens? text).bind Reader.document

end Juggling.Yaml
