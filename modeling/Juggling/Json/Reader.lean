import Juggling.Json.Basic
import Juggling.Json.Number

namespace Juggling.Json

namespace Reader

def isBlank (c : Char) : Bool := c == ' ' || c == '\t' || c == '\n' || c == '\r'

def skipBlank (s : List Char) : List Char := s.dropWhile isBlank

def hexDigit? (c : Char) : Option Nat :=
  if c.isDigit then some (c.toNat - '0'.toNat)
  else if 'a' ≤ c ∧ c ≤ 'f' then some (c.toNat - 'a'.toNat + 10)
  else if 'A' ≤ c ∧ c ≤ 'F' then some (c.toNat - 'A'.toNat + 10)
  else none

def hexValue? (cs : List Char) : Option Nat :=
  cs.foldlM (fun n c ↦ (hexDigit? c).map (16 * n + ·)) 0

def escape? : Char → Option Char
  | '"' => some '"'
  | '\\' => some '\\'
  | '/' => some '/'
  | 'b' => some '\x08'
  | 'f' => some '\x0c'
  | 'n' => some '\n'
  | 'r' => some '\r'
  | 't' => some '\t'
  | _ => none

/-- The character of a code unit, and the text after it. The first unit of a pair needs the
second; a second unit alone stands for nothing. -/
def codeUnit? (n : Nat) (s : List Char) : Option (Char × List Char) :=
  if 0xD800 ≤ n ∧ n < 0xDC00 then
    match s with
    | '\\' :: 'u' :: a :: b :: c :: d :: s => do
      let m ← hexValue? [a, b, c, d]
      if 0xDC00 ≤ m ∧ m < 0xE000 then
        some (Char.ofNat (0x10000 + (n - 0xD800) * 0x400 + (m - 0xDC00)), s)
      else none
    | _ => none
  else if 0xDC00 ≤ n ∧ n < 0xE000 then none
  else some (Char.ofNat n, s)

/-- Reads a string up to its closing quote, as characters unless half of a surrogate pair is among
them. -/
def string (fuel : Nat) (s : List Char) : Option (Option (List Char) × List Char) :=
  match fuel, s with
  | 0, _ | _, [] => none
  | _ + 1, '"' :: s => some (some [], s)
  | fuel + 1, '\\' :: 'u' :: a :: b :: c :: d :: s => do
    let n ← hexValue? [a, b, c, d]
    match codeUnit? n s with
    | some (x, s) => (string fuel s).map fun (xs, s) ↦ (xs.map (x :: ·), s)
    -- The rest is still read, to find the closing quote.
    | none => (string fuel s).map fun (_, s) ↦ (none, s)
  | fuel + 1, '\\' :: c :: s => do
    let x ← escape? c
    (string fuel s).map fun (xs, s) ↦ (xs.map (x :: ·), s)
  | fuel + 1, c :: s =>
    if c == '\\' || c.toNat < 0x20 then none
    else (string fuel s).map fun (xs, s) ↦ (xs.map (c :: ·), s)

def ofString : Option (List Char) → Json
  | some cs => .string (String.ofList cs)
  | none => .unreadable

def ofMembers (members : List (Option (List Char) × Json)) : Json :=
  match members.mapM fun (key, x) ↦ key.map (String.ofList ·, x) with
  | some ms => .object ms
  | none => .unreadable

def word? : List Char → List Char → Option (List Char)
  | [], s => some s
  | c :: w, d :: s => if c = d then word? w s else none
  | _ :: _, [] => none

mutual

def value (fuel : Nat) (s : List Char) : Option (Json × List Char) :=
  match fuel with
  | 0 => none
  | fuel + 1 =>
    match skipBlank s with
    | '[' :: s =>
      match skipBlank s with
      | ']' :: s => some (.array [], s)
      | s => (items fuel s).map fun (xs, s) ↦ (.array xs, s)
    | '{' :: s =>
      match skipBlank s with
      | '}' :: s => some (.object [], s)
      | s => (members fuel s).map fun (ms, s) ↦ (ofMembers ms, s)
    | '"' :: s => (string (fuel + 1) s).map fun (cs, s) ↦ (ofString cs, s)
    | 'n' :: s => (word? "ull".toList s).map fun s ↦ (.null, s)
    | 't' :: s => (word? "rue".toList s).map fun s ↦ (.bool true, s)
    | 'f' :: s => (word? "alse".toList s).map fun s ↦ (.bool false, s)
    | s =>
      (NumberParts.split? s).map fun (_, rest) ↦
        (.number (String.ofList (s.take (s.length - rest.length))), rest)

def items (fuel : Nat) (s : List Char) : Option (List Json × List Char) :=
  match fuel with
  | 0 => none
  | fuel + 1 => do
    let (x, s) ← value fuel s
    match skipBlank s with
    | ']' :: s => some ([x], s)
    | ',' :: s => (items fuel s).map fun (xs, s) ↦ (x :: xs, s)
    | _ => none

def members (fuel : Nat) (s : List Char) :
    Option (List (Option (List Char) × Json) × List Char) :=
  match fuel with
  | 0 => none
  | fuel + 1 => do
    match skipBlank s with
    | '"' :: s =>
      let (key, s) ← string (fuel + 1) s
      match skipBlank s with
      | ':' :: s =>
        let (x, s) ← value fuel s
        let m := (key, x)
        match skipBlank s with
        | '}' :: s => some ([m], s)
        | ',' :: s => (members fuel s).map fun (ms, s) ↦ (m :: ms, s)
        | _ => none
      | _ => none
    | _ => none

end

end Reader

/-- Reads a text that holds one value and nothing else. Every step of the reader either takes a
character or is followed by one that does. -/
def parse? (text : String) : Option Json := do
  let s := text.toList
  let (x, rest) ← Reader.value (2 * s.length + 2) s
  if (Reader.skipBlank rest).isEmpty then some x else none

end Juggling.Json
