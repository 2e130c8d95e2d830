import Juggling.Yaml.Scalar
import Juggling.Yaml.Token

namespace Juggling.Yaml

/-- A place where a key may have started: only a colon on the same line tells. -/
structure Candidate extends Position where
  /-- How many tokens stand before it. -/
  before : Nat
  /-- Whether nothing but a key can stand there. -/
  required : Bool

namespace Candidate

/-- Bytes that a key without a mark of its own may take. -/
def reach : Nat := 1024

def isLost (k : Candidate) (p : Position) : Bool :=
  k.line < p.line || k.bytes + reach < p.bytes

end Candidate

structure Scan where
  cursor : Cursor
  /-- The last token first. -/
  tokens : List Token := []
  /-- Columns of the block collections that are open, the innermost first. -/
  columns : List Nat := []
  candidate : Option Candidate := none
  /-- Candidates outside the brackets that are open, the innermost first. -/
  outer : List (Option Candidate) := []
  allowsKey : Bool := true

namespace Scan

def inFlow (s : Scan) : Bool := !s.outer.isEmpty

def push (s : Scan) (t : Token) : Scan := { s with tokens := t :: s.tokens }

/-- Adds tokens behind the first so many. -/
def insert (s : Scan) (before : Nat) (ts : List Token) : Scan :=
  let n := s.tokens.length - before
  { s with tokens := s.tokens.take n ++ ts.reverse ++ s.tokens.drop n }

def moveTo (s : Scan) (c : Cursor) : Scan := { s with cursor := c }

/-- Takes characters as one token. -/
def take (s : Scan) (n : Nat) (t : Token) : Scan := (s.push t).moveTo (s.cursor.drop n)

def allowKey (s : Scan) (b : Bool) : Scan := { s with allowsKey := b }

/-- Gives up a candidate, unless it has to be a key. -/
def giveUp (k : Option Candidate) : Option (Option Candidate) :=
  if k.any (·.required) then none else some none

def dropCandidate (s : Scan) : Option Scan :=
  (giveUp s.candidate).map fun k ↦ { s with candidate := k }

/-- Makes the next token a candidate where keys are allowed. -/
def saveCandidate (s : Scan) : Option Scan :=
  if s.allowsKey then
    s.dropCandidate.map fun s ↦
      let c := s.cursor
      let required := !s.inFlow && s.columns.head? == some c.column
      { s with candidate := some ⟨c.toPosition, s.tokens.length, required⟩ }
  else some s

/-- Gives up every candidate that the text has left behind. -/
def dropLost (s : Scan) : Option Scan := do
  let check (k : Option Candidate) : Option (Option Candidate) :=
    if k.any (·.isLost s.cursor.toPosition) then giveUp k else some k
  let candidate ← check s.candidate
  let outer ← s.outer.mapM check
  some { s with candidate, outer }

/-- Opens a block collection in a column that none is open in yet, behind the first so many
tokens. -/
def indent (s : Scan) (column before : Nat) (t : Token) : Scan :=
  if s.inFlow || !(s.columns.head?.all (· < column)) then s
  else { s.insert before [t] with columns := column :: s.columns }

/-- Closes the block collections for which `p` holds, from the innermost on. -/
def closeWhile (s : Scan) (p : Nat → Bool) : Scan :=
  if s.inFlow then s
  else
    let n := (s.columns.takeWhile p).length
    { s with tokens := List.replicate n .blockEnd ++ s.tokens, columns := s.columns.drop n }

def toToken (s : Scan) : Option Scan := do
  let c := s.cursor
  let d := skip s.inFlow (s.inFlow || !s.allowsKey) false c.toPosition c.rest
  -- Outside brackets a key may start on a new line.
  let newLine := !s.inFlow && c.line < d.line
  let s ← { s with cursor := d, allowsKey := s.allowsKey || newLine }.dropLost
  some (s.closeWhile (d.column < ·))

def documentMark (s : Scan) (t : Token) : Option Scan :=
  (s.closeWhile fun _ ↦ true).dropCandidate.map fun s ↦ (s.allowKey false).take 3 t

def openFlow (s : Scan) (t : Token) : Option Scan :=
  s.saveCandidate.map fun s ↦
    { (s.allowKey true).take 1 t with candidate := none, outer := s.candidate :: s.outer }

def closeFlow (s : Scan) (t : Token) : Option Scan :=
  s.dropCandidate.map fun s ↦
    let s := (s.allowKey false).take 1 t
    match s.outer with
    | [] => s
    | k :: outer => { s with candidate := k, outer }

def comma (s : Scan) : Option Scan :=
  s.dropCandidate.map fun s ↦ (s.allowKey true).take 1 .comma

def indentHere (s : Scan) (t : Token) : Option Scan :=
  if s.inFlow then some s
  else if s.allowsKey then some (s.indent s.cursor.column s.tokens.length t)
  else none

def item (s : Scan) : Option Scan := do
  let s ← (← s.indentHere .blockSequence).dropCandidate
  some ((s.allowKey true).take 1 .item)

def key (s : Scan) : Option Scan := do
  let s ← (← s.indentHere .blockMapping).dropCandidate
  some ((s.allowKey !s.inFlow).take 1 .key)

/-- The colon before a value. It makes the candidate a key, if there is one. -/
def value (s : Scan) : Option Scan :=
  match s.candidate with
  | some k =>
    -- The key token goes where the candidate stood, behind a mapping that it may open.
    let s := (s.insert k.before [.key]).indent k.column k.before .blockMapping
    some (({ s with candidate := none }.allowKey false).take 1 .value)
  | none =>
    (s.indentHere .blockMapping).map fun s ↦ (s.allowKey !s.inFlow).take 1 .value

def scalar (s : Scan) (text : List Char) (plain : Bool) (c : Cursor) : Scan :=
  (s.push (.scalar (String.ofList text) plain)).moveTo c

def quoted (s : Scan) (double : Bool) : Option Scan := do
  let s ← s.saveCandidate
  let (text, c) ← Quoted.read double s.cursor
  some ((s.allowKey false).scalar text false c)

def block (s : Scan) (folded : Bool) : Option Scan := do
  let s ← s.dropCandidate
  let (text, c) ← Block.read folded s.columns.head? s.cursor
  some ((s.allowKey true).scalar text false c)

/-- After a break that ends a plain scalar a key may follow. -/
def plain (s : Scan) : Option Scan := do
  let s ← s.saveCandidate
  let indent := (s.columns.head?.map (· + 1)).getD 0
  let (text, g) ← Plain.read s.inFlow indent s.cursor
  some ((s.allowKey !g.breaks.isEmpty).scalar text true g.next)

def token (s : Scan) : Option Scan :=
  if s.cursor.atMark '-' then s.documentMark .documentStart
  else if s.cursor.atMark '.' then s.documentMark .documentEnd
  else match s.cursor.rest with
    | [] => none
    | '[' :: _ => s.openFlow .openBracket
    | '{' :: _ => s.openFlow .openBrace
    | ']' :: _ => s.closeFlow .closeBracket
    | '}' :: _ => s.closeFlow .closeBrace
    | ',' :: _ => s.comma
    | '\'' :: _ => s.quoted false
    | '"' :: _ => s.quoted true
    | '|' :: _ => if s.inFlow then none else s.block false
    | '>' :: _ => if s.inFlow then none else s.block true
    | c :: rest =>
      if c == '-' && atSpace rest then s.item
      else if c == '?' && (s.inFlow || atSpace rest) then s.key
      else if c == ':' && (s.inFlow || atSpace rest) then s.value
      else if Plain.starts s.inFlow (c :: rest) then s.plain
      else none

/-- Reads all tokens. Every step takes a character at least. -/
def run (fuel : Nat) (s : Scan) : Option (List Token) :=
  match fuel with
  | 0 => none
  | fuel + 1 => do
    let s ← s.toToken
    if s.cursor.rest.isEmpty then
      (s.closeWhile fun _ ↦ true).dropCandidate.map (·.tokens.reverse)
    else run fuel (← s.token)

end Scan

def tokens? (text : String) : Option (List Token) :=
  let s := text.toList
  if s.any (!isAllowed ·) then none
  else
    let s := unifyBreaks s
    Scan.run (s.length + 1) { cursor := ⟨{}, s⟩ }

end Juggling.Yaml
