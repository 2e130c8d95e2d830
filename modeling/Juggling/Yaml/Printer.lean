import Juggling.Yaml.Basic
import Juggling.Yaml.Character

namespace Juggling.Yaml.Printer

inductive Style where
  | plain
  | singleQuoted
  | doubleQuoted
  | literal
  deriving DecidableEq

/-- Whether the start of a text keeps it from being a plain scalar. -/
def marksStart (s : List Char) : Bool :=
  match s with
  | [] => false
  | '-' :: '-' :: '-' :: _ | '.' :: '.' :: '.' :: _ => true
  | c :: s => isIndicator c || (['?', ':', '-'].contains c && atSpace s)

/-- Whether a later character does: a colon before white space or a number sign after it. -/
def marksInside (afterSpace : Bool) : List Char → Bool
  | [] => false
  | c :: s =>
    (c == ':' && atSpace s) || (c == '#' && afterSpace) || marksInside (isSpace c) s

/-- Whether some character is followed by another, by their kinds. -/
def hasPair (p q : Char → Bool) : List Char → Bool
  | c :: d :: s => (p c && q d) || hasPair p q (d :: s)
  | _ => false

def startsWith (p : Char → Bool) (s : List Char) : Bool := s.head?.any p

def endsWith (p : Char → Bool) (s : List Char) : Bool := s.getLast?.any p

/-- A blank before a break, or a character that cannot be shown. -/
def needsEscapes (s : List Char) : Bool :=
  hasPair (· == ' ') isBreak s || s.any (!isPrintable ·)

def allowsPlain (s : List Char) : Bool :=
  !(marksStart s || (match s with | [] => false | c :: s => marksInside (isSpace c) s)
    || startsWith (· == ' ') s || endsWith (· == ' ') s || s.any isBreak || needsEscapes s)

def allowsSingleQuotes (s : List Char) : Bool :=
  !(hasPair isBreak (· == ' ') s || needsEscapes s)

def allowsLiteral (s : List Char) : Bool :=
  !(s.isEmpty || endsWith (· == ' ') s || needsEscapes s)

/-- Several lines are a literal block, and text that would be taken for something else without
quotes gets them. -/
def wished (s : String) : Style :=
  if s.toList.contains '\n' then .literal
  else match resolve s with
    | .text => if hasLeadingZeros s.toList then .singleQuoted else .plain
    | _ => .singleQuoted

/-- The style of a scalar, among those that its characters allow. -/
def style (s : String) : Style :=
  let cs := s.toList
  -- Double quotes allow every text.
  let quotes : Style := if allowsSingleQuotes cs then .singleQuoted else .doubleQuoted
  match wished s with
  | .plain => if allowsPlain cs then .plain else quotes
  | .literal => if allowsLiteral cs then .literal else .doubleQuoted
  | _ => quotes

def hexDigits (width n : Nat) : List Char :=
  let ds := (Nat.toDigits 16 n).map Char.toUpper
  List.replicate (width - ds.length) '0' ++ ds

def escape (c : Char) : List Char :=
  match c with
  | '\x00' => ['\\', '0']
  | '\x07' => ['\\', 'a']
  | '\x08' => ['\\', 'b']
  | '\t' => ['\\', 't']
  | '\n' => ['\\', 'n']
  | '\x0b' => ['\\', 'v']
  | '\x0c' => ['\\', 'f']
  | '\r' => ['\\', 'r']
  | '\x1b' => ['\\', 'e']
  | '"' => ['\\', '"']
  | '\\' => ['\\', '\\']
  | '\u0085' => ['\\', 'N']
  | '\u2028' => ['\\', 'L']
  | '\u2029' => ['\\', 'P']
  | c =>
    let n := c.toNat
    if isPrintable c then [c]
    else if n ≤ 0xFF then '\\' :: 'x' :: hexDigits 2 n
    else if n ≤ 0xFFFF then '\\' :: 'u' :: hexDigits 4 n
    else '\\' :: 'U' :: hexDigits 8 n

def spaces (n : Nat) : List Char := List.replicate n ' '

/-- Text on lines of its own: every line that is not empty is indented. -/
def indented (n : Nat) (atStart : Bool) : List Char → List Char
  | [] => []
  | c :: s =>
    if isBreak c then c :: indented n true s
    else (if atStart then spaces n else []) ++ c :: indented n false s

/-- Between single quotes what follows a break is indented, even the closing quote. -/
def singleQuoted (n : Nat) (s : List Char) : List Char :=
  '\'' :: indented n false (s.flatMap fun c ↦ if c == '\'' then ['\'', '\''] else [c])
    ++ (if endsWith isBreak s then spaces n else []) ++ ['\'']

/-- Marks a literal block: how far it is indented where its text starts with white space, and
what becomes of the breaks at its end. -/
def literalMark (s : List Char) : List Char :=
  let indentation := startsWith (fun c ↦ c == ' ' || isBreak c) s
  let ending := match s.reverse with
    | c :: d :: _ => if !isBreak c then ['-'] else if isBreak d then ['+'] else []
    | [c] => if isBreak c then ['+'] else ['-']
    | [] => ['-']
  -- The text is indented by two below its key.
  '|' :: (if indentation then ['2'] else []) ++ ending

/-- A scalar, whose further lines are indented by so many blanks. -/
def scalar (n : Nat) (s : String) : List Char :=
  let cs := s.toList
  match style s with
  | .plain => cs
  | .singleQuoted => singleQuoted n cs
  | .doubleQuoted => '"' :: cs.flatMap escape ++ ['"']
  | .literal => literalMark cs ++ '\n' :: indented n true cs

def endLine (s : List Char) : List Char := if endsWith isBreak s then s else s ++ ['\n']

/-- The number of bytes that a key may have to stand on one line with its value. -/
def keyLimit : Nat := 128

def isShortKey (key : String) : Bool :=
  !key.toList.any isBreak && key.utf8ByteSize ≤ keyLimit

/-- A key and a scalar after it, without the indentation of the key. Other keys than short ones
get a mark of their own. -/
def entry (n : Nat) (key value : String) : List Char :=
  let text (s : String) := scalar (n + 2) s
  if isShortKey key then endLine (text key ++ ':' :: ' ' :: text value)
  else
    endLine ('?' :: ' ' :: text key) ++ spaces n ++ endLine (':' :: ' ' :: text value)

/-- A short key, below which something else follows. -/
def header (key : String) : List Char := key.toList ++ [':', '\n']

end Juggling.Yaml.Printer
