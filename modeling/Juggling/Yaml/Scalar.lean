import Juggling.Json.Reader
import Juggling.Yaml.Cursor

namespace Juggling.Yaml

/-- What has been read, and where the text goes on. -/
abbrev Read (β : Type) := β × Cursor

namespace Plain

def starts (flow : Bool) (s : List Char) : Bool :=
  match s with
  | [] => false
  | '-' :: s => !(s.head?.any isBlank)
  | '?' :: s | ':' :: s => !flow && !atSpace s
  | c :: _ => !(isIndicator c || isSpace c)

/-- The part of a plain scalar up to the next white space, to a colon before white space, or to a
mark inside brackets, where a colon must not stand before a mark. -/
def word (flow : Bool) : List Char → Option (List Char)
  | [] => some []
  | c :: s =>
    if flow && c == ':' && s.head?.any (fun d ↦ isFlowMark d || d == '?') then none
    else if isSpace c || (c == ':' && atSpace s) || (flow && isFlowMark c) then some []
    else (word flow s).map (c :: ·)

/-- Words with white space between them, from the white space before one on, and the white space
after the last. Further lines are indented far enough; a number sign after white space ends the
scalar. -/
def words (fuel : Nat) (flow : Bool) (indent : Nat) (g : Gap) : Option (List Char × Gap) :=
  match fuel with
  | 0 => none
  | fuel + 1 => do
    let c := g.next
    -- The scalar ended before the white space.
    if c.atDocumentMark || c.rest.head? == some '#' then return ([], g)
    let w ← word flow c.rest
    if w.isEmpty then return ([], g)
    let d := c.drop w.length
    if hasEarlyTab indent d.column false d.rest then none
    let h := d.gap
    if !(d.rest.head?.any isSpace) || (!flow && h.next.column < indent) then
      return (g.text ++ w, h)
    let (more, h) ← words fuel flow indent h
    return (g.text ++ w ++ more, h)

def read (flow : Bool) (indent : Nat) (c : Cursor) : Option (List Char × Gap) :=
  words (c.rest.length + 1) flow indent ⟨[], [], c⟩

end Plain

namespace Quoted

def escape? : Char → Option Char
  | '0' => some '\x00'
  | 'a' => some '\x07'
  | 'b' => some '\x08'
  | 't' | '\t' => some '\t'
  | 'n' => some '\n'
  | 'v' => some '\x0b'
  | 'f' => some '\x0c'
  | 'r' => some '\r'
  | 'e' => some '\x1b'
  | ' ' => some ' '
  | '"' => some '"'
  | '/' => some '/'
  | '\\' => some '\\'
  | 'N' => some '\u0085'
  | '_' => some '\u00a0'
  | 'L' => some '\u2028'
  | 'P' => some '\u2029'
  | _ => none

/-- How many hexadecimal digits follow a letter after a backslash. -/
def escapeWidth? : Char → Option Nat
  | 'x' => some 2
  | 'u' => some 4
  | 'U' => some 8
  | _ => none

def coded? (width : Nat) (s : List Char) : Option Char := do
  if s.length < width then none
  let n ← Json.Reader.hexValue? (s.take width)
  if n.isValidChar then some (Char.ofNat n) else none

/-- Puts characters before what is read next. -/
def prepend (cs : List Char) : Option (Read (List Char)) → Option (Read (List Char)) :=
  Option.map fun (ds, c) ↦ (cs ++ ds, c)

/-- The text up to the closing quote. After a backslash an end of a line stands for nothing. -/
def text (fuel : Nat) (double : Bool) (c : Cursor) : Option (Read (List Char)) :=
  match fuel with
  | 0 => none
  | fuel + 1 =>
    if c.atDocumentMark then none
    else match c.rest, double with
      | [], _ => none
      | '"' :: _, true => some ([], c.drop 1)
      | '\'' :: '\'' :: _, false => prepend ['\''] (text fuel double (c.drop 2))
      | '\'' :: _, false => some ([], c.drop 1)
      | '\\' :: [], true => none
      | '\\' :: e :: s, true =>
        if isBreak e then
          -- The break itself is left out, and those after it stay.
          let g := (c.drop 2).gap
          prepend g.breaks (text fuel double g.next)
        else match escapeWidth? e with
          | some width => do
            let x ← coded? width s
            prepend [x] (text fuel double (c.drop (2 + width)))
          | none => do
            let x ← escape? e
            prepend [x] (text fuel double (c.drop 2))
      | x :: _, _ =>
        if isSpace x then prepend c.gap.text (text fuel double c.gap.next)
        else prepend [x] (text fuel double (c.drop 1))

def read (double : Bool) (c : Cursor) : Option (Read (List Char)) :=
  text (c.rest.length + 1) double (c.drop 1)

end Quoted

namespace Block

/-- What becomes of the breaks at the end of a block scalar. -/
inductive Chomp where
  | strip
  | clip
  | keep
  deriving DecidableEq

def chomp? : Char → Option Chomp
  | '-' => some .strip
  | '+' => some .keep
  | _ => none

def indentation? (c : Char) : Option Nat := if c.isDigit then some (c.toNat - '0'.toNat) else none

/-- The marks after the first character of a block scalar, in either order. -/
def header (c : Cursor) : Chomp × Option Nat × Cursor :=
  match c.rest.head?.bind chomp? with
  | some chomp =>
    let c := c.drop 1
    match c.rest.head?.bind indentation? with
    | some n => (chomp, some n, c.drop 1)
    | none => (chomp, none, c)
  | none =>
    match c.rest.head?.bind indentation? with
    | some n =>
      let c := c.drop 1
      match c.rest.head?.bind chomp? with
      | some chomp => (chomp, some n, c.drop 1)
      | none => (.clip, some n, c)
    | none => (.clip, none, c)

/-- Empty lines, as their breaks, and the indentation after them. Without a known indentation all
blanks belong to it, and the greatest column that they reach is told. -/
def emptyLines (indent : Option Nat) (deepest : Nat) (p : Position) :
    List Char → Option (List Char × Nat × Cursor)
  | [] => some ([], deepest, ⟨p, []⟩)
  | c :: s =>
    let indents := indent.all (p.column < ·)
    if indents && c == ' ' then emptyLines indent (max deepest (p.column + 1)) (p.next c) s
    else if indents && c == '\t' then none
    else if isBreak c then
      (emptyLines indent deepest (p.next c) s).map fun (bs, r) ↦ (c :: bs, r)
    else some ([], deepest, ⟨p, c :: s⟩)

/-- What a break after a line stands for, before further breaks. In a folded scalar a single one
between lines that do not start with a blank is a blank. -/
def join (folded : Bool) (last breaks : List Char) : List Char :=
  if folded && last == ['\n'] then (if breaks.isEmpty then [' '] else breaks)
  else last ++ breaks

/-- The lines in a column, from one of which `last` is the break and `breaks` are further ones. -/
def lines (fuel : Nat) (folded : Bool) (chomp : Chomp) (indent : Nat) (afterBlank : Bool)
    (last breaks : List Char) (c : Cursor) : Option (Read (List Char)) :=
  match fuel with
  | 0 => none
  | fuel + 1 =>
    if c.column != indent || c.rest.isEmpty then
      let ending := match chomp with
        | .strip => []
        | .clip => last
        | .keep => last ++ breaks
      some (ending, c)
    else do
      -- A line that starts with a blank keeps the breaks around it.
      let blank := c.rest.head?.any isBlank
      let before := join (folded && !afterBlank && !blank) last breaks
      let line := c.rest.takeWhile (!isBreak ·)
      let d := c.dropLine
      let (breaks, _, e) ← emptyLines (some indent) 0 d.next.toPosition d.next.rest
      let (more, e) ← lines fuel folded chomp indent blank (d.rest.take 1) breaks e
      some (before ++ line ++ more, e)

/-- A block scalar in a collection whose entries stand in the given column. -/
def read (folded : Bool) (parent : Option Nat) (c : Cursor) : Option (Read (List Char)) := do
  let (chomp, increment, c) := header (c.drop 1)
  if increment = some 0 then none
  let c := c.dropWhile isBlank
  let c := if c.rest.head? == some '#' then c.dropLine else c
  if !(c.rest.head?.all isBreak) then none
  let c := c.next
  let least := (parent.map (· + 1)).getD 0
  let indent := increment.map fun n ↦ parent.getD 0 + n
  let (breaks, deepest, d) ← emptyLines indent 0 c.toPosition c.rest
  lines (c.rest.length + 1) folded chomp (indent.getD (max deepest (max least 1))) false [] breaks d

end Block

end Juggling.Yaml
