import Juggling.Yaml.Character

namespace Juggling.Yaml

structure Position where
  line : Nat := 0
  /-- How many characters of the line stand before it. -/
  column : Nat := 0
  /-- How many bytes those characters take. -/
  bytes : Nat := 0

namespace Position

def next (p : Position) (c : Char) : Position :=
  if isBreak c then { line := p.line + 1 }
  else { p with column := p.column + 1, bytes := p.bytes + c.utf8Size }

end Position

/-- The text that is still to be read, and where its first character stands. -/
structure Cursor extends Position where
  rest : List Char

namespace Cursor

def next (c : Cursor) : Cursor :=
  match c.rest with
  | [] => c
  | x :: s => ⟨c.toPosition.next x, s⟩

def drop (c : Cursor) : Nat → Cursor
  | 0 => c
  | n + 1 => c.next.drop n

def dropWhile (p : Char → Bool) (c : Cursor) : Cursor := c.drop (c.rest.takeWhile p).length

def dropLine (c : Cursor) : Cursor := c.dropWhile (!isBreak ·)

/-- A line that separates documents, by the character it consists of. -/
def atMark (x : Char) (c : Cursor) : Bool :=
  c.column == 0 && c.rest.take 3 == [x, x, x] && atSpace (c.rest.drop 3)

def atDocumentMark (c : Cursor) : Bool := c.atMark '-' || c.atMark '.'

end Cursor

/-- Moves on to the next token over blanks, breaks and comments. Tabs count as blanks where no
indentation is expected. So does a byte order mark at the start of a line, which takes a column of
that line as every character does. -/
def skip (flow tabs comment : Bool) (p : Position) : List Char → Cursor
  | [] => ⟨p, []⟩
  | c :: s =>
    if isBreak c then skip flow flow false (p.next c) s
    else if comment || c == '#' then skip flow tabs true (p.next c) s
    else if c == ' ' || (tabs && c == '\t') || (p.column == 0 && c == byteOrderMark) then
      skip flow tabs false (p.next c) s
    else ⟨p, c :: s⟩

/-- White space between two parts of a scalar. -/
structure Gap where
  /-- What stands before the first break. -/
  blanks : List Char
  breaks : List Char
  next : Cursor

namespace Gap

def read (p : Position) : List Char → Gap
  | [] => ⟨[], [], ⟨p, []⟩⟩
  | c :: s =>
    if isBreak c then
      let g := read (p.next c) s
      ⟨[], c :: g.breaks, g.next⟩
    else if isBlank c then
      let g := read (p.next c) s
      ⟨c :: g.blanks, g.breaks, g.next⟩
    else ⟨[], [], ⟨p, c :: s⟩⟩

/-- What the white space stands for. A single end of a line is a blank, of several the first is
left out, and blanks around them do not count. -/
def text (g : Gap) : List Char :=
  match g.breaks with
  | [] => g.blanks
  | '\n' :: [] => [' ']
  | '\n' :: more => more
  | breaks => breaks

end Gap

namespace Cursor

def gap (c : Cursor) : Gap := Gap.read c.toPosition c.rest

end Cursor

/-- Whether a tab stands in place of the indentation of a further line. -/
def hasEarlyTab (indent column : Nat) (further : Bool) : List Char → Bool
  | [] => false
  | c :: s =>
    if isBreak c then hasEarlyTab indent 0 true s
    else if isBlank c then
      (further && c == '\t' && column < indent) || hasEarlyTab indent (column + 1) further s
    else false

end Juggling.Yaml
