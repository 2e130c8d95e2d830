namespace Juggling.Yaml

def isBlank (c : Char) : Bool := c == ' ' || c == '\t'

def isBreak (c : Char) : Bool :=
  c == '\n' || c == '\r' || c == '\u0085' || c == '\u2028' || c == '\u2029'

def isSpace (c : Char) : Bool := isBlank c || isBreak c

/-- Whether a text starts with white space or is at its end. -/
def atSpace : List Char → Bool
  | [] => true
  | c :: _ => isSpace c

/-- Characters with a meaning inside brackets. -/
def isFlowMark (c : Char) : Bool := [',', '[', ']', '{', '}'].contains c

/-- Characters that cannot start a plain scalar. -/
def isIndicator (c : Char) : Bool :=
  isFlowMark c
    || ['#', '&', '*', '!', '|', '>', '\'', '"', '%', '@', Char.ofNat 0x60].contains c

/-- Characters that may stand in a text at all. -/
def isAllowed (c : Char) : Bool :=
  let n := c.toNat
  n == 0x09 || n == 0x0A || n == 0x0D || (0x20 ≤ n && n ≤ 0x7E) || n == 0x85
    || (0xA0 ≤ n && n != 0xFFFE && n != 0xFFFF)

/-- Characters that are written as they are. -/
def isPrintable (c : Char) : Bool :=
  let n := c.toNat
  n == 0x0A || (0x20 ≤ n && n ≤ 0x7E)
    || (0xA0 ≤ n && n != 0xFEFF && n != 0xFFFE && n != 0xFFFF)

def byteOrderMark : Char := '\uFEFF'

/-- The breaks that mean no more than the end of a line become line feeds. -/
def unifyBreaks : List Char → List Char
  | [] => []
  | '\r' :: '\n' :: s => '\n' :: unifyBreaks s
  | '\r' :: s | '\u0085' :: s => '\n' :: unifyBreaks s
  | c :: s => c :: unifyBreaks s

end Juggling.Yaml
