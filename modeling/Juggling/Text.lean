namespace Juggling.Text

/-- The characters with the Unicode property White_Space. -/
def isBlank (c : Char) : Bool :=
  let n := c.toNat
  (9 ≤ n && n ≤ 13) || n == 0x20 || n == 0x85 || n == 0xA0 || n == 0x1680
    || (0x2000 ≤ n && n ≤ 0x200A) || n == 0x2028 || n == 0x2029 || n == 0x202F || n == 0x205F
    || n == 0x3000

def trimLeft (s : List Char) : List Char := s.dropWhile isBlank

def trimRight (s : List Char) : List Char := (s.reverse.dropWhile isBlank).reverse

def trim (s : List Char) : List Char := trimRight (trimLeft s)

/-- Letters outside ASCII stay as they are. -/
def lower (s : List Char) : List Char := s.map Char.toLower

/-- The text before and after the first occurrence of a character. -/
def cut? (c : Char) : List Char → Option (List Char × List Char)
  | [] => none
  | d :: s => if d = c then some ([], s) else (cut? c s).map fun (a, b) ↦ (d :: a, b)

/-- The pieces between the occurrences of a character, one more than there are of it. -/
def split (c : Char) : List Char → List (List Char)
  | [] => [[]]
  | d :: s =>
    if d = c then [] :: split c s
    else match split c s with
      | [] => [[d]]
      | p :: ps => (d :: p) :: ps

/-- The text before a last character, when that is the given one. -/
def stripLast? (c : Char) (s : List Char) : Option (List Char) :=
  if s.getLast? = some c then some s.dropLast else none

def trimmed (s : String) : String := String.ofList (trim s.toList)

def lowered (s : String) : String := String.ofList (lower s.toList)

/-- Whole numbers are read up to the largest that 64 bits hold. -/
def natLimit : Nat := Nat.pow 2 64

def digitsValue (ds : List Char) : Nat :=
  ds.foldl (fun n c ↦ 10 * n + (c.toNat - '0'.toNat)) 0

/-- ASCII digits, after at most one plus sign. -/
def readNat? (s : List Char) : Option Nat :=
  let ds := match s with
    | '+' :: ds => ds
    | ds => ds
  if ds.isEmpty || ds.any (!·.isDigit) then none
  else if digitsValue ds < natLimit then some (digitsValue ds) else none

def join (sep : String) (parts : List String) : String := sep.intercalate parts

end Juggling.Text
