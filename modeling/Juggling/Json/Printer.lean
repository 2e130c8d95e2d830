import Juggling.Json.Basic

namespace Juggling.Json

namespace Printer

def hexDigit (n : Nat) : Char :=
  if n < 10 then Char.ofNat ('0'.toNat + n) else Char.ofNat ('a'.toNat + (n - 10))

/-- Quotes, backslashes and control characters are escaped, all else stands for itself. -/
def escape (c : Char) : List Char :=
  match c with
  | '"' => ['\\', '"']
  | '\\' => ['\\', '\\']
  | '\x08' => ['\\', 'b']
  | '\x0c' => ['\\', 'f']
  | '\n' => ['\\', 'n']
  | '\r' => ['\\', 'r']
  | '\t' => ['\\', 't']
  | c =>
    if c.toNat < 0x20 then
      ['\\', 'u', '0', '0', hexDigit (c.toNat / 16), hexDigit (c.toNat % 16)]
    else [c]

def quoted (s : String) : List Char := '"' :: s.toList.flatMap escape ++ ['"']

def newLine (depth : Nat) : List Char := '\n' :: List.replicate (2 * depth) ' '

mutual

def value (depth : Nat) : Json → List Char
  | .null | .unreadable => "null".toList
  | .bool b => (if b then "true" else "false").toList
  | .number spelling => spelling.toList
  | .string s => quoted s
  | .array xs =>
    if xs.isEmpty then ['[', ']'] else '[' :: items (depth + 1) xs ++ newLine depth ++ [']']
  | .object ms =>
    if ms.isEmpty then ['{', '}'] else '{' :: members (depth + 1) ms ++ newLine depth ++ ['}']

def items (depth : Nat) : List Json → List Char
  | [] => []
  | x :: xs =>
    newLine depth ++ value depth x ++ (if xs.isEmpty then [] else [',']) ++ items depth xs

def members (depth : Nat) : List (String × Json) → List Char
  | [] => []
  | (key, x) :: ms =>
    newLine depth ++ quoted key ++ [':', ' '] ++ value depth x
      ++ (if ms.isEmpty then [] else [',']) ++ members depth ms

end

end Printer

/-- One item or member a line, without a line break at the end. -/
def pretty (x : Json) : String := String.ofList (Printer.value 0 x)

end Juggling.Json
