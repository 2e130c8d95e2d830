import Juggling.Text
import Juggling.Text.Hidden

namespace Juggling.CommandLine

/-- Escapes a character of a file name between quotes. Hidden characters are told by their
numbers. -/
def escape (c : Char) : List Char :=
  match c with
  | '"' | '\\' => ['\\', c]
  | '\n' => ['\\', 'n']
  | '\r' => ['\\', 'r']
  | '\t' => ['\\', 't']
  | '\x00' => ['\\', '0']
  | c =>
    if Text.isHidden c then '\\' :: 'u' :: '\x7b' :: Nat.toDigits 16 c.toNat ++ ['\x7d'] else [c]

def shown (name : String) : String := String.ofList ('"' :: name.toList.flatMap escape ++ ['"'])

/-- What follows the last point of a file name, which cannot be its first character. -/
def extension? (name : String) : Option (List Char) := do
  let parts := (Text.split '/' name.toList).filter fun part ↦ part ≠ [] && part ≠ ['.']
  let file ← parts.getLast?
  if file = ['.', '.'] then none
  let ext := (file.reverse.takeWhile (· != '.')).reverse
  if ext.length + 1 < file.length then some ext else none

end Juggling.CommandLine
