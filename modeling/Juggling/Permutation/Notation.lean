import Juggling.Text
import Juggling.Permutation.Cycles

namespace Juggling

inductive PermutationError where
  | missingOpenParen (spec rest : String)
  | unterminatedCycle (spec : String)
  | invalidElement (spec token : String)
  | outOfRange (spec : String) (element size : Nat)
  | repeated (spec : String) (element : Nat)
  | unexpectedReverse (spec : String)
  | inconsistent (spec : String) (element : Nat)
  deriving DecidableEq

def PermutationError.message : PermutationError → String
  | .missingOpenParen spec rest => s!"permutation \"{spec}\": expected \"(\" at \"{rest}\""
  | .unterminatedCycle spec => s!"permutation \"{spec}\": unterminated cycle"
  | .invalidElement spec token => s!"permutation \"{spec}\": \"{token}\" is not a number"
  | .outOfRange spec i n => s!"permutation \"{spec}\": element {i} is outside 1..={n}"
  | .repeated spec i => s!"permutation \"{spec}\": element {i} appears more than once"
  | .unexpectedReverse spec => s!"permutation \"{spec}\": \"*\" is not allowed here"
  | .inconsistent spec i => s!"permutation \"{spec}\": element {i} is mapped inconsistently"

namespace Permutation

/-- What the notation is read for: the size, whether reversals may be written, and the whole text
for messages. -/
structure Reading where
  size : Nat
  signed : Bool
  spec : String

namespace Reading

variable (r : Reading)

/-- An element, negative when a star marks it as reversed. -/
def element (token : List Char) : Except PermutationError Int :=
  let token := Text.trim token
  let (digits, starred) : List Char × Bool := match Text.stripLast? '*' token with
    | some ds => (Text.trim ds, true)
    | none => (token, false)
  if starred && !r.signed then .error (.unexpectedReverse r.spec)
  else match Text.readNat? digits with
    | none => .error (.invalidElement r.spec (String.ofList token))
    | some i =>
      if i = 0 ∨ r.size < i then .error (.outOfRange r.spec i r.size)
      else .ok (if starred then -(i : Int) else i)

/-- The elements of one cycle, in order. An element is new unless an earlier cycle holds it or
this one holds it with the same sign. -/
def elements (earlier : List Int) : List Int → List (List Char) → Except PermutationError (List Int)
  | cycle, [] => .ok cycle
  | cycle, token :: tokens => do
    let e ← r.element token
    if earlier.any (fun f ↦ f.natAbs == e.natAbs) || cycle.contains e then
      .error (.repeated r.spec e.natAbs)
    else elements earlier (cycle ++ [e]) tokens

/-- Adds that `source` goes to `image`, which must not contradict what is known. -/
def assign (known : List (Nat × Int)) (source image : Int) :
    Except PermutationError (List (Nat × Int)) :=
  -- What a reversed element goes to is the reverse of what the element goes to.
  let image := if source < 0 then -image else image
  match known.lookup source.natAbs with
  | some j => if j = image then .ok known else .error (.inconsistent r.spec source.natAbs)
  | none => .ok ((source.natAbs, image) :: known)

/-- Each element of a cycle goes to the next, and the last to the first. -/
def assignCycle (known : List (Nat × Int)) (cycle : List Int) :
    Except PermutationError (List (Nat × Int)) :=
  (cycle.zip (cycle.rotateLeft 1)).foldlM (fun known (i, j) ↦ r.assign known i j) known

/-- Reads cycle after cycle. Every cycle shortens the text, so its length bounds their number. -/
def cycles (fuel : Nat) (earlier : List Int) (known : List (Nat × Int)) (s : List Char) :
    Except PermutationError (List (Nat × Int)) :=
  match fuel, s with
  | _, [] | 0, _ => .ok known
  | fuel + 1, '(' :: body => do
    match Text.cut? ')' body with
    | none => .error (.unterminatedCycle r.spec)
    | some (inside, rest) =>
      let cycle ← r.elements earlier [] (Text.split ',' inside)
      let known ← r.assignCycle known cycle
      cycles fuel (earlier ++ cycle) known (Text.trimLeft rest)
  | _ + 1, s => .error (.missingOpenParen r.spec (String.ofList s))

end Reading

/-- Reads cycle notation such as `(1,2*)(3,4)`. Elements that are not mentioned stay in place. -/
def parse (size : Nat) (spec : String) (signed : Bool) : Except PermutationError Permutation := do
  let s := Text.trim spec.toList
  let known ← Reading.cycles ⟨size, signed, spec⟩ (s.length + 1) [] [] s
  .ok { signed, images := Array.ofFn fun i : Fin size ↦
    (known.lookup (i.val + 1)).getD (i.val + 1) }

def elementText (i : Int) : String := if i < 0 then s!"{i.natAbs}*" else s!"{i.natAbs}"

/-- The signed elements that follow each other from `i` on. A walk may pass every element twice,
once for each sign. -/
def signedCycle (p : Permutation) (i : Int) : List Int := walk p.apply i (2 * p.size) i

/-- Writes the cycles of the elements that move or are reversed, each from its least element. -/
def toText (p : Permutation) : String :=
  -- `done` holds the elements of the cycles written so far.
  let write := fun ((done, out) : List Nat × String) (i : Nat) ↦
    if done.contains i || p.apply i == i then (done, out)
    else
      let c := p.signedCycle i
      (done ++ c.map Int.natAbs, out ++ "(" ++ Text.join "," (c.map elementText) ++ ")")
  (p.elements.foldl write ([], "")).2

end Permutation

end Juggling
