namespace Juggling

/-- A rearrangement of the elements `1, 2, …, n` in which an element may also be reversed on its
way: then its image is negative. -/
structure Permutation where
  /-- Whether reversals may be written. -/
  signed : Bool
  /-- Entry `i - 1` is the image of `i`. -/
  images : Array Int
  deriving DecidableEq

namespace Permutation

def size (p : Permutation) : Nat := p.images.size

def elements (p : Permutation) : List Nat := List.range' 1 p.size

def identity (size : Nat) (signed : Bool) : Permutation :=
  { signed, images := Array.ofFn fun i : Fin size ↦ (i : Int) + 1 }

/-- Where a signed element goes; a reversed element goes to the reversed image. -/
def apply (p : Permutation) : Int → Int
  | .ofNat 0 => 0
  | .ofNat (i + 1) => p.images.getD i 0
  | .negSucc i => -p.images.getD i 0

/-- Where an element goes, whether reversed or not. -/
def target (p : Permutation) (i : Nat) : Nat := (p.apply i).natAbs

def flips (p : Permutation) (i : Nat) : Bool := p.apply i < 0

/-- The signed element that goes to `j`. -/
def preimage (p : Permutation) (j : Nat) : Int :=
  match p.elements.find? fun i ↦ p.target i == j with
  | some i => if p.flips i then -i else i
  | none => 0

def inverse (p : Permutation) : Permutation :=
  { p with images := Array.ofFn fun j : Fin p.size ↦ p.preimage (j + 1) }

/-- First `p`, then `q`. -/
def andThen (p q : Permutation) : Permutation :=
  { signed := p.signed || q.signed, images := p.images.map q.apply }

/-- `p` applied `n` times, by repeated squaring; as many halvings are done as `fuel` allows, and
`n` of them are more than enough. -/
def repeated (p : Permutation) (fuel n : Nat) : Permutation :=
  match fuel with
  | 0 => identity p.size p.signed
  | fuel + 1 =>
    if n = 0 then identity p.size p.signed
    else
      let half := p.repeated fuel (n / 2)
      let square := half.andThen half
      if n % 2 = 0 then square else square.andThen p

/-- Negative powers repeat the inverse. -/
def power (p : Permutation) : Int → Permutation
  | .ofNat n => p.repeated n n
  | .negSucc n => p.inverse.repeated (n + 1) (n + 1)

def isIdentity (p : Permutation) : Bool := p.elements.all fun i ↦ p.apply i == i

/-- The same images, whether reversals may be written or not. -/
def agrees (p q : Permutation) : Bool := p.elements.all fun i ↦ p.apply i == q.apply i

end Permutation

end Juggling
