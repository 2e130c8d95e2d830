import Juggling.Permutation.Basic

namespace Juggling.Permutation

/-- `x`, `next x`, … up to the step before the walk would be back at `start`. -/
def walk {β : Type} [DecidableEq β] (next : β → β) (start : β) : Nat → β → List β
  | 0, _ => []
  | fuel + 1, x => x :: if next x = start then [] else walk next start fuel (next x)

/-- The elements that follow each other from `i` on, until `i` comes back. -/
def cycle (p : Permutation) (i : Nat) : List Nat := walk p.target i p.size i

/-- One cycle for each element that no earlier cycle holds. -/
def cycles (p : Permutation) : List (List Nat) :=
  p.elements.foldl (fun cs i ↦ if cs.any (·.contains i) then cs else cs ++ [p.cycle i]) []

/-- Steps after which every element of a cycle is back, unreversed. -/
def turns (p : Permutation) (c : List Nat) : Nat :=
  match c with
  | [] => 1
  | i :: _ => if Nat.repeat p.apply c.length i = i then c.length else 2 * c.length

def order (p : Permutation) : Nat := (p.cycles.map p.turns).foldl Nat.lcm 1

/-- Whether a circular list is the same after moving every entry by `d` places. -/
def repeatsAfter (labels : List Nat) (d : Nat) : Bool := labels.rotateLeft d == labels

/-- The least divisor of its length by which a circular list can be moved without change. -/
def labelPeriod (labels : List Nat) : Nat :=
  ((List.range' 1 labels.length).find? fun d ↦
    labels.length % d == 0 && repeatsAfter labels d).getD labels.length

/-- Number of applications after which labelled elements show the same labels again. Entry `i - 1`
labels element `i`. -/
def period (p : Permutation) (labels : List Nat) : Nat :=
  (p.cycles.map fun c ↦ labelPeriod (c.map fun i ↦ labels.getD (i - 1) 0)).foldl Nat.lcm 1

end Juggling.Permutation
