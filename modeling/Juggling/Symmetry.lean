import Juggling.Scalar
import Juggling.Permutation.Notation

namespace Juggling

inductive SymmetryKind where
  /-- A shift in time, which defines the loop. -/
  | delay
  /-- An exchange of jugglers at the same moment. -/
  | switch
  /-- An exchange of jugglers together with a shift in time. -/
  | switchDelay
  deriving DecidableEq

/-- One declared invariance of a pattern. A reversed juggler exchanges left and right on the way;
a reversed path flips its prop. -/
structure Symmetry (α : Type) where
  kind : SymmetryKind
  jugglers : Permutation
  paths : Permutation
  /-- The shift in time. A switch has none; for a switch-delay none means half a period. -/
  delay : Option α
  deriving DecidableEq

namespace SymmetryKind

def name : SymmetryKind → String
  | delay => "delay"
  | switch => "switch"
  | switchDelay => "switchdelay"

def ofName? (s : String) : Option SymmetryKind :=
  match Text.lowered (Text.trimmed s) with
  | "delay" => some delay
  | "switch" => some switch
  | "switchdelay" => some switchDelay
  | _ => none

end SymmetryKind

namespace Symmetry

variable {α : Type}

def ofParts (kind : SymmetryKind) (jugglers paths : Permutation) (delay : Option α) :
    Symmetry α :=
  { kind, jugglers, paths, delay := if kind = .switch then none else delay }

/-- Reads both permutations from their cycle notation. -/
def parse (kind : SymmetryKind) (jugglers paths : Nat) (jugglerSpec pathSpec : String)
    (delay : Option α) : Except PermutationError (Symmetry α) := do
  let js ← Permutation.parse jugglers jugglerSpec true
  let ps ← Permutation.parse paths pathSpec true
  .ok (ofParts kind js ps delay)

def scaleTime [Scalar α] (factor : α) (s : Symmetry α) : Symmetry α :=
  { s with delay := s.delay.map (· * factor) }

end Symmetry

end Juggling
