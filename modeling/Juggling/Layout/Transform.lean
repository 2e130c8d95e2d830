import Juggling.Event
import Juggling.Permutation.Cycles

namespace Juggling

/-- A shift in time together with a renaming of jugglers and paths. -/
structure Transform (α : Type) where
  shift : α
  jugglers : Permutation
  paths : Permutation

namespace Transform

variable {α : Type} [Scalar α]

def identity (jugglers paths : Nat) : Transform α :=
  ⟨0, Permutation.identity jugglers true, Permutation.identity paths true⟩

/-- First `f`, then `g`. -/
def andThen (f g : Transform α) : Transform α :=
  ⟨f.shift + g.shift, f.jugglers.andThen g.jugglers, f.paths.andThen g.paths⟩

def power (f : Transform α) (n : Int) : Transform α :=
  ⟨f.shift * Scalar.ofInt n, f.jugglers.power n, f.paths.power n⟩

/-- Moves an event. A reversed juggler exchanges hands, and left and right in his own frame. -/
def apply (f : Transform α) (e : Event α) : Event α :=
  let flips := f.jugglers.flips e.juggler
  { time := e.time + f.shift
    place := if flips then { e.place with x := -e.place.x } else e.place
    juggler := f.jugglers.target e.juggler
    hand := if flips then e.hand.other else e.hand
    transitions := e.transitions.map fun t ↦ { t with path := f.paths.target t.path } }

end Transform

end Juggling
