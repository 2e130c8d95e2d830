import Juggling.Pattern.Document
import Juggling.Pattern.Query

namespace Juggling

/-- A pattern that is being edited, and the state of its layout as others see it. -/
structure Session (α : Type) where
  pattern : Pattern α
  published : LayoutState

namespace Session

variable {α β : Type}

def ofPattern (p : Pattern α) : Session α := ⟨p, p.state⟩

def needsLayout (s : Session α) : Bool := s.published != .clean

/-- Changes the pattern and publishes its new state. -/
def edit (s : Session α) (f : Pattern α → Pattern α) : Session α :=
  let p := f s.pattern
  ⟨p, p.state⟩

/-- A change that may fail, and then leaves the pattern as it was. -/
def tryEdit {ε : Type} (s : Session α) (f : Pattern α → Except ε (Pattern α)) :
    Session α × Except ε Unit :=
  match f s.pattern with
  | .ok p => (s.edit fun _ ↦ p, .ok ())
  | .error e => (s.edit id, .error e)

/-- Starts over from the pattern alone. -/
def rewrap (s : Session α) : Session α := ofPattern s.pattern

variable [Scalar α] [Numeral α]

/-- Lays the pattern out; the state shows that while it goes on. -/
def relayout (s : Session α) : Session α × Except (PatternError α) Unit :=
  let busy := { s with published := .layingOut }
  let (p, result) := busy.pattern.layOut
  ({ busy with pattern := p, published := p.state }, result)

def load (s : Session α) (format : Format) (text : String) :
    Session α × Except (UserError α) Unit :=
  s.tryEdit fun _ ↦ Pattern.ofText format text

def reload (s : Session α) : Session α × Except (UserError α) Unit :=
  s.load .json (s.pattern.toText .json)

end Session

end Juggling
