import Juggling.Curve.Line
import Juggling.Curve.Spline

namespace Juggling

/-- A curve that is given its knots first and calculated afterwards. New knots undo the
calculation. -/
structure Draft (α : Type) (β : Type → Type) where
  knots : Option (Knots α)
  curve : Option (β α)

namespace Draft

variable {α : Type} [Scalar α] {β : Type → Type} [Curve β]

def empty : Draft α β := ⟨none, none⟩

def setKnots (k : Knots α) : Draft α β := ⟨some k, none⟩

def calculate (d : Draft α β) : Except (CurveError α) (Draft α β) :=
  match d.knots with
  | none => .error .notCalculated
  | some k => (Curve.ofKnots k).map fun c ↦ { d with curve := some c }

def calculated (d : Draft α β) : Except (CurveError α) (β α) :=
  match d.curve with
  | some c => .ok c
  | none => .error .notCalculated

def position (d : Draft α β) (t : α) : Except (CurveError α) (Coordinate α) :=
  d.calculated.map (Curve.position · t)

def extreme (d : Draft α β) (e : Extreme) (w : Window α) :
    Except (CurveError α) (Option (Coordinate α)) :=
  d.calculated.map (Curve.extreme · e w)

/-- From zero to zero as long as there are no knots. -/
def range (d : Draft α β) : Window α := (d.knots.map Knots.range).getD ⟨0, 0⟩

end Draft

end Juggling
