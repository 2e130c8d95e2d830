import Juggling.Layout.Query

namespace Juggling

/-- What kind of thing is thrown. A layout takes no notice of it. -/
structure PropDecl where
  kind : String := "ball"
  modifier : Option String := none
  deriving DecidableEq

/-- Whether the layout of a pattern belongs to its declarations. -/
inductive LayoutState where
  | clean
  | dirty
  | layingOut
  deriving DecidableEq

/-- A juggling pattern: what it declares, and the layout made of that. -/
structure Pattern (α : Type) where
  title : Option String := none
  jugglers : Nat
  paths : Nat
  props : List PropDecl := []
  /-- The number of the prop on each path; every path has the first prop where it is empty. -/
  assignment : List Nat := []
  symmetries : List (Symmetry α) := []
  events : List (Event α) := []
  positions : List (Position α) := []
  state : LayoutState := .dirty
  layout : Option (Layout α) := none

namespace Pattern

variable {α : Type}

/-- A title is no part of the layout. -/
def setTitle (p : Pattern α) (title : Option String) : Pattern α := { p with title }

def setJugglers (p : Pattern α) (jugglers : Nat) : Pattern α :=
  { p with jugglers, state := .dirty }

def setPaths (p : Pattern α) (paths : Nat) : Pattern α := { p with paths, state := .dirty }

def setAssignment (p : Pattern α) (assignment : List Nat) : Pattern α :=
  { p with assignment, state := .dirty }

def addProp (p : Pattern α) (x : PropDecl) : Pattern α :=
  { p with props := p.props ++ [x], state := .dirty }

def addSymmetry (p : Pattern α) (s : Symmetry α) : Pattern α :=
  { p with symmetries := p.symmetries ++ [s], state := .dirty }

def addEvent (p : Pattern α) (e : Event α) : Pattern α :=
  { p with events := p.events ++ [e], state := .dirty }

def addPosition (p : Pattern α) (x : Position α) : Pattern α :=
  { p with positions := p.positions ++ [x], state := .dirty }

/-- Nothing changes where there is no such event. -/
def removeEvent (p : Pattern α) (i : Nat) : Pattern α :=
  if i < p.events.length then { p with events := p.events.eraseIdx i, state := .dirty } else p

def removePosition (p : Pattern α) (i : Nat) : Pattern α :=
  if i < p.positions.length then { p with positions := p.positions.eraseIdx i, state := .dirty }
  else p

def scaleTime [Scalar α] (p : Pattern α) (factor : α) : Except (UserError α) (Pattern α) :=
  if !(Scalar.isFinite factor && 0 < factor) then .error (.invalidTimeScale factor)
  else .ok { p with
    events := p.events.map fun e ↦ { e with time := e.time * factor }
    positions := p.positions.map fun x ↦ { x with time := x.time * factor }
    symmetries := p.symmetries.map (Symmetry.scaleTime factor)
    state := .dirty }

def propAssignment (p : Pattern α) : List Nat :=
  if p.assignment.isEmpty then List.replicate p.paths 1 else p.assignment

def propForPath? (p : Pattern α) (path : Nat) : Option PropDecl :=
  (Numbered.ofList p.propAssignment).get? path |>.bind (Numbered.ofList p.props).get?

/-- Whether some throw strikes the floor on its way. -/
def isBounce (p : Pattern α) : Bool :=
  p.events.any fun e ↦ e.transitions.any fun t ↦ t.kind == .throwing && t.throwKind == .bounce

/-- Every path has a declared prop; the first one always counts as declared. -/
def checkProps (p : Pattern α) : Except (UserError α) Unit :=
  let props := max 1 p.props.length
  if !p.assignment.isEmpty && p.assignment.length != p.paths then
    .error (.assignmentLength p.assignment.length p.paths)
  else match p.assignment.find? fun i ↦ i == 0 || props < i with
    | some i => .error (.propOutOfRange i props)
    | none => .ok ()

/-- Periods of the delay after which every prop is back on its path. -/
def period (p : Pattern α) : Except (UserError α) Nat := do
  p.checkProps
  let delay ← SymmetryGroup.delayOf p.symmetries
  if delay.paths.size ≠ p.paths then throw (.pathOutOfRange delay.paths.size p.paths)
  return delay.paths.period p.propAssignment

def declarations (p : Pattern α) : Declarations α :=
  { jugglers := p.jugglers, paths := p.paths, symmetries := p.symmetries, events := p.events
    positions := p.positions }

variable [Scalar α] [Numeral α]

def makeLayout (p : Pattern α) : Except (PatternError α) (Layout α) := do
  lift .user p.checkProps
  Layout.build p.declarations

/-- Lays a pattern out. The masters of its events take their place; where there is no layout all
stays as it was. -/
def layOut (p : Pattern α) : Pattern α × Except (PatternError α) Unit :=
  let busy := { p with state := .layingOut }
  match busy.makeLayout with
  | .ok l => ({ busy with events := l.masters, layout := some l, state := .clean }, .ok ())
  -- Nothing but the state has changed so far.
  | .error e => ({ busy with state := p.state }, .error e)

end Pattern

end Juggling
