import Juggling.Layout.HandCurve

namespace Juggling

/-- What a layout is made of. -/
structure Declarations (α : Type) where
  jugglers : Nat
  paths : Nat
  symmetries : List (Symmetry α)
  events : List (Event α)
  positions : List (Position α)

/-- The continuous motion of all props, hands and jugglers over one loop. -/
structure Layout (α : Type) where
  group : SymmetryGroup α
  loop : Window α
  timeline : Timeline α
  tracks : Numbered (Track α)
  paths : Numbered (PathHistory α)
  hands : Numbered (Hands (List (HandLink α)))
  curves : Array (Spline α)

namespace Declarations

variable {α : Type} (d : Declarations α)

def checkJuggler (j : Nat) : Except (UserError α) Unit :=
  if j = 0 || d.jugglers < j then .error (.jugglerOutOfRange j d.jugglers) else .ok ()

def checkPath (p : Nat) : Except (UserError α) Unit :=
  if p = 0 || d.paths < p then .error (.pathOutOfRange p d.paths) else .ok ()

def checkEvent (e : Event α) : Except (UserError α) Unit := do
  d.checkJuggler e.juggler
  e.transitions.forM fun t ↦ d.checkPath t.path

def checkSymmetry (s : Symmetry α) : Except (UserError α) Unit :=
  if s.jugglers.size ≠ d.jugglers then
    .error (.jugglerOutOfRange s.jugglers.size d.jugglers)
  else if s.paths.size ≠ d.paths then .error (.pathOutOfRange s.paths.size d.paths)
  else .ok ()

/-- Refuses jugglers and paths that do not exist. -/
def validate : Except (UserError α) Unit := do
  if d.events.isEmpty then throw .noEvents
  d.events.forM d.checkEvent
  d.positions.forM fun p ↦ d.checkJuggler p.juggler
  d.symmetries.forM d.checkSymmetry

variable [Scalar α]

def tracks (loop : Window α) : Except (CurveError α) (Numbered (Track α)) := do
  let tracks ← (List.range' 1 d.jugglers).mapM fun j ↦
    Track.build j d.jugglers (d.positions.filter (·.juggler == j)) loop
  return .ofList tracks

end Declarations

namespace Layout

variable {α : Type} [Scalar α]

/-- Where an event happens in space. -/
def globalPlace (tracks : Numbered (Track α)) (e : Event α) : Coordinate α :=
  match tracks.get? e.juggler with
  | some k => (k.placement e.time).toGlobal e.place
  | none => e.place

def ofTimeline [Numeral α] (d : Declarations α) (group : SymmetryGroup α) (loop : Window α)
    (timeline : Timeline α) : Except (PatternError α) (Layout α) := do
  let tracks ← lift (fun e ↦ .internal (.curve e)) (d.tracks loop)
  let place := globalPlace tracks
  let moments := timeline.moments
  let paths ← lift .user (PathHistory.buildAll place moments d.paths)
  let links ← lift .internal (HandLink.buildAll paths moments d.jugglers)
  let (curves, hands) ← HandCurve.solveAll ⟨place, paths, loop⟩ moments links
  return { group, loop, timeline, tracks, paths, hands, curves }

/-- Lays a pattern out. The seeds of its timeline are the masters of the events it declares. -/
def build [Numeral α] (d : Declarations α) : Except (PatternError α) (Layout α) := do
  lift .user d.validate
  let group ← lift .user (SymmetryGroup.ofSymmetries d.symmetries d.jugglers d.paths)
  let loop : Window α := ⟨0, group.period⟩
  let timeline ← Timeline.build d.events group d.jugglers d.paths loop
  ofTimeline d group loop timeline

/-- The events that stand for all others. -/
def masters (l : Layout α) : List (Event α) := l.timeline.seeds

def period (l : Layout α) : α := l.loop.high - l.loop.low

def wrapTime (l : Layout α) (t : α) : α :=
  l.loop.low + Scalar.remainder (t - l.loop.low) l.period

end Layout

end Juggling
