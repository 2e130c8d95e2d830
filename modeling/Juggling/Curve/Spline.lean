import Juggling.Curve.Knots
import Juggling.Curve.Tridiagonal

namespace Juggling

/-- A cubic piece `a + b s + c s² + d s³`, where `s` is the time since `start`. -/
structure Cubic (α : Type) where
  start : α
  stop : α
  a : Coordinate α
  b : Coordinate α
  c : Coordinate α
  d : Coordinate α

/-- Cubic pieces from knot to knot. Inner velocities are such that the acceleration has no jumps.
An end with a velocity of its own takes that; if only one end has, the other is free of
acceleration; if none has, the curve closes up in velocity and acceleration. -/
structure Spline (α : Type) where
  knots : Knots α
  first : Cubic α
  rest : List (Cubic α)

/-- How long it is from one knot to the next, and how fast a straight way would be. -/
structure Span (α : Type) where
  duration : α
  slope : Coordinate α

namespace Cubic

variable {α : Type} [Scalar α]

/-- The piece between two knots with given velocities there. -/
def hermite (p q : Knot α) (v w : Coordinate α) : Cubic α :=
  let h := q.time - p.time
  let slope := (1 / h) • (q.position - p.position)
  { start := p.time, stop := q.time, a := p.position, b := v
    c := (1 / h) • ((3 : α) • slope - (2 : α) • v - w)
    d := (1 / (h * h)) • (v + w - (2 : α) • slope) }

def position (p : Cubic α) (t : α) : Coordinate α :=
  let s := t - p.start
  p.a + s • (p.b + s • (p.c + s • p.d))

def velocity (p : Cubic α) (t : α) : Coordinate α :=
  let s := t - p.start
  p.b + s • ((2 : α) • p.c + (3 * s) • p.d)

def negligible : α := 1e-12

/-- Roots of `a s² + b s + c`; none when it is constant. -/
def quadraticRoots (a b c : α) : List α :=
  if Scalar.abs a < negligible then
    if Scalar.abs b < negligible then [] else [-c / b]
  else
    let disc := b * b - 4 * a * c
    if disc < 0 then []
    else
      let root := Scalar.sqrt disc
      [(-b + root) / (2 * a), (-b - root) / (2 * a)]

/-- Times inside the window at which some component stands still. -/
def stationaryTimes (p : Cubic α) (w : Window α) : List α :=
  let axis (b c d : α) : List α := (quadraticRoots (3 * d) (2 * c) b).map (p.start + ·)
  (axis p.b.x p.c.x p.d.x ++ axis p.b.y p.c.y p.d.y ++ axis p.b.z p.c.z p.d.z).filter w.inside

/-- The places that decide the extremes of the piece over a window: its ends and the stationary
places between them. -/
def candidates (p : Cubic α) (w : Window α) : List (Coordinate α) :=
  let v : Window α := ⟨Scalar.larger p.start w.low, Scalar.smaller p.stop w.high⟩
  if v.high < v.low then []
  else p.position v.low :: p.position v.high :: (p.stationaryTimes v).map p.position

end Cubic

namespace Span

variable {α : Type} [Scalar α]

def between (p q : Knot α) : Span α :=
  let h := q.time - p.time
  ⟨h, (1 / h) • (q.position - p.position)⟩

def ofKnots (before : Knot α) : List (Knot α) → List (Span α)
  | [] => []
  | k :: ks => between before k :: ofKnots k ks

/-- No jump of acceleration where one span meets the next. -/
def joint (s t : Span α) : Row α (Coordinate α) :=
  { sub := 1 / s.duration
    diag := 2 * (1 / s.duration + 1 / t.duration)
    sup := 1 / t.duration
    rhs := (3 : α) • ((1 / s.duration) • s.slope + (1 / t.duration) • t.slope) }

def clamped (v : Coordinate α) : Row α (Coordinate α) := ⟨0, 1, 0, v⟩

/-- No acceleration at the start of the first span. -/
def freeStart (s : Span α) : Row α (Coordinate α) := ⟨0, 2, 1, (3 : α) • s.slope⟩

def freeEnd (s : Span α) : Row α (Coordinate α) := ⟨1, 2, 0, (3 : α) • s.slope⟩

def joints (before : Span α) : List (Span α) → List (Row α (Coordinate α))
  | [] => []
  | s :: spans => joint before s :: joints s spans

def openVelocities (v w : Option (Coordinate α)) (first : Span α) (rest : List (Span α)) :
    List (Coordinate α) :=
  let start := match v with
    | some v => clamped v
    | none => freeStart first
  let stop := match w with
    | some w => clamped w
    | none => freeEnd (rest.getLast?.getD first)
  Row.solve (start :: joints first rest ++ [stop])

/-- Velocities at all knots but the last of a curve that closes up: its last span joins its
first. -/
def cyclicVelocities (first : Span α) (rest : List (Span α)) : List (Coordinate α) :=
  let r := joint (rest.getLast?.getD first) first
  match joints first rest with
  -- One span joins itself.
  | [] => [(1 / (r.diag + r.sub + r.sup)) • r.rhs]
  -- Of two spans both joints couple the same two unknowns.
  | [s] =>
    let a := r.sub + r.sup
    let b := s.sub + s.sup
    let det := r.diag * s.diag - a * b
    [(1 / det) • (s.diag • r.rhs - a • s.rhs), (1 / det) • (r.diag • s.rhs - b • r.rhs)]
  | rows => Row.solveCyclic r rows.dropLast (rows.getLast?.getD r)

def closedVelocities (first : Span α) (rest : List (Span α)) : List (Coordinate α) :=
  let vs := cyclicVelocities first rest
  vs ++ vs.head?.toList

end Span

namespace Spline

variable {α : Type} [Scalar α]

def velocities (k : Knots α) : List (Coordinate α) :=
  let first := Span.between k.first k.second
  let rest := Span.ofKnots k.second k.rest
  match k.startVelocity, k.endVelocity with
  | none, none => Span.closedVelocities first rest
  | v, w => Span.openVelocities v w first rest

def pieces : List (Knot α × Coordinate α) → List (Cubic α)
  | (p, v) :: (q, w) :: rest => Cubic.hermite p q v w :: pieces ((q, w) :: rest)
  | _ => []

def ofKnots (k : Knots α) : Except (CurveError α) (Spline α) :=
  let vs := velocities k
  if vs.any (!·.isFinite) then .error .nonFinite
  else match pieces (k.toList.zip vs) with
    | first :: rest => .ok ⟨k, first, rest⟩
    | [] => .error .nonFinite

def pieceAt (c : Spline α) (t : α) : Cubic α := Juggling.pieceAt Cubic.start t c.first c.rest

def position (c : Spline α) (t : α) : Coordinate α := (c.pieceAt t).position t

def velocity (c : Spline α) (t : α) : Coordinate α := (c.pieceAt t).velocity t

def extreme (c : Spline α) (e : Extreme) (w : Window α) : Option (Coordinate α) := do
  let w ← c.knots.range.clip? w
  let inner := (c.first :: c.rest).flatMap (·.candidates w)
  e.ofList? (c.position w.low :: c.position w.high :: inner)

instance : Curve Spline where
  ofKnots := ofKnots
  position := position
  extreme := extreme

end Spline

end Juggling
