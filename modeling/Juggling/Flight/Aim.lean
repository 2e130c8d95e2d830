import Juggling.Flight.Court
import Juggling.Flight.Throw

namespace Juggling

/-- What a launch has to achieve. -/
structure Aim (α : Type) where
  court : Court α
  bounces : Nat
  startHeight : α
  endHeight : α
  duration : α
  /-- The prop leaves the hand downwards. -/
  forced : Bool
  /-- The prop is caught while it falls. -/
  hyper : Bool

namespace Aim

variable {α : Type} [Scalar α] (aim : Aim α)

/-- How far above the catch a launch ends, and the vertical velocity there. -/
def miss? (speed : α) : Option (α × α) :=
  (aim.court.course? aim.bounces aim.startHeight aim.duration speed).map fun c ↦
    let last := c.last
    let s := aim.duration - last.time
    let height := last.height + last.speed * s - 0.5 * aim.court.g * s * s
    (height - aim.endHeight, c.endSpeed)

def scanSteps : Nat := 2000

def bisectSteps : Nat := 80

/-- A miss smaller than this counts as a hit. -/
def tolerance : α := 1e-6

/-- No useful launch is faster. -/
def speedLimit : α :=
  let climb := Scalar.abs (aim.endHeight - aim.startHeight) / aim.duration
  4 * (aim.court.g * aim.duration + climb) + 1000

/-- Halves an interval whose ends miss on different sides. -/
def bisect : Nat → α → α → α → α
  | 0, a, b, _ => 0.5 * (a + b)
  | n + 1, a, b, missA =>
    let mid := 0.5 * (a + b)
    match aim.miss? mid with
    | none => mid
    | some (miss, _) =>
      if miss == 0 then mid
      else if Scalar.sign miss == Scalar.sign missA then bisect n mid b miss
      else bisect n a mid missA

def hits (speed : α) : Bool :=
  match aim.miss? speed with
  | none => false
  | some (miss, v) => Scalar.abs miss < tolerance && if aim.hyper then v < 0 else 0 < v

def scanSpeed (i : Nat) : α :=
  let low := -aim.speedLimit
  let high := if aim.forced then 0 else aim.speedLimit
  low + (high - low) / Scalar.ofNat scanSteps * Scalar.ofNat i

/-- A launch that hits between two neighbouring steps of the scan. -/
def root? (before after : α × α) : Option α :=
  -- The miss changes sign between the steps, or vanishes at the first of them.
  if before.2 == 0 || Scalar.sign before.2 != Scalar.sign after.2 then
    let root := aim.bisect bisectSteps before.1 after.1 before.2
    if aim.hits root then some root else none
  else none

def gentler (best : Option α) (root : α) : Option α :=
  match best with
  | none => some root
  | some b => if Scalar.abs root < Scalar.abs b then some root else some b

/-- Scans on from a step, given the step before it and the best launch so far. -/
def scan (before : Option (α × α)) (best : Option α) : List Nat → Option α
  | [] => best
  | i :: steps =>
    let speed := aim.scanSpeed i
    let current := (aim.miss? speed).map fun (miss, _) ↦ (speed, miss)
    let best := match before, current with
      | some p, some q =>
        match aim.root? p q with
        | some root => gentler best root
        | none => best
      -- There is no miss of a launch that bounces too often or not often enough.
      | _, _ => best
    scan current best steps

def launchSpeed : Except (FlightError α) α :=
  match aim.scan none none (List.range (scanSteps + 1)) with
  | some speed => .ok speed
  | none => .error (.noLaunchSpeed aim.bounces aim.duration)

end Aim

end Juggling
