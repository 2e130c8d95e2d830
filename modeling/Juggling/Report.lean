import Juggling.Double
import Juggling.Json.Number
import Juggling.Json.Printer
import Juggling.Pattern.Query

namespace Juggling.Report

/-- A number, or nothing where there is none to write. -/
def number (x : Double) : Json :=
  if Scalar.isFinite x then .number (Json.floatText x.value) else .null

def nat (n : Nat) : Json := .number (toString n)

def coordinate (c : Coordinate Double) : Json := .array [number c.x, number c.y, number c.z]

def optional {β : Type} (f : β → Json) : Option β → Json
  | some x => f x
  | none => .null

def bounds (max min : Option (Coordinate Double)) : Json :=
  .object [("max", optional coordinate max), ("min", optional coordinate min)]

def hands {β : Type} (f : β → Json) (v : Hands β) : Json :=
  .object [("left", f v.left), ("right", f v.right)]

variable (p : Pattern Double)

def pathBounds (path : Nat) : Except (PatternError Double) Json := do
  let max ← p.pathExtreme .highest path
  let min ← p.pathExtreme .lowest path
  return bounds max min

def handBounds (juggler : Nat) (hand : Hand) : Except (PatternError Double) Json := do
  let max ← p.handExtreme .highest juggler hand
  let min ← p.handExtreme .lowest juggler hand
  return bounds max min

def jugglerBounds (juggler : Nat) : Except (PatternError Double) Json := do
  let left ← handBounds p juggler .left
  let right ← handBounds p juggler .right
  let max ← p.bodyExtreme .highest juggler
  let min ← p.bodyExtreme .lowest juggler
  return .object [("hands", hands id ⟨left, right⟩), ("max", coordinate max), ("min", coordinate min)]

def summary : Except (PatternError Double) Json := do
  let paths ← (List.range' 1 p.paths).mapM (pathBounds p)
  let jugglers ← (List.range' 1 p.jugglers).mapM (jugglerBounds p)
  let period ← lift .user p.period
  let loop ← p.loop
  return .object [
    ("bounce", .bool p.isBounce),
    ("juggler_bounds", .array jugglers),
    ("jugglers", nat p.jugglers),
    ("loop_end", number loop.high),
    ("loop_start", number loop.low),
    ("path_bounds", .array paths),
    ("paths", nat p.paths),
    ("period", nat period),
    ("title", optional .string p.title)]

def sampleAt (path : Nat) (t : Double) : Except (PatternError Double) Json := do
  let place ← p.pathPlace path t
  let held ← p.isHeld path t
  return .object [("in_hand", .bool held), ("position", coordinate place), ("t", number t)]

def samples (path steps : Nat) : Except (PatternError Double) Json := do
  let loop ← p.loop
  let rows ← (List.range steps).mapM fun k ↦
    sampleAt p path
      (loop.low + (loop.high - loop.low) * Scalar.ofNat k / Scalar.ofNat steps)
  return .object [("path", nat path), ("samples", .array rows)]

def arm (a : Arm Double) : Json :=
  .object [("elbow", coordinate a.elbow), ("hand", coordinate a.hand),
    ("shoulder", coordinate a.shoulder)]

def pose (juggler : Nat) (t : Double) : Except (PatternError Double) Json := do
  let x ← p.pose juggler t
  let stand ← p.placement juggler t
  let pair (v : Hands (Coordinate Double)) : Json := .array (v.toList.map coordinate)
  return .object [
    ("angle", number stand.angle),
    ("arms", hands arm x.arms),
    ("head", .object [("bottom", pair x.headBottom), ("top", pair x.headTop)]),
    ("juggler", nat juggler),
    ("position", coordinate stand.place),
    ("t", number t),
    ("waist", pair x.waist)]

end Juggling.Report
