import Juggling.Layout.Needs

namespace Juggling

/-- An image of one of the events that a pattern declares. -/
structure Generated (α : Type) where
  seed : Nat
  image : Int
  event : Event α

/-- The next image of one event that is to be generated. -/
structure Front (α : Type) where
  seed : Nat
  origin : Event α
  image : Int

namespace Front

variable {α : Type} [Scalar α] (g : SymmetryGroup α)

def time (f : Front α) : α := g.imageTime f.origin f.image

def generate (f : Front α) : Generated α :=
  ⟨f.seed, f.image, (g.image f.image).apply f.origin⟩

/-- The latest of the fronts, the last of them where several are. -/
def latest? : List (Front α) → Option (Front α)
  | [] => none
  | f :: fs =>
    some (fs.foldl (fun f h ↦ if Scalar.precedes (f.time g) (h.time g) then h else f) f)

/-- The earliest of the fronts, the first of them where several are. -/
def earliest? : List (Front α) → Option (Front α)
  | [] => none
  | f :: fs =>
    some (fs.foldl (fun f h ↦ if Scalar.precedes (f.time g) (h.time g) then f else h) f)

def move (seed : Nat) (offset : Int) (fs : List (Front α)) : List (Front α) :=
  fs.map fun f ↦ if f.seed = seed then { f with image := f.image + offset } else f

/-- The fronts at the images after the last before a time, moved on by a number of images. -/
def before (seeds : List (Event α)) (t : α) (offset : Int) : List (Front α) :=
  seeds.mapIdx fun i e ↦ ⟨i, e, g.lastImageBefore e t + offset⟩

end Front

structure Expansion (α : Type) where
  seeds : List (Event α)
  group : SymmetryGroup α
  coverage : Coverage
  loop : Window α

namespace Expansion

variable {α : Type}

def limit : Nat := 20000

variable [Scalar α] (x : Expansion α)

/-- Generates images from the end of the loop down to its start, and further while something is
needed. -/
def backward (budget : Nat) (n : Needs) (fs : List (Front α)) :
    Except (UserError α) (List (Generated α)) :=
  match Front.latest? x.group fs with
  | none => .ok []
  | some f =>
    if f.time x.group < x.loop.low - timeTolerance && !n.pending then .ok []
    else match budget with
      | 0 => .error (.expansionLimit limit)
      | budget + 1 =>
        let made := f.generate x.group
        let n :=
          -- Images inside the loop are made anyway; only those up to its start meet a need.
          if made.event.time ≤ x.loop.low + timeTolerance then
            n.recordBackward x.coverage made.event
          else n
        (backward budget n (Front.move f.seed (-1) fs)).map (made :: ·)

/-- A hand that nothing gives a velocity needs events up to this time. -/
def freeUntil : α := 2 * x.loop.high - x.loop.low

/-- Generates images from the end of the loop on while something is needed. -/
def forward (budget : Nat) (n : Needs) (fs : List (Front α)) :
    Except (UserError α) (List (Generated α)) :=
  if !n.pending then .ok []
  else match Front.earliest? x.group fs with
    | none => .ok []
    | some f =>
      match budget with
      | 0 => .error (.expansionLimit limit)
      | budget + 1 =>
        let made := f.generate x.group
        let n := n.recordForward x.coverage x.freeUntil made.event
        (forward budget n (Front.move f.seed 1 fs)).map (made :: ·)

/-- The last transition on each path. Of transitions at the same time the later in the list
counts. -/
def lastOnPaths (paths : Nat) (made : List (Generated α)) :
    Numbered (Option (α × TransitionKind)) :=
  made.foldl (fun last m ↦ m.event.transitions.foldl (fun last t ↦
    last.modify t.path fun
      | none => some (m.event.time, t.kind)
      | some (time, kind) =>
        if time ≤ m.event.time then some (m.event.time, t.kind) else some (time, kind)) last)
    (.replicate paths none)

/-- What is needed after the loop: props in the air at its end need their catches. -/
def needsAfter (paths : Nat) (made : List (Generated α)) : Needs :=
  let last := lastOnPaths paths made
  last.numbers.foldl (fun n p ↦
    match last.getD p none with
    | some (_, .throwing) => n.awaitPartner (x.coverage.path p).caught p
    | _ => n) (.ofCoverage x.coverage)

/-- All images that the curves over the loop depend on, in no particular order. -/
def run (paths : Nat) : Except (UserError α) (List (Generated α)) := do
  let back ← x.backward limit (.ofCoverage x.coverage)
    (Front.before x.group x.seeds x.loop.high 0)
  -- Both runs share one budget.
  let forth ← x.forward (limit - back.length) (x.needsAfter paths back)
    (Front.before x.group x.seeds x.loop.high 1)
  return back ++ forth

end Expansion

end Juggling
