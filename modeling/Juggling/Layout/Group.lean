import Juggling.Error
import Juggling.Symmetry
import Juggling.Track
import Juggling.Layout.Transform

namespace Juggling

/-- The symmetries of a pattern: representatives in order of their shifts, which lie within one
period, each of them followed by any power of the delay. -/
structure SymmetryGroup (α : Type) where
  delay : Transform α
  representatives : Array (Transform α)

namespace SymmetryGroup

variable {α : Type} [Scalar α]

def sizeLimit : Nat := 512

def same (f g : Transform α) : Bool :=
  Scalar.abs (f.shift - g.shift) < timeTolerance
    && f.jugglers.agrees g.jugglers && f.paths.agrees g.paths

/-- Whole periods in a shift; what falls short of a whole number by less than the tolerance counts
as that number. -/
def wholePeriods (period shift : α) : Int :=
  let q := Scalar.floorInt (shift / period)
  if Scalar.abs ((Scalar.ofInt q + 1) * period - shift) < timeTolerance then q + 1 else q

/-- The transform followed by the power of the delay that brings its shift into the period. -/
def normalize (delay f : Transform α) : Transform α :=
  let g := f.andThen (delay.power (-wholePeriods delay.shift f.shift))
  -- What rounding leaves of a whole period is no shift.
  if Scalar.abs g.shift < timeTolerance then { g with shift := 0 } else g

/-- Adds a product of transforms unless it is there already. -/
def adjoin (delay f : Transform α) (known : Array (Transform α)) (g : Transform α) :
    Except (UserError α) (Array (Transform α)) :=
  let product := normalize delay (f.andThen g)
  if known.any (same · product) then .ok known
  else if sizeLimit ≤ known.size then .error (.symmetryGroupTooLarge sizeLimit)
  else .ok (known.push product)

/-- Multiplies every known transform from the given one on with every generator. -/
def close (delay : Transform α) (generators : List (Transform α)) (fuel next : Nat)
    (known : Array (Transform α)) : Except (UserError α) (Array (Transform α)) :=
  match fuel, known[next]? with
  | 0, _ | _, none => .ok known
  | fuel + 1, some f => do
    let known ← generators.foldlM (adjoin delay f) known
    close delay generators fuel (next + 1) known

def ofShift (s : Symmetry α) (shift : α) : Transform α := ⟨shift, s.jugglers, s.paths⟩

/-- What a symmetry other than the delay adds to the group. -/
def generator? (period : α) (s : Symmetry α) : Option (Transform α) :=
  match s.kind with
  | .delay => none
  | .switch => some (ofShift s 0)
  | .switchDelay => some (ofShift s (s.delay.getD (period / 2)))

def delayOf (symmetries : List (Symmetry α)) : Except (UserError α) (Symmetry α) :=
  match symmetries.filter (·.kind == .delay) with
  | [s] => .ok s
  | delays => .error (.delaySymmetryCount delays.length)

/-- The group of a list of symmetries. It has at most `sizeLimit` representatives, so every one of
them gets its turn. -/
def ofSymmetries (symmetries : List (Symmetry α)) (jugglers paths : Nat) :
    Except (UserError α) (SymmetryGroup α) := do
  let d ← delayOf symmetries
  let period := d.delay.getD 0
  if !(0 < period && Scalar.isFinite period) then
    throw (.invalidDelay period)
  if !d.jugglers.isIdentity then
    throw .delayMovesJugglers
  let delay := ofShift d period
  let known ← close delay (symmetries.filterMap (generator? period)) (sizeLimit + 1) 0
    #[Transform.identity jugglers paths]
  let sorted := known.toList.mergeSort fun f g ↦ Scalar.precedes f.shift g.shift
  return { delay, representatives := sorted.toArray }

variable (g : SymmetryGroup α)

def period : α := g.delay.shift

/-- Images that an event has in each period. -/
def size : Nat := g.representatives.size

def representative (k : Int) : Transform α :=
  g.representatives.getD (k % (g.size : Int)).toNat g.delay

/-- Images are numbered in order of time; the image `k + size` is the image `k` one period
later. -/
def image (k : Int) : Transform α :=
  (g.representative k).andThen (g.delay.power (k / (g.size : Int)))

def imageTime (e : Event α) (k : Int) : α :=
  e.time + (g.representative k).shift + Scalar.ofInt (k / (g.size : Int)) * g.period

/-- One image for every different renaming; later images repeat these. -/
def orbit : List (Transform α) :=
  (List.range (g.size * g.delay.paths.order)).map fun k : Nat ↦ g.image k

/-- Moves up while images are too early. -/
def climb (e : Event α) (t : α) : Nat → Int → Int
  | 0, k => k
  | fuel + 1, k => if g.imageTime e k < t then climb e t fuel (k + 1) else k

def descend (e : Event α) (t : α) : Nat → Int → Int
  | 0, k => k
  | fuel + 1, k => if t ≤ g.imageTime e k then descend e t fuel (k - 1) else k

/-- Steps from the estimate to the image looked for: one period of images, and ample room for
rounded times. -/
def searchSteps : Nat := 1000 * (g.size + 1)

def lastImageBefore (e : Event α) (t : α) : Int :=
  -- An estimate from whole periods alone, a few images away from the one looked for.
  let k := Scalar.floorInt ((t - e.time) / g.period) * (g.size : Int)
  g.descend e t g.searchSteps (g.climb e t g.searchSteps k)

end SymmetryGroup

end Juggling
