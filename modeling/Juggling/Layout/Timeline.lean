import Juggling.Layout.Coincidence

namespace Juggling

/-- An image with its index in the order of time. -/
structure Moment (α : Type) extends Generated α where
  index : Nat

structure Timeline (α : Type) where
  /-- The events that the moments are images of, each of them the master of its images. -/
  seeds : List (Event α)
  /-- In order of time. -/
  moments : List (Moment α)
  /-- For every seed the index of its master. -/
  masters : List Nat

/-- Every entry of a list together with the one after it. -/
def steps {β : Type} (xs : List β) : List (β × β) := xs.zip xs.tail

namespace Moment

variable {α : Type}

def time (m : Moment α) : α := m.event.time

def numbered (made : List (Generated α)) : List (Moment α) :=
  made.mapIdx fun i g ↦ { toGenerated := g, index := i }

def ofHand (moments : List (Moment α)) (juggler : Nat) (hand : Hand) : List (Moment α) :=
  moments.filter fun m ↦ m.event.hasHand juggler hand

variable [Scalar α]

/-- The moments between which the images of the seeds have to be known. -/
def expand (seeds : List (Event α)) (g : SymmetryGroup α) (jugglers paths : Nat)
    (loop : Window α) : Except (UserError α) (List (Moment α)) := do
  if seeds.isEmpty then throw .noEvents
  let coverage ← Coverage.scan seeds g jugglers paths
  let made ← Expansion.run ⟨seeds, g, coverage, loop⟩ paths
  -- The sort is stable: of images at one time the one made first comes first.
  let kept ← Generated.dropCoincident [] (made.mergeSort Generated.notAfter)
  return numbered kept

def isWithin (loop : Window α) (m : Moment α) : Bool :=
  loop.low - timeTolerance ≤ m.time && m.time < loop.high - timeTolerance

/-- The earlier of two moments; at the same time a seed itself comes before its other images. -/
def earlier (m n : Moment α) : Moment α :=
  let stays :=
    if Scalar.abs (m.time - n.time) < timeTolerance then m.image == 0 || n.image != 0
    else Scalar.precedes m.time n.time
  if stays then m else n

def earliest? : List (Moment α) → Option (Moment α)
  | [] => none
  | m :: ms => some (ms.foldl earlier m)

/-- The master among the images of one seed: the earliest within the loop, or the earliest of
all when none is. -/
def master? (loop : Window α) (images : List (Moment α)) : Option (Moment α) :=
  (earliest? (images.filter (isWithin loop))).or (earliest? images)

def masters (loop : Window α) (seeds : Nat) (moments : List (Moment α)) :
    Except (InternalError α) (List (Moment α)) :=
  (List.range seeds).mapM fun seed ↦
    match master? loop (moments.filter (·.seed == seed)) with
    | some m => .ok m
    | none => .error (.emptyOrbit seed)

end Moment

namespace Timeline

variable {α : Type} [Scalar α]

/-- Attempts to choose masters. -/
def rounds : Nat := 4

/-- Expands the seeds, and again their masters in their place, until every seed is its own
master. -/
def settle (g : SymmetryGroup α) (jugglers paths : Nat) (loop : Window α) :
    Nat → List (Event α) → Except (PatternError α) (Timeline α)
  | 0, _ => .error (.internal (.masterSelectionUnstable rounds))
  | fuel + 1, seeds => do
    let moments ← lift .user (Moment.expand seeds g jugglers paths loop)
    let masters ← lift .internal (Moment.masters loop seeds.length moments)
    if masters.all (·.image == 0) then
      return { seeds, moments, masters := masters.map (·.index) }
    -- The orbits stay the same, but their images are numbered from the masters on.
    settle g jugglers paths loop fuel (masters.map (·.event))

def build (seeds : List (Event α)) (g : SymmetryGroup α) (jugglers paths : Nat)
    (loop : Window α) : Except (PatternError α) (Timeline α) :=
  settle g jugglers paths loop rounds seeds

variable (l : Timeline α)

def masterOf (m : Moment α) : Nat := l.masters.getD m.seed m.index

def isMaster (m : Moment α) : Bool := l.masterOf m == m.index

def prev? (m : Moment α) : Option (Moment α) :=
  if m.index = 0 then none else l.moments[m.index - 1]?

def next? (m : Moment α) : Option (Moment α) := l.moments[m.index + 1]?

end Timeline

end Juggling
