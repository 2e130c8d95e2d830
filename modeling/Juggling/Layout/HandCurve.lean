import Juggling.Layout.HandLink

namespace Juggling

/-- Links of a hand that follow each other, and the one curve through all of them, if they have
one. -/
structure Chain (α : Type) where
  links : List (HandLink α)
  curve : Option (Spline α)

/-- What curves of hands depend on: where events are in space, the flights, and the loop. -/
structure HandCurve (α : Type) where
  place : Event α → Coordinate α
  paths : Numbered (PathHistory α)
  loop : Window α

/-- Splits a list after the first entry of a kind. -/
def splitAfter? {β : Type} (p : β → Bool) : List β → Option (List β × List β)
  | [] => none
  | x :: xs => if p x then some ([x], xs) else (splitAfter? p xs).map fun (a, b) ↦ (x :: a, b)

namespace Chain

variable {α : Type}

def uncovered (links : List (HandLink α)) : Chain α := ⟨links, none⟩

def stops (links : List (HandLink α)) : List (Moment α) :=
  links.map (·.start) ++ (links.getLast?.map (·.stop)).toList

def numberNext (s : Array (Spline α) × Array (HandLink α)) (c : Chain α) :
    Array (Spline α) × Array (HandLink α) :=
  match c.curve with
  | none => (s.1, s.2.appendList c.links)
  | some curve =>
    (s.1.push curve, s.2.appendList (c.links.map ({ · with curve := some s.1.size })))

/-- Numbers the curves of chains on from those known so far. -/
def number (known : Array (Spline α)) (chains : List (Chain α)) :
    Array (Spline α) × List (HandLink α) :=
  let (known, links) := chains.foldl numberNext (known, #[])
  (known, links.toList)

end Chain

namespace HandCurve

variable {α : Type} [Scalar α] (x : HandCurve α)

def solve (links : List (HandLink α)) (v w : Option (Coordinate α)) :
    Except (PatternError α) (Chain α) :=
  let stops := Chain.stops links
  lift (fun e ↦ .internal (.curve e)) do
    let knots ← Knots.ofLists (stops.map fun m ↦ x.place m.event) (stops.map (·.time)) v w
    let curve ← Spline.ofKnots knots
    return ⟨links, curve⟩

/-- The curve from one velocity that a flight determines to the next. -/
def clamped (links : List (HandLink α)) (v w : VelocityRef) :
    Except (PatternError α) (Chain α) := do
  let start ← lift .internal (v.resolve x.paths)
  let stop ← lift .internal (w.resolve x.paths)
  x.solve links (some start) (some stop)

/-- Chains from each velocity at a start to the first velocity at an end, given the links since
the last start. -/
def pinned (current : Option (VelocityRef × List (HandLink α))) :
    List (HandLink α) → Except (PatternError α) (List (Chain α))
  | [] => .ok [.uncovered ((current.map (·.2)).getD [])]
  | l :: ls =>
    -- A chain goes on with this link, or starts with it where the hand has a velocity there.
    let current := match current with
      | some (v, links) => some (v, links ++ [l])
      | none => l.startVelocity.map (·, [l])
    match current, l.endVelocity with
    -- Before the first velocity there is nothing to start a curve with.
    | none, _ => do
      let chains ← pinned none ls
      return .uncovered [l] :: chains
    | some (v, links), some w => do
      let chain ← x.clamped links v w
      let chains ← pinned none ls
      return chain :: chains
    | some c, none => pinned (some c) ls

def period : α := x.loop.high - x.loop.low

/-- Whether a link leads over the start of the loop. -/
def straddles (l : HandLink α) : Bool :=
  let start := x.loop.low + timeTolerance
  l.start.time ≤ start && start < l.stop.time

/-- Images of one event this close to a period apart are one period apart. -/
def periodTolerance : α := 1e-6

/-- Whether a link ends one period after a moment, at an image of the same event. -/
def closes (m : Moment α) (l : HandLink α) : Bool :=
  l.stop.seed == m.seed && Scalar.abs (l.stop.time - (m.time + x.period)) < periodTolerance

/-- The closed curve over one period from the first of some links on, and the links after it. -/
def closed (juggler : Nat) (hand : Hand) (links : List (HandLink α)) :
    Except (PatternError α) (Chain α × List (HandLink α)) :=
  match links with
  | [] => .error (.internal (.missingDelayImage juggler hand (x.loop.low + x.period)))
  | first :: _ =>
    match splitAfter? (x.closes first.start) links with
    | none => .error (.internal (.missingDelayImage juggler hand first.start.time))
    | some (chain, rest) => do
      let chain ← x.solve chain none none
      return (chain, rest)

/-- Two closed curves, the first of which leads over the start of the loop. -/
def free (juggler : Nat) (hand : Hand) (links : List (HandLink α)) :
    Except (PatternError α) (List (Chain α)) := do
  let before := links.takeWhile (!x.straddles ·)
  let links := links.dropWhile (!x.straddles ·)
  if links.isEmpty then throw (.internal (.missingHandCurve juggler hand x.loop.low))
  let (first, links) ← x.closed juggler hand links
  let (second, links) ← x.closed juggler hand links
  -- The first curve may end within the loop; the second one lasts beyond it.
  return [.uncovered before, first, second, .uncovered links]

def chains (moments : List (Moment α)) (juggler : Nat) (hand : Hand) (links : List (HandLink α)) :
    Except (PatternError α) (List (Chain α)) :=
  if (Moment.ofHand moments juggler hand).any (·.event.determinesVelocity) then
    x.pinned none links
  else x.free juggler hand links

def solveJuggler (moments : List (Moment α)) (known : Array (Spline α)) (juggler : Nat)
    (links : Hands (List (HandLink α))) :
    Except (PatternError α) (Array (Spline α) × Hands (List (HandLink α))) := do
  let (known, left) := Chain.number known (← x.chains moments juggler .left links.left)
  let (known, right) := Chain.number known (← x.chains moments juggler .right links.right)
  return (known, ⟨left, right⟩)

/-- The curves of the hands of all jugglers from a number on, and their links with the numbers of
their curves. -/
def solveFrom (moments : List (Moment α)) (known : Array (Spline α)) (juggler : Nat) :
    List (Hands (List (HandLink α))) →
    Except (PatternError α) (Array (Spline α) × List (Hands (List (HandLink α))))
  | [] => .ok (known, [])
  | links :: rest => do
    let (known, solved) ← x.solveJuggler moments known juggler links
    let (known, others) ← solveFrom moments known (juggler + 1) rest
    return (known, solved :: others)

def solveAll (moments : List (Moment α)) (links : Numbered (Hands (List (HandLink α)))) :
    Except (PatternError α) (Array (Spline α) × Numbered (Hands (List (HandLink α)))) := do
  let (curves, solved) ← x.solveFrom moments #[] 1 links.toList
  return (curves, .ofList solved)

end HandCurve

end Juggling
