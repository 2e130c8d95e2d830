import Juggling.Layout.Basic

namespace Juggling.Layout

variable {α : Type} [Scalar α] (l : Layout α)

/-- The last of some links in order of time that has started, unless it has ended before. -/
def linkAt? {β : Type} (range : β → Window α) (t : α) (links : List β) : Option β :=
  (links.takeWhile fun k ↦ (range k).low ≤ t).getLast?.filter fun k ↦ t ≤ (range k).high

def pathLinks (path : Nat) : List (PathLink α) := (l.paths.getD path .empty).links

def handLinks (juggler : Nat) (hand : Hand) : List (HandLink α) :=
  (l.hands.getD juggler ⟨[], []⟩).get hand

def handRange (k : HandLink α) : Window α := ⟨k.start.time, k.stop.time⟩

def pathLinkAt (path : Nat) (t : α) : Except (InternalError α) (PathLink α) :=
  match linkAt? PathLink.range t (l.pathLinks path) with
  | some k => .ok k
  | none => .error (.missingPathLink path t)

def curveOf? (k : HandLink α) : Option (Spline α) := k.curve.bind (l.curves[·]?)

def handCurveAt (juggler : Nat) (hand : Hand) (t : α) : Except (InternalError α) (Spline α) :=
  match (linkAt? handRange t (l.handLinks juggler hand)).bind l.curveOf? with
  | some c => .ok c
  | none => .error (.missingHandCurve juggler hand t)

def handPlaceWithin (juggler : Nat) (hand : Hand) (t : α) :
    Except (InternalError α) (Coordinate α) :=
  (l.handCurveAt juggler hand t).map (·.position t)

def handPlace (juggler : Nat) (hand : Hand) (t : α) : Except (InternalError α) (Coordinate α) :=
  l.handPlaceWithin juggler hand (l.wrapTime t)

/-- Where the prop of a path is: in its hand, or on its flight. -/
def pathPlace (path : Nat) (t : α) : Except (InternalError α) (Coordinate α) := do
  let t := l.wrapTime t
  let k ← l.pathLinkAt path t
  match k.passage with
  | .held juggler hand => l.handPlaceWithin juggler hand t
  | .thrown _ _ f => return f.position t

def isHeld (path : Nat) (t : α) : Except (InternalError α) Bool :=
  (l.pathLinkAt path (l.wrapTime t)).map (·.isHeld)

def track (juggler : Nat) : Track α :=
  l.tracks.getD juggler (.standing (.default juggler l.tracks.size))

def placement (juggler : Nat) (t : α) : Placement α :=
  (l.track juggler).placement (l.wrapTime t)

/-- The part of a window that a link takes, unless that has no length. -/
def overlap? (w v : Window α) : Option (Window α) :=
  let low := Scalar.larger v.low w.low
  let high := Scalar.smaller v.high w.high
  if high ≤ low then none else some ⟨low, high⟩

/-- The corner of the box around all parts of some links within a window. -/
def extremeOver {β : Type} (e : Extreme) (range : β → Window α)
    (extreme : β → Window α → Except (InternalError α) (Option (Coordinate α)))
    (w : Window α) (links : List β) : Except (InternalError α) (Option (Coordinate α)) :=
  links.foldlM (fun found k ↦
    match overlap? w (range k) with
    | none => .ok found
    | some v => (extreme k v).map (e.pick? found)) none

def handExtremeOver (e : Extreme) (juggler : Nat) (hand : Hand) (w : Window α) :
    Except (InternalError α) (Option (Coordinate α)) :=
  extremeOver e handRange (fun k v ↦
    match l.curveOf? k with
    | some c => .ok (c.extreme e v)
    | none => .error (.missingHandCurve juggler hand v.low)) w (l.handLinks juggler hand)

def handExtreme (e : Extreme) (juggler : Nat) (hand : Hand) :
    Except (InternalError α) (Option (Coordinate α)) :=
  l.handExtremeOver e juggler hand l.loop

def pathExtreme (e : Extreme) (path : Nat) : Except (InternalError α) (Option (Coordinate α)) :=
  extremeOver e PathLink.range (fun k v ↦
    match k.passage with
    | .thrown _ _ f => .ok (f.extreme e v)
    | .held juggler hand => l.handExtremeOver e juggler hand v) l.loop (l.pathLinks path)

def bodyExtreme (e : Extreme) (juggler : Nat) : Except (InternalError α) (Coordinate α) :=
  match (l.track juggler).bound? e with
  | some p => .ok p
  | none => .error (.curve .notCalculated)

end Juggling.Layout
