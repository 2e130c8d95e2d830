import Juggling.Layout.Expansion

namespace Juggling.Generated

variable {α : Type} [Scalar α]

/-- The order of a timeline: by time, then by juggler, then the left hand first. -/
def notAfter (a b : Generated α) : Bool :=
  let e := a.event
  let f := b.event
  Scalar.precedes e.time f.time &&
    (!Scalar.precedes f.time e.time || e.juggler < f.juggler
      || (e.juggler == f.juggler && e.hand.index ≤ f.hand.index))

/-- Whether two events do the same to the same paths, in any order. -/
def sameTransitions (e f : Event α) : Bool :=
  (e.transitions.map fun t ↦ (t.path, t.kind)).isPerm (f.transitions.map fun t ↦ (t.path, t.kind))

/-- Of the images kept so far, the latest first, the one on the same hand at the same moment. -/
def clash? (kept : List (Generated α)) (g : Generated α) : Option (Generated α) :=
  (kept.takeWhile fun o ↦ g.event.time - o.event.time < timeTolerance).find? fun o ↦
    o.event.hasHand g.event.juggler g.event.hand

/-- Keeps one of several images that are the same event, which a symmetry maps onto itself.
Different events of one hand at one moment are an error. -/
def dropCoincident (kept : List (Generated α)) :
    List (Generated α) → Except (UserError α) (List (Generated α))
  | [] => .ok kept.reverse
  | g :: gs =>
    match clash? kept g with
    | none => dropCoincident (g :: kept) gs
    | some o =>
      -- A symmetry maps the event onto itself, or two events ask for one hand.
      if o.seed = g.seed && sameTransitions o.event g.event then dropCoincident kept gs
      else .error (.eventCollision g.event.juggler g.event.hand g.event.time)

end Juggling.Generated
