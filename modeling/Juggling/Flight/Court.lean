import Juggling.Scalar

namespace Juggling

structure Arc (α : Type) where
  time : α
  height : α
  speed : α

structure Court (α : Type) where
  floor : α
  /-- Part of the speed that a contact leaves. -/
  kept : α
  g : α

/-- The arcs of a flight, and the vertical velocity it ends with. -/
structure Course (α : Type) where
  first : Arc α
  rebounds : List (Arc α)
  endSpeed : α

namespace Arc

variable {α : Type} [Scalar α]

def heightAt (g : α) (a : Arc α) (t : α) : α :=
  let s := t - a.time
  a.height + a.speed * s - 0.5 * g * s * s

def contact (c : Court α) (a : Arc α) : α :=
  let disc := a.speed * a.speed + 2 * c.g * (a.height - c.floor)
  a.time + (a.speed + Scalar.sqrt (Scalar.larger disc 0)) / c.g

def rebound (c : Court α) (a : Arc α) (hit : α) : Arc α :=
  let impact := a.speed - c.g * (hit - a.time)
  { time := hit, height := c.floor, speed := -impact * c.kept }

def apex (g : α) (a : Arc α) : α := a.time + a.speed / g

end Arc

namespace Court

variable {α : Type} [Scalar α]

/-- Contacts from an arc on, of which there have to be exactly so many before the end. -/
def rebounds? (c : Court α) (duration : α) : Nat → Arc α → Option (List (Arc α))
  | 0, a => if duration ≤ a.contact c then some [] else none
  | n + 1, a =>
    if duration ≤ a.contact c then none
    else
      let b := a.rebound c (a.contact c)
      (c.rebounds? duration n b).map (b :: ·)

/-- Follows a prop launched at time zero, unless it bounces too often or not often enough. -/
def course? (c : Court α) (bounces : Nat) (height duration speed : α) : Option (Course α) :=
  let first : Arc α := ⟨0, height, speed⟩
  (c.rebounds? duration bounces first).map fun rebounds ↦
    let last := rebounds.getLast?.getD first
    ⟨first, rebounds, last.speed - c.g * (duration - last.time)⟩

end Court

namespace Course

variable {α : Type} [Scalar α]

def last (c : Course α) : Arc α := c.rebounds.getLast?.getD c.first

def later (c : Course α) (t : α) : Course α :=
  let move (a : Arc α) : Arc α := { a with time := a.time + t }
  { c with first := move c.first, rebounds := c.rebounds.map move }

end Course

end Juggling
