import Juggling.Numbered
import Juggling.Layout.Group

namespace Juggling

structure HandUse where
  touched : Bool := false
  determinesVelocity : Bool := false
  deriving DecidableEq

structure PathUse where
  touched : Bool := false
  thrown : Bool := false
  caught : Bool := false
  deriving DecidableEq

/-- Which hands and paths the images of all events touch, and how. -/
structure Coverage where
  hands : Numbered (Hands HandUse)
  paths : Numbered PathUse

namespace Coverage

def empty (jugglers paths : Nat) : Coverage :=
  ⟨.replicate jugglers ⟨{}, {}⟩, .replicate paths {}⟩

def hand (c : Coverage) (juggler : Nat) (h : Hand) : HandUse :=
  (c.hands.getD juggler ⟨{}, {}⟩).get h

def path (c : Coverage) (p : Nat) : PathUse := c.paths.getD p {}

def recordHand (determines : Bool) (u : HandUse) : HandUse :=
  { touched := true, determinesVelocity := u.determinesVelocity || determines }

def recordPath (kind : TransitionKind) (u : PathUse) : PathUse :=
  { touched := true, thrown := u.thrown || kind == .throwing, caught := u.caught || kind.isCatch }

variable {α : Type}

def record (c : Coverage) (e : Event α) : Coverage :=
  { hands := c.hands.modify e.juggler fun hs ↦
      hs.set (recordHand e.determinesVelocity (hs.get e.hand)) e.hand
    paths := e.transitions.foldl (fun ps t ↦ ps.modify t.path (recordPath t.kind)) c.paths }

/-- The first hand that nothing touches, in order of jugglers with left before right. -/
def untouchedHand? (c : Coverage) : Option (Nat × Hand) :=
  (c.hands.numbers.flatMap fun j ↦ Hand.all.map (j, ·)).find? fun (j, h) ↦ !(c.hand j h).touched

def untouchedPath? (c : Coverage) : Option Nat :=
  c.paths.numbers.find? fun p ↦ !(c.path p).touched

variable [Scalar α]

/-- Every hand and every path has to be touched by some image. -/
def scan (seeds : List (Event α)) (g : SymmetryGroup α) (jugglers paths : Nat) :
    Except (UserError α) Coverage :=
  let images := g.orbit
  let c := seeds.foldl (fun c e ↦ images.foldl (fun c f ↦ c.record (f.apply e)) c)
    (empty jugglers paths)
  match c.untouchedHand?, c.untouchedPath? with
  | some (j, h), _ => .error (.handNeverTouched j h)
  | none, some p => .error (.pathNeverTouched p)
  | none, none => .ok c

end Coverage

end Juggling
