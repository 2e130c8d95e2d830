import Juggling.Layout.Coverage

namespace Juggling

/-- What a hand still waits for: some event, and one that determines its velocity. -/
structure HandNeed where
  event : Bool
  velocity : Bool
  deriving DecidableEq

/-- What a path still waits for: some touch, and the other end of a flight that determines the
velocity of a hand. -/
structure PathNeed where
  touch : Bool
  partner : Bool
  deriving DecidableEq

/-- What is still missing while images are generated away from the loop. -/
structure Needs where
  hands : Numbered (Hands HandNeed)
  paths : Numbered PathNeed

namespace Needs

def ofCoverage (c : Coverage) : Needs :=
  { hands := c.hands.map fun us ↦ us.map fun u ↦ ⟨true, u.determinesVelocity⟩
    paths := c.paths.map fun _ ↦ ⟨true, false⟩ }

def hand (n : Needs) (juggler : Nat) (h : Hand) : HandNeed :=
  (n.hands.getD juggler ⟨⟨false, false⟩, ⟨false, false⟩⟩).get h

def modifyHand (n : Needs) (juggler : Nat) (h : Hand) (f : HandNeed → HandNeed) : Needs :=
  { n with hands := n.hands.modify juggler fun hs ↦ hs.set (f (hs.get h)) h }

def modifyPath (n : Needs) (p : Nat) (f : PathNeed → PathNeed) : Needs :=
  { n with paths := n.paths.modify p f }

def pending (n : Needs) : Bool :=
  (n.hands.toList.any fun hs ↦ hs.toList.any fun h ↦ h.event || h.velocity)
    || n.paths.toList.any fun p ↦ p.touch || p.partner

/-- Asks for the partner of a flight if the path ever has one. -/
def awaitPartner (ever : Bool) (n : Needs) (p : Nat) : Needs :=
  n.modifyPath p ({ · with partner := ever })

variable {α : Type}

/-- Backwards a path waits for a throw, or for any touch when it is never thrown. -/
def recordBackwardTransition (c : Coverage) (n : Needs) (t : Transition) : Needs :=
  if t.kind = .throwing then n.modifyPath t.path fun _ ↦ ⟨false, false⟩
  else if (c.path t.path).thrown then n
  else n.modifyPath t.path ({ · with touch := false })

/-- Takes note of an image at or before the start of the loop. A hand that takes its velocity from
soft catches alone waits for the throws that they catch. -/
def recordBackward (c : Coverage) (n : Needs) (e : Event α) : Needs :=
  let resolves := (n.hand e.juggler e.hand).velocity && e.determinesVelocity
  let n := n.modifyHand e.juggler e.hand fun h ↦ ⟨false, h.velocity && !resolves⟩
  let soft :=
    if resolves && !e.has .throwing then e.transitions.filter (·.kind == .softCatching) else []
  let n := soft.foldl (fun n t ↦ n.awaitPartner (c.path t.path).thrown t.path) n
  e.transitions.reverse.foldl (recordBackwardTransition c) n

/-- Takes note of the transitions of an image, the first throw of which may determine the velocity
of the hand. -/
def recordForwardTransitions (c : Coverage) (n : Needs) (resolves : Bool) :
    List Transition → Needs
  | [] => n
  | t :: ts =>
    let n := n.modifyPath t.path fun p ↦ ⟨false, p.partner && !t.kind.isCatch⟩
    if resolves && t.kind == .throwing then
      recordForwardTransitions c (n.awaitPartner (c.path t.path).caught t.path) false ts
    else recordForwardTransitions c n resolves ts

variable [Scalar α]

/-- Takes note of an image after the loop. A hand whose velocity nothing determines waits for an
event after the given time. -/
def recordForward (c : Coverage) (freeUntil : α) (n : Needs) (e : Event α) : Needs :=
  let settles := (c.hand e.juggler e.hand).determinesVelocity
    || freeUntil - timeTolerance ≤ e.time
  let resolves := (n.hand e.juggler e.hand).velocity && e.determinesVelocity
  let n := n.modifyHand e.juggler e.hand fun h ↦
    ⟨h.event && !settles, h.velocity && !resolves⟩
  recordForwardTransitions c n resolves e.transitions

end Needs

end Juggling
