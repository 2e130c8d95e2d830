import Juggling.Document.Yaml
import Juggling.Pattern.Basic

namespace Juggling

namespace Transition

variable {α : Type}

/-- Reads a node below an event, unless its tag names no transition. -/
def ofElement? (e : Element) : Except DocumentError (Option Transition) :=
  match TransitionKind.ofTag? e.tag with
  | none => .ok none
  | some kind => do
    let path ← e.nat "path"
    if kind ≠ .throwing then return some { kind, path }
    let name := (e.get? "type").getD "toss"
    match ThrowKind.ofName? name with
    | some throwKind => return some { kind, path, throwKind, modifier := (e.get? "mod").getD "" }
    | none => throw (.invalidAttribute e.tag "type" name)

/-- Only throws have a type, and only a modifier that is not empty is written. -/
def toElement (t : Transition) : Element :=
  let e : Element := { tag := t.kind.tag }
  let e := e.attr "path" (toString t.path)
  if t.kind ≠ .throwing then e
  else
    let e := e.attr "type" t.throwKind.name
    if t.modifier.isEmpty then e else e.attr "mod" t.modifier

end Transition

namespace Coordinate

variable {α : Type} [Scalar α] [Numeral α]

/-- Components that are not given are zero. -/
def ofElement (e : Element) : Except DocumentError (Coordinate α) := do
  let x ← e.numberD "x" 0
  let y ← e.numberD "y" 0
  let z ← e.numberD "z" 0
  return ⟨x, y, z⟩

def attributes (a : Coordinate α) (e : Element) : Element :=
  ((e.attr "x" (Numeral.write a.x)).attr "y" (Numeral.write a.y)).attr "z" (Numeral.write a.z)

end Coordinate

namespace Event

variable {α : Type} [Scalar α] [Numeral α]

def ofElement (e : Element) : Except DocumentError (Event α) := do
  let label ← e.require "hand"
  let (juggler, hand) ← lift .invalidHand (Hand.parseLabel label)
  let place ← Coordinate.ofElement e
  let time ← e.number "t"
  let transitions ← e.children.mapM Transition.ofElement?
  return { time, place, juggler, hand, transitions := transitions.filterMap id }

def toElement (x : Event α) : Element :=
  let e := x.place.attributes { tag := "event" }
  let e := (e.attr "t" (Numeral.write x.time)).attr "hand" (x.hand.label x.juggler)
  { e with children := x.transitions.map Transition.toElement }

end Event

namespace Position

variable {α : Type} [Scalar α] [Numeral α]

def ofElement (e : Element) : Except DocumentError (Position α) := do
  let place ← Coordinate.ofElement e
  let angle ← e.numberD "angle" 0
  let time ← e.number "t"
  let juggler ← e.natD "juggler" 1
  return { time, place, angle, juggler }

def toElement (x : Position α) : Element :=
  let e := x.place.attributes { tag := "position" }
  ((e.attr "t" (Numeral.write x.time)).attr "angle" (Numeral.write x.angle)).attr "juggler"
    (toString x.juggler)

end Position

namespace PropDecl

def ofElement (e : Element) : PropDecl := ⟨(e.get? "type").getD "ball", e.get? "mod"⟩

def toElement (x : PropDecl) : Element :=
  let e : Element := { tag := "prop" }
  let e := e.attr "type" x.kind
  match x.modifier with
  | some m => e.attr "mod" m
  | none => e

end PropDecl

namespace SymmetryKind

def parse (s : String) : Except DocumentError SymmetryKind :=
  match ofName? s with
  | some kind => .ok kind
  | none => .error (.invalidAttribute "symmetry" "type" s)

end SymmetryKind

namespace Symmetry

variable {α : Type} [Numeral α]

/-- Permutations that are not given leave everything in place. -/
def ofElement (jugglers paths : Nat) (e : Element) : Except (UserError α) (Symmetry α) := do
  let kind ← lift .document do SymmetryKind.parse (← e.require "type")
  let delay : Option α ← lift .document <|
    match e.get? "delay" with
    | some d => (e.readNumber "delay" d).map some
    | none => .ok none
  lift .permutation <|
    parse kind jugglers paths ((e.get? "jperm").getD "") ((e.get? "pperm").getD "") delay

/-- A delay moves no jugglers, so only the others say what they do with them. -/
def toElement (s : Symmetry α) : Element :=
  let e : Element := { tag := "symmetry" }
  let e := e.attr "type" s.kind.name
  let e := if s.kind = .delay then e else e.attr "jperm" s.jugglers.toText
  let e := e.attr "pperm" s.paths.toText
  match s.delay with
  | some d => e.attr "delay" (Numeral.write d)
  | none => e

end Symmetry

namespace Pattern

variable {α : Type} [Scalar α] [Numeral α]

def readSetup (p : Pattern α) (e : Element) : Except DocumentError (Pattern α) := do
  let jugglers ← e.natD "jugglers" 1
  let paths ← e.nat "paths"
  let p := (p.setJugglers jugglers).setPaths paths
  match e.get? "props" with
  | none => return p
  | some list =>
    let assignment ← (Text.split ',' list.toList).mapM fun s ↦
      e.readNat "props" (String.ofList s)
    return p.setAssignment assignment

/-- Takes up what one node says; nodes with other tags say nothing. Symmetries rename as many
jugglers and paths as have been announced before them. -/
def readChild (p : Pattern α) (e : Element) : Except (UserError α) (Pattern α) :=
  match e.tag with
  | "title" => .ok (p.setTitle (e.text.or (e.get? "text")))
  | "prop" => .ok (p.addProp (.ofElement e))
  | "setup" => lift .document (p.readSetup e)
  | "symmetry" => (Symmetry.ofElement p.jugglers p.paths e).map p.addSymmetry
  | "event" => lift .document ((Event.ofElement e).map p.addEvent)
  | "position" => lift .document ((Position.ofElement e).map p.addPosition)
  | _ => .ok p

/-- The node that holds a pattern, which may stand below a `jml` node. -/
def root (e : Element) : Except DocumentError Element :=
  match e.tag with
  | "pattern" => .ok e
  | "jml" =>
    match e.tagged "pattern" with
    | n :: _ => .ok n
    | [] => .error (.unexpectedRoot "pattern" "jml")
  | tag => .error (.unexpectedRoot "pattern" tag)

def ofDocument (e : Element) : Except (UserError α) (Pattern α) := do
  let node ← lift .document (root e)
  node.children.foldlM readChild { jugglers := 1, paths := 1 }

def setupElement (p : Pattern α) : Element :=
  let e : Element := { tag := "setup" }
  let e := (e.attr "jugglers" (toString p.jugglers)).attr "paths" (toString p.paths)
  if p.assignment.isEmpty then e
  else e.attr "props" (Text.join "," (p.assignment.map toString))

def toDocument (p : Pattern α) : Element :=
  let title : List Element :=
    p.title.toList.map fun s ↦ { tag := "title", text := some s }
  { tag := "pattern"
    children := title ++ p.props.map PropDecl.toElement ++ [p.setupElement]
      ++ p.symmetries.map Symmetry.toElement ++ p.events.map Event.toElement
      ++ p.positions.map Position.toElement }

def ofText (format : Format) (text : String) : Except (UserError α) (Pattern α) := do
  ofDocument (← lift .document (Element.fromText format text))

def toText (p : Pattern α) (format : Format) : String := p.toDocument.toText format

end Pattern

end Juggling
