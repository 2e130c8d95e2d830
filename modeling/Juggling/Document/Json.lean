import Juggling.Document.Element
import Juggling.Json.Reader
import Juggling.Json.Printer

namespace Juggling.Element

/-- The fields of a node, as far as a document gives them. -/
structure Fields (β : Type) where
  tag : Option β := none
  attributes : Option β := none
  text : Option β := none
  children : Option β := none

namespace Fields

variable {β : Type}

/-- The one value under a key, or `none` inside where there is none; two values are an error. -/
def only? (key : String) (members : List (String × β)) : Option (Option β) :=
  match members.filter (·.1 == key) with
  | [] => some none
  | [(_, x)] => some (some x)
  | _ => none

/-- Picks the fields by their names; other names are ignored. -/
def ofMembers? (members : List (String × β)) : Option (Fields β) := do
  let tag ← only? "tag" members
  let attributes ← only? "attributes" members
  let text ← only? "text" members
  let children ← only? "children" members
  some { tag, attributes, text, children }

/-- The fields in their fixed order; trailing ones may be left out. -/
def ofItems? : List β → Option (Fields β)
  | [a] => some { tag := a }
  | [a, b] => some { tag := a, attributes := b }
  | [a, b, c] => some { tag := a, attributes := b, text := c }
  | [a, b, c, d] => some { tag := a, attributes := b, text := c, children := d }
  | _ => none

end Fields

/-- Brackets that may be open at the same time. -/
def jsonDepth : Nat := 127

/-- A value of an attribute, as far as it can be read: the text of a scalar, or none for all other
values. They open at most so many brackets. -/
def jsonValue? : Nat → Json → Option (Option String)
  | _, .null => some none
  | _, .bool b => some (some (if b then "true" else "false"))
  | _, .number spelling => (Json.numberText? spelling).map some
  | _, .string s => some (some s)
  | _, .unreadable | 0, _ => none
  | depth + 1, .array items => (items.mapM (jsonValue? depth)).map fun _ ↦ none
  | depth + 1, .object members =>
    (members.mapM fun m ↦ jsonValue? depth m.2).map fun _ ↦ none

def jsonFields? : Json → Option (Fields Json)
  | .object members => Fields.ofMembers? members
  | .array items => Fields.ofItems? items
  | _ => none

def jsonTag? : Option Json → Option String
  | some (.string s) => some s
  | _ => none

def jsonText? : Option Json → Option (Option String)
  | none | some .null => some none
  | some (.string s) => some (some s)
  | _ => none

/-- Attributes that open at most so many brackets. -/
def jsonAttributes? : Nat → Option Json → Option (List (String × String))
  | _, none => some []
  | depth + 1, some (.object members) => do
    scalars? (← members.mapM fun (key, x) ↦ (jsonValue? depth x).map (key, ·))
  | _, _ => none

mutual

/-- Reads a node that opens at most so many brackets. -/
def ofJson? : Nat → Json → Option Element
  | 0, _ => none
  | depth + 1, x => do
    let fields ← jsonFields? x
    let tag ← jsonTag? fields.tag
    let attributes ← jsonAttributes? depth fields.attributes
    let text ← jsonText? fields.text
    let children ← jsonChildren? depth fields.children
    some { tag, attributes, text, children }

def jsonChildren? : Nat → Option Json → Option (List Element)
  | _, none => some []
  | depth + 1, some (.array items) => items.mapM (ofJson? depth)
  | _, _ => none

end

mutual

/-- Attributes, text and children are left out where there are none. -/
def toJson : Element → Json
  | ⟨tag, attributes, text, children⟩ =>
    .object <|
      ("tag", .string tag)
        :: (if attributes.isEmpty then []
            else [("attributes", .object (attributes.map fun (k, v) ↦ (k, .string v)))])
        ++ text.toList.map (fun s ↦ ("text", .string s))
        ++ (if children.isEmpty then [] else [("children", .array (toJsonList children))])

def toJsonList : List Element → List Json
  | [] => []
  | e :: es => toJson e :: toJsonList es

end

def fromJsonText (s : String) : Except DocumentError Element :=
  match (Json.parse? s).bind (ofJson? jsonDepth) with
  | some e => .ok e
  | none => .error (.malformed .json)

def toJsonText (e : Element) : String := e.toJson.pretty

end Juggling.Element
