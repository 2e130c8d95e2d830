import Juggling.Document.Json
import Juggling.Yaml.Reader
import Juggling.Yaml.Printer

namespace Juggling.Element

/-- Collections that may be inside each other. -/
def yamlDepth : Nat := 128

def yamlText? : Yaml → Option String
  | .scalar s _ => some s
  | _ => none

/-- Whether a value is missing, which stands for an empty collection. -/
def isMissing : Yaml → Bool
  | .scalar s plain => plain && s.isEmpty
  | _ => false

/-- A value of an attribute, as far as it can be read: the text of a scalar, or none for all other
values. They open at most so many collections. -/
def yamlValue? : Nat → Yaml → Option (Option String)
  | _, .scalar s false => some (some s)
  | _, .scalar s true =>
    match Yaml.resolve s with
    | .text => some (some s)
    | .bool b => some (some (if b then "true" else "false"))
    | .integer n =>
      if -Int.ofNat (Nat.pow 2 63) ≤ n ∧ n < Int.ofNat Text.natLimit then some (some (toString n))
      else none
    | .float x => some (if x.isFinite then some (Json.floatText x) else none)
    | .null => some none
  | 0, _ => none
  | depth + 1, .sequence items => (items.mapM (yamlValue? depth)).map fun _ ↦ none
  | depth + 1, .mapping entries =>
    (entries.mapM fun (k, v) ↦ (yamlText? k).bind fun _ ↦ yamlValue? depth v).map fun _ ↦ none

def yamlAttributes? (depth : Nat) : Yaml → Option (List (String × String))
  | .mapping entries => do
    let members ← entries.mapM fun (k, v) ↦ do some (← yamlText? k, ← yamlValue? depth v)
    scalars? members
  | x => if isMissing x then some [] else none

/-- Reads a node that opens at most so many collections. -/
def ofYaml? : Nat → Yaml → Option Element
  | 0, _ => none
  | depth + 1, x => do
    let members ← match x with
      | .mapping entries => entries.mapM fun (k, v) ↦ (yamlText? k).map (·, v)
      | _ => none
    let fields ← Fields.ofMembers? members
    let tag ← fields.tag.bind yamlText?
    let attributes ← match fields.attributes, depth with
      | none, _ => some []
      | some x, depth + 1 => yamlAttributes? depth x
      | some x, 0 => if isMissing x then some [] else none
    let text ← match fields.text with
      | none => some none
      | some (.scalar s plain) =>
        some (if plain && (s.isEmpty || Yaml.isNullWord s) then none else some s)
      | some _ => none
    let children ← match fields.children, depth with
      | none, _ => some []
      | some (.sequence items), depth + 1 => items.mapM (ofYaml? depth)
      | some x, _ => if isMissing x then some [] else none
    some { tag, attributes, text, children }

open Yaml.Printer (entry header spaces)

mutual

/-- A node whose lines are indented by so many blanks, the first one aside. -/
def yamlLines (n : Nat) : Element → List Char
  | ⟨tag, attributes, text, children⟩ =>
    entry n "tag" tag
      ++ (if attributes.isEmpty then []
          else spaces n ++ header "attributes"
            ++ attributes.flatMap fun (k, v) ↦ spaces (n + 2) ++ entry (n + 2) k v)
      ++ text.toList.flatMap (fun s ↦ spaces n ++ entry n "text" s)
      ++ (if children.isEmpty then [] else spaces n ++ header "children" ++ yamlItems n children)

def yamlItems (n : Nat) : List Element → List Char
  | [] => []
  | e :: es => spaces n ++ '-' :: ' ' :: yamlLines (n + 2) e ++ yamlItems n es

end

def fromYamlText (s : String) : Except DocumentError Element :=
  match (Yaml.parse? s).bind (ofYaml? yamlDepth) with
  | some e => .ok e
  | none => .error (.malformed .yaml)

def toYamlText (e : Element) : String :=
  String.ofList (e.yamlLines 0)

def fromText : Format → String → Except DocumentError Element
  | .json => fromJsonText
  | .yaml => fromYamlText

def toText : Format → Element → String
  | .json => toJsonText
  | .yaml => toYamlText

end Juggling.Element
