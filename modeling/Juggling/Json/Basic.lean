namespace Juggling

/-- A JSON text as a tree. Numbers keep their spelling, members their order. A string with half of
a surrogate pair in it is well written but stands for nothing, and so does an object with such a
key. -/
inductive Json where
  | null
  | bool (b : Bool)
  | number (spelling : String)
  | string (s : String)
  | array (items : List Json)
  | object (members : List (String × Json))
  | unreadable

end Juggling
