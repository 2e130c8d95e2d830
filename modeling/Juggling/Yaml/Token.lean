namespace Juggling.Yaml

/-- What the structure of a text is told by. Collections of a block have ends of their own, as
the indentation gives them. -/
inductive Token where
  | scalar (text : String) (plain : Bool)
  | key
  | value
  /-- The dash before an item of a block sequence. -/
  | item
  | blockSequence
  | blockMapping
  | blockEnd
  | comma
  | openBracket
  | closeBracket
  | openBrace
  | closeBrace
  | documentStart
  | documentEnd
  deriving DecidableEq

end Juggling.Yaml
