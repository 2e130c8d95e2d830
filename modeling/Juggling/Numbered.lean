namespace Juggling

/-- Values for the numbers `1, 2, …, n`, such as the jugglers or the paths of a pattern. -/
structure Numbered (β : Type) where
  entries : Array β

namespace Numbered

variable {β γ : Type}

def size (v : Numbered β) : Nat := v.entries.size

def toList (v : Numbered β) : List β := v.entries.toList

def ofList (xs : List β) : Numbered β := ⟨xs.toArray⟩

def replicate (n : Nat) (x : β) : Numbered β := ⟨Array.replicate n x⟩

def ofFn (n : Nat) (f : Nat → β) : Numbered β := ⟨Array.ofFn fun i : Fin n ↦ f (i + 1)⟩

def get? (v : Numbered β) : Nat → Option β
  | 0 => none
  | i + 1 => v.entries[i]?

/-- The value for a number, or the default for a number outside `1, 2, …, n`. -/
def getD (v : Numbered β) (i : Nat) (default : β) : β := (v.get? i).getD default

/-- Changes nothing for a number outside `1, 2, …, n`. -/
def modify (v : Numbered β) (i : Nat) (f : β → β) : Numbered β :=
  match i with
  | 0 => v
  | i + 1 => ⟨v.entries.modify i f⟩

def set (v : Numbered β) (i : Nat) (x : β) : Numbered β := v.modify i fun _ ↦ x

def map (f : β → γ) (v : Numbered β) : Numbered γ := ⟨v.entries.map f⟩

def numbers (v : Numbered β) : List Nat := List.range' 1 v.size

end Numbered

end Juggling
