import Juggling.Scalar

namespace Juggling

/-- One equation `sub * x[i-1] + diag * x[i] + sup * x[i+1] = rhs` of a system that couples every
unknown with its neighbours. The right-hand sides may be vectors. -/
structure Row (α β : Type) where
  sub : α
  diag : α
  sup : α
  rhs : β

namespace Row

variable {α β : Type} [Scalar α]

section

variable [Sub β] [SMul α β]

/-- Eliminates downwards from an equation already reduced to `x + c * x' = d`, where `x'` is the
first unknown of the rows, and substitutes on the way back. -/
def eliminate (c : α) (d : β) : List (Row α β) → List β
  | [] => []
  | r :: rows =>
    let pivot := r.diag - r.sub * c
    let c' := r.sup / pivot
    let d' := (1 / pivot) • (r.rhs - r.sub • d)
    match eliminate c' d' rows with
    | [] => [d']
    | x :: xs => (d' - c' • x) :: x :: xs

/-- Solves the system; the corners `sub` of the first and `sup` of the last row play no part. -/
def solve : List (Row α β) → List β
  | [] => []
  | r :: rows =>
    let c := r.sup / r.diag
    let d := (1 / r.diag) • r.rhs
    match eliminate c d rows with
    | [] => [d]
    | x :: xs => (d - c • x) :: x :: xs

end

/-- The system without its corners, with both ends of the diagonal changed to make up for them. -/
def withoutCorners (gamma corner : α) (rows : List (Row α β)) : List (Row α β) :=
  let last := rows.length - 1
  (rows.modify 0 fun r ↦ { r with diag := r.diag - gamma }).modify last
    fun r ↦ { r with diag := r.diag - corner }

/-- Solves a system of at least three rows whose first row also couples the last unknown (by its
`sub`) and whose last row also couples the first (by its `sup`): the solution without the corners,
corrected by a multiple of the answer to the corners alone. -/
def solveCyclic [Sub β] [SMul α β] [Add β] (first : Row α β) (middle : List (Row α β))
    (last : Row α β) : List β :=
  let beta := first.sub
  let alpha := last.sup
  let gamma := -first.diag
  let plain := withoutCorners gamma (alpha * beta / gamma) (first :: middle ++ [last])
  let n := plain.length
  let x := solve plain
  -- The answer to the corners alone, a number for each unknown.
  let z : List α := solve <| plain.mapIdx fun i r ↦
    { r with rhs := if i = 0 then gamma else if i + 1 = n then alpha else 0 }
  match x.head?, x.getLast?, z.head?, z.getLast? with
  | some x₀, some x₁, some z₀, some z₁ =>
    let fact := (1 / (1 + z₀ + beta * z₁ / gamma)) • (x₀ + (beta / gamma) • x₁)
    x.zipWith (fun x z ↦ x - z • fact) z
  | _, _, _, _ => []

end Row

end Juggling
