import Juggling.Proofs.Exact

namespace Juggling

namespace Exact

def ofSpelling? : Numeral.Spelling → Option ℚ
  | .decimal negative digits place =>
    let size : ℚ := digits * 10 ^ place
    some (if negative then -size else size)
  | .infinite _ | .undefined _ => none

/-- A fraction with so many places after the point, rounded down in size. -/
def fixed (places : ℕ) (x : ℚ) : String :=
  let n := x.num.natAbs * 10 ^ places / x.den
  let ds := Nat.toDigits 10 (n % 10 ^ places)
  let fraction := List.replicate (places - ds.length) '0' ++ ds
  let point := if places = 0 then [] else '.' :: fraction
  String.ofList ((if x < 0 then ['-'] else []) ++ Nat.toDigits 10 (n / 10 ^ places) ++ point)

/-- Fractions in decimal notation. A denominator that does not go into `10 ^ den` goes into no
power of ten, and such a fraction is cut off. -/
instance : Numeral ℚ where
  read? s := (Numeral.spelling? s.toList).bind ofSpelling?
  write x :=
    fixed (((List.range x.den).find? fun places ↦ 10 ^ places % x.den == 0).getD x.den) x
  writeFixed := fixed

/-- A number with so many places after the point, rounded down in size. -/
noncomputable def cut (places : ℕ) (x : ℝ) : ℚ :=
  let scale := 10 ^ places
  (if x < 0 then -⌊-x * (scale : ℕ)⌋ else ⌊x * (scale : ℕ)⌋) / scale

open Classical in
/-- Real numbers in decimal notation. One that is no fraction is cut off. -/
noncomputable instance : Numeral ℝ where
  read? s := (Numeral.read? s : Option ℚ).map (↑)
  write x := if h : ∃ q : ℚ, q = x then Numeral.write h.choose else fixed 17 (cut 17 x)
  writeFixed places x := fixed places (cut places x)

end Exact

end Juggling
