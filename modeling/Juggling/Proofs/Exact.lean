import Mathlib.Algebra.Order.Floor.Ring
import Mathlib.Analysis.SpecialFunctions.Trigonometric.Basic
import Mathlib.Data.Rat.Floor
import Mathlib.Analysis.Real.Sqrt
import Mathlib.Tactic.Linarith
import Mathlib.Tactic.NormNum
import Mathlib.Tactic.FieldSimp
import Mathlib.Tactic.Positivity
import Mathlib.Tactic.Ring
import Juggling.Layout.Query

namespace Juggling

/-- Exact numbers: an ordered field in which whole parts can be taken. Of the functions that may
lead out of such a field only this is asked: a root is never below the true one. -/
class Exact (α : Type) extends Field α, LinearOrder α, IsStrictOrderedRing α, FloorRing α where
  root : α → α
  lt_root {x y : α} : x * x < y → x < root y
  sine : α → α
  cosine : α → α
  halfTurn : α

namespace Exact

instance {α : Type} [Exact α] : Scalar α where
  add := (· + ·)
  sub := (· - ·)
  mul := (· * ·)
  div := (· / ·)
  neg := (- ·)
  lt := (· < ·)
  le := (· ≤ ·)
  beq x y := decide (x = y)
  ofInt n := n
  ofDecimal m below e := if below then m / 10 ^ e else m * 10 ^ e
  decLt := inferInstance
  decLe := inferInstance
  precedes x y := decide (x ≤ y)
  floorInt := Int.floor
  remainder x y := x - |y| * ⌊x / |y|⌋
  sqrt := root
  sin := sine
  cos := cosine
  pi := halfTurn

noncomputable instance : Exact ℝ where
  root := Real.sqrt
  lt_root h := Real.lt_sqrt_of_sq_lt (by rwa [sq])
  sine := Real.sin
  cosine := Real.cos
  halfTurn := Real.pi

/-- The root of a fraction, rounded up where it is no fraction. -/
def fractionRoot (y : ℚ) : ℚ :=
  let n := y.num.toNat * y.den
  if n.sqrt * n.sqrt = n then n.sqrt / y.den else (n.sqrt + 1) / y.den

theorem lt_fractionRoot {x y : ℚ} (h : x * x < y) : x < fractionRoot y := by
  have hy : 0 < y := lt_of_le_of_lt (mul_self_nonneg x) h
  have hd : (0 : ℚ) < y.den := by exact_mod_cast y.den_pos
  have hn : ((y.num.toNat : ℕ) : ℚ) = y * y.den := by
    have hnum : ((y.num.toNat : ℕ) : ℤ) = y.num := Int.toNat_of_nonneg (Rat.num_pos.mpr hy).le
    rw [Rat.mul_den_eq_num]
    exact_mod_cast hnum
  -- Both cases compare `x * den` with a whole number by their squares.
  have hsq : (x * y.den) * (x * y.den) < ((y.num.toNat * y.den : ℕ) : ℚ) := by
    push_cast
    rw [hn]
    nlinarith [mul_pos hd hd]
  simp only [fractionRoot]
  split
  · rename_i he
    rw [lt_div_iff₀ hd]
    have he' : (((y.num.toNat * y.den).sqrt : ℕ) : ℚ) * ((y.num.toNat * y.den).sqrt : ℕ) =
        ((y.num.toNat * y.den : ℕ) : ℚ) := by exact_mod_cast he
    rw [← he'] at hsq
    exact lt_of_mul_self_lt_mul_self₀ (by positivity) hsq
  · rw [lt_div_iff₀ hd]
    have hup : ((y.num.toNat * y.den : ℕ) : ℚ) <
        (((y.num.toNat * y.den).sqrt : ℚ) + 1) * (((y.num.toNat * y.den).sqrt : ℚ) + 1) := by
      exact_mod_cast Nat.lt_succ_sqrt (y.num.toNat * y.den)
    exact lt_of_mul_self_lt_mul_self₀ (by positivity) (hsq.trans hup)

/-- Fractions, with the first terms of their series for sine and cosine. -/
instance : Exact ℚ where
  root := fractionRoot
  lt_root := lt_fractionRoot
  sine x := x - x * x * x / 6
  cosine x := 1 - x * x / 2
  halfTurn := 355 / 113

end Exact

namespace Scalar

variable {α : Type} [Exact α]

@[simp] theorem ofNat_eq (n : ℕ) : @OfNat.ofNat α n (Scalar.instOfNat n) = (n : α) := by
  show ((n : ℤ) : α) = n
  simp

@[simp] theorem ofInt_eq (n : ℤ) : (Scalar.ofInt n : α) = n := rfl

@[simp] theorem beq_iff (x y : α) : (Scalar.instBEq.beq x y) = true ↔ x = y := decide_eq_true_iff

@[simp] theorem precedes_iff (x y : α) : Scalar.precedes x y = true ↔ x ≤ y :=
  decide_eq_true_iff

@[simp] theorem floorInt_eq (x : α) : Scalar.floorInt x = ⌊x⌋ := rfl

theorem remainder_eq (x y : α) : Scalar.remainder x y = x - |y| * ⌊x / |y|⌋ := rfl

@[simp] theorem abs_eq (x : α) : Scalar.abs x = |x| := by
  unfold Scalar.abs
  split
  · rename_i h
    simp only [ofNat_eq, Nat.cast_zero] at h
    exact (abs_of_neg h).symm
  · rename_i h
    simp only [ofNat_eq, Nat.cast_zero] at h
    exact (abs_of_nonneg (not_lt.mp h)).symm

@[simp] theorem isDefined_eq (x : α) : Scalar.isDefined x = true := by simp [Scalar.isDefined]

@[simp] theorem isFinite_eq (x : α) : Scalar.isFinite x = true := by simp [Scalar.isFinite]

@[simp] theorem larger_eq (x y : α) : Scalar.larger x y = max x y := by
  unfold Scalar.larger
  split
  · rename_i h
    exact (max_eq_right h.le).symm
  · rename_i h
    simp [max_eq_left (not_lt.mp h)]

@[simp] theorem smaller_eq (x y : α) : Scalar.smaller x y = min x y := by
  unfold Scalar.smaller
  split
  · rename_i h
    exact (min_eq_right h.le).symm
  · rename_i h
    simp [min_eq_left (not_lt.mp h)]

theorem remainder_nonneg (x : α) {y : α} (hy : 0 < y) : 0 ≤ Scalar.remainder x y := by
  rw [remainder_eq, abs_of_pos hy, mul_comm]
  exact Int.sub_floor_div_mul_nonneg x hy

theorem remainder_lt (x : α) {y : α} (hy : 0 < y) : Scalar.remainder x y < y := by
  rw [remainder_eq, abs_of_pos hy, mul_comm]
  exact Int.sub_floor_div_mul_lt x hy

theorem remainder_add (x : α) {y : α} (hy : 0 < y) :
    Scalar.remainder (x + y) y = Scalar.remainder x y := by
  rw [remainder_eq, remainder_eq, abs_of_pos hy, add_div, div_self hy.ne', Int.floor_add_one]
  push_cast
  ring

theorem remainder_of_mem {x y : α} (hx : 0 ≤ x) (hxy : x < y) : Scalar.remainder x y = x := by
  have hy : 0 < y := hx.trans_lt hxy
  have hf : ⌊x / y⌋ = 0 := Int.floor_eq_zero_iff.mpr ⟨div_nonneg hx hy.le, (div_lt_one hy).mpr hxy⟩
  rw [remainder_eq, abs_of_pos hy, hf]
  simp

end Scalar

theorem period_unique {α : Type} [Exact α] {period a b : α} {m n : ℤ} (ha : 0 ≤ a)
    (ha' : a < period) (hb : 0 ≤ b) (hb' : b < period) (h : a + m * period = b + n * period) :
    m = n ∧ a = b := by
  have key {a b : α} {m n : ℤ} (ha : 0 ≤ a) (hb' : b < period)
      (h : a + m * period = b + n * period) : m ≤ n := by
    by_contra hlt
    have hle : (n : α) + 1 ≤ m := by exact_mod_cast not_le.mp hlt
    nlinarith
  obtain rfl : m = n := le_antisymm (key ha hb' h) (key hb ha' h.symm)
  exact ⟨rfl, by linarith⟩

theorem timeTolerance_eq {α : Type} [Exact α] : (timeTolerance : α) = 1 / 10 ^ 9 := by
  unfold timeTolerance
  simp only [OfScientific.ofScientific, Scalar.ofDecimal]
  simp

theorem timeTolerance_pos {α : Type} [Exact α] : (0 : α) < timeTolerance := by
  rw [timeTolerance_eq]
  positivity

end Juggling
