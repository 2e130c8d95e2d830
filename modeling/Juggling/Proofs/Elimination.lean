import Mathlib.Algebra.Module.Basic
import Mathlib.Tactic.Module
import Juggling.Proofs.Interpolation

namespace Juggling.Row

variable {α β : Type} [Exact α] [AddCommGroup β] [Module α β]

/-- Vectors that satisfy equations, next to one vector before them and one after them. -/
def Satisfies (before after : β) : List (Row α β) → List β → Prop
  | [], [] => True
  | r :: rows, x :: xs =>
    r.sub • before + r.diag • x + r.sup • xs.head?.getD after = r.rhs ∧ Satisfies x after rows xs
  | _, _ => False

/-- Vectors that satisfy equations around a circle. -/
def SatisfiesAround (rows : List (Row α β)) (xs : List β) : Prop :=
  Satisfies (xs.getLast?.getD 0) (xs.head?.getD 0) rows xs

variable {rows : List (Row α β)} {xs : List β} {a b : β}

theorem Satisfies.length_eq (h : Satisfies b a rows xs) : rows.length = xs.length := by
  induction rows generalizing b xs with
  | nil =>
    cases xs with
    | nil => rfl
    | cons x xs => exact h.elim
  | cons r rows ih =>
    cases xs with
    | nil => exact h.elim
    | cons x xs => exact congrArg (· + 1) (ih h.2)

theorem substitute_eq (c : α) (d : β) (xs : List β) :
    substitute c d xs = (d - c • xs.head?.getD 0) :: xs := by
  cases xs with
  | nil => simp [substitute]
  | cons x xs => rfl

/-- An equation determines its unknown by the one after it, once the one before it is known by
that unknown. -/
theorem equation_iff {r : Row α β} {c : α} (hpivot : r.diag - r.sub * c ≠ 0) (d x y : β) :
    r.sub • (d - c • x) + r.diag • x + r.sup • y = r.rhs ↔
      x = (1 / (r.diag - r.sub * c)) • (r.rhs - r.sub • d) -
        (r.sup / (r.diag - r.sub * c)) • y := by
  have hleft : r.sub • (d - c • x) + r.diag • x + r.sup • y =
      (r.diag - r.sub * c) • x + r.sub • d + r.sup • y := by module
  have hright : (1 / (r.diag - r.sub * c)) • (r.rhs - r.sub • d) -
      (r.sup / (r.diag - r.sub * c)) • y =
      (r.diag - r.sub * c)⁻¹ • (r.rhs - r.sub • d - r.sup • y) := by module
  rw [hleft, hright, eq_inv_smul_iff₀ hpivot, eq_sub_iff_add_eq, eq_sub_iff_add_eq]
  rw [add_right_comm]

/-- Elimination finds the one list of unknowns that goes on from the one before them. -/
theorem satisfies_eliminate_iff {c : α} {d : β} (hrows : Regular c rows) :
    Satisfies (d - c • xs.head?.getD 0) 0 rows xs ↔ xs = eliminate c d rows := by
  induction rows generalizing c d xs with
  | nil => cases xs <;> simp [Satisfies, eliminate]
  | cons r rows ih =>
    obtain ⟨hpivot, hrest⟩ := hrows
    simp only [Scalar.ofNat_eq, Nat.cast_zero] at hpivot
    rw [eliminate_cons, substitute_eq]
    cases xs with
    | nil => simp [Satisfies]
    | cons x xs =>
      rw [Satisfies, List.head?_cons, Option.getD_some, equation_iff hpivot, List.cons.injEq]
      simp only [Scalar.ofNat_eq, Nat.cast_one]
      specialize @ih xs _ ((1 / (r.diag - r.sub * c)) • (r.rhs - r.sub • d)) hrest
      constructor
      · rintro ⟨rfl, hxs⟩
        have := ih.mp hxs
        exact ⟨congrArg (fun xs : List β ↦ _ - _ • xs.head?.getD 0) this, this⟩
      · rintro ⟨rfl, hxs⟩
        rw [← hxs]
        exact ⟨rfl, ih.mpr hxs⟩

theorem satisfies_solve_iff (hrows : Solvable rows) :
    Satisfies 0 0 rows xs ↔ xs = solve rows := by
  cases rows with
  | nil => cases xs <;> simp [Satisfies, solve]
  | cons r rows =>
    obtain ⟨hdiag, hrest⟩ := hrows
    have hpivot : r.diag - r.sub * 0 = r.diag := by ring
    have hregular : Regular 0 (r :: rows) := ⟨hpivot.symm ▸ hdiag, by rwa [hpivot]⟩
    have hsolve : solve (r :: rows) = eliminate 0 (0 : β) (r :: rows) := by
      rw [solve_cons, eliminate_cons, hpivot, smul_zero, sub_zero]
    have : _ ↔ xs = _ := satisfies_eliminate_iff (d := (0 : β)) hregular
    rwa [zero_smul, sub_zero, ← hsolve] at this

theorem satisfies_concat {last : Row α β} {x : β} : Satisfies b a (rows ++ [last]) (xs ++ [x]) ↔
    Satisfies b x rows xs ∧
      last.sub • xs.getLast?.getD b + last.diag • x + last.sup • a = last.rhs := by
  induction rows generalizing b xs with
  | nil =>
    cases xs with
    | nil => simp [Satisfies]
    | cons y xs => cases xs <;> simp [Satisfies]
  | cons r rows ih =>
    cases xs with
    | nil => cases rows <;> simp [Satisfies]
    | cons y xs =>
      have hhead : (xs ++ [x]).head?.getD a = xs.head?.getD x := by cases xs <;> rfl
      have hlast : (y :: xs).getLast?.getD b = xs.getLast?.getD y := by simp [List.getLast?_cons]
      simp only [List.cons_append, Satisfies, ih, hhead, hlast, and_assoc]

theorem satisfies_ends {first last : Row α β} {x₀ x₁ : β} :
    Satisfies b a (first :: rows ++ [last]) (x₀ :: xs ++ [x₁]) ↔
      first.sub • b + first.diag • x₀ + first.sup • xs.head?.getD x₁ = first.rhs ∧
        Satisfies x₀ x₁ rows xs ∧
          last.sub • xs.getLast?.getD x₀ + last.diag • x₁ + last.sup • a = last.rhs := by
  have hlast : (x₀ :: xs).getLast?.getD b = xs.getLast?.getD x₀ := by simp [List.getLast?_cons]
  rw [satisfies_concat, hlast, Satisfies, and_assoc]

section Sums

variable {zs : List α} (hlen : xs.length = zs.length) (k : β)

theorem equation_add_smul (r : Row α β) (b' z a' : α) (b x a : β) :
    r.sub • (b + b' • k) + r.diag • (x + z • k) + r.sup • (a + a' • k) =
      r.sub • b + r.diag • x + r.sup • a + (r.sub * b' + r.diag * z + r.sup * a') • k := by
  module

include hlen

theorem head?_add_smul (a : β) (a' : α) :
    (xs.zipWith (fun x z ↦ x + z • k) zs).head?.getD (a + a' • k) =
      xs.head?.getD a + zs.head?.getD a' • k := by
  cases xs <;> cases zs <;> simp at hlen ⊢

theorem getLast?_add_smul (b : β) (b' : α) :
    (xs.zipWith (fun x z ↦ x + z • k) zs).getLast?.getD (b + b' • k) =
      xs.getLast?.getD b + zs.getLast?.getD b' • k := by
  rcases List.eq_nil_or_concat' xs with rfl | ⟨ys, y, rfl⟩ <;>
    rcases List.eq_nil_or_concat' zs with rfl | ⟨ws, w, rfl⟩ <;> simp at hlen ⊢
  rw [List.zipWith_append hlen]
  simp

/-- What solves the equations with nothing on their right-hand sides can be added. -/
theorem satisfies_add_smul {b' a' : α} (hz : Solves b' a' (rows.map homogeneous) zs) :
    Satisfies (b + b' • k) (a + a' • k) rows (xs.zipWith (fun x z ↦ x + z • k) zs) ↔
      Satisfies b a rows xs := by
  induction rows generalizing b b' xs zs with
  | nil => cases zs <;> cases xs <;> simp_all [Satisfies, Solves]
  | cons r rows ih =>
    cases zs with
    | nil => exact hz.elim
    | cons z zs =>
      cases xs with
      | nil => simp at hlen
      | cons x xs =>
        obtain ⟨hz, hzs⟩ := hz
        rw [rhs_homogeneous] at hz
        simp only [homogeneous] at hz
        have hlen := Nat.succ.inj hlen
        rw [List.zipWith_cons_cons, Satisfies, Satisfies, head?_add_smul hlen,
          equation_add_smul k r b' z, hz, zero_smul, add_zero, ih hlen hzs]

end Sums

omit [AddCommGroup β] in
theorem exists_ends {n : ℕ} {xs : List β} (h : xs.length = n + 2) :
    ∃ x₀ ys x₁, xs = x₀ :: ys ++ [x₁] ∧ ys.length = n := by
  cases xs with
  | nil => cases h
  | cons x₀ xs =>
    obtain ⟨ys, x₁, rfl⟩ := (List.eq_nil_or_concat' xs).resolve_left (by rintro rfl; simp at h)
    exact ⟨x₀, ys, x₁, rfl, by simpa using h⟩

omit [AddCommGroup β] in
theorem zipWith_ends {γ δ : Type} (f : β → γ → δ) (x₀ x₁ : β) (z₀ z₁ : γ) {zs : List γ}
    (h : xs.length = zs.length) : (x₀ :: xs ++ [x₁]).zipWith f (z₀ :: zs ++ [z₁]) =
      f x₀ z₀ :: xs.zipWith f zs ++ [f x₁ z₁] := by
  rw [List.cons_append, List.cons_append, List.zipWith_cons_cons, List.zipWith_append h]
  rfl

theorem zipWith_add_eq_iff {ys : List β} {zs : List α} (hx : xs.length = zs.length)
    (hy : ys.length = zs.length) (k : β) :
    xs.zipWith (fun x z ↦ x + z • k) zs = ys ↔ xs = ys.zipWith (fun y z ↦ y - z • k) zs := by
  induction zs generalizing xs ys with
  | nil => cases xs <;> cases ys <;> simp at hx hy ⊢
  | cons z zs ih =>
    cases xs with
    | nil => simp at hx
    | cons x xs =>
      cases ys with
      | nil => simp at hy
      | cons y ys =>
        simp [ih (Nat.succ.inj hx) (Nat.succ.inj hy), eq_sub_iff_add_eq]

/-- What the corners add makes up for the corner of the first equation. -/
theorem first_add_smul {r : Row α β} (hdiag : r.diag ≠ 0) {z z' : α} {x₀ x₁ k : β}
    (hk : k = x₀ + (r.sub / -r.diag) • x₁)
    (hz : (r.diag - -r.diag) * z + r.sup * z' = -r.diag) (x : β) :
    r.sub • (0 : β) + (r.diag - -r.diag) • (x₀ + z • k) + r.sup • (x + z' • k) =
      r.sub • x₁ + r.diag • x₀ + r.sup • x := by
  have hcorner : r.diag * (r.sub / -r.diag) = -r.sub := by field_simp
  have hk' : (-r.diag) • k = r.sub • x₁ - r.diag • x₀ := by
    rw [hk, smul_add, smul_smul, neg_mul, hcorner]
    module
  calc r.sub • (0 : β) + (r.diag - -r.diag) • (x₀ + z • k) + r.sup • (x + z' • k)
      _ = (r.diag - -r.diag) • x₀ + r.sup • x +
          ((r.diag - -r.diag) * z + r.sup * z') • k := by module
      _ = r.sub • x₁ + r.diag • x₀ + r.sup • x := by
        rw [hz, hk']
        module

/-- What the corners add makes up for the corner of the last equation. -/
theorem last_add_smul {r : Row α β} {c d z z' : α} {x₀ x₁ k : β}
    (hk : k = x₀ + (c / d) • x₁)
    (hz : r.sub * z' + (r.diag - r.sup * c / d) * z = r.sup) (x : β) :
    r.sub • (x + z' • k) + (r.diag - r.sup * c / d) • (x₁ + z • k) + r.sup • (0 : β) =
      r.sub • x + r.diag • x₁ + r.sup • x₀ :=
  calc r.sub • (x + z' • k) + (r.diag - r.sup * c / d) • (x₁ + z • k) + r.sup • (0 : β)
      _ = r.sub • x + (r.diag - r.sup * c / d) • x₁ +
          (r.sub * z' + (r.diag - r.sup * c / d) * z) • k := by module
      _ = r.sub • x + r.diag • x₁ + r.sup • x₀ := by
        rw [hz, hk]
        module

/-- What the corners add to an answer tells by how much it was corrected. -/
theorem ends_sub_smul {c d z₀ z₁ : α} {zs : List α} {x₀ x₁ y₀ y₁ f v : β} {ys : List β}
    (hys : ys.length = zs.length) (hf : (1 + z₀ + c * z₁ / d) • f = y₀ + (c / d) • y₁)
    (h : x₀ :: xs ++ [x₁] =
      (y₀ :: ys ++ [y₁]).zipWith (fun y z ↦ y - z • v) (z₀ :: zs ++ [z₁])) :
    x₀ + (c / d) • x₁ = v + (1 + z₀ + c * z₁ / d) • (f - v) := by
  rw [zipWith_ends _ _ _ _ _ hys] at h
  have h₀ : x₀ = y₀ - z₀ • v := by simpa using congrArg List.head? h
  have h₁ : x₁ = y₁ - z₁ • v := by
    simpa only [List.getLast?_concat, Option.some.injEq] using congrArg List.getLast? h
  rw [smul_sub, hf, h₀, h₁]
  module

section Cyclic

variable {first last : Row α β} {middle : List (Row α β)} (hfirst : first.Dominant)
  (hmiddle : ∀ r ∈ middle, r.Dominant) (hlast : last.Dominant)
include hfirst hmiddle hlast

/-- Around a circle vectors satisfy the equations when, with what the corners add, they satisfy
those without the corners. -/
theorem satisfiesAround_iff_plain {z₀ z₁ : α} {zs : List α}
    (hz : solve (cornered first middle last) = z₀ :: zs ++ [z₁]) {x₀ x₁ k : β}
    (hk : k = x₀ + (first.sub / -first.diag) • x₁) (hlen : xs.length = zs.length) :
    SatisfiesAround (first :: middle ++ [last]) (x₀ :: xs ++ [x₁]) ↔
      Satisfies 0 0 (plain first middle last)
        ((x₀ + z₀ • k) :: xs.zipWith (fun x z ↦ x + z • k) zs ++ [x₁ + z₁ • k]) := by
  have hsolves := solves_solve (solvable_cornered hfirst hmiddle hlast)
  rw [hz, cornered, solves_ends] at hsolves
  obtain ⟨hz₀, hzs, hz₁⟩ := hsolves
  simp only [mul_zero, zero_add, add_zero] at hz₀ hz₁
  have hfirst' := first_add_smul (abs_pos.mp hfirst.diag_pos) hk hz₀ (xs.head?.getD x₁)
  have hlast' := last_add_smul hk hz₁ (xs.getLast?.getD x₀)
  rw [SatisfiesAround, List.getLast?_concat, List.cons_append, List.head?_cons, Option.getD_some,
    Option.getD_some, ← List.cons_append, satisfies_ends, plain, satisfies_ends,
    head?_add_smul hlen, getLast?_add_smul hlen, satisfies_add_smul hlen k hzs, hfirst', hlast']

/-- Only the corrected answer satisfies the equations around a circle. -/
theorem satisfiesAround_iff : SatisfiesAround (first :: middle ++ [last]) xs ↔
    xs = solveCyclic first middle last := by
  obtain ⟨z₀, zs, z₁, hz, -, hzs, -, hdet⟩ := exists_cornered hfirst hmiddle hlast
  have hlenz := hzs.length_eq
  rw [List.length_map] at hlenz
  -- Both sides have as many unknowns as there are equations.
  by_cases hlen : xs.length = middle.length + 2
  swap
  · refine iff_of_false (fun h ↦ hlen ?_) fun h ↦ hlen ?_
    · rw [← h.length_eq]
      simp
    · rw [h, length_solveCyclic]
  have hplain : (solve (plain first middle last)).length = middle.length + 2 := by simp [plain]
  obtain ⟨x₀, xs, x₁, rfl, hx⟩ := exists_ends hlen
  obtain ⟨y₀, ys, y₁, hy, hys⟩ := exists_ends hplain
  rw [hlenz] at hx hys
  obtain ⟨f, hf⟩ : ∃ f : β, f = (1 / (1 + z₀ + first.sub * z₁ / -first.diag)) •
      (y₀ + (first.sub / -first.diag) • y₁) := ⟨_, rfl⟩
  obtain ⟨k, hk⟩ : ∃ k : β, k = x₀ + (first.sub / -first.diag) • x₁ := ⟨_, rfl⟩
  have hf' : (1 + z₀ + first.sub * z₁ / -first.diag) • f =
      y₀ + (first.sub / -first.diag) • y₁ := by
    rw [hf, smul_smul, mul_one_div_cancel hdet, one_smul]
  have hcyclic : solveCyclic first middle last =
      (y₀ :: ys ++ [y₁]).zipWith (fun y z ↦ y - z • f) (z₀ :: zs ++ [z₁]) := by
    rw [solveCyclic_eq_correct, hy, hz, correct_ends, hf]
    simp only [Scalar.ofNat_eq, Nat.cast_one]
  have hends (v : β) : (x₀ :: xs ++ [x₁]).zipWith (fun x z ↦ x + z • v) (z₀ :: zs ++ [z₁]) =
      y₀ :: ys ++ [y₁] ↔
      x₀ :: xs ++ [x₁] = (y₀ :: ys ++ [y₁]).zipWith (fun y z ↦ y - z • v) (z₀ :: zs ++ [z₁]) :=
    zipWith_add_eq_iff (by simp [hx]) (by simp [hys]) v
  rw [satisfiesAround_iff_plain hfirst hmiddle hlast hz hk hx,
    satisfies_solve_iff (solvable_plain hfirst hmiddle hlast), hy, hcyclic,
    ← zipWith_ends (fun x z ↦ x + z • k) _ _ _ _ hx]
  -- Either way `k` is `f`.
  constructor
  · intro h
    have hkf := hk.trans (ends_sub_smul hys hf' ((hends k).mp h))
    rw [left_eq_add, smul_eq_zero_iff_right hdet, sub_eq_zero] at hkf
    rw [hkf]
    exact (hends k).mp h
  · intro h
    have hkf := hk.trans (ends_sub_smul hys hf' h)
    rw [sub_self, smul_zero, add_zero] at hkf
    rw [hkf]
    exact (hends f).mpr h

end Cyclic

/-- Every diagonal outweighs the rest of its row. The corners play no part. -/
def Outweighs (rows : List (Row α β)) : Prop :=
  ∀ i (h : i < rows.length), (if i = 0 then 0 else |rows[i].sub|) +
    (if i + 1 = rows.length then 0 else |rows[i].sup|) < |rows[i].diag|

omit [AddCommGroup β] [Module α β] in
theorem Outweighs.solvable (h : Outweighs rows) : Solvable rows := by
  cases rows with
  | nil => trivial
  | cons first rows =>
    have hfirst := h 0 (Nat.succ_pos _)
    rcases List.eq_nil_or_concat' rows with rfl | ⟨rows, last, rfl⟩
    · refine ⟨?_, trivial⟩
      simpa using hfirst
    · refine solvable_of_dominant (by simpa using hfirst) (fun r hr ↦ ?_) ?_
      · obtain ⟨i, hi, rfl⟩ := List.mem_iff_getElem.mp hr
        have hne : i ≠ rows.length := hi.ne
        have hrow := h (i + 1) (by simp; omega)
        simp only [List.getElem_cons_succ, List.getElem_append_left hi] at hrow
        rw [Dominant]
        simpa [hne] using hrow
      · simpa using h (rows.length + 1) (by simp)

section Checked

-- Vectors remember a division by zero as numbers do.
local instance : Sub (Checked β) := ⟨Checked.bind₂ fun x y ↦ .defined (x - y)⟩

local instance : Add (Checked β) := ⟨Checked.bind₂ fun x y ↦ .defined (x + y)⟩

local instance : SMul (Checked α) (Checked β) :=
  ⟨fun
    | .defined k, .defined x => .defined (k • x)
    | _, _ => .undefined⟩

def checked (r : Row α β) : Row (Checked α) (Checked β) := r.map .defined .defined

theorem carries_defined :
    Carries (Checked.defined : α → Checked α) (Checked.defined : β → Checked β) :=
  ⟨fun _ _ ↦ rfl, fun _ _ ↦ rfl, fun _ _ ↦ rfl⟩

-- Places and velocities are vectors over the numbers of their components.
local instance : AddCommGroup (Coordinate α) where
  add_assoc a b c := Coordinate.ext_along fun i ↦ by simp [add_assoc]
  zero_add a := Coordinate.ext_along fun i ↦ by simp [Coordinate.along_zero]
  add_zero a := Coordinate.ext_along fun i ↦ by simp [Coordinate.along_zero]
  add_comm a b := Coordinate.ext_along fun i ↦ by simp [add_comm]
  sub_eq_add_neg a b := Coordinate.ext_along fun i ↦ by cases i <;> exact sub_eq_add_neg _ _
  neg_add_cancel a := Coordinate.ext_along fun i ↦ by
    cases i <;> exact (neg_add_cancel _).trans Int.cast_zero.symm
  nsmul := nsmulRec
  zsmul := zsmulRec

local instance : Module α (Coordinate α) where
  one_smul a := Coordinate.ext_along fun i ↦ by simp
  mul_smul k l a := Coordinate.ext_along fun i ↦ by simp [mul_assoc]
  smul_zero k := Coordinate.ext_along fun i ↦ by simp [Coordinate.along_zero]
  smul_add k a b := Coordinate.ext_along fun i ↦ by simp [mul_add]
  add_smul k l a := Coordinate.ext_along fun i ↦ by simp [add_mul]
  zero_smul a := Coordinate.ext_along fun i ↦ by simp [Coordinate.along_zero]

/-- Systems whose diagonals outweigh the rest of their rows are solved without a division by zero,
and the answer is the only one. Around a circle the corners count like all else. -/
theorem solvers_exact :
    (∀ rows : List (Row α β), Outweighs rows →
      solve (rows.map checked) = (solve rows).map .defined ∧
        ∀ xs, Satisfies 0 0 rows xs ↔ xs = solve rows) ∧
    ∀ (first : Row α β) (middle : List (Row α β)) (last : Row α β),
      (∀ r ∈ first :: middle ++ [last], r.Dominant) →
        solveCyclic first.checked (middle.map checked) last.checked =
          (solveCyclic first middle last).map .defined ∧
        ∀ xs, SatisfiesAround (first :: middle ++ [last]) xs ↔
          xs = solveCyclic first middle last := by
  refine ⟨fun rows hrows ↦ ⟨solve_map Checked.follows_defined carries_defined hrows.solvable,
    fun xs ↦ satisfies_solve_iff hrows.solvable⟩, fun first middle last hrows ↦ ?_⟩
  obtain ⟨hfirst, hrows⟩ := List.forall_mem_cons.mp hrows
  obtain ⟨hmiddle, hlast⟩ := List.forall_mem_append.mp hrows
  have hlast := hlast last (List.mem_singleton_self last)
  exact ⟨solveCyclic_map Checked.follows_defined carries_defined
    (solvableCyclic_of_dominant hfirst hmiddle hlast),
    fun xs ↦ satisfiesAround_iff hfirst hmiddle hlast⟩

/-- A chain of three equations, with numbers at its ends that couple nothing. -/
def chain : List (Row ℚ ℚ) := [⟨5, 4, 1, 6⟩, ⟨1, 4, 1, 12⟩, ⟨-1, 3, 7, 7⟩]

/-- Three equations for places around a circle, with corners of either sign. -/
def circle : Fin 3 → Row ℚ (Coordinate ℚ) :=
  ![⟨-1, 4, 1, ⟨4, 1, -1⟩⟩, ⟨1, -4, 2, ⟨1, -4, 2⟩⟩, ⟨1, 5, 3, ⟨3, 1, 5⟩⟩]

theorem solvers_exact_small : Outweighs chain ∧
    (∀ xs, Satisfies 0 0 chain xs ↔ xs = [1, 2, 3]) ∧
    (∀ r ∈ circle 0 :: [circle 1] ++ [circle 2], r.Dominant) ∧
    ∀ xs, SatisfiesAround (circle 0 :: [circle 1] ++ [circle 2]) xs ↔
      xs = [⟨1, 0, 0⟩, ⟨0, 1, 0⟩, ⟨0, 0, 1⟩] := by
  have hchain : Outweighs chain := by unfold Outweighs; decide +kernel
  have hcircle : ∀ r ∈ circle 0 :: [circle 1] ++ [circle 2], r.Dominant := by
    unfold Dominant; decide +kernel
  refine ⟨hchain, fun xs ↦ ?_, hcircle, fun xs ↦ ?_⟩
  · have hsolve : solve chain = [1, 2, 3] := by decide +kernel
    rw [← hsolve]
    exact (solvers_exact.1 chain hchain).2 xs
  · have hsolve : solveCyclic (circle 0) [circle 1] (circle 2) =
        [⟨1, 0, 0⟩, ⟨0, 1, 0⟩, ⟨0, 0, 1⟩] := by decide +kernel
    rw [← hsolve]
    exact (solvers_exact.2 _ _ _ hcircle).2 xs

end Checked

end Juggling.Row
