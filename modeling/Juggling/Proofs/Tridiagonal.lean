import Juggling.Proofs.Stretch

namespace Juggling.Row

variable {α β α' β' : Type}

section Map

variable [Scalar α] [Scalar α'] {σ : α → α'} {f : β → β'}

/-- Numbers taken for others that calculate alike as long as nothing is divided by zero. -/
structure Follows (σ : α → α') : Prop where
  number : ∀ n : ℕ, σ (@OfNat.ofNat α n (Scalar.instOfNat n)) =
    @OfNat.ofNat α' n (Scalar.instOfNat n)
  add : ∀ x y, σ (x + y) = σ x + σ y
  sub : ∀ x y, σ (x - y) = σ x - σ y
  mul : ∀ x y, σ (x * y) = σ x * σ y
  neg : ∀ x, σ (-x) = -σ x
  div : ∀ x y, y ≠ 0 → σ (x / y) = σ x / σ y

/-- Vectors taken for others along with their numbers. -/
structure Carries [Sub β] [Add β] [SMul α β] [Sub β'] [Add β'] [SMul α' β'] (σ : α → α')
    (f : β → β') : Prop where
  add : ∀ a b, f (a + b) = f a + f b
  sub : ∀ a b, f (a - b) = f a - f b
  smul : ∀ (k : α) a, f (k • a) = σ k • f a

def map (σ : α → α') (f : β → β') (r : Row α β) : Row α' β' :=
  ⟨σ r.sub, σ r.diag, σ r.sup, f r.rhs⟩

/-- No pivot is zero when rows are eliminated downwards. -/
def Regular (c : α) : List (Row α β) → Prop
  | [] => True
  | r :: rows => r.diag - r.sub * c ≠ 0 ∧ Regular (r.sup / (r.diag - r.sub * c)) rows

/-- No pivot is zero when a system is solved. -/
def Solvable : List (Row α β) → Prop
  | [] => True
  | r :: rows => r.diag ≠ 0 ∧ Regular (r.sup / r.diag) rows

theorem Follows.zero (h : Follows σ) : σ 0 = 0 := h.number 0

theorem Follows.one (h : Follows σ) : σ 1 = 1 := h.number 1

theorem Follows.carries (h : Follows σ) : Carries σ σ := ⟨h.add, h.sub, h.mul⟩

variable [Sub β] [Add β] [SMul α β] [Sub β'] [Add β'] [SMul α' β']

omit [Scalar α] [Scalar α'] in
theorem substitute_map (hf : Carries σ f) (c : α) (d : β) (xs : List β) :
    substitute (σ c) (f d) (xs.map f) = (substitute c d xs).map f := by
  cases xs with
  | nil => rfl
  | cons x xs => simp only [substitute, List.map_cons, hf.sub, hf.smul]

variable (hσ : Follows σ) (hf : Carries σ f)
include hσ hf

theorem eliminate_map {c : α} (d : β) {rows : List (Row α β)} (hrows : Regular c rows) :
    eliminate (σ c) (f d) (rows.map (map σ f)) = (eliminate c d rows).map f := by
  induction rows generalizing c d with
  | nil => rfl
  | cons r rows ih =>
    obtain ⟨hpivot, hrest⟩ := hrows
    simp only [List.map_cons, eliminate_cons, map, ← hσ.one, ← hσ.mul, ← hσ.sub,
      ← hσ.div _ _ hpivot, ← hf.smul, ← hf.sub]
    rw [ih _ hrest, substitute_map hf]

theorem solve_map {rows : List (Row α β)} (hrows : Solvable rows) :
    solve (rows.map (map σ f)) = (solve rows).map f := by
  cases rows with
  | nil => rfl
  | cons r rows =>
    obtain ⟨hpivot, hrest⟩ := hrows
    simp only [List.map_cons, solve_cons, map, ← hσ.one, ← hσ.div _ _ hpivot, ← hf.smul]
    rw [eliminate_map hσ hf _ hrest, substitute_map hf]

theorem correct_map {beta gamma : α} {x : List β} {z : List α} (hgamma : gamma ≠ 0)
    (hdet : ∀ z₀ z₁, z.head? = some z₀ → z.getLast? = some z₁ → 1 + z₀ + beta * z₁ / gamma ≠ 0) :
    correct (σ beta) (σ gamma) (x.map f) (z.map σ) = (correct beta gamma x z).map f := by
  unfold correct
  rw [List.head?_map, List.getLast?_map, List.head?_map, List.getLast?_map]
  cases x.head? with
  | none => rfl
  | some x₀ =>
    cases x.getLast? with
    | none => rfl
    | some x₁ =>
      cases hz₀ : z.head? with
      | none => rfl
      | some z₀ =>
        cases hz₁ : z.getLast? with
        | none => rfl
        | some z₁ =>
          have hdet := hdet z₀ z₁ hz₀ hz₁
          simp only [Option.map_some, ← hσ.one, ← hσ.mul, ← hσ.add, ← hσ.div _ _ hgamma,
            ← hσ.div _ _ hdet, ← hf.smul, ← hf.add, List.zipWith_map, List.map_zipWith, hf.sub]

end Map

section Corners

variable [Scalar α] (first : Row α β) (middle : List (Row α β)) (last : Row α β)

omit [Scalar α] in
theorem modify_concat {γ : Type} (f : γ → γ) (xs : List γ) (x : γ) :
    (xs ++ [x]).modify xs.length f = xs ++ [f x] := by
  induction xs with
  | nil => rfl
  | cons y xs ih => simp [ih]

/-- A cyclic system without its corners. -/
def plain : List (Row α β) :=
  { first with diag := first.diag - -first.diag } :: middle ++
    [{ last with diag := last.diag - last.sup * first.sub / -first.diag }]

/-- The equation with nothing on its right-hand side. -/
def homogeneous (r : Row α β) : Row α α := { r with rhs := 0 }

/-- The corners alone, as a system of their own. -/
def cornered : List (Row α α) :=
  { first with diag := first.diag - -first.diag, rhs := -first.diag } ::
    middle.map homogeneous ++
    [{ last with diag := last.diag - last.sup * first.sub / -first.diag, rhs := last.sup }]

theorem correct_ends [Sub β] [Add β] [SMul α β] (beta gamma : α) (x₀ x₁ : β) (xs : List β)
    (z₀ z₁ : α) (zs : List α) : correct beta gamma (x₀ :: xs ++ [x₁]) (z₀ :: zs ++ [z₁]) =
      (x₀ :: xs ++ [x₁]).zipWith (fun x z ↦ x - z • (1 / (1 + z₀ + beta * z₁ / gamma)) •
        (x₀ + (beta / gamma) • x₁)) (z₀ :: zs ++ [z₁]) := by
  rw [correct, List.getLast?_concat, List.getLast?_concat]
  rfl

theorem solveCyclic_eq_correct [Sub β] [Add β] [SMul α β] : solveCyclic first middle last =
    correct first.sub (-first.diag) (solve (plain first middle last))
      (solve (cornered first middle last)) := by
  have hplain : withoutCorners (-first.diag) (last.sup * first.sub / -first.diag)
      (first :: middle ++ [last]) = plain first middle last := by
    simp [withoutCorners, plain, modify_concat]
  have hcornered : corners (-first.diag) last.sup (plain first middle last) =
      cornered first middle last := by
    rw [corners, List.mapIdx_eq_iff]
    intro i
    rcases i with _ | i
    · rfl
    simp only [plain, cornered, List.cons_append, List.getElem?_cons_succ]
    rcases lt_trichotomy i middle.length with hi | rfl | hi
    · simp [List.getElem?_append_left, hi, hi.ne, homogeneous]
    · simp
    · rw [List.getElem?_eq_none (by simp; omega), List.getElem?_eq_none (by simp; omega)]
      rfl
  rw [solveCyclic_eq]
  simp only [hplain, hcornered]

/-- Nothing is divided by zero when a cyclic system is solved. -/
structure SolvableCyclic : Prop where
  diag : -first.diag ≠ 0
  without_corners : Solvable (plain first middle last)
  with_corners : Solvable (cornered first middle last)
  correction : ∀ z₀ z₁, (solve (cornered first middle last)).head? = some z₀ →
    (solve (cornered first middle last)).getLast? = some z₁ →
      1 + z₀ + first.sub * z₁ / -first.diag ≠ 0

theorem solveCyclic_map [Scalar α'] {σ : α → α'} {f : β → β'} [Sub β] [Add β] [SMul α β] [Sub β']
    [Add β'] [SMul α' β'] (hσ : Follows σ) (hf : Carries σ f) {first : Row α β}
    {middle : List (Row α β)} {last : Row α β} (h : SolvableCyclic first middle last) :
    solveCyclic (first.map σ f) (middle.map (map σ f)) (last.map σ f) =
      (solveCyclic first middle last).map f := by
  have hplain : plain (first.map σ f) (middle.map (map σ f)) (last.map σ f) =
      (plain first middle last).map (map σ f) := by
    simp only [plain, map, List.map_append, List.map_cons, List.map_nil, ← hσ.neg, ← hσ.sub,
      ← hσ.mul, ← hσ.div _ _ h.diag]
  have hcornered : cornered (first.map σ f) (middle.map (map σ f)) (last.map σ f) =
      (cornered first middle last).map (map σ σ) := by
    simp only [cornered, map, List.map_append, List.map_cons, List.map_nil, List.map_map,
      ← hσ.neg, ← hσ.sub, ← hσ.mul, ← hσ.div _ _ h.diag, Function.comp_def, homogeneous, hσ.zero]
  rw [solveCyclic_eq_correct, solveCyclic_eq_correct, hplain, hcornered,
    solve_map hσ hf h.without_corners, solve_map hσ hσ.carries h.with_corners]
  simp only [map, ← hσ.neg]
  exact correct_map hσ hf h.diag h.correction

end Corners

section Exact

variable [Exact α]

/-- Its diagonal outweighs the rest of the row. -/
def Dominant (r : Row α β) : Prop := |r.sub| + |r.sup| < |r.diag|

theorem regular_of_dominant {rows : List (Row α β)} (hrows : ∀ r ∈ rows, r.Dominant)
    {last : Row α β} (hlast : |last.sub| < |last.diag|) {c : α} (hc : |c| ≤ 1) :
    Regular c (rows ++ [last]) := by
  have hpivot {r : Row α β} {c : α} (hc : |c| ≤ 1) : |r.diag| - |r.sub| ≤ |r.diag - r.sub * c| := by
    have hprod : |r.sub * c| ≤ |r.sub| := by
      rw [abs_mul]
      exact mul_le_of_le_one_right (abs_nonneg _) hc
    have := abs_sub_abs_le_abs_sub r.diag (r.sub * c)
    linarith
  induction rows generalizing c with
  | nil =>
    refine ⟨?_, trivial⟩
    simp only [Scalar.ofNat_eq, Nat.cast_zero]
    exact abs_pos.mp (by linarith [hpivot (r := last) hc])
  | cons r rows ih =>
    obtain ⟨hr, hrows⟩ := List.forall_mem_cons.mp hrows
    have hsup : |r.sup| < |r.diag - r.sub * c| := by
      rw [Dominant] at hr
      linarith [hpivot (r := r) hc]
    have hpos : 0 < |r.diag - r.sub * c| := (abs_nonneg _).trans_lt hsup
    refine ⟨?_, ih hrows ?_⟩
    · simp only [Scalar.ofNat_eq, Nat.cast_zero]
      exact abs_pos.mp hpos
    · rw [abs_div, div_le_one hpos]
      exact hsup.le

theorem Dominant.diag_pos {r : Row α β} (h : r.Dominant) : 0 < |r.diag| :=
  lt_of_le_of_lt (add_nonneg (abs_nonneg _) (abs_nonneg _)) h

/-- A system with a dominant diagonal is solved without a division by zero. -/
theorem solvable_of_dominant {first : Row α β} (hfirst : |first.sup| < |first.diag|)
    {rows : List (Row α β)} (hrows : ∀ r ∈ rows, r.Dominant) {last : Row α β}
    (hlast : |last.sub| < |last.diag|) : Solvable (first :: rows ++ [last]) := by
  have hpos : 0 < |first.diag| := (abs_nonneg _).trans_lt hfirst
  refine ⟨?_, regular_of_dominant hrows hlast ?_⟩
  · simp only [Scalar.ofNat_eq, Nat.cast_zero]
    exact abs_pos.mp hpos
  · rw [abs_div, div_le_one hpos]
    exact hfirst.le

/-- Numbers that solve equations, next to one number before them and one after them. -/
def Solves (before after : α) : List (Row α α) → List α → Prop
  | [], [] => True
  | r :: rows, x :: xs =>
    r.sub * before + r.diag * x + r.sup * xs.head?.getD after = r.rhs ∧ Solves x after rows xs
  | _, _ => False

variable {a b : α} {rows : List (Row α α)} {xs : List α}

theorem Solves.length_eq (h : Solves b a rows xs) : rows.length = xs.length := by
  induction rows generalizing b xs with
  | nil =>
    cases xs with
    | nil => rfl
    | cons x xs => exact h.elim
  | cons r rows ih =>
    cases xs with
    | nil => exact h.elim
    | cons x xs => exact congrArg (· + 1) (ih h.2)

theorem solves_concat {last : Row α α} {x : α} : Solves b a (rows ++ [last]) (xs ++ [x]) ↔
    Solves b x rows xs ∧
      last.sub * xs.getLast?.getD b + last.diag * x + last.sup * a = last.rhs := by
  induction rows generalizing b xs with
  | nil =>
    cases xs with
    | nil => simp [Solves]
    | cons y xs => cases xs <;> simp [Solves]
  | cons r rows ih =>
    cases xs with
    | nil => cases rows <;> simp [Solves]
    | cons y xs =>
      have hhead : (xs ++ [x]).head?.getD a = xs.head?.getD x := by cases xs <;> rfl
      have hlast : (y :: xs).getLast?.getD b = xs.getLast?.getD y := by simp [List.getLast?_cons]
      simp only [List.cons_append, Solves, ih, hhead, hlast, and_assoc]

theorem solves_eliminate {c d : α} (hrows : Regular c rows) :
    Solves (d - c * (eliminate c d rows).head?.getD 0) 0 rows (eliminate c d rows) := by
  induction rows generalizing c d with
  | nil => trivial
  | cons r rows ih =>
    obtain ⟨hpivot, hrest⟩ := hrows
    simp only [Scalar.ofNat_eq, Nat.cast_zero] at hpivot
    have hsubstitute (c d : α) (xs : List α) :
        substitute c d xs = (d - c * xs.head?.getD 0) :: xs := by
      cases xs with
      | nil => simp [substitute]
      | cons x xs => rfl
    rw [eliminate_cons, hsubstitute]
    refine ⟨?_, ih hrest⟩
    generalize (eliminate _ _ rows).head?.getD 0 = x
    simp only [List.head?_cons, Option.getD_some, smul_eq_mul, Scalar.ofNat_eq, Nat.cast_one]
    field_simp
    ring

theorem solves_solve (hrows : Solvable rows) : Solves 0 0 rows (solve rows) := by
  cases rows with
  | nil => trivial
  | cons r rows =>
    obtain ⟨hdiag, hrest⟩ := hrows
    have hpivot : r.diag - r.sub * 0 = r.diag := by ring
    have hsolve : solve (r :: rows) = eliminate 0 0 (r :: rows) := by
      rw [solve_cons, eliminate_cons, hpivot, smul_zero, sub_zero]
    have hregular : Regular 0 (r :: rows) := ⟨hpivot.symm ▸ hdiag, by rwa [hpivot]⟩
    have := solves_eliminate (d := 0) hregular
    rwa [← hsolve, zero_mul, sub_zero] at this

theorem solves_ends {first last : Row α α} {x₀ x₁ : α} :
    Solves b a (first :: rows ++ [last]) (x₀ :: xs ++ [x₁]) ↔
      first.sub * b + first.diag * x₀ + first.sup * xs.head?.getD x₁ = first.rhs ∧
        Solves x₀ x₁ rows xs ∧
          last.sub * xs.getLast?.getD x₀ + last.diag * x₁ + last.sup * a = last.rhs := by
  have hlast : (x₀ :: xs).getLast?.getD b = xs.getLast?.getD x₀ := by simp [List.getLast?_cons]
  rw [solves_concat, hlast, Solves, and_assoc]

theorem Solves.exists_ends {first last : Row α α} (h : Solves b a (first :: rows ++ [last]) xs) :
    ∃ x₀ ys x₁, xs = x₀ :: ys ++ [x₁] := by
  have hlen := h.length_eq
  cases xs with
  | nil => simp at hlen
  | cons x₀ xs =>
    obtain ⟨ys, x₁, rfl⟩ : ∃ ys x₁, xs = ys ++ [x₁] :=
      (List.eq_nil_or_concat' xs).resolve_left fun hnil ↦ by simp [hnil] at hlen
    exact ⟨x₀, ys, x₁, rfl⟩

@[simp] theorem rhs_homogeneous (r : Row α β) : r.homogeneous.rhs = 0 := by
  simp [homogeneous]

theorem Solves.sub_smul {b' a' : α} {zs : List α} (h : Solves b a rows xs)
    (hz : Solves b' a' (rows.map homogeneous) zs) (f : α) :
    Solves (b - b' * f) (a - a' * f) rows (xs.zipWith (fun x z ↦ x - z * f) zs) := by
  induction rows generalizing b b' xs zs with
  | nil =>
    cases xs with
    | nil => exact trivial
    | cons x xs => exact h.elim
  | cons r rows ih =>
    cases xs with
    | nil => exact h.elim
    | cons x xs =>
      cases zs with
      | nil => exact hz.elim
      | cons z zs =>
        obtain ⟨hx, hxs⟩ := h
        obtain ⟨hz, hzs⟩ := hz
        have hhead : (xs.zipWith (fun x z ↦ x - z * f) zs).head?.getD (a - a' * f) =
            xs.head?.getD a - zs.head?.getD a' * f := by
          have hlen : xs.length = zs.length := by
            rw [← hxs.length_eq, ← hzs.length_eq, List.length_map]
          cases xs <;> cases zs <;> simp at hlen ⊢
        refine ⟨?_, ih hxs hzs⟩
        rw [hhead]
        rw [rhs_homogeneous] at hz
        simp only [homogeneous] at hz
        linear_combination hx - f * hz

theorem Solves.bound (h : Solves b a rows xs) {m : α} (hb : |b| ≤ m) (ha : |a| ≤ m)
    (hxs : ∀ x ∈ xs, |x| ≤ m) :
    ∀ x ∈ xs, ∃ r ∈ rows, |r.diag| * |x| ≤ |r.rhs| + (|r.sub| + |r.sup|) * m := by
  induction rows generalizing b xs with
  | nil =>
    cases xs with
    | nil => simp
    | cons x xs => exact h.elim
  | cons r rows ih =>
    cases xs with
    | nil => exact h.elim
    | cons x xs =>
      obtain ⟨hx, hrest⟩ := h
      obtain ⟨hxm, hxsm⟩ := List.forall_mem_cons.mp hxs
      refine List.forall_mem_cons.mpr ⟨⟨r, List.mem_cons_self, ?_⟩, fun y hy ↦ ?_⟩
      · have hnext : |xs.head?.getD a| ≤ m := by
          cases xs with
          | nil => exact ha
          | cons y xs => exact hxsm y List.mem_cons_self
        have hdiag : r.diag * x = r.rhs - r.sub * b - r.sup * xs.head?.getD a := by
          linear_combination hx
        have hsub := mul_le_mul_of_nonneg_left hb (abs_nonneg r.sub)
        have hsup := mul_le_mul_of_nonneg_left hnext (abs_nonneg r.sup)
        calc |r.diag| * |x| = |r.rhs - r.sub * b - r.sup * xs.head?.getD a| := by
              rw [← abs_mul, hdiag]
          _ ≤ |r.rhs| + |r.sub| * |b| + |r.sup| * |xs.head?.getD a| := by
              rw [← abs_mul, ← abs_mul]
              exact (abs_sub _ _).trans (add_le_add_left (abs_sub _ _) _)
          _ ≤ |r.rhs| + (|r.sub| + |r.sup|) * m := by linarith
      · obtain ⟨s, hs, hsy⟩ := ih hrest hxm hxsm y hy
        exact ⟨s, List.mem_cons_of_mem r hs, hsy⟩

/-- With a dominant diagonal only zeros solve equations around a circle that have nothing on their
right-hand sides. -/
theorem eq_zero_of_solves (hrows : ∀ r ∈ rows, r.Dominant) (hrhs : ∀ r ∈ rows, r.rhs = 0)
    (h : Solves (xs.getLast?.getD 0) (xs.head?.getD 0) rows xs) : ∀ x ∈ xs, x = 0 := by
  intro x hx
  obtain ⟨y, hy, hmax⟩ := (xs.toFinset.exists_max_image (|·|) ⟨x, List.mem_toFinset.mpr hx⟩)
  simp only [List.mem_toFinset] at hy hmax
  have hlast : |xs.getLast?.getD 0| ≤ |y| := by
    obtain ⟨z, hz⟩ : ∃ z, xs.getLast? = some z :=
      ⟨_, List.getLast?_eq_some_getLast (List.ne_nil_of_mem hx)⟩
    rw [hz]
    exact hmax z (List.mem_of_getLast? hz)
  have hhead : |xs.head?.getD 0| ≤ |y| := by
    obtain ⟨z, hz⟩ : ∃ z, xs.head? = some z :=
      ⟨_, List.head?_eq_some_head (List.ne_nil_of_mem hx)⟩
    rw [hz]
    exact hmax z (List.mem_of_head? hz)
  obtain ⟨r, hr, hbound⟩ := h.bound hlast hhead hmax y hy
  rw [hrhs r hr, abs_zero, zero_add] at hbound
  have hy : |y| = 0 := by
    by_contra hne
    have hpos : 0 < |y| := (abs_nonneg y).lt_of_ne' hne
    exact absurd (mul_lt_mul_of_pos_right (hrows r hr) hpos) (not_lt.mpr hbound)
  exact abs_nonpos_iff.mp ((hmax x hx).trans hy.le)

section Cyclic

variable {first last : Row α β} {middle : List (Row α β)} (hfirst : first.Dominant)
  (hmiddle : ∀ r ∈ middle, r.Dominant) (hlast : last.Dominant)
include hfirst hmiddle hlast

theorem solvable_plain : Solvable (plain first middle last) := by
  refine solvable_of_dominant ?_ hmiddle ?_
  · have hdiag : first.diag - -first.diag = 2 * first.diag := by ring
    rw [Dominant] at hfirst
    rw [hdiag, abs_mul, abs_two]
    linarith [abs_nonneg first.sub, abs_nonneg first.diag]
  · -- The corners cannot outweigh what the last row has to spare.
    have hcorner : |last.sup * first.sub / -first.diag| ≤ |last.sup| := by
      rw [abs_div, abs_mul, abs_neg, div_le_iff₀ hfirst.diag_pos]
      refine mul_le_mul_of_nonneg_left ?_ (abs_nonneg _)
      rw [Dominant] at hfirst
      linarith [abs_nonneg first.sup]
    have := abs_sub_abs_le_abs_sub last.diag (last.sup * first.sub / -first.diag)
    rw [Dominant] at hlast
    linarith

theorem solvable_cornered : Solvable (cornered first middle last) := by
  have hrows : ∀ r ∈ middle.map (homogeneous (β := β)), r.Dominant := by
    intro r hr
    obtain ⟨s, hs, rfl⟩ := List.mem_map.mp hr
    exact hmiddle s hs
  have hhead : (⟨first.sub, first.diag, first.sup, -first.diag⟩ : Row α α).Dominant := hfirst
  have hend : (⟨last.sub, last.diag, last.sup, last.sup⟩ : Row α α).Dominant := hlast
  exact solvable_plain hhead hrows hend

/-- The answer to the corners alone does not undo the correction. -/
theorem exists_cornered : ∃ z₀ zs z₁, solve (cornered first middle last) = z₀ :: zs ++ [z₁] ∧
    (first.diag - -first.diag) * z₀ + first.sup * zs.head?.getD z₁ = -first.diag ∧
    Solves z₀ z₁ (middle.map homogeneous) zs ∧
    last.sub * zs.getLast?.getD z₀ +
      (last.diag - last.sup * first.sub / -first.diag) * z₁ = last.sup ∧
    1 + z₀ + first.sub * z₁ / -first.diag ≠ 0 := by
  have hsolves := solves_solve (solvable_cornered hfirst hmiddle hlast)
  obtain ⟨z₀, zs, z₁, hz⟩ := hsolves.exists_ends
  rw [hz, cornered, solves_ends] at hsolves
  obtain ⟨hz₀, hzs, hz₁⟩ := hsolves
  simp only [mul_zero, zero_add, add_zero] at hz₀ hz₁
  refine ⟨z₀, zs, z₁, hz, hz₀, hzs, hz₁, fun hzero ↦ ?_⟩
  have hdiag : first.diag ≠ 0 := abs_pos.mp hfirst.diag_pos
  -- Otherwise the answer solves the whole system with nothing on its right-hand side.
  have hcyclic : Solves z₁ z₀ ((first :: middle ++ [last]).map homogeneous)
      (z₀ :: zs ++ [z₁]) := by
    rw [List.map_append, List.map_cons, List.map_cons, List.map_nil, solves_ends]
    refine ⟨?_, hzs, ?_⟩ <;> simp only [rhs_homogeneous] <;> simp only [homogeneous]
    · have hzero' : (1 + z₀) * first.diag - first.sub * z₁ = 0 := by
        field_simp at hzero
        linear_combination hzero
      linear_combination hz₀ - hzero'
    · linear_combination hz₁ + last.sup * hzero
  have hdominant : ∀ r ∈ (first :: middle ++ [last]).map homogeneous, r.Dominant := by
    intro r hr
    obtain ⟨s, hs, rfl⟩ := List.mem_map.mp hr
    simp only [List.cons_append, List.mem_cons, List.mem_append, List.not_mem_nil, or_false] at hs
    rcases hs with rfl | hs | rfl
    · exact hfirst
    · exact hmiddle s hs
    · exact hlast
  have hrhs : ∀ r ∈ (first :: middle ++ [last]).map homogeneous, r.rhs = 0 := by
    intro r hr
    obtain ⟨s, -, rfl⟩ := List.mem_map.mp hr
    exact rhs_homogeneous s
  have hall : ∀ z ∈ z₀ :: zs ++ [z₁], z = 0 := by
    refine eq_zero_of_solves hdominant hrhs ?_
    rwa [List.getLast?_concat, List.cons_append, List.head?_cons]
  rw [hall z₀ (by simp), hall z₁ (by simp)] at hzero
  simp at hzero

theorem solvableCyclic_of_dominant : SolvableCyclic first middle last where
  diag := by
    simp only [Scalar.ofNat_eq, Nat.cast_zero]
    exact neg_ne_zero.mpr (abs_pos.mp hfirst.diag_pos)
  without_corners := solvable_plain hfirst hmiddle hlast
  with_corners := solvable_cornered hfirst hmiddle hlast
  correction := by
    obtain ⟨z₀, zs, z₁, hz, -, -, -, hdet⟩ := exists_cornered hfirst hmiddle hlast
    intro w₀ w₁ hw₀ hw₁
    rw [hz, List.cons_append, List.head?_cons] at hw₀
    rw [hz, List.getLast?_concat] at hw₁
    obtain rfl := Option.some.inj hw₀
    obtain rfl := Option.some.inj hw₁
    simpa only [Scalar.ofNat_eq, Nat.cast_zero, Nat.cast_one] using hdet

end Cyclic

/-- A cyclic system with a dominant diagonal is solved. -/
theorem solves_solveCyclic {first last : Row α α} {middle : List (Row α α)}
    (hfirst : first.Dominant) (hmiddle : ∀ r ∈ middle, r.Dominant) (hlast : last.Dominant) :
    Solves ((solveCyclic first middle last).getLast?.getD 0)
      ((solveCyclic first middle last).head?.getD 0) (first :: middle ++ [last])
      (solveCyclic first middle last) := by
  obtain ⟨z₀, zs, z₁, hz, hz₀, hzs, hz₁, hdet⟩ := exists_cornered hfirst hmiddle hlast
  have hsolves := solves_solve (solvable_plain hfirst hmiddle hlast)
  obtain ⟨x₀, xs, x₁, hx⟩ := hsolves.exists_ends
  rw [hx, plain, solves_ends] at hsolves
  obtain ⟨hx₀, hxs, hx₁⟩ := hsolves
  simp only [mul_zero, zero_add, add_zero] at hx₀ hx₁
  have hlen : xs.length = zs.length := by
    rw [← hxs.length_eq, ← hzs.length_eq, List.length_map]
  obtain ⟨f, hf, hy⟩ : ∃ f, f * (1 + z₀ + first.sub * z₁ / -first.diag) =
      x₀ + first.sub / -first.diag * x₁ ∧ solveCyclic first middle last =
      (x₀ - z₀ * f) :: xs.zipWith (fun x z ↦ x - z * f) zs ++ [x₁ - z₁ * f] := by
    refine ⟨(1 / (1 + z₀ + first.sub * z₁ / -first.diag)) * (x₀ + first.sub / -first.diag * x₁),
      ?_, ?_⟩
    · rw [mul_right_comm, one_div_mul_cancel hdet, one_mul]
    · rw [solveCyclic_eq_correct, hx, hz, correct_ends]
      simp only [smul_eq_mul, Scalar.ofNat_eq, Nat.cast_one]
      rw [List.cons_append, List.cons_append, List.zipWith_cons_cons, List.zipWith_append hlen]
      rfl
  have hhead : (xs.zipWith (fun x z ↦ x - z * f) zs).head?.getD (x₁ - z₁ * f) =
      xs.head?.getD x₁ - zs.head?.getD z₁ * f := by
    cases xs <;> cases zs <;> simp at hlen ⊢
  have hlast? : (xs.zipWith (fun x z ↦ x - z * f) zs).getLast?.getD (x₀ - z₀ * f) =
      xs.getLast?.getD x₀ - zs.getLast?.getD z₀ * f := by
    rcases List.eq_nil_or_concat' xs with rfl | ⟨ys, y, rfl⟩ <;>
      rcases List.eq_nil_or_concat' zs with rfl | ⟨ws, w, rfl⟩ <;> simp at hlen ⊢
    rw [List.zipWith_append hlen]
    simp
  have hdiag : first.diag ≠ 0 := abs_pos.mp hfirst.diag_pos
  have hf' : f * (first.diag + first.diag * z₀ - first.sub * z₁) =
      first.diag * x₀ - first.sub * x₁ := by
    field_simp at hf
    linear_combination hf
  rw [hy, List.getLast?_concat, List.cons_append, List.head?_cons, ← List.cons_append, solves_ends]
  refine ⟨?_, hxs.sub_smul hzs f, ?_⟩
  · rw [hhead, Option.getD_some]
    linear_combination hx₀ - f * hz₀ + hf'
  · rw [hlast?, Option.getD_some]
    linear_combination hx₁ - f * hz₁ - last.sup * hf

end Exact

end Juggling.Row
