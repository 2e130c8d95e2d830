import Juggling.Curve.Spline
import Juggling.Proofs.Exact

namespace Juggling

variable {α : Type}

inductive Axis where
  | x
  | y
  | z
  deriving DecidableEq

instance {P : Axis → Prop} [DecidablePred P] : Decidable (∀ i, P i) :=
  decidable_of_iff (P .x ∧ P .y ∧ P .z)
    ⟨fun ⟨hx, hy, hz⟩ i ↦ by cases i <;> assumption, fun h ↦ ⟨h _, h _, h _⟩⟩

namespace Coordinate

def along (a : Coordinate α) : Axis → α
  | .x => a.x
  | .y => a.y
  | .z => a.z

theorem ext_along {a b : Coordinate α} (h : ∀ i, a.along i = b.along i) : a = b := by
  cases a
  cases b
  obtain rfl := h .x
  obtain rfl := h .y
  obtain rfl := h .z
  rfl

variable [Exact α] (a b : Coordinate α) (k : α) (i : Axis)

@[simp] theorem along_add : (a + b).along i = a.along i + b.along i := by cases i <;> rfl

@[simp] theorem along_sub : (a - b).along i = a.along i - b.along i := by cases i <;> rfl

@[simp] theorem along_smul : (k • a).along i = k * a.along i := by cases i <;> rfl

end Coordinate

variable [Exact α]

theorem Axis.exists_bound (f : Axis → α) : ∃ m, 0 < m ∧ ∀ i, f i ≤ m := by
  refine ⟨|f .x| + |f .y| + |f .z| + 1, by positivity, fun i ↦ (le_abs_self _).trans ?_⟩
  have hx := abs_nonneg (f .x)
  have hy := abs_nonneg (f .y)
  have hz := abs_nonneg (f .z)
  cases i <;> linarith

/-- Answers for times near `t` are near `c`, where there are any. -/
def Tends (answer : α → Coordinate α → Prop) (t : α) (c : Coordinate α) : Prop :=
  ∀ r > 0, ∃ δ > 0, ∀ s, |s - t| < δ → ∀ a, answer s a → ∀ i, |a.along i - c.along i| ≤ r

/-- Answers for times near `t`, where there are any, depart from `c` with the velocity `w`. -/
def Departs (answer : α → Coordinate α → Prop) (t : α) (c w : Coordinate α) : Prop :=
  ∀ r > 0, ∃ δ > 0, ∀ s, |s - t| < δ → ∀ a, answer s a → ∀ i,
    |a.along i - c.along i - (s - t) * w.along i| ≤ r * |s - t|

/-- None of some times lies near another one without being the same. -/
theorem exists_gap (ts : List α) (t : α) : ∃ δ > 0, ∀ s ∈ ts, s ≠ t → δ ≤ |s - t| := by
  induction ts with
  | nil => exact ⟨1, one_pos, by simp⟩
  | cons s ts ih =>
    obtain ⟨δ, hδ, hgap⟩ := ih
    by_cases heq : s = t
    · refine ⟨δ, hδ, fun u hu hne ↦ hgap u ((List.mem_cons.mp hu).resolve_left ?_) hne⟩
      rintro rfl
      exact hne heq
    · refine ⟨min δ |s - t|, lt_min hδ (abs_pos.mpr (sub_ne_zero.mpr heq)), fun u hu hne ↦ ?_⟩
      rcases List.mem_cons.mp hu with rfl | hu
      · exact min_le_right _ _
      · exact (min_le_left _ _).trans (hgap u hu hne)

section Limits

variable {answer answer' : α → Coordinate α → Prop} {t : α} {c w : Coordinate α}

theorem Tends.mono (h : Tends answer' t c) {δ : α} (hδ : 0 < δ)
    (hall : ∀ s, |s - t| < δ → ∀ a, answer s a → answer' s a) : Tends answer t c := by
  intro r hr
  obtain ⟨δ', hδ', h⟩ := h r hr
  exact ⟨min δ δ', lt_min hδ hδ', fun s hs a ha ↦
    h s (hs.trans_le (min_le_right _ _)) a (hall s (hs.trans_le (min_le_left _ _)) a ha)⟩

theorem Tends.of_lipschitz {m δ : α} (hδ : 0 < δ) (h : ∀ s, |s - t| < δ → ∀ a, answer s a →
    ∀ i, |a.along i - c.along i| ≤ m * |s - t|) : Tends answer t c := by
  intro r hr
  have hm : 0 < |m| + 1 := by positivity
  refine ⟨min δ (r / (|m| + 1)), lt_min hδ (div_pos hr hm), fun s hs a ha i ↦ ?_⟩
  have hsmall : |s - t| * (|m| + 1) ≤ r := by
    rw [← le_div_iff₀ hm]
    exact hs.le.trans (min_le_right _ _)
  calc |a.along i - c.along i| ≤ m * |s - t| := h s (hs.trans_le (min_le_left _ _)) a ha i
    _ ≤ (|m| + 1) * |s - t| :=
      mul_le_mul_of_nonneg_right ((le_abs_self m).trans (by linarith)) (abs_nonneg _)
    _ ≤ r := by rwa [mul_comm]

theorem Departs.mono (h : Departs answer' t c w) (hall : ∀ s a, answer s a → answer' s a) :
    Departs answer t c w := by
  intro r hr
  obtain ⟨δ, hδ, h⟩ := h r hr
  exact ⟨δ, hδ, fun s hs a ha ↦ h s hs a (hall s a ha)⟩

theorem Departs.tends (h : Departs answer t c w) : Tends answer t c := by
  obtain ⟨δ, hδ, h⟩ := h 1 one_pos
  obtain ⟨m, -, hm⟩ := Axis.exists_bound fun i ↦ |w.along i|
  refine Tends.of_lipschitz (m := 1 + m) hδ fun s hs a ha i ↦ ?_
  have htriangle := abs_add_le (a.along i - c.along i - (s - t) * w.along i) ((s - t) * w.along i)
  have hprod : |(s - t) * w.along i| ≤ m * |s - t| := by
    rw [abs_mul, mul_comm]
    exact mul_le_mul_of_nonneg_right (hm i) (abs_nonneg _)
  rw [sub_add_cancel] at htriangle
  linarith [h s hs a ha i]

end Limits

/-- A motion that near `t` differs from the uniform one through `c` by a term of second order, and
in velocity by one of first order. It is given by its place and velocity at each time; where they
are not known there are none. -/
def Steady (motion : α → Coordinate α → Coordinate α → Prop) (t : α) (c w : Coordinate α) : Prop :=
  ∃ m δ : α, 0 < δ ∧ ∀ s, |s - t| < δ → ∀ a b, motion s a b → ∀ i,
    |a.along i - c.along i - (s - t) * w.along i| ≤ m * (s - t) ^ 2 ∧
      |b.along i - w.along i| ≤ m * |s - t|

namespace Steady

variable {motion motion' : α → Coordinate α → Coordinate α → Prop} {t : α} {c w : Coordinate α}

theorem mono (h : Steady motion' t c w) {δ : α} (hδ : 0 < δ)
    (hall : ∀ s, |s - t| < δ → ∀ a b, motion s a b → motion' s a b) : Steady motion t c w := by
  obtain ⟨m, δ', hδ', h⟩ := h
  exact ⟨m, min δ δ', lt_min hδ hδ', fun s hs a b hab ↦
    h s (hs.trans_le (min_le_right _ _)) a b (hall s (hs.trans_le (min_le_left _ _)) a b hab)⟩

theorem or (h : Steady motion t c w) (h' : Steady motion' t c w) :
    Steady (fun s a b ↦ motion s a b ∨ motion' s a b) t c w := by
  obtain ⟨m, δ, hδ, h⟩ := h
  obtain ⟨m', δ', hδ', h'⟩ := h'
  refine ⟨max m m', min δ δ', lt_min hδ hδ', fun s hs a b hab i ↦ ?_⟩
  have key : ∃ n, n ≤ max m m' ∧
      |a.along i - c.along i - (s - t) * w.along i| ≤ n * (s - t) ^ 2 ∧
        |b.along i - w.along i| ≤ n * |s - t| := by
    rcases hab with hab | hab
    · exact ⟨m, le_max_left _ _, h s (hs.trans_le (min_le_left _ _)) a b hab i⟩
    · exact ⟨m', le_max_right _ _, h' s (hs.trans_le (min_le_right _ _)) a b hab i⟩
  obtain ⟨n, hn, hplace, hvelocity⟩ := key
  exact ⟨hplace.trans (mul_le_mul_of_nonneg_right hn (sq_nonneg _)),
    hvelocity.trans (mul_le_mul_of_nonneg_right hn (abs_nonneg _))⟩

/-- What is steady before a time and from then on is steady there. -/
theorem glue (hbefore : Steady (fun s a b ↦ s < t ∧ motion s a b) t c w)
    (hafter : Steady (fun s a b ↦ t ≤ s ∧ motion s a b) t c w) : Steady motion t c w :=
  (hbefore.or hafter).mono one_pos fun s _ _ _ hab ↦
    (lt_or_ge s t).imp (⟨·, hab⟩) (⟨·, hab⟩)

/-- What follows some of finitely many steady motions is steady. -/
theorem of_mem {ι : Type} {ks : List ι} {motion : ι → α → Coordinate α → Coordinate α → Prop}
    (h : ∀ k ∈ ks, Steady (motion k) t c w) :
    Steady (fun s a b ↦ ∃ k ∈ ks, motion k s a b) t c w := by
  induction ks with
  | nil => exact ⟨0, 1, one_pos, fun _ _ _ _ ⟨k, hk, _⟩ ↦ absurd hk List.not_mem_nil⟩
  | cons k ks ih =>
    obtain ⟨hk, hks⟩ := List.forall_mem_cons.mp h
    refine (hk.or (ih hks)).mono one_pos fun s _ a b ⟨x, hx, hab⟩ ↦ ?_
    rcases List.mem_cons.mp hx with rfl | hx
    · exact .inl hab
    · exact .inr ⟨x, hx, hab⟩

theorem shift {k t' : α} (h : Steady motion t' c w) (hk : t' = t + k) :
    Steady (fun s ↦ motion (s + k)) t c w := by
  subst hk
  obtain ⟨m, δ, hδ, h⟩ := h
  refine ⟨m, δ, hδ, fun s hs a b hab i ↦ ?_⟩
  have := h (s + k) (by rwa [add_sub_add_right_eq_sub]) a b hab i
  rwa [add_sub_add_right_eq_sub] at this

theorem departs (h : Steady motion t c w) : Departs (fun s a ↦ ∃ b, motion s a b) t c w := by
  obtain ⟨m, δ, hδ, h⟩ := h
  intro r hr
  have hm : 0 < |m| + 1 := by positivity
  refine ⟨min δ (r / (|m| + 1)), lt_min hδ (div_pos hr hm), fun s hs a ⟨b, hab⟩ i ↦ ?_⟩
  have hsmall : (|m| + 1) * |s - t| ≤ r := by
    rw [mul_comm, ← le_div_iff₀ hm]
    exact hs.le.trans (min_le_right _ _)
  calc |a.along i - c.along i - (s - t) * w.along i|
      ≤ m * (s - t) ^ 2 := (h s (hs.trans_le (min_le_left _ _)) a b hab i).1
    _ ≤ (|m| + 1) * (s - t) ^ 2 :=
      mul_le_mul_of_nonneg_right ((le_abs_self m).trans (by linarith)) (sq_nonneg _)
    _ = (|m| + 1) * |s - t| * |s - t| := by
      rw [← sq_abs]
      ring
    _ ≤ r * |s - t| := mul_le_mul_of_nonneg_right hsmall (abs_nonneg _)

theorem tends_velocity (h : Steady motion t c w) : Tends (fun s b ↦ ∃ a, motion s a b) t w := by
  obtain ⟨m, δ, hδ, h⟩ := h
  exact .of_lipschitz hδ fun s hs b ⟨a, hab⟩ i ↦ (h s hs a b hab i).2

end Steady

namespace Cubic

variable (p : Cubic α)

theorem along_position (t : α) (i : Axis) : (p.position t).along i = p.a.along i + (t - p.start) *
    (p.b.along i + (t - p.start) * (p.c.along i + (t - p.start) * p.d.along i)) := by
  simp [position]

theorem along_velocity (t : α) (i : Axis) : (p.velocity t).along i = p.b.along i + (t - p.start) *
    (2 * p.c.along i + 3 * (t - p.start) * p.d.along i) := by
  simp [velocity]

theorem steady (t : α) : Steady (fun s a b ↦ a = p.position s ∧ b = p.velocity s) t
    (p.position t) (p.velocity t) := by
  obtain ⟨m, -, hm⟩ := Axis.exists_bound fun i ↦
    2 * |p.c.along i| + |p.d.along i| * (6 * |t - p.start| + 3)
  refine ⟨m, 1, one_pos, fun s hs a b ⟨ha, hb⟩ i ↦ ?_⟩
  subst ha hb
  have hc := abs_nonneg (p.c.along i)
  have hd := abs_nonneg (p.d.along i)
  have hτ := abs_nonneg (t - p.start)
  constructor
  · -- A cubic differs from its tangent by what has the factor `(s - t) ^ 2`.
    have hfactor : (p.position s).along i - (p.position t).along i -
        (s - t) * (p.velocity t).along i =
        (p.c.along i + p.d.along i * (3 * (t - p.start) + (s - t))) * (s - t) ^ 2 := by
      rw [along_position, along_position, along_velocity]
      ring
    rw [hfactor, abs_mul, abs_of_nonneg (sq_nonneg (s - t))]
    refine mul_le_mul_of_nonneg_right (le_trans ?_ (hm i)) (sq_nonneg _)
    have hsum : |3 * (t - p.start) + (s - t)| ≤ 3 * |t - p.start| + 1 := by
      refine (abs_add_le _ _).trans (add_le_add ?_ hs.le)
      rw [abs_mul, abs_of_pos (by norm_num : (0 : α) < 3)]
    have := abs_add_le (p.c.along i) (p.d.along i * (3 * (t - p.start) + (s - t)))
    rw [abs_mul] at this
    have := mul_le_mul_of_nonneg_left hsum hd
    nlinarith
  · -- Its velocity changes by what has the factor `s - t`.
    have hfactor : (p.velocity s).along i - (p.velocity t).along i =
        (2 * p.c.along i + p.d.along i * (6 * (t - p.start) + 3 * (s - t))) * (s - t) := by
      rw [along_velocity, along_velocity]
      ring
    rw [hfactor, abs_mul]
    refine mul_le_mul_of_nonneg_right (le_trans ?_ (hm i)) (abs_nonneg _)
    have hsum : |6 * (t - p.start) + 3 * (s - t)| ≤ 6 * |t - p.start| + 3 := by
      refine (abs_add_le _ _).trans (add_le_add ?_ ?_)
      · rw [abs_mul, abs_of_pos (by norm_num : (0 : α) < 6)]
      · rw [abs_mul, abs_of_pos (by norm_num : (0 : α) < 3)]
        linarith
    have := abs_add_le (2 * p.c.along i) (p.d.along i * (6 * (t - p.start) + 3 * (s - t)))
    rw [abs_mul, abs_mul, abs_of_pos (by norm_num : (0 : α) < 2)] at this
    have := mul_le_mul_of_nonneg_left hsum hd
    linarith

/-- A motion that changes over from one to another where both are alike is steady if both are. -/
theorem steady_switch {place rate : Cubic α → α → Coordinate α} {before after at' : α → Cubic α}
    {u : α}
    (hbefore : ∀ t, Steady (fun s a b ↦ a = place (before s) s ∧ b = rate (before s) s) t
      (place (before t) t) (rate (before t) t))
    (hafter : ∀ t, Steady (fun s a b ↦ a = place (after s) s ∧ b = rate (after s) s) t
      (place (after t) t) (rate (after t) t))
    (hmeet : place (before u) u = place (after u) u ∧ rate (before u) u = rate (after u) u)
    (hlow : ∀ t < u, at' t = before t) (hhigh : ∀ t, u ≤ t → at' t = after t) (t : α) :
    Steady (fun s a b ↦ a = place (at' s) s ∧ b = rate (at' s) s) t
      (place (at' t) t) (rate (at' t) t) := by
  rcases lt_trichotomy t u with hlt | rfl | hgt
  · rw [hlow t hlt]
    refine (hbefore t).mono (sub_pos.mpr hlt) fun s hs a b hab ↦ ?_
    rwa [hlow s (by linarith [(abs_lt.mp hs).2])] at hab
  · rw [hhigh t le_rfl]
    refine .glue ?_ ?_
    · rw [← hmeet.1, ← hmeet.2]
      refine (hbefore t).mono one_pos fun s _ a b ⟨hlt, hab⟩ ↦ ?_
      rwa [hlow s hlt] at hab
    · refine (hafter t).mono one_pos fun s _ a b ⟨hle, hab⟩ ↦ ?_
      rwa [hhigh s hle] at hab
  · rw [hhigh t hgt.le]
    refine (hafter t).mono (sub_pos.mpr hgt) fun s hs a b hab ↦ ?_
    rwa [hhigh s (by linarith [(abs_lt.mp hs).1])] at hab

variable {p q : Knot α} (v w : Coordinate α)

theorem hermite_start : (hermite p q v w).position p.time = p.position ∧
    (hermite p q v w).velocity p.time = v := by
  constructor <;> refine Coordinate.ext_along fun i ↦ ?_
  · rw [along_position]
    simp [hermite]
  · rw [along_velocity]
    simp [hermite]

theorem hermite_stop (h : p.time < q.time) : (hermite p q v w).position q.time = q.position ∧
    (hermite p q v w).velocity q.time = w := by
  have hne : q.time - p.time ≠ 0 := (sub_pos.mpr h).ne'
  constructor <;> refine Coordinate.ext_along fun i ↦ ?_
  · rw [along_position]
    simp only [hermite, Coordinate.along_smul, Coordinate.along_add, Coordinate.along_sub,
      Scalar.ofNat_eq]
    push_cast
    field_simp
    ring
  · rw [along_velocity]
    simp only [hermite, Coordinate.along_smul, Coordinate.along_add, Coordinate.along_sub,
      Scalar.ofNat_eq]
    push_cast
    field_simp
    ring

end Cubic

end Juggling
