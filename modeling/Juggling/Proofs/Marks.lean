import Juggling.Proofs.PacedLayout

namespace Juggling

variable {α : Type} [Exact α] {f : α}

namespace Declarations

/-- All sums of the shifts that symmetries declare. -/
def sums (d : Declarations α) (period : α) : AddSubmonoid α :=
  .closure {x | ∃ s ∈ d.symmetries, x = (SymmetryGroup.declared period s).shift}

/-- All times that a layout compares: of images and of positions, the ends of the loop, and what
sums of the delays of symmetries leave of a period. -/
inductive Mark (d : Declarations α) (g : SymmetryGroup α) : α → Prop
  | image {e : Event α} (he : e ∈ d.events) (k : ℤ) : Mark d g (g.imageTime e k)
  | position {p : Position α} (hp : p ∈ d.positions) : Mark d g p.time
  | start : Mark d g 0
  | stop : Mark d g g.period
  | sum {x : α} (hx : x ∈ d.sums g.period) {n : ℤ} (hlow : 0 ≤ x - n * g.period)
      (hhigh : x - n * g.period < g.period) : Mark d g (x - n * g.period)

variable {d : Declarations α} {g : SymmetryGroup α}

section Marks

variable {J N : ℕ} (hg : g.IsGroupOf d.symmetries J N) {c : α} (hc : 0 < c)
  (hmarks : ∀ x y, d.Mark g x → d.Mark g y → Discerned (x * c) (y * c))
include hg hc hmarks

/-- Two multiples of a sum leave the same of a period, so that its opposite is a sum up to whole
periods. -/
theorem exists_neg_mem_sums {w : α} (hw : w ∈ d.sums g.period) :
    ∃ n : ℤ, -w + n * g.period ∈ d.sums g.period := by
  have hp := hg.period_pos
  have htol := timeTolerance_pos.trans (SymmetryGroup.timeTolerance_lt (α := α))
  have hmem (k : ℕ) : k * w ∈ d.sums g.period := by
    rw [← nsmul_eq_mul]
    exact AddSubmonoid.nsmul_mem _ hw k
  have hrest (k : ℕ) : 0 ≤ k * w - ⌊k * w / g.period⌋ * g.period ∧
      k * w - ⌊k * w / g.period⌋ * g.period < g.period :=
    ⟨Int.sub_floor_div_mul_nonneg _ hp, Int.sub_floor_div_mul_lt _ hp⟩
  -- What multiples leave falls into finitely many intervals that are as long as the tolerance.
  obtain ⟨i, j, hne, heq⟩ := Finite.exists_ne_map_eq_of_infinite
    (β := Set.Icc 0 ⌊g.period * c / HandCurve.periodTolerance⌋)
    fun k : ℕ ↦ ⟨⌊(k * w - ⌊k * w / g.period⌋ * g.period) * c / HandCurve.periodTolerance⌋, by
      obtain ⟨hlow, hhigh⟩ := hrest k
      exact ⟨Int.floor_nonneg.mpr (by positivity), Int.floor_le_floor (by gcongr)⟩⟩
  wlog hlt : i < j generalizing i j
  · exact this j i hne.symm heq.symm (hne.symm.lt_of_le (not_lt.mp hlt))
  have hnear := Int.abs_sub_lt_one_of_floor_eq_floor (Subtype.mk.inj heq)
  rw [← sub_div, abs_div, abs_of_pos htol, div_lt_one htol] at hnear
  have hsame := mul_right_cancel₀ hc.ne' ((hmarks _ _ (.sum (hmem i) (hrest i).1 (hrest i).2)
    (.sum (hmem j) (hrest j).1 (hrest j).2)).resolve_right (not_le.mpr hnear))
  refine ⟨⌊j * w / g.period⌋ - ⌊i * w / g.period⌋, ?_⟩
  have hpred := hmem (j - i - 1)
  rw [Nat.cast_sub (by omega), Nat.cast_sub hlt.le] at hpred
  push_cast at hpred ⊢
  convert hpred using 1
  linarith

/-- Offsets are sums up to whole periods. -/
theorem exists_mem_sums {z : α} (hz : z ∈ SymmetryGroup.offsets g.period d.symmetries) :
    ∃ n : ℤ, z + n * g.period ∈ d.sums g.period := by
  induction hz using AddSubgroup.closure_induction with
  | mem x hx => exact ⟨0, by
      rw [Int.cast_zero, zero_mul, add_zero]
      exact AddSubmonoid.subset_closure hx⟩
  | zero => exact ⟨0, by simp⟩
  | add x y _ _ hx hy =>
    obtain ⟨n, hn⟩ := hx
    obtain ⟨m, hm⟩ := hy
    refine ⟨n + m, ?_⟩
    convert AddSubmonoid.add_mem _ hn hm using 1
    push_cast
    ring
  | neg x _ hx =>
    obtain ⟨n, hn⟩ := hx
    obtain ⟨m, hm⟩ := exists_neg_mem_sums hg hc hmarks hn
    refine ⟨m - n, ?_⟩
    convert hm using 1
    push_cast
    ring

theorem le_period : HandCurve.periodTolerance ≤ g.period * c := by
  have hpos := mul_pos hg.period_pos hc
  have hfar := (hmarks _ _ .stop .start).resolve_left (by rw [zero_mul]; exact hpos.ne')
  rwa [zero_mul, sub_zero, abs_of_pos hpos] at hfar

/-- Offsets are as far apart as those within one period and its ends are. -/
theorem le_abs_of_mem_offsets {z : α} (hz : z ∈ SymmetryGroup.offsets g.period d.symmetries)
    (hne : z ≠ 0) : HandCurve.periodTolerance ≤ |z * c| := by
  have hp := hg.period_pos
  have hperiod := le_period hg hc hmarks
  have hlow := Int.sub_floor_div_mul_nonneg z hp
  have hhigh := Int.sub_floor_div_mul_lt z hp
  generalize ⌊z / g.period⌋ = n at hlow hhigh
  obtain ⟨m, hm⟩ := exists_mem_sums hg hc hmarks hz
  obtain ⟨r, hr⟩ : ∃ r, r = z - n * g.period := ⟨_, rfl⟩
  have hmark : d.Mark g r := by
    have hrest : z + m * g.period - (m + n : ℤ) * g.period = r := by
      rw [hr]
      push_cast
      ring
    rw [← hrest]
    exact .sum hm (by linarith) (by linarith)
  have hstop : HandCurve.periodTolerance ≤ (g.period - r) * c := by
    have hpos : 0 < (g.period - r) * c := mul_pos (by linarith) hc
    have hfar := (hmarks _ _ .stop hmark).resolve_left fun heq ↦ by
      rw [sub_mul, heq, sub_self] at hpos
      exact hpos.false
    rwa [← sub_mul, abs_of_pos hpos] at hfar
  rcases lt_or_ge n 0 with hn | hn
  · have hcast : (n : α) ≤ -1 := by exact_mod_cast Int.le_sub_one_of_lt hn
    have hle : z ≤ r - g.period := by nlinarith
    exact le_abs.mpr (.inr (by nlinarith))
  · have hcast : (0 : α) ≤ n := by exact_mod_cast hn
    refine le_abs.mpr (.inl ?_)
    rcases (show 0 ≤ r by linarith).eq_or_lt' with hzero | hpos
    · have hone : (1 : α) ≤ n := by
        refine mod_cast hn.lt_of_ne fun h0 ↦ hne ?_
        rw [← h0, Int.cast_zero, zero_mul, sub_zero] at hr
        rw [← hr, hzero]
      have hle : g.period ≤ z := by nlinarith
      nlinarith
    · have hrc := mul_pos hpos hc
      have hfar := (hmarks _ _ hmark .start).resolve_left (by rw [zero_mul]; exact hrc.ne')
      rw [zero_mul, sub_zero, abs_of_pos hrc] at hfar
      have hle : r ≤ z := by nlinarith
      nlinarith

theorem discerned_of_mem_offsets {x y : α}
    (hx : x ∈ SymmetryGroup.offsets g.period d.symmetries)
    (hy : y ∈ SymmetryGroup.offsets g.period d.symmetries) : Discerned (x * c) (y * c) := by
  rcases eq_or_ne x y with rfl | hne
  · exact .inl rfl
  · refine .inr ?_
    rw [← sub_mul]
    exact le_abs_of_mem_offsets hg hc hmarks (AddSubgroup.sub_mem _ hx hy) (sub_ne_zero.mpr hne)

/-- Times of images, and ends of periods. -/
def beats (d : Declarations α) (g : SymmetryGroup α) : Set α :=
  {t | (∃ e ∈ d.events, ∃ k, t = g.imageTime e k) ∨ ∃ n : ℤ, t = n * g.period}

theorem discerned_of_mem_beats {x y : α} (hx : x ∈ d.beats g) (hy : y ∈ d.beats g) :
    Discerned (x * c) (y * c) := by
  rcases hx with ⟨e, he, k, rfl⟩ | ⟨n, rfl⟩ <;> rcases hy with ⟨e', he', k', rfl⟩ | ⟨n', rfl⟩
  · exact hmarks _ _ (.image he k) (.image he' k')
  · have hfar := hmarks _ _ (.image he (k + -n' * g.size)) .start
    rw [hg.imageTime_add_size] at hfar
    push_cast at hfar
    exact hfar.of_sub_eq (by ring)
  · have hfar := hmarks _ _ .start (.image he' (k' + -n * g.size))
    rw [hg.imageTime_add_size] at hfar
    push_cast at hfar
    exact hfar.of_sub_eq (by ring)
  · have hmem (m : ℤ) : (m : α) * g.period ∈ SymmetryGroup.offsets g.period d.symmetries := by
      rw [← zsmul_eq_mul]
      exact AddSubgroup.zsmul_mem _ hg.period_mem _
    exact discerned_of_mem_offsets hg hc hmarks (hmem n) (hmem n')

end Marks

theorem times_of_pace {J N : ℕ} (hg : g.IsGroupOf d.symmetries J N)
    (h : Pace f {t | d.Mark g t}) :
    Layout.Times d g f (d.beats g) {t | t = 0 ∨ t = g.period ∨ ∃ p ∈ d.positions, t = p.time} := by
  have hone : ∀ x y, d.Mark g x → d.Mark g y → Discerned (x * 1) (y * 1) := fun x y hx hy ↦ by
    rw [mul_one, mul_one]
    exact h.discerned x hx y hy
  have hmul : ∀ x y, d.Mark g x → d.Mark g y → Discerned (x * f) (y * f) := fun x y hx hy ↦
    h.discerned_mul x hx y hy
  constructor
  case offsets =>
    refine ⟨h.pos, fun x hx y hy ↦ ?_, fun x hx y hy ↦
      discerned_of_mem_offsets hg h.pos hmul hx hy⟩
    simpa using discerned_of_mem_offsets hg one_pos hone hx hy
  case images =>
    refine ⟨h.pos, fun x hx y hy ↦ ?_, fun x hx y hy ↦ discerned_of_mem_beats hg h.pos hmul hx hy⟩
    simpa using discerned_of_mem_beats hg one_pos hone hx hy
  case image => exact fun e he k ↦ .inl ⟨e, he, k, rfl⟩
  case zero => exact .inr ⟨0, by simp⟩
  case later =>
    rintro t (⟨e, he, k, rfl⟩ | ⟨n, rfl⟩)
    · refine .inl ⟨e, he, k + 1 * g.size, ?_⟩
      rw [hg.imageTime_add_size, Int.cast_one, one_mul]
    · exact .inr ⟨n + 1, by push_cast; ring⟩
  case positions =>
    refine h.mono ?_
    rintro t (rfl | rfl | ⟨p, hp, rfl⟩)
    · exact .start
    · exact .stop
    · exact .position hp
  case position => exact fun p hp ↦ .inr (.inr ⟨p, hp, rfl⟩)
  case low => exact .inl rfl
  case high => exact .inr (.inl rfl)

/-- Where all declared times are multiples of one unit, no two are confused that is longer than the
tolerances at both paces. -/
theorem pace_of_multiples {J N : ℕ} (hg : g.IsGroupOf d.symmetries J N) (hf : 0 < f) {u : α}
    (hu : HandCurve.periodTolerance ≤ u) (hu' : HandCurve.periodTolerance ≤ u * f)
    (hdelays : ∀ s ∈ d.symmetries,
      (SymmetryGroup.declared g.period s).shift ∈ AddSubgroup.zmultiples u)
    (hevents : ∀ e ∈ d.events, e.time ∈ AddSubgroup.zmultiples u)
    (hpositions : ∀ p ∈ d.positions, p.time ∈ AddSubgroup.zmultiples u) :
    Pace f {t | d.Mark g t} := by
  have hoffsets := SymmetryGroup.offsets_le_zmultiples hdelays
  have hsums : d.sums g.period ≤ (AddSubgroup.zmultiples u).toAddSubmonoid := by
    rw [sums, AddSubmonoid.closure_le]
    rintro x ⟨s, hs, rfl⟩
    exact hdelays s hs
  have hperiods (n : ℤ) : n * g.period ∈ AddSubgroup.zmultiples u := by
    rw [← zsmul_eq_mul]
    exact AddSubgroup.zsmul_mem _ (hoffsets hg.period_mem) n
  have hmem : ∀ x, d.Mark g x → x ∈ AddSubgroup.zmultiples u := by
    intro x hx
    cases hx with
    | image he k =>
      have hshift := hoffsets (hg.shift_mem_offsets _ (hg.representative_mem k))
      exact AddSubgroup.add_mem _ (AddSubgroup.add_mem _ (hevents _ he) hshift)
        (by simpa using hperiods (k / (g.size : ℤ)))
    | position hp => exact hpositions _ hp
    | start => exact AddSubgroup.zero_mem _
    | stop => exact hoffsets hg.period_mem
    | sum hx => exact AddSubgroup.sub_mem _ (hsums hx) (hperiods _)
  have hpos : 0 < u := (timeTolerance_pos.trans SymmetryGroup.timeTolerance_lt).trans_le hu
  have hfar {c : α} (hc : 0 < c) (huc : HandCurve.periodTolerance ≤ u * c) :
      ∀ x, d.Mark g x → ∀ y, d.Mark g y → Discerned (x * c) (y * c) := by
    intro x hx y hy
    refine (SymmetryGroup.eq_or_le_abs_sub hpos (hmem x hx) (hmem y hy)).imp
      (fun heq ↦ by rw [heq]) fun hle ↦ ?_
    rw [← sub_mul, abs_mul, abs_of_pos hc]
    exact huc.trans (mul_le_mul_of_nonneg_right hle hc.le)
  refine ⟨hf, fun x hx y hy ↦ ?_, hfar hf hu'⟩
  simpa using hfar one_pos (by rwa [mul_one]) x hx y hy

end Declarations

end Juggling
