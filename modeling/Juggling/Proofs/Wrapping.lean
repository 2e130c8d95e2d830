import Mathlib.Analysis.Calculus.ContDiff.Deriv
import Mathlib.Analysis.InnerProductSpace.Basic
import Mathlib.Topology.Instances.AddCircle.Defs
import Juggling.Track
import Juggling.Proofs.Smooth

namespace Juggling

namespace Track

variable {α : Type} [Exact α] {start period : α}

theorem wrap_eq (start : α) (hpos : 0 < period) (t : α) :
    wrap start period t = t - ⌊(t - start) / period⌋ * period := by
  rw [wrap, Scalar.remainder_eq, abs_of_pos hpos]
  ring

theorem wrap_mem (start : α) (hpos : 0 < period) (t : α) :
    start ≤ wrap start period t ∧ wrap start period t < start + period :=
  ⟨le_add_of_nonneg_right (Scalar.remainder_nonneg _ hpos),
    add_lt_add_right (Scalar.remainder_lt _ hpos) _⟩

theorem wrap_of_mem {s t : α} {q : ℤ} (hlow : start ≤ s) (hhigh : s < start + period)
    (ht : t = s + q * period) : wrap start period t = s := by
  have hpos : 0 < period := by linarith
  obtain ⟨hlow', hhigh'⟩ := wrap_mem start hpos t
  have hwrap := wrap_eq start hpos t
  have hlaps : wrap start period t - start + ⌊(t - start) / period⌋ * period =
      s - start + q * period := by linarith
  exact sub_left_injective (period_unique (sub_nonneg.mpr hlow')
    (sub_lt_iff_lt_add'.mpr hhigh') (sub_nonneg.mpr hlow) (sub_lt_iff_lt_add'.mpr hhigh) hlaps).2

/-- A motion over one period that ends as it begins is steady at all times when it is repeated. -/
theorem steady_wrap {place rate : α → Coordinate α} (hpos : 0 < period)
    (hsteady : ∀ t, Steady (fun s a b ↦ a = place s ∧ b = rate s) t (place t) (rate t))
    (hplace : place start = place (start + period))
    (hrate : rate start = rate (start + period)) (t : α) :
    Steady (fun s a b ↦ a = place (wrap start period s) ∧ b = rate (wrap start period s)) t
      (place (wrap start period t)) (rate (wrap start period t)) := by
  obtain ⟨hlow, hhigh⟩ := wrap_mem start hpos t
  have ht := wrap_eq start hpos t
  generalize ⌊(t - start) / period⌋ = q at ht
  generalize wrap start period t = u at hlow hhigh ht
  -- From the seam on the motion begins again; before it, the lap before comes to its end.
  rcases hlow.lt_or_eq with hlt | rfl
  · refine ((hsteady u).shift (k := u - t) (by ring)).mono
      (lt_min (sub_pos.mpr hlt) (sub_pos.mpr hhigh)) fun s hs a b hab ↦ ?_
    obtain ⟨hnear, hnear'⟩ := lt_min_iff.mp hs
    rw [abs_lt] at hnear hnear'
    rwa [wrap_of_mem (s := s + (u - t)) (q := q) (by linarith) (by linarith)
      (by linarith)] at hab
  · refine .glue ?_ ?_
    · rw [hplace, hrate]
      refine ((hsteady (start + period)).shift (k := start + period - t) (by ring)).mono hpos
        fun s hs a b ⟨hlt, hab⟩ ↦ ?_
      rw [abs_lt] at hs
      rwa [wrap_of_mem (s := s + (start + period - t)) (q := q - 1) (by linarith) (by linarith)
        (by push_cast; linarith)] at hab
    · refine ((hsteady start).shift (k := start - t) (by ring)).mono hpos
        fun s hs a b ⟨hle, hab⟩ ↦ ?_
      rw [abs_lt] at hs
      rwa [wrap_of_mem (s := s + (start - t)) (q := q) (by linarith) (by linarith)
        (by linarith)] at hab

theorem continuous_wrap {β : Type} [TopologicalSpace β] {f : ℝ → β} {start period : ℝ}
    (hpos : 0 < period) (hf : Continuous f) (hclosed : f start = f (start + period)) :
    Continuous fun t ↦ f (wrap start period t) := by
  have : Fact (0 < period) := ⟨hpos⟩
  have hlift := (AddCircle.liftIco_continuous hclosed hf.continuousOn).comp
    (AddCircle.continuous_mk' period)
  refine hlift.congr fun t ↦ ?_
  have hcoe : (t : AddCircle period) = (wrap start period t : ℝ) := by
    rw [wrap_eq start hpos, ← zsmul_eq_mul, AddCircle.coe_sub, AddCircle.coe_zsmul,
      AddCircle.coe_period, smul_zero, sub_zero]
  exact (congrArg _ hcoe).trans (AddCircle.liftIco_coe_apply (wrap_mem start hpos t))

end Track

/-- A motion that is steady at all times has a continuous velocity. -/
theorem contDiff_of_steady {place rate : ℝ → Coordinate ℝ}
    (h : ∀ t, Steady (fun s a b ↦ a = place s ∧ b = rate s) t (place t) (rate t)) (i : Axis) :
    ContDiff ℝ 1 fun t ↦ (place t).along i := by
  have hderiv (t : ℝ) : HasDerivAt (fun s ↦ (place s).along i) ((rate t).along i) t := by
    rw [hasDerivAt_iff_isLittleO, Asymptotics.isLittleO_iff]
    intro r hr
    obtain ⟨δ, hδ, hnear⟩ := (h t).departs r hr
    filter_upwards [Metric.ball_mem_nhds t hδ] with s hs
    exact hnear s hs _ ⟨_, rfl, rfl⟩ i
  refine contDiff_one_iff_deriv.mpr ⟨fun t ↦ (hderiv t).differentiableAt, ?_⟩
  rw [funext fun t ↦ (hderiv t).deriv]
  refine continuous_iff_continuousAt.mpr fun t ↦ Metric.continuousAt_iff.mpr fun r hr ↦ ?_
  obtain ⟨δ, hδ, hnear⟩ := (h t).tends_velocity (r / 2) (half_pos hr)
  exact ⟨δ, hδ, fun s hs ↦ (hnear s hs _ ⟨_, rfl, rfl⟩ i).trans_lt (half_lt_self hr)⟩

end Juggling
