import Juggling.Proofs.Histories
import Juggling.Proofs.Poses
import Juggling.Proofs.Windowed
import Juggling.Proofs.Wrapping

namespace Juggling

namespace Leg

theorem pieceAt_of_step {α : Type} [Exact α] {a b p q : Knot α} {ks : List (Knot α)}
    (hsorted : ((a :: b :: ks).map Knot.time).Pairwise (· < ·))
    (hpq : (p, q) ∈ steps (a :: b :: ks)) {t : α} (hlow : p.time ≤ t) (hhigh : t < q.time) :
    pieceAt (fun leg : Leg α ↦ leg.start.time) t ⟨a, b⟩ (ofKnots b ks) = ⟨p, q⟩ := by
  have hrest := (List.pairwise_cons.mp hsorted).2
  induction ks generalizing a b with
  | nil =>
    obtain ⟨rfl, rfl⟩ := Prod.mk.inj (List.mem_singleton.mp hpq)
    rfl
  | cons c ks ih =>
    rw [steps_cons_cons] at hpq
    rcases List.mem_cons.mp hpq with heq | hpq
    · obtain ⟨rfl, rfl⟩ := Prod.mk.inj heq
      exact if_neg (not_le.mpr hhigh)
    · have hle : b.time ≤ p.time := by
        rcases List.mem_cons.mp (mem_steps hpq).1 with rfl | hp
        · exact le_rfl
        · exact ((List.pairwise_cons.mp hrest).1 _ (List.mem_map_of_mem hp)).le
      exact (if_pos (hle.trans hlow)).trans (ih hrest hpq (List.pairwise_cons.mp hrest).2)

theorem continuous_pieceAt {a b : Knot ℝ} {ks : List (Knot ℝ)}
    (hsorted : ((a :: b :: ks).map Knot.time).Pairwise (· < ·)) (i : Axis) : Continuous fun t ↦
      ((pieceAt (fun leg : Leg ℝ ↦ leg.start.time) t ⟨a, b⟩
        (ofKnots b ks)).position t).along i := by
  have hleg (leg : Leg ℝ) : Continuous fun t ↦ (leg.position t).along i := by
    simp only [along_position]
    fun_prop
  induction ks generalizing a b with
  | nil => exact hleg _
  | cons c ks ih =>
    obtain ⟨ha, hrest⟩ := List.pairwise_cons.mp hsorted
    -- Both ways to go on agree at the knot where they meet.
    refine (Continuous.if_le (ih hrest) (hleg ⟨a, b⟩) (continuous_const (y := b.time))
      continuous_id fun t ht ↦ ?_).congr fun t ↦ ?_
    · obtain rfl : b.time = t := ht
      rw [(pieceAt_spec hrest).1 b List.mem_cons_self]
      have hstop : (⟨a, b⟩ : Leg ℝ).position b.time = b.position :=
        position_stop (ha b.time List.mem_cons_self)
      rw [hstop]
    · exact (apply_ite (fun leg : Leg ℝ ↦ (leg.position t).along i) (b.time ≤ t) _ _).symm

end Leg

namespace Line

/-- Between knots a curve runs straight. -/
theorem position_of_step {α : Type} [Exact α] {k : Knots α}
    (hsorted : (k.toList.map Knot.time).Pairwise (· < ·)) {p q : Knot α}
    (hpq : (p, q) ∈ steps k.toList) {t : α} (hlow : p.time ≤ t) (hhigh : t < q.time) (i : Axis) :
    (position ⟨k⟩ t).along i = p.position.along i +
      (t - p.time) / (q.time - p.time) * (q.position.along i - p.position.along i) := by
  rw [position, Leg.pieceAt_of_step hsorted hpq hlow hhigh, Leg.along_position]
  ring

theorem continuous_position {k : Knots ℝ} (hsorted : (k.toList.map Knot.time).Pairwise (· < ·))
    (i : Axis) : Continuous fun t ↦ (position ⟨k⟩ t).along i :=
  Leg.continuous_pieceAt hsorted i

end Line

namespace Track

section Angles

variable {α : Type} [Exact α]

/-- Whether two angles in degrees differ by whole turns. -/
def Faces (a b : α) : Prop := ∃ m : ℤ, a = b + 360 * m

theorem Faces.refl (a : α) : Faces a a := ⟨0, by simp⟩

theorem Faces.symm {a b : α} (h : Faces a b) : Faces b a := by
  obtain ⟨m, rfl⟩ := h
  exact ⟨-m, by push_cast; ring⟩

theorem Faces.trans {a b c : α} (h : Faces a b) (h' : Faces b c) : Faces a c := by
  obtain ⟨m, rfl⟩ := h
  obtain ⟨n, rfl⟩ := h'
  exact ⟨n + m, by push_cast; ring⟩

theorem shortWay_spec (d : α) : |shortWay d| ≤ 180 ∧ Faces (shortWay d) d := by
  have hpos : (0 : α) < 360 := by norm_num
  have hlow := Scalar.remainder_nonneg d hpos
  have hhigh := Scalar.remainder_lt d hpos
  have hrem := Scalar.remainder_eq d 360
  rw [abs_of_pos hpos] at hrem
  have hfull : @OfNat.ofNat α 360 (Scalar.instOfNat 360) = 360 := by simp
  have hhalf : @OfNat.ofNat α 180 (Scalar.instOfNat 180) = 180 := by simp
  simp only [shortWay, hfull, hhalf]
  split_ifs with h
  · refine ⟨abs_le.mpr ⟨by linarith, by linarith⟩, -⌊d / 360⌋ - 1, ?_⟩
    push_cast
    linarith
  · refine ⟨abs_le.mpr ⟨by linarith, not_lt.mp h⟩, -⌊d / 360⌋, ?_⟩
    push_cast
    linarith

/-- Unwrapped angles face as the given ones do, and no turn between them is more than half a
turn. -/
theorem unwrap_spec (before : α) (as : List α) :
    (before :: unwrap before as).IsChain (fun a b ↦ |b - a| ≤ 180) ∧
      List.Forall₂ Faces (unwrap before as) as := by
  induction as generalizing before with
  | nil => exact ⟨.singleton _, .nil⟩
  | cons a as ih =>
    obtain ⟨hshort, m, hm⟩ := shortWay_spec (a - before)
    obtain ⟨hchain, hfaces⟩ := ih (before + shortWay (a - before))
    refine ⟨List.isChain_cons_cons.mpr ⟨by rwa [add_sub_cancel_left], hchain⟩, .cons ⟨m, ?_⟩ hfaces⟩
    rw [hm]
    ring

end Angles

/-- A repeated angle that gains whole turns in a period is continuous once they are counted. -/
theorem continuous_wrap_add {f : ℝ → ℝ} {start period gain : ℝ} (hpos : 0 < period)
    (hf : Continuous f) (hgain : f (start + period) = f start + gain) :
    Continuous fun t ↦ f (wrap start period t) + gain * ⌊(t - start) / period⌋ := by
  -- Without its mean slope the angle is closed.
  have hclosed := continuous_wrap (f := fun t ↦ f t - gain * ((t - start) / period)) hpos
    (by fun_prop) (by
      rw [sub_self, zero_div, add_sub_cancel_left, div_self hpos.ne', hgain]
      ring)
  have hslope : Continuous fun t ↦ gain * ((t - start) / period) := by fun_prop
  refine (hclosed.add hslope).congr fun t ↦ ?_
  have hlaps : (t - start) / period - (wrap start period t - start) / period =
      ⌊(t - start) / period⌋ := by
    rw [wrap_eq start hpos, ← sub_div, sub_sub_sub_cancel_right, sub_sub_cancel,
      mul_div_cancel_right₀ _ hpos.ne']
  simp only [Pi.add_apply]
  linear_combination gain * hlaps

end Track

namespace Placement

theorem turned_of_faces {a b : ℝ} (h : Track.Faces a b) (v : Coordinate ℝ) :
    v.turned a = v.turned b := by
  obtain ⟨m, rfl⟩ := h
  have hturn : (b + 360 * m) * (Real.pi / 180) = b * (Real.pi / 180) + m * (2 * Real.pi) := by ring
  simp only [Coordinate.turned, hturn, Real.cos_add_int_mul_two_pi, Real.sin_add_int_mul_two_pi]

/-- What is at rest for a juggler moves without jumps if he does, up to whole turns. -/
theorem continuous_toGlobal {p : ℝ → Placement ℝ} {angle : ℝ → ℝ}
    (hplace : ∀ i, Continuous fun t ↦ (p t).place.along i) (hangle : Continuous angle)
    (hfaces : ∀ t, Track.Faces (p t).angle (angle t)) (v : Coordinate ℝ) (i : Axis) :
    Continuous fun t ↦ ((p t).toGlobal v).along i := by
  have hturned (w : Coordinate ℝ) : Continuous fun t ↦ (w.turned (angle t)).along i := by
    cases i <;>
    · simp only [Coordinate.turned, Coordinate.along]
      fun_prop
  refine ((hplace i).add (hturned ⟨v.x, v.y + reachForward, v.z⟩)).congr fun t ↦ ?_
  rw [toGlobal, locate, rotate_eq, turned_of_faces (hfaces t), Coordinate.along_add]
  rfl

end Placement

end Juggling
