import Juggling.Proofs.Periods

namespace Juggling

variable {α : Type} [Exact α] {J N : ℕ}

namespace Transform

variable {f g : Transform α}

theorem identity_apply {e : Event α} (he : Placed J N e) : (identity J N).apply e = e := by
  have hjuggler : (Permutation.identity J true).apply e.juggler = e.juggler :=
    Permutation.apply_identity (by simpa using he.juggler.2)
  rw [apply_eq_moved, show (identity J N : Transform α).jugglers = .identity J true from rfl,
    hjuggler, Event.moved_eq_later]
  refine Event.later_eq_self (by simp [identity]) fun t ht ↦ ?_
  rw [show (identity J N : Transform α).paths = .identity N true from rfl, Permutation.target_eq,
    Permutation.apply_identity (by simpa using (he.path t ht).2), Int.natAbs_natCast]

theorem andThen_power_neg_one_apply (hf : f.Fits J N) {e : Event α} (he : Placed J N e) :
    (f.andThen (f.power (-1))).apply e = e := by
  have hback := hf.power (-1)
  refine (apply_eq_apply (hf.andThen hback) (.identity J N) ?_).trans (identity_apply he)
  rw [motion_andThen hf hback, motion_power hf, zpow_neg_one, mul_inv_cancel, motion_identity]

end Transform

namespace SymmetryGroup.IsGroupOf

variable {symmetries : List (Symmetry α)} {g : SymmetryGroup α} (hg : g.IsGroupOf symmetries J N)

include hg

/-- The delay leaves events with their jugglers. -/
theorem delay_apply {e : Event α} (hj : e.juggler ≤ J) :
    g.delay.apply e = e.later g.period g.delay.paths.target := by
  have hfix : g.delay.jugglers.apply e.juggler = e.juggler := by
    rw [← hg.delay_fits.motion_jugglers hj, hg.delay_jugglers]
    rfl
  rw [Transform.apply_eq_moved, hfix, Event.moved_eq_later, shift_delay]

theorem apply_image_add_size (k : ℤ) (e : Event α) :
    (g.image (k + g.size)).apply e = g.delay.apply ((g.image k).apply e) := by
  have hfits := hg.image_fits k
  have hmotion := hg.motion_image_add_size k 1
  rw [one_mul, zpow_one] at hmotion
  rw [← Transform.apply_andThen hfits hg.delay_fits]
  refine Transform.apply_eq_apply (hg.image_fits _) (hfits.andThen hg.delay_fits) ?_
  rw [hmotion, Transform.motion_andThen hfits hg.delay_fits]

end SymmetryGroup.IsGroupOf

/-- Transforms act on events, and the images of an event repeat after each period. -/
theorem Transform.acts {f h : Transform α} (hf : f.Fits J N) (hh : h.Fits J N)
    {symmetries : List (Symmetry α)} {g : SymmetryGroup α}
    (hfits : ∀ s ∈ symmetries, (SymmetryGroup.ofShift s (0 : α)).Fits J N)
    (hok : SymmetryGroup.ofSymmetries symmetries J N = .ok g) {e : Event α}
    (he : Placed J N e) :
    (f.andThen h).apply e = h.apply (f.apply e) ∧
    (f.andThen (f.power (-1))).apply e = e ∧
    ∀ k : ℤ, (g.image (k + g.size)).apply e = g.delay.apply ((g.image k).apply e) ∧
      ((g.image (k + g.size)).apply e).juggler = ((g.image k).apply e).juggler ∧
      ((g.image (k + g.size)).apply e).hand = ((g.image k).apply e).hand ∧
      ((g.image (k + g.size)).apply e).place = ((g.image k).apply e).place ∧
      ((g.image (k + g.size)).apply e).time = ((g.image k).apply e).time + g.period := by
  have hg := SymmetryGroup.ofSymmetries_ok hfits hok
  refine ⟨apply_andThen hf hh e, andThen_power_neg_one_apply hf he, fun k ↦ ?_⟩
  have hplaced := (hg.image_fits k).placed he
  rw [hg.apply_image_add_size, hg.delay_apply hplaced.juggler.2]
  exact ⟨rfl, rfl, rfl, rfl, rfl⟩

namespace SymmetryGroup

/-- The left hand catches and throws, away from the middle. -/
def swing : Event ℚ where
  time := 1 / 4
  place := ⟨-5, 0, 2⟩
  juggler := 1
  hand := .left
  transitions := [{ kind := .catching, path := 3 }, { kind := .throwing, path := 1 }]

theorem acts_cascade :
    (∀ s ∈ cascade, (ofShift s (0 : ℚ)).Fits 1 3) ∧ ofSymmetries cascade 1 3 = .ok cascadeGroup ∧
    Placed 1 3 swing ∧ (cascadeGroup.image 1).Fits 1 3 ∧ (cascadeGroup.image (-4)).Fits 1 3 ∧
    ((cascadeGroup.image 1).andThen (cascadeGroup.image (-4))).apply swing =
      (cascadeGroup.image (-4)).apply ((cascadeGroup.image 1).apply swing) ∧
    ((cascadeGroup.image 1).apply swing).hand = .right ∧
    ((cascadeGroup.image (-3 + cascadeGroup.size)).apply swing).time =
      ((cascadeGroup.image (-3)).apply swing).time + cascadeGroup.period := by
  have hfits : ∀ s ∈ cascade, (ofShift s (0 : ℚ)).Fits 1 3 := by decide +kernel
  have hplaced : Placed 1 3 swing := by decide
  have hg := ofSymmetries_ok hfits ofSymmetries_cascade
  obtain ⟨hacts, -, hperiod⟩ := Transform.acts (hg.image_fits 1) (hg.image_fits (-4)) hfits
    ofSymmetries_cascade hplaced
  exact ⟨hfits, ofSymmetries_cascade, hplaced, hg.image_fits 1, hg.image_fits (-4), hacts,
    by decide +kernel, (hperiod (-3)).2.2.2.2⟩

end SymmetryGroup

end Juggling
