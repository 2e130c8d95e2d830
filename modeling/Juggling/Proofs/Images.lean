import Juggling.Proofs.Closure

namespace Juggling.SymmetryGroup

variable {α : Type} {g : SymmetryGroup α}

theorem representative_natCast {i : ℕ} (hi : i < g.representatives.size) :
    g.representative i = g.representatives[i] := by
  rw [representative, Int.emod_eq_of_lt (by omega) (by exact_mod_cast hi), Int.toNat_natCast,
    Array.getD_eq_getD_getElem?, Array.getElem?_eq_getElem hi]
  rfl

theorem representative_add_size (k q : ℤ) :
    g.representative (k + q * g.size) = g.representative k := by
  rw [representative, representative, Int.add_mul_emod_self_right]

variable [Exact α] {symmetries : List (Symmetry α)} {J N : ℕ}

theorem imageTime_eq (e : Event α) (k : ℤ) : g.imageTime e k =
    e.time + (g.representative k).shift + (k / (g.size : ℤ) : ℤ) * g.period := rfl

theorem time_image (e : Event α) (k : ℤ) : ((g.image k).apply e).time = g.imageTime e k := by
  rw [Transform.apply_eq_moved, imageTime_eq]
  simp only [Event.moved, image, Transform.shift_andThen, Transform.shift_power, shift_delay]
  ring

theorem imageTime_eq_add_shift (e : Event α) (k : ℤ) :
    g.imageTime e k = e.time + (g.image k).motion.shift := by
  rw [imageTime_eq]
  simp only [Transform.shift_motion, image, Transform.shift_andThen, Transform.shift_power,
    shift_delay]
  ring

namespace InOrder

variable (hg : g.InOrder J N)

include hg

theorem size_pos : 0 < g.size := by
  obtain ⟨rest, hrest⟩ := hg.first
  rw [size, ← Array.length_toList, hrest]
  simp

theorem getElem?_zero : g.representatives[0]? = some (Transform.identity J N) := by
  obtain ⟨rest, hrest⟩ := hg.first
  rw [← Array.getElem?_toList, hrest]
  rfl

theorem exists_representative (k : ℤ) : ∃ (i : ℕ) (hi : i < g.representatives.size),
    (i : ℤ) = k % (g.size : ℤ) ∧ g.representative k = g.representatives[i] := by
  have hpos : (0 : ℤ) < g.size := by exact_mod_cast hg.size_pos
  have h1 := Int.emod_nonneg k hpos.ne'
  have h2 := Int.emod_lt_of_pos k hpos
  have hlt : (k % (g.size : ℤ)).toNat < g.representatives.size := by
    rw [size] at *
    omega
  refine ⟨(k % (g.size : ℤ)).toNat, hlt, Int.toNat_of_nonneg h1, ?_⟩
  rw [representative, Array.getD_eq_getD_getElem?, Array.getElem?_eq_getElem hlt]
  rfl

theorem representative_mem (k : ℤ) : g.representative k ∈ g.representatives := by
  obtain ⟨i, hi, -, heq⟩ := hg.exists_representative k
  rw [heq]
  exact Array.getElem_mem hi

theorem ediv_add_size (k q : ℤ) : (k + q * g.size) / (g.size : ℤ) = k / (g.size : ℤ) + q :=
  Int.add_mul_ediv_right _ _ (by exact_mod_cast hg.size_pos.ne')

section Times

variable (e : Event α)

theorem imageTime_add_size (k q : ℤ) :
    g.imageTime e (k + q * g.size) = g.imageTime e k + q * g.period := by
  rw [imageTime_eq, imageTime_eq, representative_add_size, hg.ediv_add_size]
  push_cast
  ring

theorem imageTime_zero : g.imageTime e 0 = e.time := by
  have h0 : g.representative 0 = Transform.identity J N := by
    rw [representative, Int.zero_emod, Int.toNat_zero, Array.getD_eq_getD_getElem?,
      hg.getElem?_zero]
    rfl
  rw [imageTime_eq, h0]
  simp [Transform.identity]

theorem imageTime_mono : Monotone (g.imageTime e) := by
  intro k l hkl
  rw [imageTime_eq, imageTime_eq]
  have hpos : (0 : ℤ) < g.size := by exact_mod_cast hg.size_pos
  have hk := hg.shift_mem _ (hg.representative_mem k)
  have hl := hg.shift_mem _ (hg.representative_mem l)
  rcases (Int.ediv_le_ediv hpos hkl).lt_or_eq with hlt | heq
  · have hlt' : ((k / (g.size : ℤ) : ℤ) : α) + 1 ≤ (l / (g.size : ℤ) : ℤ) := by exact_mod_cast hlt
    nlinarith [hg.period_pos]
  · -- Within one period the representatives are in order.
    obtain ⟨i, hi, hik, hki⟩ := hg.exists_representative k
    obtain ⟨i', hi', hil, hli⟩ := hg.exists_representative l
    have hii : i ≤ i' := by
      have h1 := Int.emod_add_mul_ediv k g.size
      have h2 := Int.emod_add_mul_ediv l g.size
      rw [heq] at h1
      omega
    have hshift : (g.representative k).shift ≤ (g.representative l).shift := by
      rw [hki, hli]
      rcases hii.lt_or_eq with h | rfl
      · have := List.pairwise_iff_getElem.mp hg.ordered i i' (by simpa using hi)
          (by simpa using hi') h
        simpa using this
      · rfl
    rw [heq]
    linarith

end Times

end InOrder

namespace IsGroupOf

variable (hg : g.IsGroupOf symmetries J N)

include hg

theorem image_fits (k : ℤ) : (g.image k).Fits J N :=
  (hg.fits _ (hg.representative_mem k)).andThen (hg.delay_fits.power _)

theorem motion_image (k : ℤ) :
    (g.image k).motion = (g.representative k).motion * g.delay.motion ^ (k / (g.size : ℤ)) := by
  rw [image, Transform.motion_andThen (hg.fits _ (hg.representative_mem k))
    (hg.delay_fits.power _), Transform.motion_power hg.delay_fits]

theorem motion_image_add_size (k q : ℤ) :
    (g.image (k + q * g.size)).motion = (g.image k).motion * g.delay.motion ^ q := by
  rw [hg.motion_image, hg.motion_image, representative_add_size, hg.ediv_add_size, mul_assoc,
    ← zpow_add]

/-- A representative followed by a power of the delay is an image. -/
theorem exists_image {r : Transform α} (hr : r ∈ g.representatives) (q : ℤ) :
    ∃ k, (g.image k).motion = r.motion * g.delay.motion ^ q := by
  obtain ⟨i, hi, rfl⟩ := Array.getElem_of_mem hr
  have hi' : (i : ℤ) < g.size := by exact_mod_cast hi
  refine ⟨i + q * g.size, ?_⟩
  rw [hg.motion_image_add_size, hg.motion_image, Int.ediv_eq_zero_of_lt (by omega) hi', zpow_zero,
    mul_one, representative_natCast hi]

end IsGroupOf

end Juggling.SymmetryGroup
