import Juggling.Proofs.Scan

namespace Juggling

variable {α : Type} [Exact α] {symmetries : List (Symmetry α)} {J N : ℕ} {g : SymmetryGroup α}

namespace SymmetryGroup.IsGroupOf

variable (hg : g.IsGroupOf symmetries J N)

include hg

theorem eq_of_motion_eq {k l : ℤ} (hdiv : k / (g.size : ℤ) = l / (g.size : ℤ))
    (hmotion : (g.representative k).motion = (g.representative l).motion) : k = l := by
  obtain ⟨i, hi, hik, hki⟩ := hg.exists_representative k
  obtain ⟨i', hi', hil, hli⟩ := hg.exists_representative l
  rw [hki, hli] at hmotion
  have hnodup := hg.nodup
  have hii : i = i' := by
    by_contra hne
    rcases Nat.lt_or_gt_of_ne hne with h | h
    · refine List.pairwise_iff_getElem.mp hnodup i i' (by simpa using hi) (by simpa using hi') h ?_
      simpa using hmotion
    · refine List.pairwise_iff_getElem.mp hnodup i' i (by simpa using hi') (by simpa using hi) h ?_
      simpa using hmotion.symm
  have h1 := Int.emod_add_mul_ediv k g.size
  have h2 := Int.emod_add_mul_ediv l g.size
  rw [← hik, hdiv] at h1
  rw [← hil, ← hii] at h2
  exact h1.symm.trans h2

variable (hs : Separated g.period symmetries)

include hs

/-- Two representatives that put a juggler in one place at one moment leave him in a shadow. -/
theorem shadows_of_agree {r r' : g.Rep} {j : ℤ} (hne : r ≠ r') (hshift : r.1.shift = r'.1.shift)
    (hj : r.1.jugglers j = r'.1.jugglers j) : g.Shadows j := by
  obtain ⟨κ, hκ, hunit⟩ := hg.exists_move hs r
  refine ⟨κ.1⁻¹ r', fun hone ↦ hne ?_, ?_, ?_⟩
  · have hback : κ.1⁻¹ r' = hg.unit := Subtype.ext hone
    rw [← hunit, ← hback]
    exact κ.1.apply_symm_apply r'
  · obtain ⟨y, hy⟩ := (hκ hg.unit).2
    obtain ⟨y', hy'⟩ := (hκ (κ.1⁻¹ r')).2
    rw [hunit] at hy
    rw [show κ.1 (κ.1⁻¹ r') = r' from κ.1.apply_symm_apply r'] at hy'
    have hmem := hg.rep_shift_mem (κ.1⁻¹ r')
    have h1 : hg.unit.1.shift = 0 := rfl
    rw [h1] at hy
    exact (period_unique (m := y') (n := y) hmem.1 hmem.2 le_rfl hg.period_pos (by linarith)).2
  · have hfix := (hκ (κ.1⁻¹ r')).1 j
    rw [show κ.1 (κ.1⁻¹ r') = r' from κ.1.apply_symm_apply r', ← hj, ← hunit,
      (hκ hg.unit).1] at hfix
    exact (κ.2.1.injective hfix).symm

/-- Of an event that is in no shadow no two images fall on one hand at one moment. -/
theorem image_injective {e : Event α} (hj : 1 ≤ e.juggler ∧ e.juggler ≤ J)
    (hfree : ¬g.Shadows e.juggler) {k l : ℤ} {i : ℕ} (htime : g.imageTime e k = g.imageTime e l)
    (hhand : Generated.SameHand ⟨i, k, (g.image k).apply e⟩ ⟨i, l, (g.image l).apply e⟩) :
    k = l := by
  have hk := hg.shift_mem _ (hg.representative_mem k)
  have hl := hg.shift_mem _ (hg.representative_mem l)
  rw [imageTime_eq, imageTime_eq] at htime
  obtain ⟨hdiv, hshift⟩ := period_unique (m := k / (g.size : ℤ)) (n := l / (g.size : ℤ)) hk.1 hk.2
    hl.1 hl.2 (by linarith)
  rw [Transform.sameHand_iff (hg.image_fits k) (hg.image_fits l) hj, hg.jugglers_image,
    hg.jugglers_image] at hhand
  refine hg.eq_of_motion_eq hdiv ?_
  by_contra hne
  let rep (k : ℤ) : g.Rep := ⟨_, mem_motions.mpr ⟨_, hg.representative_mem k, rfl⟩⟩
  have hne' : rep k ≠ rep l := fun h ↦ hne (congrArg Subtype.val h)
  exact hfree (hg.shadows_of_agree hs hne' hshift hhand)

end SymmetryGroup.IsGroupOf

namespace Moment.Expanded

variable {seeds : List (Event α)} {loop : Window α} {moments : List (Moment α)}

/-- Where no seed is in a shadow, all that is made is kept. -/
theorem mem_kept (x : Expanded seeds g J N loop moments) (hg : g.IsGroupOf symmetries J N)
    (hs : SymmetryGroup.Separated g.period symmetries) (hseeds : ∀ e ∈ seeds, Placed J N e)
    (hfree : ∀ e ∈ seeds, ¬g.Shadows e.juggler) {o : Generated α} (ho : o ∈ x.made) :
    o ∈ x.kept := by
  obtain ⟨e, he, heq⟩ := x.run.generated ho
  obtain ⟨k, hk, hhand, hseed, hle, hnear, -⟩ := x.exists_kept ho
  have hk' := x.eq_image_of_seed he hk hseed
  have hmem := List.mem_of_getElem? he
  rw [hk', heq] at hhand hle hnear
  rw [SymmetryGroup.time_image, SymmetryGroup.time_image] at hle hnear
  have htime := hg.imageTime_eq_of_near hs e
    (by rwa [abs_of_nonneg (sub_nonneg.mpr hle)] : |g.imageTime e o.image - _| < _)
  rw [heq, hg.image_injective hs (hseeds e hmem).juggler (hfree e hmem) htime
    ⟨hhand.1.symm, hhand.2.symm⟩, ← hk']
  exact hk

end Moment.Expanded

end Juggling
