import Mathlib
import Juggling.Proofs.Rebounds
import Juggling.Proofs.Windowed

namespace Juggling

open Set Filter Topology

/-- About a time a height falls freely. -/
def FallsAt (g : ℝ) (z : ℝ → ℝ) (t : ℝ) : Prop :=
  ∃ v : ℝ → ℝ, (∀ᶠ s in 𝓝 t, HasDerivAt z (v s) s) ∧ HasDerivAt v (-g) t

/-- At a time a height stops falling and rises with part of the speed. -/
def SpringsAt (kept : ℝ) (z : ℝ → ℝ) (t : ℝ) : Prop :=
  ∃ impact > 0, HasDerivWithinAt z (-impact) (Iic t) t ∧
    HasDerivWithinAt z (kept * impact) (Ici t) t

theorem FallsAt.congr {g t : ℝ} {z z' : ℝ → ℝ} (h : FallsAt g z t) (heq : z' =ᶠ[𝓝 t] z) :
    FallsAt g z' t := by
  obtain ⟨v, hz, hv⟩ := h
  refine ⟨v, ?_, hv⟩
  filter_upwards [hz, heq.eventuallyEq_nhds] with s hs heqs
  exact hs.congr_of_eventuallyEq heqs

theorem SpringsAt.congr {kept t : ℝ} {z z' : ℝ → ℝ} (h : SpringsAt kept z t)
    (heq : z' =ᶠ[𝓝 t] z) : SpringsAt kept z' t := by
  obtain ⟨impact, himpact, hbefore, hafter⟩ := h
  exact ⟨impact, himpact,
    hbefore.congr_of_eventuallyEq (heq.filter_mono nhdsWithin_le_nhds) heq.eq_of_nhds,
    hafter.congr_of_eventuallyEq (heq.filter_mono nhdsWithin_le_nhds) heq.eq_of_nhds⟩

/-- A height over a window of time, of a prop that hops so often from the floor. -/
structure Court.Hops (c : Court ℝ) (n : ℕ) (w : Window ℝ) (z : ℝ → ℝ) : Prop where
  above : ∀ t ∈ Icc w.low w.high, c.floor ≤ z t
  count : {t ∈ Ioo w.low w.high | z t = c.floor}.encard = n
  falls : ∀ t ∈ Ioo w.low w.high, c.floor < z t → FallsAt c.g z t
  springs : ∀ t ∈ Ioo w.low w.high, z t = c.floor → SpringsAt c.kept z t

theorem Court.Hops.congr {c : Court ℝ} {n : ℕ} {w : Window ℝ} {z z' : ℝ → ℝ} (h : c.Hops n w z)
    (heq : ∀ t ∈ Icc w.low w.high, z' t = z t) : c.Hops n w z' := by
  have hnear {t : ℝ} (ht : t ∈ Ioo w.low w.high) : z' =ᶠ[𝓝 t] z :=
    Filter.eventually_of_mem (Icc_mem_nhds ht.1 ht.2) heq
  have hat {t : ℝ} (ht : t ∈ Ioo w.low w.high) : z' t = z t := heq t (Ioo_subset_Icc_self ht)
  refine ⟨fun t ht ↦ (h.above t ht).trans_eq (heq t ht).symm, ?_,
    fun t ht hup ↦ (h.falls t ht (hat ht ▸ hup)).congr (hnear ht),
    fun t ht hdown ↦ (h.springs t ht (hat ht ▸ hdown)).congr (hnear ht)⟩
  rw [← h.count]
  congr 1
  ext t
  exact and_congr_right fun ht ↦ by rw [hat ht]

namespace Arc

variable {a : Arc ℝ} {c : Court ℝ}

theorem hasDerivAt (a : Arc ℝ) (g t : ℝ) :
    HasDerivAt (a.heightAt g) (a.speed - g * (t - a.time)) t := by
  have hline := (hasDerivAt_id' t).sub_const a.time
  have hsum := ((hline.const_mul a.speed).const_add a.height).sub
    ((hline.const_mul (g / 2)).mul hline)
  refine (hsum.congr_deriv (by ring)).congr_of_eventuallyEq (.of_forall fun s ↦ ?_)
  exact a.heightAt_eq g s

theorem fallsAt (a : Arc ℝ) (g t : ℝ) : FallsAt g (a.heightAt g) t := by
  refine ⟨_, .of_forall fun s ↦ a.hasDerivAt g s, ?_⟩
  have hline := ((hasDerivAt_id' t).sub_const a.time).const_mul g
  exact (hline.const_sub a.speed).congr_deriv (by ring)

theorem heightAt_time (a : Arc ℝ) (g : ℝ) : a.heightAt g a.time = a.height := by
  rw [heightAt_eq]
  ring

theorem Flies.floor_le (ha : a.Flies c) : c.floor ≤ a.height := by
  rcases ha with hlt | ⟨heq, -⟩
  · exact hlt.le
  · exact heq.ge

variable (hg : 0 < c.g) (ha : a.Flies c)

include hg ha

theorem impact_pos : 0 < a.impact c := by
  rw [impact_eq hg, Real.sqrt_pos]
  rcases ha with hlt | ⟨heq, hup⟩
  · have := sub_pos.mpr hlt
    positivity
  · rw [heq, sub_self, mul_zero, add_zero]
    positivity

theorem speed_le_impact : a.speed ≤ a.impact c := by
  refine (abs_le_of_sq_le_sq' ?_ (impact_pos hg ha).le).2
  have := mul_nonneg (mul_pos two_pos hg).le (sub_nonneg.mpr ha.floor_le)
  rw [impact_sq hg ha.floor_le]
  linarith

theorem heightAt_sub_floor (t : ℝ) : a.heightAt c.g t - c.floor =
    c.g / 2 * (t - a.time + (a.impact c - a.speed) / c.g) * (a.contact c - t) := by
  have hsq := impact_sq hg ha.floor_le
  rw [heightAt_eq, contact_eq hg]
  field_simp
  linear_combination -hsq

/-- Before its contact an arc is above the floor. -/
theorem floor_lt_heightAt {t : ℝ} (ht : t ∈ Ioo a.time (a.contact c)) :
    c.floor < a.heightAt c.g t := by
  have hslow : 0 ≤ (a.impact c - a.speed) / c.g :=
    div_nonneg (sub_nonneg.mpr (speed_le_impact hg ha)) hg.le
  have hafter := sub_pos.mpr ht.1
  have hbefore := sub_pos.mpr ht.2
  rw [← sub_pos, heightAt_sub_floor hg ha]
  positivity

theorem heightAt_contact : a.heightAt c.g (a.contact c) = c.floor := by
  rw [← sub_eq_zero, heightAt_sub_floor hg ha, sub_self, mul_zero]

theorem floor_le_heightAt {t : ℝ} (ht : t ∈ Icc a.time (a.contact c)) :
    c.floor ≤ a.heightAt c.g t := by
  rcases ht.1.eq_or_lt with rfl | hafter
  · exact (a.heightAt_time c.g).symm ▸ ha.floor_le
  · rcases ht.2.eq_or_lt with rfl | hbefore
    · exact (heightAt_contact hg ha).ge
    · exact (floor_lt_heightAt hg ha ⟨hafter, hbefore⟩).le

end Arc

namespace Court

variable {c : Court ℝ} {a : Arc ℝ} {high : ℝ} (hg : 0 < c.g) (ha : a.Flies c)

include hg ha

/-- One arc is no hop. -/
theorem Hops.of_arc (hhigh : high ≤ a.contact c) : c.Hops 0 ⟨a.time, high⟩ (a.heightAt c.g) := by
  have hup (t : ℝ) (ht : t ∈ Ioo a.time high) : c.floor < a.heightAt c.g t :=
    Arc.floor_lt_heightAt hg ha ⟨ht.1, ht.2.trans_le hhigh⟩
  refine ⟨fun t ht ↦ Arc.floor_le_heightAt hg ha ⟨ht.1, ht.2.trans hhigh⟩, ?_,
    fun t _ _ ↦ a.fallsAt c.g t, fun t ht heq ↦ absurd heq (hup t ht).ne'⟩
  rw [Nat.cast_zero, encard_eq_zero]
  exact eq_empty_of_forall_notMem fun t ht ↦ (hup t ht.1).ne' ht.2

/-- An arc down to the floor before hops is one more hop. -/
theorem Hops.cons {n : ℕ} {z z' : ℝ → ℝ} (h : c.Hops n ⟨a.contact c, high⟩ z')
    (hlt : a.contact c < high) (hfloor : z' (a.contact c) = c.floor)
    (hspring : HasDerivWithinAt z' (c.kept * a.impact c) (Ici (a.contact c)) (a.contact c))
    (hbefore : ∀ t < a.contact c, z t = a.heightAt c.g t)
    (hafter : ∀ t, a.contact c ≤ t → z t = z' t) : c.Hops (n + 1) ⟨a.time, high⟩ z := by
  have hat : z (a.contact c) = c.floor := (hafter _ le_rfl).trans hfloor
  have hup {t : ℝ} (ht : t ∈ Ioo a.time high) (hlt : t < a.contact c) : c.floor < z t :=
    hbefore t hlt ▸ Arc.floor_lt_heightAt hg ha ⟨ht.1, hlt⟩
  have hnear {t : ℝ} (ht : a.contact c < t) : z =ᶠ[𝓝 t] z' :=
    eventually_of_mem (Ioi_mem_nhds ht) fun s hs ↦ hafter s (le_of_lt hs)
  refine ⟨fun t ht ↦ ?_, ?_, fun t ht hup' ↦ ?_, fun t ht heq ↦ ?_⟩
  · rcases lt_or_ge t (a.contact c) with htime | htime
    · rw [hbefore t htime]
      exact Arc.floor_le_heightAt hg ha ⟨ht.1, htime.le⟩
    · rw [hafter t htime]
      exact h.above t ⟨htime, ht.2⟩
  · -- The contact comes before those of the hops.
    have hset : {t ∈ Ioo a.time high | z t = c.floor} =
        insert (a.contact c) {t ∈ Ioo (a.contact c) high | z' t = c.floor} := by
      ext t
      constructor
      · rintro ⟨ht, heq⟩
        rcases lt_trichotomy t (a.contact c) with htime | rfl | htime
        · exact absurd heq (hup ht htime).ne'
        · exact mem_insert _ _
        · exact mem_insert_of_mem _ ⟨⟨htime, ht.2⟩, hafter t htime.le ▸ heq⟩
      · rintro (rfl | ⟨ht, heq⟩)
        · exact ⟨⟨Arc.time_lt_contact hg ha, hlt⟩, hat⟩
        · exact ⟨⟨(Arc.time_lt_contact hg ha).trans ht.1, ht.2⟩,
            (hafter t ht.1.le).trans heq⟩
    rw [hset, encard_insert_of_notMem fun hmem ↦ lt_irrefl _ hmem.1.1, h.count]
    rfl
  · rcases lt_trichotomy t (a.contact c) with htime | rfl | htime
    · exact (a.fallsAt c.g t).congr (eventually_of_mem (Iio_mem_nhds htime) hbefore)
    · exact absurd hat hup'.ne'
    · exact (h.falls t ⟨htime, ht.2⟩ (hafter t htime.le ▸ hup')).congr (hnear htime)
  · rcases lt_trichotomy t (a.contact c) with htime | rfl | htime
    · exact absurd heq (hup ht htime).ne'
    · have hfall := (a.hasDerivAt c.g (a.contact c)).congr_deriv (Arc.speed_contact)
      refine ⟨a.impact c, Arc.impact_pos hg ha, ?_, hspring.congr hafter (hafter _ le_rfl)⟩
      have hmeets := hat.trans (Arc.heightAt_contact hg ha).symm
      refine hfall.hasDerivWithinAt.congr (fun s hs ↦ ?_) hmeets
      rcases (show s ≤ a.contact c from hs).lt_or_eq with hlt | rfl
      · exact hbefore s hlt
      · exact hmeets
    · exact (h.springs t ⟨htime, ht.2⟩ (hafter t htime.le ▸ heq)).congr (hnear htime)

omit hg ha

/-- The height of a prop that goes from arc to arc, also before the first and after the last. -/
noncomputable def heightAt (c : Court ℝ) (a : Arc ℝ) (bs : List (Arc ℝ)) (t : ℝ) : ℝ :=
  (pieceAt Arc.time t a bs).heightAt c.g t

theorem hasDerivAt_last {bs : List (Arc ℝ)} (htimes : ∀ b ∈ bs, b.time < high) :
    HasDerivAt (c.heightAt a bs) ((bs.getLast?.getD a).speed -
      c.g * (high - (bs.getLast?.getD a).time)) high := by
  have hlate : ∀ᶠ t in 𝓝 high, ∀ b ∈ bs, b.time ≤ t :=
    (eventually_all_finite bs.finite_toSet).mpr fun b hb ↦ eventually_ge_nhds (htimes b hb)
  refine (Arc.hasDerivAt _ c.g high).congr_of_eventuallyEq ?_
  filter_upwards [hlate] with t ht
  rw [heightAt, pieceAt_last ht]

include hg ha

theorem heightAt_time {bs : List (Arc ℝ)} (hbs : c.Rebounds a bs) :
    c.heightAt a bs a.time = a.height := by
  rw [heightAt, pieceAt_time hg hbs ha, Arc.heightAt_time]

theorem hasDerivAt_time {bs : List (Arc ℝ)} (hbs : c.Rebounds a bs) :
    HasDerivAt (c.heightAt a bs) a.speed a.time := by
  have hfirst := (a.hasDerivAt c.g a.time).congr_deriv (by rw [sub_self, mul_zero, sub_zero])
  refine hfirst.congr_of_eventuallyEq ?_
  cases bs with
  | nil => exact .of_forall fun t ↦ rfl
  | cons b bs =>
    obtain ⟨rfl, -⟩ := hbs
    refine eventually_of_mem (Iio_mem_nhds (Arc.time_lt_contact hg ha)) fun t ht ↦ ?_
    rw [heightAt, pieceAt, if_neg (not_le.mpr ht)]

/-- A prop hops as often as there are arcs after the first. -/
theorem hops_of_rebounds (hk : 0 < c.kept) {bs : List (Arc ℝ)} (hbs : c.Rebounds a bs)
    (htimes : ∀ b ∈ bs, b.time < high) (hlast : high ≤ (bs.getLast?.getD a).contact c) :
    c.Hops bs.length ⟨a.time, high⟩ (c.heightAt a bs) := by
  induction bs generalizing a with
  | nil => exact .of_arc hg ha hlast
  | cons b bs ih =>
    obtain ⟨rfl, hrest⟩ := hbs
    have hb := Arc.flies_rebound hg hk ha
    obtain ⟨htime, htimes⟩ := List.forall_mem_cons.mp htimes
    rw [List.getLast?_cons, Option.getD_some] at hlast
    have hspeed : (a.rebound c (a.contact c)).speed = c.kept * a.impact c := by
      rw [Arc.rebound_eq]
    have hspring := (hasDerivAt_time hg hb hrest).congr_deriv hspeed
    have hcontact : (a.rebound c (a.contact c)).time = a.contact c := rfl
    refine (ih hb hrest htimes hlast).cons hg ha htime (heightAt_time hg hb hrest)
      hspring.hasDerivWithinAt (fun t ht ↦ ?_) fun t ht ↦ ?_
    · rw [heightAt, pieceAt, hcontact, if_neg (not_le.mpr ht)]
    · rw [heightAt, heightAt, pieceAt, hcontact, if_pos ht]

end Court

end Juggling
