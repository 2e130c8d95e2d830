import Mathlib.Algebra.BigOperators.Intervals
import Juggling.Proofs.Landings

namespace Juggling

open Finset

theorem Court.isSome_rebounds_zero {α : Type} [Exact α] {c : Court α} {duration : α} {a : Arc α} :
    (c.rebounds? duration 0 a).isSome ↔ duration ≤ a.contact c := by
  rw [rebounds?]
  split_ifs with hle <;> simpa using hle

theorem Court.isSome_rebounds_succ {α : Type} [Exact α] {c : Court α} {duration : α} {n : ℕ}
    {a : Arc α} : (c.rebounds? duration (n + 1) a).isSome ↔ a.contact c < duration ∧
      (c.rebounds? duration n (a.rebound c (a.contact c))).isSome := by
  rw [rebounds?]
  split_ifs with hle
  · simp [hle]
  · simp [not_le.mp hle]

theorem Court.isSome_course {α : Type} [Exact α] {c : Court α} {n : ℕ}
    {height duration speed : α} : (c.course? n height duration speed).isSome =
      (c.rebounds? duration n ⟨0, height, speed⟩).isSome := by
  rw [course?, Option.isSome_map, Scalar.ofNat_eq, Nat.cast_zero]

theorem Arc.contact_root {α : Type} [Exact α] (a : Arc α) (c : Court α) :
    a.contact c = a.time +
      (a.speed + Exact.root (max (a.speed ^ 2 + 2 * c.g * (a.height - c.floor)) 0)) / c.g := by
  simp only [contact, Scalar.larger_eq, Scalar.ofNat_eq, sq, Nat.cast_zero, Nat.cast_ofNat]
  rfl

/-- A launch takes about so many times the speed of its first impact. -/
structure Takes (times slack lift span speed impact : ℝ) : Prop where
  impact_nonneg : 0 ≤ impact
  impact_sq : impact ^ 2 = speed ^ 2 + lift
  low : speed + impact * times < span
  high : span ≤ speed + impact * (times + 2 * slack)

/-- Evenly spaced launches of which the outer ones take more than so many times their impact, and
the middle one little more, do not lie far apart. -/
theorem Takes.gap_lt {times slack lift span speed gap w w₁ w₂ : ℝ} (htimes : 0 ≤ times)
    (h : Takes times slack lift span speed w)
    (h₁ : Takes times slack lift span (speed - gap) w₁)
    (h₂ : Takes times slack lift span (speed + gap) w₂) :
    (times ^ 2 - 1) * gap ^ 2 < 4 * slack * (times + slack) * w ^ 2 := by
  have hlow₁ : (w₁ * times) ^ 2 < (span - (speed - gap)) ^ 2 :=
    pow_lt_pow_left₀ (by linarith [h₁.low]) (mul_nonneg h₁.impact_nonneg htimes) two_ne_zero
  have hlow₂ : (w₂ * times) ^ 2 < (span - (speed + gap)) ^ 2 :=
    pow_lt_pow_left₀ (by linarith [h₂.low]) (mul_nonneg h₂.impact_nonneg htimes) two_ne_zero
  have hspan : 0 ≤ span - speed := by nlinarith [h.low, h.impact_nonneg]
  have hhigh : (span - speed) ^ 2 ≤ (w * (times + 2 * slack)) ^ 2 :=
    pow_le_pow_left₀ hspan (by linarith [h.high]) 2
  rw [mul_pow, h₁.impact_sq] at hlow₁
  rw [mul_pow, h₂.impact_sq] at hlow₂
  have hsq := h.impact_sq
  -- The outer launches add up to twice the middle one and twice the square of the gap.
  nlinarith

/-- Where the launches lie as far apart as the steps of the scan, the slack is not small. -/
theorem Takes.cube_lt {times slack lift span speed gap w w₁ w₂ : ℝ} (htimes : 1 ≤ times)
    (hslack : 0 < slack) (hslack' : slack ≤ 1) (hlift : 0 < lift) (hspan : span ≤ 1000 * gap)
    (h : Takes times slack lift span speed w) (h₁ : Takes times slack lift span (speed - gap) w₁)
    (h₂ : Takes times slack lift span (speed + gap) w₂) :
    (times - 1) ^ 3 < 4 * 10 ^ 6 * slack := by
  have hgap := h.gap_lt (by linarith) h₁ h₂
  have hsq := h.impact_sq
  have hup : 0 < w ^ 2 := by nlinarith
  have hback := (abs_le_of_sq_le_sq' (by linarith : speed ^ 2 ≤ w ^ 2) h.impact_nonneg).1
  have hfar : ((times - 1) * w) ^ 2 ≤ (1000 * gap) ^ 2 :=
    pow_le_pow_left₀ (mul_nonneg (by linarith) h.impact_nonneg) (by linarith [h.low]) 2
  refine lt_of_mul_lt_mul_right ?_ (by positivity : 0 ≤ (times + 1) * w ^ 2)
  calc (times - 1) ^ 3 * ((times + 1) * w ^ 2)
      = (times ^ 2 - 1) * ((times - 1) * w) ^ 2 := by ring
    _ ≤ (times ^ 2 - 1) * (1000 * gap) ^ 2 :=
        mul_le_mul_of_nonneg_left hfar (by nlinarith)
    _ = 10 ^ 6 * ((times ^ 2 - 1) * gap ^ 2) := by ring
    _ < 10 ^ 6 * (4 * slack * (times + slack) * w ^ 2) := by gcongr
    _ ≤ 10 ^ 6 * (4 * slack * (times + 1) * w ^ 2) := by gcongr
    _ = 4 * 10 ^ 6 * slack * ((times + 1) * w ^ 2) := by ring

namespace Arc

variable (a : Arc ℝ) (c : Court ℝ)

/-- The speed with which an arc comes down to the floor. -/
noncomputable def impact : ℝ := c.g * (a.contact c - a.time) - a.speed

variable {a c}

theorem impact_eq (hg : 0 < c.g) :
    a.impact c = √(a.speed ^ 2 + 2 * c.g * (a.height - c.floor)) := by
  have hroot (x : ℝ) : Exact.root (max x 0) = √x := by
    rcases le_total x 0 with hx | hx
    · rw [max_eq_right hx, Real.sqrt_eq_zero_of_nonpos hx]
      exact Real.sqrt_zero
    · rw [max_eq_left hx]
      rfl
  rw [impact, contact_root, hroot, add_sub_cancel_left, mul_div_cancel₀ _ hg.ne',
    add_sub_cancel_left]

theorem impact_nonneg (hg : 0 < c.g) : 0 ≤ a.impact c := by
  rw [impact_eq hg]
  exact Real.sqrt_nonneg _

theorem contact_eq (hg : 0 < c.g) : a.contact c = a.time + (a.speed + a.impact c) / c.g := by
  rw [impact, add_sub_cancel, mul_div_cancel_left₀ _ hg.ne', add_sub_cancel]

theorem impact_sq (hg : 0 < c.g) (ha : c.floor ≤ a.height) :
    a.impact c ^ 2 = a.speed ^ 2 + 2 * c.g * (a.height - c.floor) := by
  have := sub_nonneg.mpr ha
  rw [impact_eq hg]
  exact Real.sq_sqrt (by positivity)

theorem impact_floor {time speed : ℝ} (hg : 0 < c.g) (hup : 0 ≤ speed) :
    (Arc.mk time c.floor speed).impact c = speed := by
  rw [impact_eq hg, sub_self, mul_zero, add_zero, Real.sqrt_sq hup]

theorem contact_floor {time speed : ℝ} (hg : 0 < c.g) (hup : 0 ≤ speed) :
    c.g * (Arc.mk time c.floor speed).contact c = c.g * time + 2 * speed := by
  rw [contact_eq hg, impact_floor hg hup]
  field_simp
  ring

theorem speed_contact : a.speed - c.g * (a.contact c - a.time) = -a.impact c :=
  (neg_sub _ _).symm

theorem rebound_eq : a.rebound c (a.contact c) = ⟨a.contact c, c.floor, c.kept * a.impact c⟩ := by
  rw [rebound, speed_contact, neg_neg, mul_comm]

end Arc

namespace Court

variable {c : Court ℝ} {duration : ℝ} {n : ℕ}

/-- What so many contacts leave of a speed, added up from the speed itself on. -/
noncomputable def left (c : Court ℝ) (n : ℕ) : ℝ := ∑ i ∈ range n, c.kept ^ i

theorem left_succ (c : Court ℝ) (n : ℕ) : c.left (n + 1) = 1 + c.kept * c.left n := by
  rw [left, sum_range_succ', left, mul_sum, add_comm]
  simp [pow_succ, mul_comm]

theorem left_add_pow (c : Court ℝ) (n : ℕ) : c.left (n + 1) = c.left n + c.kept ^ n :=
  sum_range_succ _ _

theorem mul_pow_le_left (hk : 0 ≤ c.kept) (hkept : c.kept ≤ 1) {m n : ℕ} (hmn : m ≤ n) :
    m * c.kept ^ m ≤ c.kept * c.left n := by
  calc m * c.kept ^ m
      = ∑ _i ∈ range m, c.kept ^ m := by rw [sum_const, card_range, nsmul_eq_mul]
    _ ≤ ∑ i ∈ range m, c.kept ^ (i + 1) :=
        sum_le_sum fun i hi ↦ pow_le_pow_of_le_one hk hkept (mem_range.mp hi)
    _ ≤ ∑ i ∈ range n, c.kept ^ (i + 1) :=
        sum_le_sum_of_subset_of_nonneg (range_mono hmn) fun i _ _ ↦ pow_nonneg hk _
    _ = c.kept * c.left n := by
        rw [left, mul_sum]
        exact sum_congr rfl fun i _ ↦ pow_succ' _ _

section

variable (hg : 0 < c.g) (hk : 0 ≤ c.kept)

include hg hk

/-- How long a prop that leaves the floor takes for so many arcs and no more. -/
theorem floor_span {time speed : ℝ} (hup : 0 ≤ speed) (htime : time < duration)
    (h : (c.rebounds? duration n ⟨time, c.floor, speed⟩).isSome) :
    c.g * time + 2 * speed * c.left n < c.g * duration ∧
      c.g * duration ≤ c.g * time + 2 * speed * c.left (n + 1) := by
  induction n generalizing time speed with
  | zero =>
    have hlast := mul_le_mul_of_nonneg_left (isSome_rebounds_zero.mp h) hg.le
    have hfirst := mul_lt_mul_of_pos_left htime hg
    have hcontact : c.g * (Arc.mk time c.floor speed).contact c = c.g * time + 2 * speed :=
      Arc.contact_floor hg hup
    rw [left_succ]
    simp only [left, range_zero, sum_empty, mul_zero, add_zero, mul_one]
    exact ⟨hfirst, by linarith⟩
  | succ n ih =>
    obtain ⟨hlt, h⟩ := isSome_rebounds_succ.mp h
    rw [Arc.rebound_eq, Arc.impact_floor hg hup] at h
    obtain ⟨hlow, hhigh⟩ := ih (mul_nonneg hk hup) hlt h
    rw [Arc.contact_floor hg hup] at hlow hhigh
    rw [left_succ, left_succ c (n + 1)]
    constructor <;> linarith

/-- How long a prop takes that is launched to bounce so often and no more. -/
theorem exists_takes {height speed : ℝ} (hheight : c.floor ≤ height)
    (h : (c.course? (n + 1) height duration speed).isSome) :
    ∃ impact, Takes (1 + 2 * (c.kept * c.left n)) (c.kept ^ (n + 1))
      (2 * c.g * (height - c.floor)) (c.g * duration) speed impact := by
  rw [isSome_course, isSome_rebounds_succ] at h
  obtain ⟨hlt, h⟩ := h
  have himpact : 0 ≤ (Arc.mk 0 height speed).impact c := Arc.impact_nonneg hg
  rw [Arc.rebound_eq] at h
  obtain ⟨hlow, hhigh⟩ := floor_span hg hk (mul_nonneg hk himpact) hlt h
  have hcontact : c.g * (Arc.mk 0 height speed).contact c =
      speed + (Arc.mk 0 height speed).impact c := by
    rw [Arc.contact_eq hg, zero_add, mul_div_cancel₀ _ hg.ne']
  rw [hcontact] at hlow hhigh
  rw [left_add_pow] at hhigh
  refine ⟨_, himpact, Arc.impact_sq hg hheight, by linarith, ?_⟩
  rw [pow_succ]
  linarith

end

/-- Of launches that lie as far apart as the steps of the scan not all bounce so often. -/
theorem contacts_lt (hg : 0 < c.g) (hk : 0 < c.kept) (hkept : c.kept ≤ 1) {height low high : ℝ}
    (hheight : c.floor < height) (hduration : c.g * duration ≤ 500 * (high - low))
    (hlow : (c.course? n height duration low).isSome)
    (hmid : (c.course? n height duration ((low + high) / 2)).isSome)
    (hhigh : (c.course? n height duration high).isSome) : n < 300 := by
  by_contra! hn
  obtain ⟨m, rfl⟩ := Nat.exists_eq_succ_of_ne_zero (by omega : n ≠ 0)
  rw [show low = (low + high) / 2 - (high - low) / 2 by ring] at hlow
  rw [show high = (low + high) / 2 + (high - low) / 2 by ring] at hhigh
  obtain ⟨w, hw⟩ := exists_takes hg hk.le hheight.le hmid
  obtain ⟨w₁, hw₁⟩ := exists_takes hg hk.le hheight.le hlow
  obtain ⟨w₂, hw₂⟩ := exists_takes hg hk.le hheight.le hhigh
  -- A third of so many contacts already leave more than the slack allows.
  have hmany := mul_pow_le_left hk.le hkept (by omega : 100 ≤ m)
  push_cast at hmany
  have hleft := pow_pos hk 100
  have hfew := hw.cube_lt (by linarith) (pow_pos hk _) (pow_le_one₀ hk.le hkept)
    (mul_pos (mul_pos two_pos hg) (sub_pos.mpr hheight)) (by linarith) hw₁ hw₂
  have hcube : 8 * 10 ^ 6 * c.kept ^ 300 ≤ (1 + 2 * (c.kept * c.left m) - 1) ^ 3 := by
    calc 8 * 10 ^ 6 * c.kept ^ 300 = (200 * c.kept ^ 100) ^ 3 := by
          rw [mul_pow, ← pow_mul]
          norm_num
      _ ≤ (1 + 2 * (c.kept * c.left m) - 1) ^ 3 :=
          pow_le_pow_left₀ (by positivity) (by linarith) 3
  have hslack : c.kept ^ (m + 1) ≤ c.kept ^ 300 := pow_le_pow_of_le_one hk.le hkept hn
  have := pow_pos hk 300
  linarith

end Court

/-- However often a prop should bounce, no launch is found for more than a few hundred contacts. -/
theorem Aim.bounces_lt {aim : Aim ℝ} {speed : ℝ} (hg : 0 < aim.court.g) (hk : 0 < aim.court.kept)
    (hkept : aim.court.kept ≤ 1) (hstart : aim.court.floor < aim.startHeight)
    (hduration : 0 < aim.duration) (h : aim.launchSpeed = .ok speed) : aim.bounces < 300 := by
  obtain ⟨i, -, -, hlow, hhigh, hmid, -⟩ := exists_interval hg hduration h
  have hgap := lt_scanGap hg hduration i
  simp only [miss?, Option.isSome_map] at hlow hhigh hmid
  exact Court.contacts_lt hg hk hkept hstart (by linarith) hlow hmid hhigh

/-- What a launch that bounces once misses by, from the speed `w` of the impact and the speed `q`
that is lost from there on. -/
theorem Aim.miss?_once {aim : Aim ℝ} {speed w q : ℝ} (hone : aim.bounces = 1)
    (hg : 0 < aim.court.g) (hk : 0 ≤ aim.court.kept) (hw : 0 ≤ w)
    (hsq : w ^ 2 = speed ^ 2 + 2 * aim.court.g * (aim.startHeight - aim.court.floor))
    (hq : q = aim.court.g * aim.duration - (speed + w)) (hlow : 0 < q)
    (hhigh : q ≤ 2 * (aim.court.kept * w)) : aim.miss? speed = some (aim.court.floor +
      (2 * (aim.court.kept * w) * q - q ^ 2) / (2 * aim.court.g) - aim.endHeight,
      aim.court.kept * w - q) := by
  have himpact : (Arc.mk 0 aim.startHeight speed).impact aim.court = w := by
    rw [Arc.impact_eq hg, ← hsq, Real.sqrt_sq hw]
  have hcontact : (Arc.mk 0 aim.startHeight speed).contact aim.court =
      aim.duration - q / aim.court.g := by
    rw [Arc.contact_eq hg, himpact, hq]
    field_simp
    ring
  have hrebound := Arc.rebound_eq (a := ⟨0, aim.startHeight, speed⟩) (c := aim.court)
  rw [himpact, hcontact] at hrebound
  have hafter : aim.duration ≤ (Arc.mk (aim.duration - q / aim.court.g) aim.court.floor
      (aim.court.kept * w)).contact aim.court := by
    rw [Arc.contact_eq hg, Arc.impact_floor hg (mul_nonneg hk hw), ← sub_le_iff_le_add',
      sub_sub_cancel]
    gcongr
    linarith
  have hbefore := div_pos hlow hg
  rw [miss?_of_contacts hone rfl (by rw [hcontact, hrebound]) (by rw [hcontact]; linarith) hafter,
    Arc.heightAt_eq]
  congr 2
  · field_simp
    ring
  · field_simp
    ring

end Juggling
