import Mathlib.Algebra.Group.Subgroup.Lattice
import Juggling.Proofs.Images

namespace Juggling.SymmetryGroup

variable {α : Type} [Exact α] {symmetries : List (Symmetry α)} {J N : ℕ} {g : SymmetryGroup α}

/-- All sums and differences of the shifts that symmetries declare. -/
def offsets (period : α) (symmetries : List (Symmetry α)) : AddSubgroup α :=
  .closure {x | ∃ s ∈ symmetries, x = (declared period s).shift}

/-- No two offsets are different but taken for the same. -/
def Separated (period : α) (symmetries : List (Symmetry α)) : Prop :=
  ∀ x ∈ offsets period symmetries, x ≠ 0 → timeTolerance ≤ |x|

theorem Separated.eq_zero {period : α} (hs : Separated period symmetries) {x : α}
    (hx : x ∈ offsets period symmetries) (hlt : |x| < timeTolerance) : x = 0 := by
  by_contra hne
  exact absurd hlt (not_lt.mpr (hs x hx hne))

/-- Different multiples of a unit are as far apart as it is long. -/
theorem eq_or_le_abs_sub {unit x y : α} (hu : 0 < unit) (hx : x ∈ AddSubgroup.zmultiples unit)
    (hy : y ∈ AddSubgroup.zmultiples unit) : x = y ∨ unit ≤ |x - y| := by
  obtain ⟨n, hn⟩ := AddSubgroup.mem_zmultiples_iff.mp (AddSubgroup.sub_mem _ hx hy)
  rw [← hn, zsmul_eq_mul, abs_mul, abs_of_pos hu]
  rcases eq_or_ne n 0 with rfl | hne
  · exact .inl (sub_eq_zero.mp (by rw [← hn, zero_smul]))
  · have hone : (1 : α) ≤ |(n : α)| := by
      exact_mod_cast Int.one_le_abs hne
    exact .inr (le_mul_of_one_le_left hu.le hone)

theorem offsets_le_zmultiples {period unit : α}
    (h : ∀ s ∈ symmetries, (declared period s).shift ∈ AddSubgroup.zmultiples unit) :
    offsets period symmetries ≤ AddSubgroup.zmultiples unit := by
  rw [offsets, AddSubgroup.closure_le]
  rintro x ⟨s, hs, rfl⟩
  exact h s hs

/-- Offsets that are all multiples of one unit are as far apart as it is long. -/
theorem le_abs_of_multiples {period unit x : α} (hu : 0 < unit)
    (h : ∀ s ∈ symmetries, ∃ n : ℤ, (declared period s).shift = n * unit)
    (hx : x ∈ offsets period symmetries) (hne : x ≠ 0) : unit ≤ |x| := by
  have hle : offsets period symmetries ≤ AddSubgroup.zmultiples unit :=
    offsets_le_zmultiples fun s hs ↦ by
      obtain ⟨n, hn⟩ := h s hs
      exact ⟨n, by rw [hn]; exact zsmul_eq_mul unit n⟩
  simpa using (eq_or_le_abs_sub hu (hle hx) (AddSubgroup.zero_mem _)).resolve_left hne

theorem separated_of_multiples {period : α} (unit : α) (hu : timeTolerance ≤ unit)
    (h : ∀ s ∈ symmetries, ∃ n : ℤ, (declared period s).shift = n * unit) :
    Separated period symmetries := fun _ hx hne ↦
  hu.trans (le_abs_of_multiples (timeTolerance_pos.trans_le hu) h hx hne)

section Exactness

variable {delay f h : Transform α}

theorem motion_normalize (hd : delay.Fits J N) (hf : f.Fits J N)
    (hexact : |f.shift - wholePeriods delay.shift f.shift * delay.shift| < timeTolerance →
      f.shift - wholePeriods delay.shift f.shift * delay.shift = 0) :
    (normalize delay f).motion =
      f.motion * delay.motion ^ (-wholePeriods delay.shift f.shift) := by
  have hpower := hd.power (-wholePeriods delay.shift f.shift)
  rw [← Transform.motion_power hd, ← Transform.motion_andThen hf hpower]
  refine Motion.ext ?_ ?_ ?_
  · show (normalize delay f).shift = _
    rw [shift_normalize]
    split_ifs with hlt
    · rw [← hexact hlt]
      simp only [Transform.motion, Transform.shift_andThen, Transform.shift_power]
      push_cast
      ring
    · simp only [Transform.motion, Transform.shift_andThen, Transform.shift_power]
      push_cast
      ring
  · unfold normalize
    simp only
    split_ifs <;> rfl
  · unfold normalize
    simp only
    split_ifs <;> rfl

end Exactness

namespace IsGroupOf

theorem declared_shift_mem {s : Symmetry α} (hs : s ∈ symmetries) :
    (declared g.period s).shift ∈ offsets g.period symmetries :=
  AddSubgroup.subset_closure ⟨s, hs, rfl⟩

theorem period_mem (hg : g.IsGroupOf symmetries J N) :
    g.period ∈ offsets g.period symmetries := by
  obtain ⟨s, hs, hk⟩ := hg.delay_mem
  have := declared_shift_mem (g := g) hs
  rwa [hg.delay_eq s hs hk] at this

theorem generator_shift_mem {h : Transform α} (hh : h ∈ generators g.period symmetries) :
    h.shift ∈ offsets g.period symmetries := by
  obtain ⟨s, hs, -, rfl⟩ := mem_generators.mp hh
  exact declared_shift_mem hs

theorem rest_mem (hg : g.IsGroupOf symmetries J N) {x : α}
    (hx : x ∈ offsets g.period symmetries) (n : ℤ) :
    x - n * g.period ∈ offsets g.period symmetries := by
  have := (offsets g.period symmetries).zsmul_mem hg.period_mem n
  rw [zsmul_eq_mul] at this
  exact (offsets g.period symmetries).sub_mem hx this

theorem normalize_shift_mem (hg : g.IsGroupOf symmetries J N) {f : Transform α}
    (hf : f.shift ∈ offsets g.period symmetries) :
    (normalize g.delay f).shift ∈ offsets g.period symmetries := by
  rw [shift_normalize]
  split_ifs
  · exact (offsets g.period symmetries).zero_mem
  · exact hg.rest_mem hf _

theorem shift_mem_offsets (hg : g.IsGroupOf symmetries J N) :
    ∀ r ∈ g.representatives, r.shift ∈ offsets g.period symmetries := by
  refine hg.holds _ ?_ fun f h hh hf ↦ hg.normalize_shift_mem ?_
  · simp [Transform.identity]
  · exact (offsets g.period symmetries).add_mem hf (generator_shift_mem hh)

theorem exists_motion_normalize (hg : g.IsGroupOf symmetries J N)
    (hs : Separated g.period symmetries) {f : Transform α} (hf : f.Fits J N)
    (hshift : f.shift ∈ offsets g.period symmetries) :
    ∃ y : ℤ, (normalize g.delay f).motion = f.motion * g.delay.motion ^ y :=
  ⟨_, motion_normalize hg.delay_fits hf fun hlt ↦ hs.eq_zero (hg.rest_mem hshift _) hlt⟩

theorem generator_fits (hg : g.IsGroupOf symmetries J N) {h : Transform α}
    (hh : h ∈ generators g.period symmetries) : h.Fits J N := by
  obtain ⟨s, hs, -, rfl⟩ := mem_generators.mp hh
  exact hg.declared_fits s hs

/-- A representative followed by a generator is a representative followed by a power of the
delay. -/
theorem exists_product (hg : g.IsGroupOf symmetries J N) (hs : Separated g.period symmetries)
    {r h : Transform α} (hr : r ∈ g.representatives)
    (hh : h ∈ generators g.period symmetries) :
    ∃ r' ∈ g.representatives, ∃ y : ℤ,
      r'.motion = r.motion * h.motion * g.delay.motion ^ y := by
  have hfits := (hg.fits r hr).andThen (hg.generator_fits hh)
  have hmem : (r.andThen h).shift ∈ offsets g.period symmetries :=
    (offsets g.period symmetries).add_mem (hg.shift_mem_offsets r hr) (generator_shift_mem hh)
  obtain ⟨r', hr', hsame⟩ := hg.closed r hr h hh
  obtain ⟨y, hy⟩ := hg.exists_motion_normalize hs hfits hmem
  refine ⟨r', hr', y, ?_⟩
  rw [← Transform.motion_andThen (hg.fits r hr) (hg.generator_fits hh), ← hy]
  simp only [same, Bool.and_eq_true, decide_eq_true_eq, Scalar.abs_eq] at hsame
  refine (hg.fits r' hr').motion_eq_of_agrees (fits_normalize hg.delay_fits hfits) ?_
    hsame.1.2 hsame.2
  exact sub_eq_zero.mp <| hs.eq_zero
    ((offsets g.period symmetries).sub_mem (hg.shift_mem_offsets r' hr')
      (hg.normalize_shift_mem hmem)) hsame.1.1

/-- What holds of the identity and is inherited by products holds of all representatives. -/
theorem motion_induction (hg : g.IsGroupOf symmetries J N) (hs : Separated g.period symmetries)
    {C : Motion α → Prop} (h1 : C 1)
    (hstep : ∀ r ∈ g.representatives, ∀ h ∈ generators g.period symmetries, ∀ y : ℤ,
      C r.motion → C (r.motion * h.motion * g.delay.motion ^ y)) :
    ∀ r ∈ g.representatives, C r.motion := by
  -- The products that the closure takes are products of representatives.
  have key : ∀ r ∈ g.representatives, r.Fits J N ∧ r.shift ∈ offsets g.period symmetries ∧
      (∃ r' ∈ g.representatives, r'.motion = r.motion) ∧ C r.motion := by
    refine hg.holds _ ⟨.identity J N, by simp [Transform.identity], ?_, ?_⟩ ?_
    · obtain ⟨rest, hrest⟩ := hg.first
      exact ⟨_, Array.mem_toList_iff.mp (hrest ▸ List.mem_cons_self), rfl⟩
    · rwa [Transform.motion_identity]
    · rintro f h hh ⟨hf, hfshift, ⟨r, hr, hrf⟩, hC⟩
      have hfits := hf.andThen (hg.generator_fits hh)
      have hmem : (f.andThen h).shift ∈ offsets g.period symmetries :=
        (offsets g.period symmetries).add_mem hfshift (generator_shift_mem hh)
      obtain ⟨y, hy⟩ := hg.exists_motion_normalize hs hfits hmem
      rw [Transform.motion_andThen hf (hg.generator_fits hh), ← hrf] at hy
      refine ⟨fits_normalize hg.delay_fits hfits, hg.normalize_shift_mem hmem, ?_, ?_⟩
      · obtain ⟨r', hr', y', hy'⟩ := hg.exists_product hs hr hh
        -- Both are brought into the period, which only one power of the delay does.
        have hmem' := shift_normalize_mem hg.period_pos (f.andThen h)
        have hshift := congrArg Motion.shift hy
        have hshift' := congrArg Motion.shift hy'
        simp only [Motion.shift_mul, Motion.shift_zpow, Transform.shift_motion, shift_delay]
          at hshift hshift'
        obtain ⟨rfl, -⟩ := period_unique (m := y) (n := y') (hg.shift_mem r' hr').1
          (hg.shift_mem r' hr').2 hmem'.1 hmem'.2 (by linear_combination hshift' - hshift)
        exact ⟨r', hr', hy'.trans hy.symm⟩
      · rw [hy]
        exact hstep r hr h hh y (hrf ▸ hC)
  exact fun r hr ↦ (key r hr).2.2.2

end IsGroupOf

/-- Some image moves the events of a signed juggler like the given motion. -/
def Covers (g : SymmetryGroup α) (j : ℤ) (m : Motion α) : Prop :=
  ∃ k, Motion.AgreeAt j m (g.image k).motion

namespace IsGroupOf

theorem delay_signed (hg : g.IsGroupOf symmetries J N) (q : ℤ) :
    g.delay.motion ^ q ∈ Motion.signed :=
  Subgroup.zpow_mem _ hg.delay_fits.motion_mem_signed q

theorem covers_representative (hg : g.IsGroupOf symmetries J N) {r : Transform α}
    (hr : r ∈ g.representatives) (q : ℤ) (j : ℤ) :
    g.Covers j (r.motion * g.delay.motion ^ q) := by
  obtain ⟨k, hk⟩ := hg.exists_image hr q
  exact ⟨k, hk ▸ .refl _ _⟩

theorem exists_of_covers (hg : g.IsGroupOf symmetries J N) {j : ℤ} {m : Motion α}
    (h : g.Covers j m) : ∃ r ∈ g.representatives, ∃ q : ℤ,
      Motion.AgreeAt j m (r.motion * g.delay.motion ^ q) := by
  obtain ⟨k, hk⟩ := h
  exact ⟨_, hg.representative_mem k, _, hg.motion_image k ▸ hk⟩

theorem covers_mul_delay (hg : g.IsGroupOf symmetries J N) {j : ℤ} {m : Motion α}
    (h : g.Covers j m) (q : ℤ) : g.Covers j (m * g.delay.motion ^ q) := by
  obtain ⟨r, hr, p, hm⟩ := hg.exists_of_covers h
  obtain ⟨k, hk⟩ := hg.covers_representative hr (p + q) j
  refine ⟨k, (hm.mul_right (hg.delay_signed q)).trans ?_⟩
  rwa [mul_assoc, ← zpow_add]

theorem covers_congr {j : ℤ} {m m' : Motion α} (h : Motion.AgreeAt j m m')
    (hc : g.Covers j m') : g.Covers j m := by
  obtain ⟨k, hk⟩ := hc
  exact ⟨k, h.trans hk⟩

theorem jugglers_delay_zpow (hg : g.IsGroupOf symmetries J N) (q j : ℤ) :
    (g.delay.motion ^ q).jugglers j = j := by
  rw [Motion.jugglers_zpow, hg.delay_jugglers, one_zpow]
  rfl

/-- As many delays as their order change nothing but the time. -/
theorem delay_order_commute (hg : g.IsGroupOf symmetries J N) (m : Motion α) :
    Commute (g.delay.motion ^ (g.delay.paths.order : ℤ)) m := by
  have hpaths : (g.delay.motion ^ (g.delay.paths.order : ℤ)).paths = 1 := by
    rw [Motion.paths_zpow, zpow_natCast]
    exact hg.delay_fits.rearranges_paths.perm_pow_order
  refine Motion.ext ?_ (Equiv.ext fun j ↦ ?_) (Equiv.ext fun p ↦ ?_)
  · simp only [Motion.shift_mul]
    exact add_comm _ _
  · rw [Motion.jugglers_mul, Motion.jugglers_mul, hg.jugglers_delay_zpow, hg.jugglers_delay_zpow]
  · rw [Motion.paths_mul, Motion.paths_mul, hpaths]
    rfl

section Shuffle

variable (hg : g.IsGroupOf symmetries J N) (hs : Separated g.period symmetries)
  (hc : ∀ r ∈ g.representatives, ∀ h ∈ generators g.period symmetries, ∀ j : ℤ,
    g.Covers j (r.motion * g.delay.motion * h.motion))

include hg hs hc

/-- A delay before a representative can be moved behind it. -/
theorem covers_delay_mul :
    ∀ r ∈ g.representatives, ∀ j, g.Covers j (g.delay.motion * r.motion) := by
  refine hg.motion_induction hs (C := fun m ↦ ∀ j, g.Covers j (g.delay.motion * m)) (fun j ↦ ?_) ?_
  · obtain ⟨rest, hrest⟩ := hg.first
    have h1 := hg.covers_representative
      (Array.mem_toList_iff.mp (hrest ▸ List.mem_cons_self)) 1 j
    rwa [Transform.motion_identity, zpow_one, one_mul, ← mul_one g.delay.motion] at h1
  · intro r hr h hh y ih j
    obtain ⟨r₁, hr₁, q, hq⟩ := hg.exists_of_covers (ih j)
    -- The shifts leave room for just one delay.
    have hshift := hq.1
    simp only [Motion.shift_mul, Motion.shift_zpow, Transform.shift_motion, shift_delay] at hshift
    obtain ⟨rfl, -⟩ := period_unique (m := 1) (n := q) (hg.shift_mem r hr).1
      (hg.shift_mem r hr).2 (hg.shift_mem r₁ hr₁).1 (hg.shift_mem r₁ hr₁).2 (by push_cast; linarith)
    have hfits := (hg.generator_fits hh).motion_mem_signed
    have hcover := hg.covers_mul_delay (covers_congr (hq.mul_right hfits)
      (by simpa using hc r₁ hr₁ h hh j)) y
    simpa only [mul_assoc] using hcover

/-- A product of representatives is covered. -/
theorem covers_mul : ∀ r ∈ g.representatives, ∀ r₀ ∈ g.representatives, ∀ j,
    g.Covers j (r₀.motion * r.motion) := by
  refine hg.motion_induction hs
    (C := fun m ↦ ∀ r₀ ∈ g.representatives, ∀ j, g.Covers j (r₀.motion * m)) ?_ ?_
  · intro r₀ hr₀ j
    simpa using hg.covers_representative hr₀ 0 j
  · intro r hr h hh y ih r₀ hr₀ j
    obtain ⟨r₁, hr₁, q, hq⟩ := hg.exists_of_covers (ih r₀ hr₀ j)
    have hfits := (hg.generator_fits hh).motion_mem_signed
    have hstep : g.Covers j (r₁.motion * g.delay.motion ^ q * h.motion) := by
      -- The shifts leave room for at most one delay.
      have hshift := hq.1
      simp only [Motion.shift_mul, Motion.shift_zpow, Transform.shift_motion, shift_delay]
        at hshift
      have h0 := hg.shift_mem r₀ hr₀
      have h1 := hg.shift_mem r hr
      have h2 := hg.shift_mem r₁ hr₁
      have hq0 : 0 ≤ q := by
        by_contra hneg
        have : (q : α) + 1 ≤ 0 := by exact_mod_cast not_le.mp hneg
        nlinarith [hg.period_pos]
      have hq1 : q ≤ 1 := by
        by_contra hbig
        have : (2 : α) ≤ q := by exact_mod_cast not_le.mp hbig
        nlinarith [hg.period_pos]
      obtain rfl | rfl : q = 0 ∨ q = 1 := by omega
      · obtain ⟨r', hr', y', hy'⟩ := hg.exists_product hs hr₁ hh
        have := hg.covers_representative hr' (-y') j
        rwa [hy', mul_assoc _ (g.delay.motion ^ y'), ← zpow_add, add_neg_cancel, zpow_zero,
          mul_one, ← mul_one r₁.motion, ← zpow_zero g.delay.motion] at this
      · simpa using hc r₁ hr₁ h hh j
    have hcover := hg.covers_mul_delay (covers_congr (hq.mul_right hfits) hstep) y
    simpa only [mul_assoc] using hcover

theorem covers_delay_pow_mul (n : ℕ) : ∀ r ∈ g.representatives, ∀ j,
    g.Covers j (g.delay.motion ^ (n : ℤ) * r.motion) := by
  induction n with
  | zero =>
    intro r hr j
    simpa using hg.covers_representative hr 0 j
  | succ n ih =>
    intro r hr j
    obtain ⟨r₁, hr₁, q, hq⟩ := hg.exists_of_covers (ih r hr j)
    have hmove : Motion.AgreeAt j (g.delay.motion ^ ((n + 1 : ℕ) : ℤ) * r.motion)
        (g.delay.motion * r₁.motion * g.delay.motion ^ q) := by
      have hj : g.delay.motion.jugglers j = j := by simpa using hg.jugglers_delay_zpow 1 j
      have := Motion.AgreeAt.mul_left (h := g.delay.motion) (hj.symm ▸ hq)
      rw [← mul_assoc, ← mul_assoc] at this
      rwa [Nat.cast_succ, add_comm, zpow_add, zpow_one]
    exact covers_congr hmove (hg.covers_mul_delay (hg.covers_delay_mul hs hc r₁ hr₁ j) q)

theorem covers_delay_zpow_mul (q : ℤ) : ∀ r ∈ g.representatives, ∀ j,
    g.Covers j (g.delay.motion ^ q * r.motion) := by
  intro r hr j
  -- Enough rounds of the delay make the power positive, and can be taken back behind `r`.
  let rounds : ℤ := g.delay.paths.order * q.natAbs
  have hpos : 0 ≤ q + rounds := by
    have h1 : (1 : ℤ) ≤ g.delay.paths.order := by
      exact_mod_cast Permutation.order_pos g.delay.paths
    have h2 : (1 : ℤ) * q.natAbs ≤ g.delay.paths.order * q.natAbs :=
      mul_le_mul_of_nonneg_right h1 (by positivity)
    simp only [rounds]
    omega
  have hcomm : Commute (g.delay.motion ^ (-rounds)) r.motion := by
    have := (hg.delay_order_commute r.motion).zpow_left (-(q.natAbs : ℤ))
    rwa [← zpow_mul, mul_neg] at this
  have hsplit : g.delay.motion ^ q * r.motion =
      g.delay.motion ^ (q + rounds) * r.motion * g.delay.motion ^ (-rounds) := by
    rw [mul_assoc, ← hcomm.eq, ← mul_assoc, ← zpow_add, add_neg_cancel_right]
  have hpow := hg.covers_delay_pow_mul hs hc (q + rounds).toNat r hr j
  rw [Int.toNat_of_nonneg hpos] at hpow
  rw [hsplit]
  exact hg.covers_mul_delay hpow _

/-- Powers of the delay between a representative and a generator make no difference. -/
theorem covers_image_mul : ∀ r ∈ g.representatives, ∀ h ∈ generators g.period symmetries,
    ∀ q j : ℤ, g.Covers j (r.motion * g.delay.motion ^ q * h.motion) := by
  intro r hr h hh q j
  -- The generator itself is a representative up to a power of the delay.
  obtain ⟨rest, hrest⟩ := hg.first
  obtain ⟨r', hr', y, hy⟩ := hg.exists_product hs
    (Array.mem_toList_iff.mp (hrest ▸ List.mem_cons_self)) hh
  rw [Transform.motion_identity, one_mul] at hy
  obtain ⟨r₁, hr₁, q₁, hq₁⟩ :=
    hg.exists_of_covers (hg.covers_delay_zpow_mul hs hc q r' hr' (r.motion.jugglers j))
  have hmove := hq₁.mul_left (h := r.motion)
  have hcover := covers_congr hmove (by
    rw [← mul_assoc]
    exact hg.covers_mul_delay (hg.covers_mul hs hc r₁ hr₁ r hr j) q₁)
  have := hg.covers_mul_delay hcover (-y)
  rwa [hy, mul_assoc, mul_assoc, mul_assoc, ← zpow_add, add_neg_cancel, zpow_zero, mul_one,
    ← mul_assoc] at this

end Shuffle

end IsGroupOf

/-- Some representative moves the events of a juggler like the given transform. -/
def Serves (g : SymmetryGroup α) (j : ℕ) (f : Transform α) : Prop :=
  ∃ r ∈ g.representatives, r.shift = f.shift ∧ r.jugglers.apply j = f.jugglers.apply j ∧
    ∀ p ∈ f.paths.elements, r.paths.target p = f.paths.target p

instance (g : SymmetryGroup α) (j : ℕ) (f : Transform α) : Decidable (g.Serves j f) :=
  decidable_of_iff (∃ r ∈ g.representatives.toList, r.shift = f.shift ∧
    r.jugglers.apply j = f.jugglers.apply j ∧
    ∀ p ∈ f.paths.elements, r.paths.target p = f.paths.target p) (by simp [Serves])

theorem agreeAt_iff {f h : Transform α} (hf : f.Fits J N) (hh : h.Fits J N) {j : ℕ} (hj : j ≤ J) :
    Motion.AgreeAt j f.motion h.motion ↔ h.shift = f.shift ∧
      h.jugglers.apply j = f.jugglers.apply j ∧
      ∀ p ∈ f.paths.elements, h.paths.target p = f.paths.target p := by
  rw [← hf.motion_jugglers hj, ← hh.motion_jugglers hj]
  have hmem (p : ℕ) : p ∈ f.paths.elements ↔ 1 ≤ p ∧ p ≤ N := by
    rw [Permutation.mem_elements, hf.size_paths]
  refine ⟨fun ⟨hs, hj, hp⟩ ↦ ⟨hs.symm, hj.symm, fun p hmemp ↦ ?_⟩,
    fun ⟨hs, hj, hp⟩ ↦ ⟨hs.symm, hj.symm, fun i ↦ ?_⟩⟩
  · have hpN := ((hmem p).mp hmemp).2
    rw [Permutation.target_eq, Permutation.target_eq, ← hf.motion_paths hpN, ← hh.motion_paths hpN]
    exact (hp p).symm
  · by_cases hi : 1 ≤ i.natAbs ∧ i.natAbs ≤ N
    · have htarget := hp i.natAbs ((hmem _).mpr hi)
      rw [Permutation.target_eq, Permutation.target_eq, ← hf.motion_paths hi.2,
        ← hh.motion_paths hi.2] at htarget
      have habs : i.natAbs = (i.natAbs : ℤ).natAbs := (Int.natAbs_natCast _).symm
      rw [Motion.AgreeAt.natAbs_congr hf.motion_mem_signed habs,
        Motion.AgreeAt.natAbs_congr hh.motion_mem_signed habs, htarget]
    · have hfix {k : Transform α} (hk : k.Fits J N) : k.motion.paths i = i :=
        hk.rearranges_paths.perm_of_not_isElement (by rwa [Permutation.IsElement, hk.size_paths])
      rw [hfix hf, hfix hh]

theorem IsGroupOf.serves_normalize_iff (hg : g.IsGroupOf symmetries J N)
    (hs : Separated g.period symmetries) {f : Transform α} (hf : f.Fits J N)
    (hshift : f.shift ∈ offsets g.period symmetries) {j : ℕ} (hj : j ≤ J) :
    g.Serves j (normalize g.delay f) ↔ g.Covers j f.motion := by
  obtain ⟨y, hy⟩ := hg.exists_motion_normalize hs hf hshift
  have hnorm := fits_normalize hg.delay_fits hf
  constructor
  · rintro ⟨r, hr, h⟩
    have hagree := (agreeAt_iff hnorm (hg.fits r hr) hj).mpr h
    obtain ⟨k, hk⟩ := hg.covers_representative hr (-y) j
    refine ⟨k, ?_⟩
    have := (hagree.mul_right (hg.delay_signed (-y))).trans hk
    rwa [hy, mul_assoc, ← zpow_add, add_neg_cancel, zpow_zero, mul_one] at this
  · intro h
    obtain ⟨r, hr, q, hq⟩ := hg.exists_of_covers h
    have hagree := hq.mul_right (hg.delay_signed y)
    rw [← hy, mul_assoc, ← zpow_add] at hagree
    -- The normalized shift is within the period, so no delay is left.
    have hmem := shift_normalize_mem hg.period_pos f
    have hzero := hagree.1
    simp only [Motion.shift_mul, Motion.shift_zpow, Transform.shift_motion, shift_delay] at hzero
    obtain ⟨hqy, -⟩ := period_unique (m := 0) (n := q + y) hmem.1 hmem.2 (hg.shift_mem r hr).1
      (hg.shift_mem r hr).2 (by push_cast at hzero ⊢; rw [shift_delay]; linarith)
    rw [← hqy, zpow_zero, mul_one] at hagree
    exact ⟨r, hr, (agreeAt_iff hnorm (hg.fits r hr) hj).mp hagree⟩

/-- What covers the jugglers that exist covers all signed numbers. -/
theorem IsGroupOf.covers_int (hg : g.IsGroupOf symmetries J N) {f : Transform α}
    (hf : f.Fits J N) (h : ∀ j : ℕ, j ≤ J → g.Covers j f.motion) (j : ℤ) : g.Covers j f.motion := by
  by_cases hj : j.natAbs ≤ J
  · obtain ⟨k, hk⟩ := h j.natAbs hj
    rcases Int.natAbs_eq j with hs | hs
    · exact ⟨k, hs ▸ hk⟩
    · exact ⟨k, hs ▸ hk.neg hf.motion_mem_signed (hg.image_fits k).motion_mem_signed⟩
  · obtain ⟨k, hk⟩ := h 0 (Nat.zero_le J)
    have hfix {f : Transform α} (hf : f.Fits J N) : f.motion.jugglers j = j :=
      hf.rearranges_jugglers.perm_of_not_isElement
        (by rw [Permutation.IsElement, hf.size_jugglers]; omega)
    exact ⟨k, hk.1, by rw [hfix hf, hfix (hg.image_fits k)], hk.2.2⟩

/-- An event of a juggler that touches every path. -/
def probe (juggler paths : ℕ) : Event α where
  time := 0
  place := ⟨0, 0, 0⟩
  juggler := juggler
  hand := .right
  transitions := (List.range' 1 paths).map fun p ↦ { kind := .holding, path := p }

theorem agreeAt_of_apply_probe {f h : Transform α} (hf : f.Fits J N) (hh : h.Fits J N) {j : ℕ}
    (hj : j ≤ J) (he : f.apply (probe j N) = h.apply (probe j N)) :
    Motion.AgreeAt j f.motion h.motion := by
  rw [Transform.apply_eq_moved, Transform.apply_eq_moved] at he
  have htime : (0 : α) + f.shift = 0 + h.shift := congrArg Event.time he
  have habs : (f.jugglers.apply j).natAbs = (h.jugglers.apply j).natAbs :=
    congrArg Event.juggler he
  have hhand : (if f.jugglers.apply j < 0 then Hand.left else .right) =
      if h.jugglers.apply j < 0 then .left else .right := congrArg Event.hand he
  have hpaths : (probe j N : Event α).transitions.map (fun t ↦ f.paths.target t.path) =
      (probe j N : Event α).transitions.map fun t ↦ h.paths.target t.path := by
    have := congrArg (fun e : Event α ↦ e.transitions.map Transition.path) he
    simp only [Event.moved, List.map_map] at this
    exact this
  refine (agreeAt_iff hf hh hj).mpr ⟨by simpa using htime.symm, ?_, fun p hp ↦ ?_⟩
  · split_ifs at hhand <;> omega
  · have hmem : ({ kind := .holding, path := p } : Transition) ∈
        (probe j N : Event α).transitions := by
      rw [Permutation.elements, hf.size_paths] at hp
      exact List.mem_map_of_mem hp
    exact (List.map_inj_left.mp hpaths _ hmem).symm

/-- Every declared symmetry maps the images of every event to images, exactly when the products
with one delay between are served: these are what the closure leaves out. -/
theorem images_invariant_iff (hfits : ∀ s ∈ symmetries, (ofShift s (0 : α)).Fits J N)
    (hok : ofSymmetries symmetries J N = .ok g) (hs : Separated g.period symmetries) :
    (∀ s ∈ symmetries, ∀ (e : Event α) (k : ℤ), ∃ k' : ℤ,
      (declared g.period s).apply ((g.image k).apply e) = (g.image k').apply e) ↔
    ∀ r ∈ g.representatives, ∀ s ∈ symmetries, s.kind ≠ .delay → ∀ j ≤ J,
      g.Serves j (normalize g.delay ((r.andThen g.delay).andThen (declared g.period s))) := by
  have hg := ofSymmetries_ok hfits hok
  have hgen {s : Symmetry α} (hs' : s ∈ symmetries) (hk : s.kind ≠ .delay) :
      declared g.period s ∈ generators g.period symmetries := mem_generators.mpr ⟨s, hs', hk, rfl⟩
  -- What the right-hand side says about motions.
  have hserves {r : Transform α} (hr : r ∈ g.representatives) {s : Symmetry α}
      (hs' : s ∈ symmetries) {j : ℕ} (hj : j ≤ J) :
      g.Serves j (normalize g.delay ((r.andThen g.delay).andThen (declared g.period s))) ↔
        g.Covers j (r.motion * g.delay.motion * (declared g.period s).motion) := by
    have hfits := (hg.fits r hr).andThen hg.delay_fits
    have hmem : (r.andThen g.delay).shift ∈ offsets g.period symmetries :=
      (offsets g.period symmetries).add_mem (hg.shift_mem_offsets r hr) hg.period_mem
    rw [hg.serves_normalize_iff hs (hfits.andThen (hg.declared_fits s hs'))
      ((offsets g.period symmetries).add_mem hmem (IsGroupOf.declared_shift_mem hs')) hj,
      Transform.motion_andThen hfits (hg.declared_fits s hs'),
      Transform.motion_andThen (hg.fits r hr) hg.delay_fits]
  constructor
  · intro h r hr s hs' hk j hj
    rw [hserves hr hs' hj]
    obtain ⟨k, hk⟩ := hg.exists_image hr 1
    obtain ⟨k', hk'⟩ := h s hs' (probe j N) k
    rw [← Transform.apply_andThen (hg.image_fits k) (hg.declared_fits s hs')] at hk'
    refine ⟨k', ?_⟩
    have := agreeAt_of_apply_probe ((hg.image_fits k).andThen (hg.declared_fits s hs'))
      (hg.image_fits k') hj hk'
    rwa [Transform.motion_andThen (hg.image_fits k) (hg.declared_fits s hs'), hk, zpow_one] at this
  · intro h s hs' e k
    have hfits := (hg.image_fits k).andThen (hg.declared_fits s hs')
    have hcover : g.Covers (Transform.clip J e.juggler)
        ((g.image k).andThen (declared g.period s)).motion := by
      rw [Transform.motion_andThen (hg.image_fits k) (hg.declared_fits s hs'), hg.motion_image]
      by_cases hk : s.kind = .delay
      · rw [hg.delay_eq s hs' hk]
        have := hg.covers_mul_delay (hg.covers_representative (hg.representative_mem k)
          (k / (g.size : ℤ)) (Transform.clip J e.juggler)) 1
        rwa [zpow_one] at this
      · refine hg.covers_image_mul hs (fun r hr f hf ↦ ?_) _ (hg.representative_mem k) _
          (hgen hs' hk) _ _
        obtain ⟨s', hs', hk', rfl⟩ := mem_generators.mp hf
        have hfits := (hg.fits r hr).andThen hg.delay_fits
        have := hg.covers_int (hfits.andThen (hg.declared_fits s' hs')) fun j hj ↦ by
          have := (hserves hr hs' hj).mp (h r hr s' hs' hk' j hj)
          rwa [Transform.motion_andThen hfits (hg.declared_fits s' hs'),
            Transform.motion_andThen (hg.fits r hr) hg.delay_fits]
        rwa [Transform.motion_andThen hfits (hg.declared_fits s' hs'),
          Transform.motion_andThen (hg.fits r hr) hg.delay_fits] at this
    obtain ⟨k', hk'⟩ := hcover
    refine ⟨k', ?_⟩
    rw [← Transform.apply_andThen (hg.image_fits k) (hg.declared_fits s hs')]
    exact Transform.apply_eq_apply hfits (hg.image_fits k') hk'

/-- Hands that throw in turn, three props that follow each other. -/
def cascade : List (Symmetry ℚ) :=
  [⟨.delay, ⟨true, #[1]⟩, ⟨true, #[3, 1, 2]⟩, some 1⟩,
    ⟨.switchDelay, ⟨true, #[-1]⟩, ⟨true, #[2, 3, 1]⟩, none⟩]

def cascadeGroup : SymmetryGroup ℚ :=
  ⟨⟨1, ⟨true, #[1]⟩, ⟨true, #[3, 1, 2]⟩⟩,
    #[⟨0, ⟨true, #[1]⟩, ⟨true, #[1, 2, 3]⟩⟩, ⟨1 / 2, ⟨true, #[-1]⟩, ⟨true, #[2, 3, 1]⟩⟩]⟩

theorem ofSymmetries_cascade : ofSymmetries cascade 1 3 = .ok cascadeGroup :=
  ofSymmetries_of_ordered cascade 1 3 _ cascadeGroup.representatives rfl (by decide +kernel)
    (by decide +kernel) (by decide +kernel) (by decide +kernel)

theorem separated_cascade : Separated cascadeGroup.period cascade := by
  refine separated_of_multiples (1 / 2) (by rw [timeTolerance_eq]; norm_num) fun s hs ↦ ?_
  rcases List.mem_pair.mp hs with rfl | rfl
  · exact ⟨2, by decide +kernel⟩
  · exact ⟨1, by decide +kernel⟩

theorem images_invariant_cascade :
    (∀ s ∈ cascade, (ofShift s (0 : ℚ)).Fits 1 3) ∧
    ofSymmetries cascade 1 3 = .ok cascadeGroup ∧ Separated cascadeGroup.period cascade ∧
    ∀ s ∈ cascade, ∀ (e : Event ℚ) (k : ℤ), ∃ k' : ℤ,
      (declared cascadeGroup.period s).apply ((cascadeGroup.image k).apply e) =
        (cascadeGroup.image k').apply e := by
  have hfits : ∀ s ∈ cascade, (ofShift s (0 : ℚ)).Fits 1 3 := by
    decide +kernel
  have hserves : ∀ r ∈ cascadeGroup.representatives.toList, ∀ s ∈ cascade, s.kind ≠ .delay →
      ∀ j ≤ 1, cascadeGroup.Serves j (normalize cascadeGroup.delay
        ((r.andThen cascadeGroup.delay).andThen (declared cascadeGroup.period s))) := by
    decide +kernel
  exact ⟨hfits, ofSymmetries_cascade, separated_cascade,
    (images_invariant_iff hfits ofSymmetries_cascade separated_cascade).mpr fun r hr ↦
      hserves r (Array.mem_toList_iff.mpr hr)⟩

end Juggling.SymmetryGroup
