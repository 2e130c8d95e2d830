import Juggling.Proofs.Flights

namespace Juggling

variable {α : Type} [Exact α]

namespace Aim

variable (aim : Aim α)

theorem speedLimit_eq : aim.speedLimit =
    4 * (aim.court.g * aim.duration + |aim.endHeight - aim.startHeight| / aim.duration) + 1000 := by
  simp [speedLimit]

theorem tolerance_eq : (tolerance : α) = 1 / 10 ^ 6 := by
  unfold tolerance
  simp only [OfScientific.ofScientific, Scalar.ofDecimal]
  simp

/-- The fastest launch upwards that is tried. -/
def fastest : α := if aim.forced then 0 else aim.speedLimit

theorem scanSpeed_eq (i : ℕ) :
    aim.scanSpeed i = -aim.speedLimit + (aim.fastest + aim.speedLimit) / 2000 * i := by
  have hzero : @OfNat.ofNat α 0 (Scalar.instOfNat 0) = 0 := by simp
  simp only [scanSpeed, fastest, hzero, sub_neg_eq_add, Scalar.ofNat, Scalar.ofInt_eq, scanSteps]
  norm_num

/-- The miss at a step of the scan, with the speed there. -/
def missAt? (i : ℕ) : Option (α × α) :=
  (aim.miss? (aim.scanSpeed i)).map fun (miss, _) ↦ (aim.scanSpeed i, miss)

/-- A launch that hits between a step of the scan and the next one. -/
def rootAfter? (i : ℕ) : Option α := do
  aim.root? (← aim.missAt? i) (← aim.missAt? (i + 1))

/-- A step of the scan keeps the gentler one of the launches that hit. -/
theorem scan_step (i : ℕ) (best : Option α) (steps : List ℕ) :
    aim.scan (aim.missAt? i) best ((i + 1) :: steps) =
      aim.scan (aim.missAt? (i + 1)) ((aim.rootAfter? i).elim best (gentler best)) steps := by
  simp only [scan, rootAfter?, missAt?]
  cases aim.miss? (aim.scanSpeed i) with
  | none => rfl
  | some p =>
    cases aim.miss? (aim.scanSpeed (i + 1)) with
    | none => rfl
    | some q =>
      simp only [Option.map_some, Option.bind_eq_bind, Option.bind_some]
      cases aim.root? (aim.scanSpeed i, p.1) (aim.scanSpeed (i + 1), q.1) <;> rfl

variable {aim}

theorem hits_iff {speed : α} : aim.hits speed = true ↔ ∃ p, aim.miss? speed = some p ∧
    |p.1| < 1 / 10 ^ 6 ∧ if aim.hyper then p.2 < 0 else 0 < p.2 := by
  rw [hits]
  cases aim.miss? speed with
  | none => simp
  | some p =>
    simp only [Bool.and_eq_true, decide_eq_true_eq, Scalar.abs_eq, tolerance_eq, Option.some.injEq,
      exists_eq_left', Scalar.ofNat_eq, Nat.cast_zero]
    split_ifs <;> simp

theorem eq_of_gentler {best : Option α} {root b : α} (h : gentler best root = some b) :
    b = root ∨ best = some b := by
  unfold gentler at h
  split at h
  · exact .inl (Option.some.inj h).symm
  · split_ifs at h
    · exact .inl (Option.some.inj h).symm
    · exact .inr h

/-- What a scan ends with was the best before, or was found between two of its steps. -/
theorem mem_of_scan {i n : ℕ} {best : Option α} {speed : α}
    (h : aim.scan (aim.missAt? i) best (List.range' (i + 1) n) = some speed) :
    best = some speed ∨ ∃ j < i + n, aim.rootAfter? j = some speed := by
  induction n generalizing i best with
  | zero => exact .inl h
  | succ n ih =>
    rw [List.range'_succ, scan_step] at h
    rcases ih h with hbest | ⟨j, hj, hroot⟩
    · cases hroot : aim.rootAfter? i with
      | none => exact .inl (by simpa [hroot] using hbest)
      | some root =>
        rw [hroot, Option.elim_some] at hbest
        rcases eq_of_gentler hbest with rfl | hbest
        · exact .inr ⟨i, by omega, hroot⟩
        · exact .inl hbest
    · exact .inr ⟨j, by omega, hroot⟩

/-- A scan loses nothing: it ends with a launch if there was one before, or is one on its way. -/
theorem scan_isSome {i n : ℕ} {best : Option α}
    (h : best.isSome ∨ ∃ j, i ≤ j ∧ j < i + n ∧ (aim.rootAfter? j).isSome) :
    (aim.scan (aim.missAt? i) best (List.range' (i + 1) n)).isSome := by
  have hgentler (best : Option α) (root : α) : (gentler best root).isSome := by
    unfold gentler
    split
    · rfl
    · split_ifs <;> rfl
  induction n generalizing i best with
  | zero =>
    rcases h with h | ⟨j, hle, hlt, -⟩
    · exact h
    · omega
  | succ n ih =>
    rw [List.range'_succ, scan_step]
    refine ih ?_
    cases hroot : aim.rootAfter? i with
    | some root => exact .inl (hgentler best root)
    | none =>
      rcases h with h | ⟨j, hle, hlt, hj⟩
      · exact .inl h
      · refine .inr ⟨j, ?_, by omega, hj⟩
        rcases hle.eq_or_lt with rfl | hlt
        · simp [hroot] at hj
        · exact hlt

theorem launchSpeed_ok_iff {speed : α} : aim.launchSpeed = .ok speed ↔
    aim.scan (aim.missAt? 0) none (List.range' 1 scanSteps) = some speed := by
  have hfirst (n : ℕ) : aim.scan none none (List.range (n + 1)) =
      aim.scan (aim.missAt? 0) none (List.range' 1 n) := by
    rw [List.range_eq_range', List.range'_succ, scan]
    · rfl
    · rintro _ _ ⟨⟩
  unfold launchSpeed
  rw [← hfirst]
  cases aim.scan none none (List.range (scanSteps + 1)) <;> simp

/-- A launch is found between two steps of the scan, if there is one between any two. -/
theorem exists_rootAfter {speed : α} (h : aim.launchSpeed = .ok speed) :
    ∃ i < scanSteps, aim.rootAfter? i = some speed := by
  rcases mem_of_scan (launchSpeed_ok_iff.mp h) with hnone | ⟨i, hi, hroot⟩
  · cases hnone
  · exact ⟨i, by omega, hroot⟩

theorem exists_launchSpeed {i : ℕ} (hi : i < scanSteps) (h : (aim.rootAfter? i).isSome) :
    ∃ speed, aim.launchSpeed = .ok speed := by
  have hscan : (aim.scan (aim.missAt? 0) none (List.range' (0 + 1) scanSteps)).isSome :=
    scan_isSome (.inr ⟨i, by omega, by omega, h⟩)
  obtain ⟨speed, hspeed⟩ := Option.isSome_iff_exists.mp hscan
  exact ⟨speed, launchSpeed_ok_iff.mpr hspeed⟩

theorem half_eq : @OfScientific.ofScientific α Scalar.instOfScientific 5 true 1 = 1 / 2 := by
  simp only [OfScientific.ofScientific, Scalar.ofDecimal]
  norm_num

theorem bisect_zero (a b missA : α) : aim.bisect 0 a b missA = (a + b) / 2 := by
  rw [bisect, half_eq, one_div_mul_eq_div]

theorem bisect_succ (n : ℕ) (a b missA : α) : aim.bisect (n + 1) a b missA =
    match aim.miss? ((a + b) / 2) with
    | none => (a + b) / 2
    | some (miss, _) =>
      if miss = 0 then (a + b) / 2
      else if Scalar.sign miss = Scalar.sign missA then aim.bisect n ((a + b) / 2) b miss
      else aim.bisect n a ((a + b) / 2) missA := by
  rw [bisect, half_eq, one_div_mul_eq_div]
  cases aim.miss? ((a + b) / 2) with
  | none => rfl
  | some p => simp only [Scalar.beq_iff, Scalar.ofNat_eq, Nat.cast_zero]

/-- Halving does not leave the interval. -/
theorem bisect_mem (n : ℕ) {a b : α} (hle : a ≤ b) (missA : α) :
    aim.bisect n a b missA ∈ Set.Icc a b := by
  have hmid {a b : α} (hle : a ≤ b) : (a + b) / 2 ∈ Set.Icc a b := ⟨by linarith, by linarith⟩
  induction n generalizing a b missA with
  | zero => exact bisect_zero a b missA ▸ hmid hle
  | succ n ih =>
    rw [bisect_succ]
    split
    · exact hmid hle
    · split_ifs
      · exact hmid hle
      · exact Set.Icc_subset_Icc_left (hmid hle).1 (ih (hmid hle).2 _)
      · exact Set.Icc_subset_Icc_right (hmid hle).2 (ih (hmid hle).1 _)

/-- Halving runs to the upper end where all launches below it end too low. -/
theorem bisect_of_neg {a b missA : α} (hlt : a < b)
    (h : ∀ v ∈ Set.Ico a b, ∃ p, aim.miss? v = some p ∧ p.1 < 0) (hmiss : missA < 0) (n : ℕ) :
    aim.bisect n a b missA = b - (b - a) / 2 ^ (n + 1) := by
  induction n generalizing a missA with
  | zero =>
    rw [bisect_zero]
    ring
  | succ n ih =>
    have hhalf : (a + b) / 2 ∈ Set.Ico a b := ⟨by linarith, by linarith⟩
    obtain ⟨p, hp, hneg⟩ := h _ hhalf
    have hsign : Scalar.sign p.1 = Scalar.sign missA := by simp [Scalar.sign, hneg, hmiss]
    have hrest (v : α) (hv : v ∈ Set.Ico ((a + b) / 2) b) :=
      h v (Set.Ico_subset_Ico_left hhalf.1 hv)
    rw [bisect_succ, hp]
    simp only [hneg.ne, hsign, if_false, if_true]
    rw [ih hhalf.2 hrest hneg]
    ring

/-- A launch that is found by halving and hits was followed at the first half. -/
theorem isSome_of_hits_bisect {n : ℕ} {a b missA : α}
    (h : aim.hits (aim.bisect (n + 1) a b missA) = true) : (aim.miss? ((a + b) / 2)).isSome := by
  rw [bisect_succ] at h
  cases hmiss : aim.miss? ((a + b) / 2) with
  | none => simp [hmiss, hits] at h
  | some p => rfl

theorem rootAfter?_eq_some {i : ℕ} {root : α} : aim.rootAfter? i = some root ↔
    ∃ p q, aim.miss? (aim.scanSpeed i) = some p ∧ aim.miss? (aim.scanSpeed (i + 1)) = some q ∧
      (p.1 = 0 ∨ Scalar.sign p.1 ≠ Scalar.sign q.1) ∧
      root = aim.bisect bisectSteps (aim.scanSpeed i) (aim.scanSpeed (i + 1)) p.1 ∧
      aim.hits root = true := by
  rw [rootAfter?, missAt?, missAt?]
  cases aim.miss? (aim.scanSpeed i) with
  | none => simp
  | some p =>
    cases aim.miss? (aim.scanSpeed (i + 1)) with
    | none => simp
    | some q =>
      simp only [root?, Option.map_some, Option.bind_eq_bind, Option.bind_some, Option.some.injEq,
        Bool.or_eq_true, Scalar.beq_iff, bne_iff_ne, Scalar.ofNat_eq, Nat.cast_zero]
      constructor
      · intro h
        split_ifs at h with hsign hhits
        obtain rfl := Option.some.inj h
        exact ⟨p, q, rfl, rfl, hsign, rfl, hhits⟩
      · rintro ⟨_, _, rfl, rfl, hsign, rfl, hhits⟩
        rw [if_pos hsign, if_pos hhits]

theorem lt_speedLimit (hduration : 0 < aim.duration) :
    4 * (aim.court.g * aim.duration) < aim.speedLimit := by
  have hclimb : 0 ≤ |aim.endHeight - aim.startHeight| / aim.duration := by positivity
  rw [speedLimit_eq]
  linarith

section

variable (hg : 0 < aim.court.g) (hduration : 0 < aim.duration)

include hg hduration

theorem fastest_nonneg : 0 ≤ aim.fastest := by
  have := lt_speedLimit hduration
  unfold fastest
  split_ifs
  · exact le_rfl
  · exact (mul_pos four_pos (mul_pos hg hduration)).le.trans this.le

theorem scanSpeed_le {i : ℕ} (hi : i ≤ scanSteps) : aim.scanSpeed i ≤ aim.fastest := by
  have hstep := add_nonneg (fastest_nonneg hg hduration)
    ((mul_pos four_pos (mul_pos hg hduration)).trans (lt_speedLimit hduration)).le
  have hi : (i : α) ≤ 2000 := by exact_mod_cast hi
  calc aim.scanSpeed i
      ≤ -aim.speedLimit + (aim.fastest + aim.speedLimit) / 2000 * 2000 := by
        rw [scanSpeed_eq]
        gcongr
    _ = aim.fastest := by ring

/-- The speeds of the scan lie far apart. -/
theorem lt_scanGap (i : ℕ) :
    aim.court.g * aim.duration / 500 < aim.scanSpeed (i + 1) - aim.scanSpeed i := by
  have hlimit := lt_speedLimit hduration
  have hfastest := fastest_nonneg hg hduration
  rw [scanSpeed_eq, scanSpeed_eq]
  push_cast
  linarith

/-- A launch that is found hits, and lies between two of three evenly spaced ones that bounce as
often. -/
theorem exists_interval {speed : α} (h : aim.launchSpeed = .ok speed) :
    ∃ i < scanSteps, speed ∈ Set.Icc (aim.scanSpeed i) (aim.scanSpeed (i + 1)) ∧
      (aim.miss? (aim.scanSpeed i)).isSome ∧ (aim.miss? (aim.scanSpeed (i + 1))).isSome ∧
      (aim.miss? ((aim.scanSpeed i + aim.scanSpeed (i + 1)) / 2)).isSome ∧
      aim.hits speed = true := by
  obtain ⟨i, hi, hroot⟩ := exists_rootAfter h
  obtain ⟨p, q, hp, hq, -, rfl, hhits⟩ := rootAfter?_eq_some.mp hroot
  have hgap := lt_scanGap hg hduration i
  have hpos : 0 < aim.court.g * aim.duration := mul_pos hg hduration
  exact ⟨i, hi, bisect_mem _ (by linarith) _, by rw [hp]; rfl, by rw [hq]; rfl,
    isSome_of_hits_bisect hhits, hhits⟩

end

end Aim

theorem Scalar.sign_ne {x y : α} (hx : x < 0) (hy : 0 ≤ y) : Scalar.sign x ≠ Scalar.sign y := by
  have hne : (-1 : α) ≠ 1 := by norm_num
  simpa [Scalar.sign, hx, hy.not_gt] using hne

/-- What a launch that bounces once misses by. -/
theorem Aim.miss?_of_contacts {aim : Aim α} (hone : aim.bounces = 1) {speed : α} {a b : Arc α}
    (ha : a = ⟨0, aim.startHeight, speed⟩) (hb : b = a.rebound aim.court (a.contact aim.court))
    (hlow : a.contact aim.court < aim.duration) (hhigh : aim.duration ≤ b.contact aim.court) :
    aim.miss? speed = some (b.heightAt aim.court.g aim.duration - aim.endHeight,
      b.speed - aim.court.g * (aim.duration - b.time)) := by
  subst hb ha
  have hzero : @OfNat.ofNat α 0 (Scalar.instOfNat 0) = 0 := by simp
  simp only [miss?, Court.course?, hone, Court.rebounds?, hzero, not_le.mpr hlow, hhigh, if_false,
    if_true]
  rfl

end Juggling
