import Juggling.Proofs.Pace

namespace Juggling

variable {α : Type} [Exact α] {f : α}

def Event.stretch (f : α) (e : Event α) : Event α := { e with time := e.time * f }

namespace Transform

def stretch (f : α) (h : Transform α) : Transform α := { h with shift := h.shift * f }

theorem andThen_stretch (a b : Transform α) :
    (a.stretch f).andThen (b.stretch f) = (a.andThen b).stretch f := by
  simp only [andThen, stretch, add_mul]

theorem power_stretch (a : Transform α) (n : ℤ) :
    (a.stretch f).power n = (a.power n).stretch f := by
  simp only [power, stretch, mul_right_comm]

theorem apply_stretch (a : Transform α) (e : Event α) :
    (a.stretch f).apply (e.stretch f) = (a.apply e).stretch f := by
  simp only [apply, stretch, Event.stretch, add_mul]
  rfl

end Transform

namespace SymmetryGroup

def stretch (f : α) (g : SymmetryGroup α) : SymmetryGroup α :=
  ⟨g.delay.stretch f, g.representatives.map (·.stretch f)⟩

theorem generators_scaleTime (period : α) (symmetries : List (Symmetry α)) :
    generators (period * f) (symmetries.map (Symmetry.scaleTime f)) =
      (generators period symmetries).map (·.stretch f) := by
  rw [generators, generators, List.filterMap_map, List.map_filterMap]
  congr 1
  funext s
  cases hk : s.kind <;> cases hd : s.delay <;>
    simp [generator?, Symmetry.scaleTime, hk, hd, ofShift, Transform.stretch, div_mul_eq_mul_div]

section Close

variable {symmetries : List (Symmetry α)} {J N : ℕ} {g : SymmetryGroup α}
  (h : Pace f (offsets g.period symmetries : Set α))
include h

theorem same_stretch {a b : Transform α} (ha : a.shift ∈ offsets g.period symmetries)
    (hb : b.shift ∈ offsets g.period symmetries) :
    same (a.stretch f) (b.stretch f) = same a b := by
  have hnear : Scalar.abs (a.shift * f - b.shift * f) < timeTolerance ↔
      Scalar.abs (a.shift - b.shift) < timeTolerance := by
    simpa using h.abs_lt ha hb timeTolerance_pos timeTolerance_lt.le
  simp only [same, Transform.stretch, hnear]

variable (hg : g.IsGroupOf symmetries J N)
include hg

theorem wholePeriods_stretch {shift : α} (hs : shift ∈ offsets g.period symmetries) :
    wholePeriods (g.period * f) (shift * f) = wholePeriods g.period shift := by
  have hnear (q : ℤ) : |(q + 1) * (g.period * f) - shift * f| < timeTolerance ↔
      |(q + 1) * g.period - shift| < timeTolerance := by
    have hmem := (offsets g.period symmetries).zsmul_mem hg.period_mem (q + 1)
    rw [zsmul_eq_mul] at hmem
    push_cast at hmem
    rw [← mul_assoc]
    exact h.abs_lt hmem hs timeTolerance_pos timeTolerance_lt.le
  simp only [wholePeriods, Scalar.floorInt_eq, Scalar.ofInt_eq, Scalar.abs_eq, Scalar.ofNat_eq,
    Nat.cast_one, mul_div_mul_right _ _ h.pos.ne', hnear]

theorem normalize_stretch {a : Transform α} (ha : a.shift ∈ offsets g.period symmetries) :
    normalize (g.delay.stretch f) (a.stretch f) = (normalize g.delay a).stretch f := by
  have hwhole : wholePeriods (g.delay.stretch f).shift (a.stretch f).shift =
      wholePeriods g.delay.shift a.shift := wholePeriods_stretch h hg ha
  have hmem := hg.rest_mem ha (wholePeriods g.delay.shift a.shift)
  have hshift : (a.andThen (g.delay.power (-wholePeriods g.delay.shift a.shift))).shift =
      a.shift - wholePeriods g.delay.shift a.shift * g.period := by
    rw [Transform.shift_andThen, Transform.shift_power]
    push_cast
    rw [shift_delay]
    ring
  generalize hb : a.andThen (g.delay.power (-wholePeriods g.delay.shift a.shift)) = b at hshift
  rw [← hshift] at hmem
  have hnear : Scalar.abs (b.stretch f).shift < timeTolerance ↔
      Scalar.abs b.shift < timeTolerance := by
    simpa [Transform.stretch] using h.abs_lt hmem (offsets g.period symmetries).zero_mem
      timeTolerance_pos timeTolerance_lt.le
  simp only [normalize, hwhole, Transform.power_stretch, Transform.andThen_stretch, hb, hnear]
  split_ifs
  · simp [Transform.stretch]
  · rfl

theorem adjoin_stretch {a b : Transform α} (ha : a.shift ∈ offsets g.period symmetries)
    (hb : b.shift ∈ offsets g.period symmetries) {known known' : Array (Transform α)}
    (hknown : ∀ r ∈ known, r.shift ∈ offsets g.period symmetries)
    (hok : adjoin g.delay a known b = .ok known') :
    adjoin (g.delay.stretch f) (a.stretch f) (known.map (·.stretch f)) (b.stretch f) =
      .ok (known'.map (·.stretch f)) := by
  have hproduct : (a.andThen b).shift ∈ offsets g.period symmetries :=
    (offsets g.period symmetries).add_mem ha hb
  have hany : (known.map (·.stretch f)).any (same · ((normalize g.delay (a.andThen b)).stretch f)) =
      known.any (same · (normalize g.delay (a.andThen b))) := by
    rw [Array.any_map, Bool.eq_iff_iff, Array.any_eq_true', Array.any_eq_true']
    refine exists_congr fun r ↦ and_congr_right fun hr ↦ ?_
    rw [Function.comp, same_stretch h (hknown r hr) (hg.normalize_shift_mem hproduct)]
  simp only [adjoin, Transform.andThen_stretch, normalize_stretch h hg hproduct] at hok ⊢
  rw [hany, Array.size_map]
  split_ifs at hok ⊢
  · obtain rfl := Except.ok.inj hok
    rfl
  · obtain rfl := Except.ok.inj hok
    rw [Array.map_push]

theorem foldlM_adjoin_stretch {a : Transform α} (ha : a.shift ∈ offsets g.period symmetries)
    {bs : List (Transform α)} (hbs : ∀ b ∈ bs, b.shift ∈ offsets g.period symmetries)
    {known known' : Array (Transform α)}
    (hknown : ∀ r ∈ known, r.shift ∈ offsets g.period symmetries)
    (hok : bs.foldlM (adjoin g.delay a) known = .ok known') :
    (bs.map (·.stretch f)).foldlM (adjoin (g.delay.stretch f) (a.stretch f))
      (known.map (·.stretch f)) = .ok (known'.map (·.stretch f)) := by
  induction bs generalizing known with
  | nil =>
    obtain rfl := pure_eq_ok.mp hok
    rfl
  | cons b bs ih =>
    rw [List.foldlM_cons] at hok
    rw [List.map_cons, List.foldlM_cons]
    obtain ⟨mid, hmid, hok⟩ := bind_eq_ok.mp hok
    have hb := hbs b List.mem_cons_self
    have hmem := all_adjoin (P := fun r ↦ r.shift ∈ offsets g.period symmetries)
      (hg.normalize_shift_mem ((offsets g.period symmetries).add_mem ha hb)) hknown hmid
    exact bind_eq_ok.mpr ⟨_, adjoin_stretch h hg ha hb hknown hmid,
      ih (fun c hc ↦ hbs c (List.mem_cons_of_mem _ hc)) hmem hok⟩

theorem close_stretch {generators : List (Transform α)}
    (hgenerators : ∀ b ∈ generators, b.shift ∈ offsets g.period symmetries) {fuel next : ℕ}
    {known out : Array (Transform α)} (hknown : ∀ r ∈ known, r.shift ∈ offsets g.period symmetries)
    (hok : close g.delay generators fuel next known = .ok out) :
    close (g.delay.stretch f) (generators.map (·.stretch f)) fuel next (known.map (·.stretch f)) =
      .ok (out.map (·.stretch f)) := by
  induction fuel generalizing next known with
  | zero =>
    obtain rfl : known = out := by simpa [close] using hok
    simp [close]
  | succ fuel ih =>
    have hget : (known.map (·.stretch f))[next]? = (known[next]?).map (·.stretch f) :=
      Array.getElem?_map
    cases ha : known[next]? with
    | none =>
      rw [close_none ha] at hok
      rw [ha] at hget
      obtain rfl := Except.ok.inj hok
      exact close_none hget _
    | some a =>
      rw [ha] at hget
      rw [close_some ha] at hok
      rw [close_some hget]
      obtain ⟨mid, hmid, hok⟩ := bind_eq_ok.mp hok
      have hshift := hknown a (Array.mem_of_getElem? ha)
      have hmem : ∀ r ∈ mid, r.shift ∈ offsets g.period symmetries :=
        foldlM_induction (Q := fun known ↦ ∀ r ∈ known, r.shift ∈ offsets g.period symmetries)
          (fun _ b hb _ hk ↦ all_adjoin (hg.normalize_shift_mem
            ((offsets g.period symmetries).add_mem hshift (hgenerators b hb))) hk) hknown hmid
      exact bind_eq_ok.mpr ⟨_, foldlM_adjoin_stretch h hg hshift hgenerators hknown hmid,
        ih hmem hok⟩

end Close

theorem ofSymmetries_of_close {symmetries : List (Symmetry α)} {J N : ℕ} {d : Symmetry α}
    {known : Array (Transform α)} (hd : symmetries.filter (·.kind == .delay) = [d])
    (hp : 0 < d.delay.getD 0) (hid : d.jugglers.isIdentity = true)
    (hclose : close (ofShift d (d.delay.getD 0)) (generators (d.delay.getD 0) symmetries)
      (sizeLimit + 1) 0 #[Transform.identity J N] = .ok known) :
    ofSymmetries symmetries J N = .ok ⟨ofShift d (d.delay.getD 0),
      (known.toList.mergeSort fun f h ↦ Scalar.precedes f.shift h.shift).toArray⟩ := by
  have hdelay : delayOf symmetries = .ok d := by rw [delayOf, hd]
  refine bind_eq_ok.mpr ⟨d, hdelay, ?_⟩
  simp only [Scalar.ofNat_eq, Nat.cast_zero]
  rw [if_neg (by simpa using hp), if_neg (by simpa using hid)]
  exact bind_eq_ok.mpr ⟨known, hclose, rfl⟩

/-- Symmetries at another pace make the same group at that pace. -/
theorem ofSymmetries_stretch {symmetries : List (Symmetry α)} {J N : ℕ} {g : SymmetryGroup α}
    (hg : g.IsGroupOf symmetries J N) (h : Pace f (offsets g.period symmetries : Set α))
    (hok : ofSymmetries symmetries J N = .ok g) :
    ofSymmetries (symmetries.map (Symmetry.scaleTime f)) J N = .ok (g.stretch f) := by
  obtain ⟨d, known, hd, hp, hid, hclose, rfl⟩ := ofSymmetries_inv hok
  have hd' : (symmetries.map (Symmetry.scaleTime f)).filter (·.kind == .delay) =
      [d.scaleTime f] := by
    rw [List.filter_map, ← List.map_singleton, ← hd]
    rfl
  have hperiod : (d.scaleTime f).delay.getD 0 = d.delay.getD 0 * f := by
    cases hdelay : d.delay <;> simp [Symmetry.scaleTime, hdelay]
  have hsorted : ((known.map (·.stretch f)).toList.mergeSort fun a b ↦
      Scalar.precedes a.shift b.shift) =
      (known.toList.mergeSort fun a b ↦ Scalar.precedes a.shift b.shift).map (·.stretch f) := by
    rw [Array.toList_map]
    refine (List.map_mergeSort fun a _ b _ ↦ ?_).symm
    rw [Bool.eq_iff_iff, Scalar.precedes_iff, Scalar.precedes_iff]
    exact h.mul_le.symm
  have hidentity : #[(Transform.identity J N : Transform α)].map (·.stretch f) =
      #[Transform.identity J N] := by simp [Transform.stretch, Transform.identity]
  have hclose' := close_stretch h hg (fun b hb ↦ IsGroupOf.generator_shift_mem hb)
    (fun r hr ↦ by simp_all [Transform.identity]) hclose
  rw [← generators_scaleTime, hidentity] at hclose'
  rw [ofSymmetries_of_close hd' (by rw [hperiod]; exact mul_pos hp h.pos) hid
    (show close _ _ _ 0 _ = .ok (known.map (·.stretch f)) by rw [hperiod]; exact hclose'),
    hperiod, hsorted]
  simp [stretch, ofShift, Transform.stretch, Symmetry.scaleTime]

section Images

variable (g : SymmetryGroup α)

theorem size_stretch : (g.stretch f).size = g.size := Array.size_map

theorem representative_stretch (k : ℤ) :
    (g.stretch f).representative k = (g.representative k).stretch f := by
  rw [representative, size_stretch, Array.getD_eq_getD_getElem?, representative,
    Array.getD_eq_getD_getElem?]
  simp only [stretch, Array.getElem?_map]
  cases g.representatives[(k % (g.size : ℤ)).toNat]? <;> rfl

theorem image_stretch (k : ℤ) : (g.stretch f).image k = (g.image k).stretch f := by
  rw [image, representative_stretch, size_stretch, image, ← Transform.andThen_stretch,
    ← Transform.power_stretch]
  rfl

theorem imageTime_stretch (e : Event α) (k : ℤ) :
    (g.stretch f).imageTime (e.stretch f) k = g.imageTime e k * f := by
  simp only [imageTime, representative_stretch, size_stretch]
  simp only [Event.stretch, Transform.stretch, period, stretch]
  ring

theorem orbit_stretch : (g.stretch f).orbit = g.orbit.map (·.stretch f) := by
  simp only [orbit, size_stretch, image_stretch, List.map_map]
  rfl

variable (hf : 0 < f) (e : Event α) (t : α)
include hf

theorem climb_stretch (fuel : ℕ) (k : ℤ) :
    (g.stretch f).climb (e.stretch f) (t * f) fuel k = g.climb e t fuel k := by
  induction fuel generalizing k with
  | zero => rfl
  | succ fuel ih => simp only [climb, imageTime_stretch, mul_lt_mul_iff_left₀ hf, ih]

theorem descend_stretch (fuel : ℕ) (k : ℤ) :
    (g.stretch f).descend (e.stretch f) (t * f) fuel k = g.descend e t fuel k := by
  induction fuel generalizing k with
  | zero => rfl
  | succ fuel ih => simp only [descend, imageTime_stretch, mul_le_mul_iff_left₀ hf, ih]

theorem lastImageBefore_stretch :
    (g.stretch f).lastImageBefore (e.stretch f) (t * f) = g.lastImageBefore e t := by
  have hestimate : (t * f - (e.stretch f).time) / (g.stretch f).period =
      (t - e.time) / g.period := by
    simp only [Event.stretch, period, stretch, Transform.stretch, ← sub_mul]
    exact mul_div_mul_right _ _ hf.ne'
  simp only [lastImageBefore, hestimate, searchSteps, size_stretch, climb_stretch g hf,
    descend_stretch g hf]

end Images

end SymmetryGroup

end Juggling
