import Mathlib.Data.List.Rotate
import Juggling.Pattern.Basic
import Juggling.Proofs.Closure

namespace Juggling

namespace Permutation

variable {p : Permutation} {labels : List ℕ}

theorem rotateLeft_eq_rotate (labels : List ℕ) (d : ℕ) : labels.rotateLeft d = labels.rotate d := by
  rw [List.rotate_eq_drop_append_take_mod]
  unfold List.rotateLeft
  simp only
  split_ifs with hlen
  · match labels, hlen with
    | [], _ => simp
    | [x], _ => simp [Nat.mod_one]
  · rfl

/-- Moving the entries of a circular list by one place. -/
def shift (labels : List ℕ) : List ℕ := labels.rotate 1

theorem iterate_shift (labels : List ℕ) (k : ℕ) : shift^[k] labels = labels.rotate k := by
  induction k with
  | zero => simp
  | succ k ih => rw [Function.iterate_succ_apply', ih, shift, List.rotate_rotate]

theorem isPeriodicPt_shift {k : ℕ} : Function.IsPeriodicPt shift k labels ↔
    labels.rotate k = labels := by
  rw [Function.IsPeriodicPt, Function.IsFixedPt, iterate_shift]

theorem minimalPeriod_shift_dvd {k : ℕ} :
    Function.minimalPeriod shift labels ∣ k ↔ labels.rotate k = labels := by
  rw [← isPeriodicPt_shift, Function.isPeriodicPt_iff_minimalPeriod_dvd]

theorem minimalPeriod_shift_pos (hne : labels ≠ []) :
    0 < Function.minimalPeriod shift labels :=
  Function.IsPeriodicPt.minimalPeriod_pos (List.length_pos_of_ne_nil hne)
    (isPeriodicPt_shift.mpr labels.rotate_length)

/-- The search finds the least move that changes nothing. -/
theorem labelPeriod_eq (hne : labels ≠ []) :
    labelPeriod labels = Function.minimalPeriod shift labels := by
  have hpos := minimalPeriod_shift_pos hne
  have hdvd : Function.minimalPeriod shift labels ∣ labels.length :=
    minimalPeriod_shift_dvd.mpr labels.rotate_length
  have htest (d : ℕ) : (labels.length % d == 0 && repeatsAfter labels d) = true ↔
      d ∣ labels.length ∧ labels.rotate d = labels := by
    rw [Bool.and_eq_true, beq_iff_eq, repeatsAfter, beq_iff_eq, rotateLeft_eq_rotate,
      Nat.dvd_iff_mod_eq_zero]
  have hfound : (List.range' 1 labels.length).find? (fun d ↦
      labels.length % d == 0 && repeatsAfter labels d) =
      some (Function.minimalPeriod shift labels) := by
    rw [List.find?_range'_eq_some]
    have hle := Nat.le_of_dvd (List.length_pos_of_ne_nil hne) hdvd
    refine ⟨(htest _).mpr ⟨hdvd, minimalPeriod_shift_dvd.mp dvd_rfl⟩, ?_, fun d hd hlt ↦ ?_⟩
    · rw [List.mem_range'_1]
      omega
    · rw [Bool.not_eq_true', ← Bool.not_eq_true, htest]
      rintro ⟨-, hrotate⟩
      have := Nat.le_of_dvd hd (minimalPeriod_shift_dvd.mpr hrotate)
      omega
  rw [labelPeriod, hfound, Option.getD_some]

/-- Going round a circle by some places is doing as many steps everywhere. -/
theorem rotate_orbit {next : ℕ → ℕ} {start : ℕ} (k : ℕ) :
    (orbit next start).rotate k = (orbit next start).map next^[k] := by
  apply List.ext_getElem
  · simp
  · intro j hj hj'
    rw [List.getElem_rotate, List.getElem_map]
    simp only [orbit, List.getElem_map, List.getElem_range, List.length_map, List.length_range]
    rw [Function.iterate_mod_minimalPeriod_eq, Nat.add_comm, Function.iterate_add_apply]

/-- The number that a label sequence around a cycle gives divides just the numbers of steps after
which all its labels are back. -/
theorem Rearranges.labelPeriod_dvd (h : p.Rearranges) {i k : ℕ} (hi : i ∈ p.elements)
    (label : ℕ → ℕ) : labelPeriod ((p.cycle i).map label) ∣ k ↔
      ∀ j ∈ p.cycle i, label (p.target^[k] j) = label j := by
  have hne : (p.cycle i).map label ≠ [] := by
    simpa using List.ne_nil_of_mem (mem_cycle_self hi)
  rw [labelPeriod_eq hne, minimalPeriod_shift_dvd, ← List.map_rotate, h.cycle_eq_orbit hi,
    rotate_orbit, List.map_map, List.map_inj_left]
  rfl

theorem period_pos (p : Permutation) (labels : List ℕ) : 0 < p.period labels := by
  refine foldl_lcm_pos Nat.one_pos fun t ht ↦ ?_
  obtain ⟨c, hc, rfl⟩ := List.mem_map.mp ht
  obtain ⟨i, hi, rfl⟩ := p.cycles_spec.1 c hc
  have hne : (p.cycle i).map (fun i ↦ labels.getD (i - 1) 0) ≠ [] := by
    simpa using List.ne_nil_of_mem (mem_cycle_self hi)
  rw [labelPeriod_eq hne]
  exact minimalPeriod_shift_pos hne

theorem Rearranges.period_dvd (h : p.Rearranges) (labels : List ℕ) {k : ℕ} :
    p.period labels ∣ k ↔
      ∀ i ∈ p.elements, labels.getD (p.target^[k] i - 1) 0 = labels.getD (i - 1) 0 := by
  obtain ⟨hcycles, hmem⟩ := p.cycles_spec
  rw [period, foldl_lcm_dvd]
  constructor
  · rintro ⟨-, hk⟩ i hi
    obtain ⟨c, hc, hic⟩ := hmem i hi
    obtain ⟨j, hj, rfl⟩ := hcycles c hc
    exact (h.labelPeriod_dvd hj fun i ↦ labels.getD (i - 1) 0).mp
      (hk _ (List.mem_map_of_mem hc)) i hic
  · intro hk
    refine ⟨one_dvd k, fun t ht ↦ ?_⟩
    obtain ⟨c, hc, rfl⟩ := List.mem_map.mp ht
    obtain ⟨j, hj, rfl⟩ := hcycles c hc
    refine (h.labelPeriod_dvd hj fun i ↦ labels.getD (i - 1) 0).mpr fun i hi ↦ hk i ?_
    obtain ⟨m, rfl⟩ := eq_iterate_of_mem_walk hi
    exact h.iterate_target_mem m hj

theorem Rearranges.target_power (h : p.Rearranges) (k : ℕ) {i : ℕ} (hi : i ∈ p.elements) :
    (p.power k).target i = p.target^[k] i := by
  have hel : (p.power k).IsElement (i : ℤ) := by simpa [IsElement] using mem_elements.mp hi
  rw [target_eq, ← (h.power k).perm_of_isElement hel, perm_power h, zpow_natCast,
    h.natAbs_perm_pow k hi]

end Permutation

namespace Pattern

variable {α : Type} {p : Pattern α}

/-- Props are in order when no path or every path has one that is declared. -/
theorem checkProps_eq_ok : p.checkProps = .ok () ↔ p.assignment = [] ∨
    p.assignment.length = p.paths ∧ ∀ i ∈ p.assignment, 1 ≤ i ∧ i ≤ max 1 p.props.length := by
  have hnone : (p.assignment.find? fun i ↦ i == 0 || decide (max 1 p.props.length < i)) = none ↔
      ∀ i ∈ p.assignment, 1 ≤ i ∧ i ≤ max 1 p.props.length := by
    rw [List.find?_eq_none]
    refine forall₂_congr fun i _ ↦ ?_
    rw [Bool.or_eq_true, beq_iff_eq, decide_eq_true_eq]
    omega
  unfold checkProps
  simp only
  split_ifs with hlength
  · simp only [Bool.and_eq_true, Bool.not_eq_true', List.isEmpty_eq_false_iff, bne_iff_ne] at hlength
    simp [hlength]
  · have hlength : p.assignment = [] ∨ p.assignment.length = p.paths := by
      by_contra hne
      exact hlength (by simpa using hne)
    split
    · rename_i i hfind
      rw [← hnone, hfind]
      have hne : p.assignment ≠ [] := fun hnil ↦ by simp [hnil] at hfind
      simp [hne]
    · rename_i hfind
      have hdeclared := hnone.mp hfind
      exact iff_of_true rfl (hlength.imp_right fun hlen ↦ ⟨hlen, hdeclared⟩)

/-- The period is known when there is one delay, which renames just the paths of the pattern, and
all props are declared. -/
theorem period_eq_ok {n : ℕ} : p.period = .ok n ↔
    ∃ delay, p.symmetries.filter (·.kind == .delay) = [delay] ∧ delay.paths.size = p.paths ∧
      (p.assignment = [] ∨ p.assignment.length = p.paths ∧
        ∀ i ∈ p.assignment, 1 ≤ i ∧ i ≤ max 1 p.props.length) ∧
      n = delay.paths.period p.propAssignment := by
  constructor
  · intro hok
    obtain ⟨⟨⟩, hprops, hok⟩ := bind_eq_ok.mp hok
    obtain ⟨delay, hdelay, hok⟩ := bind_eq_ok.mp hok
    split_ifs at hok with hsize
    · obtain ⟨_, hthrown, -⟩ := bind_eq_ok.mp hok
      exact absurd hthrown throw_ne_ok
    · exact ⟨delay, SymmetryGroup.delayOf_eq_ok.mp hdelay, not_not.mp hsize,
        checkProps_eq_ok.mp hprops, (pure_eq_ok.mp hok).symm⟩
  · rintro ⟨delay, hdelay, hsize, hprops, rfl⟩
    refine bind_eq_ok.mpr ⟨(), checkProps_eq_ok.mpr hprops,
      bind_eq_ok.mpr ⟨delay, SymmetryGroup.delayOf_eq_ok.mpr hdelay, ?_⟩⟩
    rw [if_neg (not_not.mpr hsize)]
    rfl

/-- Six paths with two props on them, of which two paths and four go round in each delay. -/
def rounds : Pattern ℚ where
  jugglers := 1
  paths := 6
  props := [{}, {}]
  assignment := [1, 1, 2, 1, 2, 1]
  symmetries := [⟨.delay, .identity 1 true, ⟨true, #[2, 1, 4, 5, 6, 3]⟩, some 1⟩]

end Pattern

end Juggling
