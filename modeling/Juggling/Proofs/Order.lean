import Mathlib.Data.Fintype.Pigeonhole
import Mathlib.Dynamics.PeriodicPts.Defs
import Mathlib.GroupTheory.Perm.Support
import Juggling.Proofs.Permutation

namespace Juggling.Permutation

variable {p : Permutation}

section Walk

variable {β : Type} {next : β → β} {start : β}

/-- The places that follow each other from a place on until it comes back. -/
noncomputable def orbit (next : β → β) (start : β) : List β :=
  (List.range (Function.minimalPeriod next start)).map fun m ↦ next^[m] start

@[simp] theorem length_orbit : (orbit next start).length = Function.minimalPeriod next start := by
  simp [orbit]

theorem nodup_orbit : (orbit next start).Nodup := Function.nodup_periodicOrbit

variable [DecidableEq β]

theorem eq_iterate_of_mem_walk {fuel : ℕ} {x y : β} (hy : y ∈ walk next start fuel x) :
    ∃ m, next^[m] x = y := by
  induction fuel generalizing x with
  | zero => simp [walk] at hy
  | succ fuel ih =>
    rw [walk, List.mem_cons] at hy
    rcases hy with rfl | hy
    · exact ⟨0, rfl⟩
    · split_ifs at hy
      · simp at hy
      · obtain ⟨m, hm⟩ := ih hy
        exact ⟨m + 1, hm⟩

/-- A walk passes all places up to its first return. -/
theorem walk_eq_map {fuel n : ℕ} {x : β} (hfuel : n < fuel) (hback : next^[n + 1] x = start)
    (hfirst : ∀ m < n, next^[m + 1] x ≠ start) :
    walk next start fuel x = (List.range (n + 1)).map fun m ↦ next^[m] x := by
  induction fuel generalizing n x with
  | zero => omega
  | succ fuel ih =>
    rw [walk, List.range_succ_eq_map, List.map_cons, List.map_map]
    cases n with
    | zero =>
      have hback : next x = start := hback
      rw [if_pos hback]
      rfl
    | succ n =>
      have hne : next x ≠ start := hfirst 0 (by omega)
      rw [if_neg hne, ih (n := n) (x := next x) (by omega) hback
        fun m hm ↦ hfirst (m + 1) (by omega)]
      rfl

/-- A walk that has steps enough to come back goes round once. -/
theorem walk_eq_orbit {fuel n : ℕ} (hn : 0 < n) (hfuel : n ≤ fuel) (hback : next^[n] start = start) :
    walk next start fuel start = orbit next start := by
  have hperiodic : Function.IsPeriodicPt next n start := hback
  have hpos := hperiodic.minimalPeriod_pos hn
  have hle := hperiodic.minimalPeriod_le hn
  obtain ⟨m, hm⟩ : ∃ m, Function.minimalPeriod next start = m + 1 :=
    ⟨Function.minimalPeriod next start - 1, by omega⟩
  rw [orbit, hm]
  refine walk_eq_map (by omega) (hm ▸ Function.iterate_minimalPeriod) fun k hk ↦ ?_
  exact Function.not_isPeriodicPt_of_pos_of_lt_minimalPeriod (by omega) (by omega)

end Walk

theorem Rearranges.iterate_target_mem (h : p.Rearranges) (m : ℕ) {i : ℕ} (hi : i ∈ p.elements) :
    p.target^[m] i ∈ p.elements := by
  induction m with
  | zero => exact hi
  | succ m ih =>
    rw [Function.iterate_succ_apply']
    have hel : p.IsElement ((p.target^[m] i : ℕ) : ℤ) := by simpa [IsElement, mem_elements] using ih
    exact mem_elements.mpr (h.isElement_apply hel)

theorem Rearranges.iterate_target_injective (h : p.Rearranges) (m : ℕ) {i j : ℕ}
    (hi : i ∈ p.elements) (hj : j ∈ p.elements) (he : p.target^[m] i = p.target^[m] j) : i = j := by
  induction m with
  | zero => exact he
  | succ m ih =>
    rw [Function.iterate_succ_apply', Function.iterate_succ_apply'] at he
    exact ih (h.target_injective (h.iterate_target_mem m hi) (h.iterate_target_mem m hj) he)

/-- Every element comes back after at most as many steps as there are elements. -/
theorem Rearranges.exists_return (h : p.Rearranges) {i : ℕ} (hi : i ∈ p.elements) :
    ∃ m, 0 < m ∧ m ≤ p.size ∧ p.target^[m] i = i := by
  let f (k : Fin (p.size + 1)) : Fin p.size :=
    ⟨p.target^[k] i - 1, by
      have := mem_elements.mp (h.iterate_target_mem k hi)
      omega⟩
  obtain ⟨a, b, hab, hf⟩ := Fintype.exists_ne_map_eq_of_card_lt f (by simp)
  have heq : p.target^[a] i = p.target^[b] i := by
    have ha := mem_elements.mp (h.iterate_target_mem a hi)
    have hb := mem_elements.mp (h.iterate_target_mem b hi)
    simp only [f, Fin.mk.injEq] at hf
    omega
  -- The steps in common can be taken off.
  have key (c d : ℕ) (hcd : c < d) (hd : d ≤ p.size) (he : p.target^[c] i = p.target^[d] i) :
      ∃ m, 0 < m ∧ m ≤ p.size ∧ p.target^[m] i = i := by
    refine ⟨d - c, by omega, by omega, ?_⟩
    rw [show d = c + (d - c) by omega, Function.iterate_add_apply] at he
    exact (h.iterate_target_injective c hi (h.iterate_target_mem _ hi) he).symm
  rcases Nat.lt_or_gt_of_ne (Fin.val_ne_of_ne hab) with hlt | hlt
  · exact key a b hlt (by omega) heq
  · exact key b a hlt (by omega) heq.symm

theorem Rearranges.natAbs_perm_pow (h : p.Rearranges) (m : ℕ) {i : ℕ} (hi : i ∈ p.elements) :
    ((p.perm ^ m) (i : ℤ)).natAbs = p.target^[m] i := by
  induction m with
  | zero => simp
  | succ m ih =>
    have hel := mem_elements.mp (h.iterate_target_mem m hi)
    have hel' : p.IsElement ((p.perm ^ m) (i : ℤ)) := by rwa [IsElement, ih]
    rw [pow_succ', Equiv.Perm.mul_apply, Function.iterate_succ_apply', ← ih,
      h.perm_of_isElement hel', natAbs_apply]

theorem Rearranges.perm_pow_neg (h : p.Rearranges) (m : ℕ) (i : ℤ) :
    (p.perm ^ m) (-i) = -(p.perm ^ m) i := by
  induction m with
  | zero => simp
  | succ m ih => rw [pow_succ', Equiv.Perm.mul_apply, Equiv.Perm.mul_apply, ih, h.perm_neg]

theorem Rearranges.repeat_apply (h : p.Rearranges) (m : ℕ) {i : ℕ} (hi : i ∈ p.elements) :
    Nat.repeat p.apply m (i : ℤ) = (p.perm ^ m) (i : ℤ) := by
  induction m with
  | zero => rfl
  | succ m ih =>
    have hel : p.IsElement ((p.perm ^ m) (i : ℤ)) := by
      rw [IsElement, h.natAbs_perm_pow m hi]
      exact mem_elements.mp (h.iterate_target_mem m hi)
    rw [Nat.repeat, ih, pow_succ', Equiv.Perm.mul_apply, h.perm_of_isElement hel]

theorem turns_pos (p : Permutation) (c : List ℕ) : 0 < p.turns c := by
  cases c with
  | nil => exact Nat.one_pos
  | cons i c =>
    simp only [turns, List.length_cons]
    split_ifs <;> omega

theorem Rearranges.cycle_eq_orbit (h : p.Rearranges) {i : ℕ} (hi : i ∈ p.elements) :
    p.cycle i = orbit p.target i := by
  obtain ⟨m, hm, hsize, hback⟩ := h.exists_return hi
  exact walk_eq_orbit hm hsize hback

theorem Rearranges.minimalPeriod_pos (h : p.Rearranges) {i : ℕ} (hi : i ∈ p.elements) :
    0 < Function.minimalPeriod p.target i := by
  obtain ⟨m, hm, -, hback⟩ := h.exists_return hi
  exact Function.IsPeriodicPt.minimalPeriod_pos hm hback

/-- The turns of a cycle are the least number of steps that takes its first element back,
unreversed. -/
theorem Rearranges.turns_dvd (h : p.Rearranges) {i n : ℕ} (hi : i ∈ p.elements) :
    p.turns (p.cycle i) ∣ n ↔ (p.perm ^ n) (i : ℤ) = i := by
  have hpos := h.minimalPeriod_pos hi
  have hcycle := h.cycle_eq_orbit hi
  set l := Function.minimalPeriod p.target i with hl
  have hturns : p.turns (p.cycle i) = if (p.perm ^ l) (i : ℤ) = i then l else 2 * l := by
    obtain ⟨rest, hrest⟩ : ∃ rest, orbit p.target i = i :: rest := by
      rw [orbit, ← hl, show l = l - 1 + 1 by omega, List.range_succ_eq_map]
      exact ⟨_, rfl⟩
    have hlen : (i :: rest).length = l := by rw [← hrest, length_orbit]
    rw [hcycle, hrest]
    simp only [turns]
    rw [h.repeat_apply _ hi, hlen]
  have hdvd (hn : (p.perm ^ n) (i : ℤ) = i) : l ∣ n := by
    refine Function.IsPeriodicPt.minimalPeriod_dvd ?_
    have := h.natAbs_perm_pow n hi
    rw [hn] at this
    exact this.symm
  have habs := h.natAbs_perm_pow l hi
  rw [hl, Function.iterate_minimalPeriod, ← hl] at habs
  rw [hturns]
  split_ifs with hback
  · refine ⟨?_, hdvd⟩
    rintro ⟨q, rfl⟩
    rw [pow_mul]
    exact Equiv.Perm.pow_apply_eq_self_of_apply_eq_self hback q
  · -- Once round reverses the element, twice round does not.
    have hneg : (p.perm ^ l) (i : ℤ) = -i := by omega
    have htwice : (p.perm ^ (2 * l)) (i : ℤ) = i := by
      rw [two_mul, pow_add, Equiv.Perm.mul_apply, hneg, h.perm_pow_neg, hneg, neg_neg]
    have heven (q : ℕ) : (p.perm ^ (2 * l * q)) (i : ℤ) = i := by
      rw [pow_mul]
      exact Equiv.Perm.pow_apply_eq_self_of_apply_eq_self htwice q
    constructor
    · rintro ⟨q, rfl⟩
      exact heven q
    · intro hn
      obtain ⟨q, rfl⟩ := hdvd hn
      obtain ⟨r, rfl | rfl⟩ := q.even_or_odd'
      · exact ⟨r, by ring⟩
      · have := mem_elements.mp hi
        rw [show l * (2 * r + 1) = l + 2 * l * r by ring, pow_add, Equiv.Perm.mul_apply, heven,
          hneg] at hn
        omega

/-- Elements of one cycle come back after the same numbers of steps. -/
theorem Rearranges.perm_pow_of_mem_cycle (h : p.Rearranges) {i j n : ℕ} (hi : i ∈ p.elements)
    (hj : j ∈ p.cycle i) (hn : (p.perm ^ n) (i : ℤ) = i) : (p.perm ^ n) (j : ℤ) = j := by
  obtain ⟨m, hm⟩ := eq_iterate_of_mem_walk hj
  have hcomm : (p.perm ^ n) ((p.perm ^ m) (i : ℤ)) = (p.perm ^ m) (i : ℤ) := by
    rw [← Equiv.Perm.mul_apply, ← pow_add, add_comm, pow_add, Equiv.Perm.mul_apply, hn]
  have habs := h.natAbs_perm_pow m hi
  rw [hm] at habs
  rcases Int.natAbs_eq ((p.perm ^ m) (i : ℤ)) with hs | hs <;> rw [habs] at hs <;> rw [hs] at hcomm
  · exact hcomm
  · rw [h.perm_pow_neg] at hcomm
    exact neg_inj.mp hcomm

theorem mem_cycle_self {i : ℕ} (hi : i ∈ p.elements) : i ∈ p.cycle i := by
  have hsize : p.size = p.size - 1 + 1 := by
    have := mem_elements.mp hi
    omega
  rw [cycle, hsize, walk]
  exact List.mem_cons_self

/-- The cycles start at elements, and every element is in one of them. -/
theorem cycles_spec (p : Permutation) : (∀ c ∈ p.cycles, ∃ k ∈ p.elements, c = p.cycle k) ∧
    ∀ i ∈ p.elements, ∃ c ∈ p.cycles, i ∈ c := by
  let step (cs : List (List ℕ)) (i : ℕ) : List (List ℕ) :=
    if cs.any (·.contains i) then cs else cs ++ [p.cycle i]
  -- Going through the elements, cycles stay, and each element finds its cycle or adds it.
  have key (is : List ℕ) (cs : List (List ℕ)) (his : is ⊆ p.elements)
      (hcs : ∀ c ∈ cs, ∃ k ∈ p.elements, c = p.cycle k) :
      (∀ c ∈ is.foldl step cs, ∃ k ∈ p.elements, c = p.cycle k) ∧ cs ⊆ is.foldl step cs ∧
        ∀ i ∈ is, ∃ c ∈ is.foldl step cs, i ∈ c := by
    induction is generalizing cs with
    | nil => exact ⟨hcs, List.Subset.refl _, by simp⟩
    | cons j is ih =>
      obtain ⟨hj, his⟩ := List.cons_subset.mp his
      have hstep : cs ⊆ step cs j ∧ (∀ c ∈ step cs j, ∃ k ∈ p.elements, c = p.cycle k) ∧
          ∃ c ∈ step cs j, j ∈ c := by
        simp only [step]
        split_ifs with hany
        · exact ⟨List.Subset.refl _, hcs, by simpa using hany⟩
        · refine ⟨List.subset_append_left _ _, ?_, p.cycle j, by simp, mem_cycle_self hj⟩
          exact List.forall_mem_append.mpr ⟨hcs, by simpa using ⟨j, hj, rfl⟩⟩
      obtain ⟨hsub, hcycles, c, hc, hjc⟩ := hstep
      obtain ⟨hall, hkeep, hmem⟩ := ih (step cs j) his hcycles
      exact ⟨hall, List.Subset.trans hsub hkeep, List.forall_mem_cons.mpr ⟨⟨c, hkeep hc, hjc⟩, hmem⟩⟩
  obtain ⟨hall, -, hmem⟩ := key p.elements [] (List.Subset.refl _) (by simp)
  exact ⟨hall, hmem⟩

theorem foldl_lcm_dvd {a n : ℕ} {ts : List ℕ} :
    ts.foldl Nat.lcm a ∣ n ↔ a ∣ n ∧ ∀ t ∈ ts, t ∣ n := by
  induction ts generalizing a with
  | nil => simp
  | cons t ts ih => simp [ih, Nat.lcm_dvd_iff, and_assoc]

theorem foldl_lcm_pos {a : ℕ} {ts : List ℕ} (ha : 0 < a) (hts : ∀ t ∈ ts, 0 < t) :
    0 < ts.foldl Nat.lcm a := by
  induction ts generalizing a with
  | nil => exact ha
  | cons s ts ih =>
    exact ih (Nat.lcm_pos ha (hts s List.mem_cons_self))
      (fun t ht ↦ hts t (List.mem_cons_of_mem _ ht))

theorem order_pos (p : Permutation) : 0 < p.order := by
  apply foldl_lcm_pos Nat.one_pos
  intro t ht
  obtain ⟨c, -, rfl⟩ := List.mem_map.mp ht
  exact turns_pos p c

theorem Rearranges.perm_pow_eq_one (h : p.Rearranges) {n : ℕ} :
    p.perm ^ n = 1 ↔ ∀ i ∈ p.elements, (p.perm ^ n) (i : ℤ) = i := by
  constructor
  · intro hn i _
    rw [hn, Equiv.Perm.one_apply]
  · intro hn
    ext i
    rw [Equiv.Perm.one_apply]
    by_cases hi : p.IsElement i
    · have hmem : i.natAbs ∈ p.elements := mem_elements.mpr hi
      rcases Int.natAbs_eq i with hs | hs
      · rw [hs]
        exact hn _ hmem
      · rw [hs, h.perm_pow_neg, hn _ hmem]
    · exact Equiv.Perm.pow_apply_eq_self_of_apply_eq_self (h.perm_of_not_isElement hi) _

/-- After as many applications as multiples of the order, and no others, every element is back,
unreversed. -/
theorem Rearranges.order_dvd (h : p.Rearranges) {n : ℕ} : p.order ∣ n ↔ p.perm ^ n = 1 := by
  obtain ⟨hcycles, hmem⟩ := p.cycles_spec
  rw [order, foldl_lcm_dvd, h.perm_pow_eq_one]
  constructor
  · rintro ⟨-, hn⟩ i hi
    obtain ⟨c, hc, hic⟩ := hmem i hi
    obtain ⟨k, hk, rfl⟩ := hcycles c hc
    exact h.perm_pow_of_mem_cycle hk hic
      ((h.turns_dvd hk).mp (hn _ (List.mem_map_of_mem hc)))
  · intro hn
    refine ⟨one_dvd n, fun t ht ↦ ?_⟩
    obtain ⟨c, hc, rfl⟩ := List.mem_map.mp ht
    obtain ⟨k, hk, rfl⟩ := hcycles c hc
    exact (h.turns_dvd hk).mpr (hn k hk)

theorem Rearranges.perm_pow_order (h : p.Rearranges) : p.perm ^ p.order = 1 :=
  h.order_dvd.mp dvd_rfl

end Juggling.Permutation
