import Mathlib.Algebra.Group.End
import Mathlib.Data.List.Perm.Basic
import Mathlib.Data.List.Nodup
import Mathlib.Tactic.Ring
import Mathlib.Tactic.Linarith
import Juggling.Permutation.Cycles

namespace Juggling.Permutation

variable {p q : Permutation}

/-- Apart from reversals the images are the elements in some order. -/
def Rearranges (p : Permutation) : Prop :=
  (p.images.toList.map Int.natAbs).Perm p.elements

instance (p : Permutation) : Decidable p.Rearranges :=
  inferInstanceAs (Decidable (List.Perm _ _))

/-- A signed element. -/
def IsElement (p : Permutation) (i : ℤ) : Prop := 1 ≤ i.natAbs ∧ i.natAbs ≤ p.size

instance (p : Permutation) (i : ℤ) : Decidable (p.IsElement i) :=
  inferInstanceAs (Decidable (_ ∧ _))

@[simp] theorem apply_zero (p : Permutation) : p.apply 0 = 0 := rfl

theorem apply_succ (p : Permutation) (i : ℕ) : p.apply ((i : ℤ) + 1) = p.images.getD i 0 := rfl

@[simp] theorem apply_neg (p : Permutation) (i : ℤ) : p.apply (-i) = -p.apply i := by
  match i with
  | .ofNat 0 => rfl
  | .ofNat (i + 1) => rfl
  | .negSucc i => exact (neg_neg _).symm

@[simp] theorem size_andThen (p q : Permutation) : (p.andThen q).size = p.size := by
  simp [size, andThen]

@[simp] theorem size_identity (n : ℕ) (signed : Bool) : (identity n signed).size = n := by
  simp [size, identity]

@[simp] theorem size_inverse (p : Permutation) : p.inverse.size = p.size := by
  simp [size, inverse]

/-- A statement about every signed element follows from the positive ones. -/
theorem apply_eq_apply {f g : ℤ → ℤ} (hf : ∀ i, f (-i) = -f i) (hg : ∀ i, g (-i) = -g i)
    {n : ℕ} (h : ∀ i : ℕ, i < n → f (i + 1) = g (i + 1)) {i : ℤ}
    (hi : 1 ≤ i.natAbs ∧ i.natAbs ≤ n) : f i = g i := by
  obtain ⟨k, hk⟩ : ∃ k, i.natAbs = k + 1 := ⟨i.natAbs - 1, by omega⟩
  have hk' := h k (by omega)
  rcases Int.natAbs_eq i with he | he
  · rw [he, hk]
    exact_mod_cast hk'
  · rw [he, hk, hf, hg]
    exact congrArg Neg.neg (by exact_mod_cast hk')

@[simp] theorem apply_andThen (p q : Permutation) (i : ℤ) :
    (p.andThen q).apply i = q.apply (p.apply i) := by
  have hpos (i : ℕ) : (p.andThen q).apply ((i : ℤ) + 1) = q.apply (p.apply ((i : ℤ) + 1)) := by
    rw [apply_succ, apply_succ]
    by_cases h : i < p.images.size
    · simp [andThen, Array.getD_eq_getD_getElem?, h]
    · simp [andThen, Array.getD_eq_getD_getElem?, h]
  match i with
  | .ofNat 0 => rfl
  | .ofNat (i + 1) => exact hpos i
  | .negSucc i =>
    rw [Int.negSucc_eq, apply_neg, apply_neg, apply_neg, hpos]

theorem apply_identity {n : ℕ} {signed : Bool} {i : ℤ} (hi : i.natAbs ≤ n) :
    (identity n signed).apply i = i := by
  rcases Nat.eq_zero_or_pos i.natAbs with h | h
  · rw [Int.natAbs_eq_zero.mp h]
    rfl
  · refine apply_eq_apply (g := id) (n := n) (fun i ↦ apply_neg _ i) (fun i ↦ rfl) (fun i hi ↦ ?_)
      ⟨h, hi⟩
    rw [apply_succ]
    simp [identity, Array.getD_eq_getD_getElem?, hi]

theorem apply_eq_zero {i : ℤ} (hi : p.size < i.natAbs) : p.apply i = 0 := by
  have hpos (k : ℕ) (hk : p.size ≤ k) : p.apply ((k : ℤ) + 1) = 0 := by
    rw [apply_succ, Array.getD_eq_getD_getElem?, Array.getElem?_eq_none hk]
    rfl
  match i with
  | .ofNat 0 => rfl
  | .ofNat (k + 1) =>
    simp only [Int.natAbs] at hi
    exact hpos k (Nat.lt_succ_iff.mp hi)
  | .negSucc k =>
    simp only [Int.natAbs] at hi
    rw [Int.negSucc_eq, apply_neg, hpos k (Nat.lt_succ_iff.mp hi), neg_zero]

theorem target_eq (p : Permutation) (i : ℕ) : p.target i = (p.apply i).natAbs := rfl

theorem natAbs_apply (p : Permutation) (i : ℤ) : (p.apply i).natAbs = p.target i.natAbs := by
  rcases Int.natAbs_eq i with he | he
  · rw [target_eq, ← he]
  · conv_lhs => rw [he, apply_neg, Int.natAbs_neg]
    rfl

theorem map_target (p : Permutation) :
    p.images.toList.map Int.natAbs = p.elements.map p.target := by
  apply List.ext_getElem
  · simp [elements, size]
  · intro i h₁ h₂
    have hi : i < p.images.size := by simpa using h₁
    simp only [elements, List.getElem_map, List.getElem_range', target_eq, Array.getElem_toList]
    rw [show ((1 + 1 * i : ℕ) : ℤ) = (i : ℤ) + 1 by push_cast; ring, apply_succ,
      Array.getD_eq_getD_getElem?, Array.getElem?_eq_getElem hi]
    rfl

theorem mem_elements {i : ℕ} : i ∈ p.elements ↔ 1 ≤ i ∧ i ≤ p.size := by
  simp only [elements, List.mem_range'_1]
  omega

namespace Rearranges

theorem isElement_apply (h : p.Rearranges) {i : ℤ} (hi : p.IsElement i) :
    p.IsElement (p.apply i) := by
  have hmem : p.target i.natAbs ∈ p.elements := by
    apply (h.mem_iff).mp
    rw [map_target]
    exact List.mem_map_of_mem (mem_elements.mpr hi)
  rw [IsElement, natAbs_apply]
  exact mem_elements.mp hmem

theorem target_injective (h : p.Rearranges) {i j : ℕ} (hi : i ∈ p.elements)
    (hj : j ∈ p.elements) (he : p.target i = p.target j) : i = j := by
  have hnodup : (p.elements.map p.target).Nodup := by
    rw [← map_target]
    exact h.nodup_iff.mpr List.nodup_range'
  exact List.inj_on_of_nodup_map hnodup hi hj he

theorem apply_injective (h : p.Rearranges) {i j : ℤ} (hi : p.IsElement i) (hj : p.IsElement j)
    (he : p.apply i = p.apply j) : i = j := by
  have hij : i.natAbs = j.natAbs :=
    h.target_injective (mem_elements.mpr hi) (mem_elements.mpr hj)
      (by rw [← natAbs_apply, ← natAbs_apply, he])
  rcases Int.natAbs_eq_natAbs_iff.mp hij with hs | hs
  · exact hs
  · -- A reversed element has the reversed image, which is no zero.
    have hne := (h.isElement_apply hj).1
    rw [hs, apply_neg] at he
    omega

theorem exists_target (h : p.Rearranges) {j : ℕ} (hj : j ∈ p.elements) :
    ∃ i ∈ p.elements, p.target i = j := by
  have hmem := h.mem_iff.mpr hj
  rw [map_target] at hmem
  simpa using hmem

theorem identity (n : ℕ) (signed : Bool) : (identity n signed).Rearranges := by
  unfold Rearranges
  rw [map_target]
  have hmap : (Permutation.identity n signed).elements.map (Permutation.identity n signed).target
      = (Permutation.identity n signed).elements := by
    conv_rhs => rw [← List.map_id (Permutation.identity n signed).elements]
    apply List.map_congr_left
    intro i hi
    have hi' := (mem_elements.mp hi).2
    rw [size_identity] at hi'
    rw [target_eq, apply_identity (by simpa using hi')]
    rfl
  rw [hmap]

theorem andThen (hp : p.Rearranges) (hq : q.Rearranges) (hs : p.size = q.size) :
    (p.andThen q).Rearranges := by
  unfold Rearranges
  rw [map_target]
  have hel : (p.andThen q).elements = p.elements := by simp [elements]
  have hel' : q.elements = p.elements := by simp [elements, hs]
  have hmap : p.elements.map (p.andThen q).target = (p.elements.map p.target).map q.target := by
    rw [List.map_map]
    apply List.map_congr_left
    intro i hi
    rw [target_eq, apply_andThen, natAbs_apply]
    rfl
  have hp' : (p.elements.map p.target).Perm p.elements := by
    rw [← map_target]
    exact hp
  have hq' : (p.elements.map q.target).Perm p.elements := by
    rw [← hel', ← map_target]
    exact hq
  rw [hel, hmap]
  exact (hp'.map q.target).trans hq'

/-- A way to see that images are a rearrangement: none is taken twice. -/
theorem of_injective (hmem : ∀ i ∈ p.elements, p.target i ∈ p.elements)
    (hinj : ∀ i ∈ p.elements, ∀ j ∈ p.elements, p.target i = p.target j → i = j) :
    p.Rearranges := by
  unfold Rearranges
  rw [map_target]
  have hnodup : (p.elements.map p.target).Nodup :=
    List.Nodup.map_on (fun i hi j hj ↦ hinj i hi j hj) List.nodup_range'
  have hsub : p.elements.map p.target ⊆ p.elements := by
    intro j hj
    obtain ⟨i, hi, rfl⟩ := List.mem_map.mp hj
    exact hmem i hi
  exact (List.subperm_of_subset hnodup hsub).perm_of_length_le (by simp)

/-- Another way: every element is taken. -/
theorem of_surjective (hsurj : ∀ j ∈ p.elements, ∃ i ∈ p.elements, p.target i = j) :
    p.Rearranges := by
  unfold Rearranges
  rw [map_target]
  have hsub : p.elements ⊆ p.elements.map p.target := by
    intro j hj
    obtain ⟨i, hi, rfl⟩ := hsurj j hj
    exact List.mem_map_of_mem hi
  exact ((List.subperm_of_subset List.nodup_range' hsub).perm_of_length_le
    (by simp [elements])).symm

end Rearranges

section Inverse

theorem apply_preimage (h : p.Rearranges) {j : ℕ} (hj : j ∈ p.elements) :
    p.apply (p.preimage j) = j := by
  obtain ⟨i, hi, hij⟩ := h.exists_target hj
  unfold preimage
  cases hf : p.elements.find? fun i ↦ p.target i == j with
  | none =>
    have := List.find?_eq_none.mp hf i hi
    simp [hij] at this
  | some k =>
    have hk : p.target k = j := by simpa using List.find?_some hf
    rw [target_eq] at hk
    by_cases hneg : p.flips k = true
    · have hneg' : p.apply k < 0 := by simpa [flips] using hneg
      simp only [hneg, if_true, apply_neg]
      omega
    · have hpos : 0 ≤ p.apply k := by simpa [flips] using hneg
      simp only [hneg, Bool.false_eq_true, if_false]
      omega

theorem apply_inverse (h : p.Rearranges) {j : ℤ} (hj : p.IsElement j) :
    p.apply (p.inverse.apply j) = j := by
  refine apply_eq_apply (f := fun j ↦ p.apply (p.inverse.apply j)) (g := id) (by simp) (by simp)
    (fun i hi ↦ ?_) hj
  have hinv : p.inverse.apply ((i : ℤ) + 1) = p.preimage (i + 1) := by
    rw [apply_succ]
    simp [inverse, Array.getD_eq_getD_getElem?, hi]
  rw [hinv, apply_preimage h (mem_elements.mpr (by omega))]
  simp

theorem isElement_inverse (h : p.Rearranges) {j : ℤ} (hj : p.IsElement j) :
    p.IsElement (p.inverse.apply j) := by
  by_contra hne
  have happ := apply_inverse h hj
  by_cases hz : p.inverse.apply j = 0
  · rw [hz, apply_zero] at happ
    exact absurd hj.1 (by omega)
  · rw [apply_eq_zero (by unfold IsElement at hne; omega)] at happ
    exact absurd hj.1 (by omega)

theorem Rearranges.inverse (h : p.Rearranges) : p.inverse.Rearranges := by
  have hel (i : ℕ) : i ∈ p.inverse.elements ↔ p.IsElement i := by
    rw [mem_elements, size_inverse]
    simp [IsElement]
  refine .of_injective (fun j hj ↦ ?_) (fun i hi j hj he ↦ ?_)
  · have := isElement_inverse h ((hel j).mp hj)
    rw [mem_elements, size_inverse]
    exact this
  · have hi' := apply_inverse h ((hel i).mp hi)
    have hj' := apply_inverse h ((hel j).mp hj)
    rcases Int.natAbs_eq_natAbs_iff.mp he with hs | hs
    · rw [hs, hj'] at hi'
      exact_mod_cast hi'.symm
    · rw [hs, apply_neg, hj'] at hi'
      omega

end Inverse

section Signed

/-- What a permutation does to all signed numbers: those that are no elements stay. -/
def extend (p : Permutation) (i : ℤ) : ℤ := if p.IsElement i then p.apply i else i

theorem extend_neg (p : Permutation) (i : ℤ) : p.extend (-i) = -p.extend i := by
  unfold extend
  have : p.IsElement (-i) ↔ p.IsElement i := by simp [IsElement]
  by_cases hi : p.IsElement i
  · rw [if_pos hi, if_pos (this.mpr hi), apply_neg]
  · rw [if_neg hi, if_neg (fun h ↦ hi (this.mp h))]

theorem Rearranges.extend_bijective (h : p.Rearranges) : Function.Bijective p.extend := by
  constructor
  · intro i j he
    unfold extend at he
    split_ifs at he with hi hj hj
    · exact h.apply_injective hi hj he
    · exact absurd (he ▸ h.isElement_apply hi) hj
    · exact absurd (he ▸ h.isElement_apply hj) hi
    · exact he
  · intro j
    by_cases hj : p.IsElement j
    · refine ⟨p.inverse.apply j, ?_⟩
      rw [extend, if_pos (isElement_inverse h hj), apply_inverse h hj]
    · exact ⟨j, by rw [extend, if_neg hj]⟩

/-- A rearrangement as a permutation of the signed numbers. -/
noncomputable def perm (p : Permutation) : Equiv.Perm ℤ :=
  if h : p.Rearranges then Equiv.ofBijective p.extend h.extend_bijective else 1

theorem Rearranges.perm_apply (h : p.Rearranges) (i : ℤ) : p.perm i = p.extend i := by
  rw [perm, dif_pos h]
  rfl

theorem Rearranges.perm_of_isElement (h : p.Rearranges) {i : ℤ} (hi : p.IsElement i) :
    p.perm i = p.apply i := by
  rw [h.perm_apply, extend, if_pos hi]

theorem Rearranges.perm_of_not_isElement (h : p.Rearranges) {i : ℤ} (hi : ¬ p.IsElement i) :
    p.perm i = i := by
  rw [h.perm_apply, extend, if_neg hi]

theorem Rearranges.perm_neg (h : p.Rearranges) (i : ℤ) : p.perm (-i) = -p.perm i := by
  rw [h.perm_apply, h.perm_apply, extend_neg]

@[simp] theorem perm_identity (n : ℕ) (signed : Bool) : (identity n signed).perm = 1 := by
  ext i
  rw [(Rearranges.identity n signed).perm_apply, extend]
  split_ifs with hi
  · rw [apply_identity (by simpa using hi.2)]
    rfl
  · rfl

theorem perm_andThen (hp : p.Rearranges) (hq : q.Rearranges) (hs : p.size = q.size) :
    (p.andThen q).perm = q.perm * p.perm := by
  ext i
  rw [(hp.andThen hq hs).perm_apply, Equiv.Perm.mul_apply, extend, apply_andThen]
  have hel : (p.andThen q).IsElement i ↔ p.IsElement i := by simp [IsElement]
  have hel' (j : ℤ) : q.IsElement j ↔ p.IsElement j := by simp [IsElement, hs]
  by_cases hi : p.IsElement i
  · rw [if_pos (hel.mpr hi), hp.perm_of_isElement hi,
      hq.perm_of_isElement ((hel' _).mpr (hp.isElement_apply hi))]
  · rw [if_neg (fun h ↦ hi (hel.mp h)), hp.perm_of_not_isElement hi,
      hq.perm_of_not_isElement (fun h ↦ hi ((hel' i).mp h))]

theorem perm_inverse (h : p.Rearranges) : p.inverse.perm = p.perm⁻¹ := by
  rw [eq_comm, inv_eq_iff_mul_eq_one]
  ext j
  have hel : p.inverse.IsElement j ↔ p.IsElement j := by simp [IsElement]
  rw [Equiv.Perm.mul_apply, Equiv.Perm.one_apply]
  by_cases hj : p.IsElement j
  · rw [h.inverse.perm_of_isElement (hel.mpr hj),
      h.perm_of_isElement (isElement_inverse h hj), apply_inverse h hj]
  · rw [h.inverse.perm_of_not_isElement (fun h' ↦ hj (hel.mp h')), h.perm_of_not_isElement hj]

end Signed

section Power

@[simp] theorem size_repeated (p : Permutation) (fuel n : ℕ) :
    (p.repeated fuel n).size = p.size := by
  induction fuel generalizing n with
  | zero => simp [repeated]
  | succ fuel ih =>
    unfold repeated
    split_ifs <;> simp [ih]

@[simp] theorem size_power (p : Permutation) (n : ℤ) : (p.power n).size = p.size := by
  cases n <;> simp [power]

theorem Rearranges.repeated (h : p.Rearranges) (fuel n : ℕ) : (p.repeated fuel n).Rearranges := by
  induction fuel generalizing n with
  | zero => exact .identity _ _
  | succ fuel ih =>
    have hhalf := ih (n / 2)
    have hsquare := hhalf.andThen hhalf rfl
    unfold Permutation.repeated
    split_ifs
    · exact .identity _ _
    · exact hsquare
    · exact hsquare.andThen h (by simp)

theorem Rearranges.power (h : p.Rearranges) (n : ℤ) : (p.power n).Rearranges := by
  cases n with
  | ofNat n => exact h.repeated n n
  | negSucc n => exact h.inverse.repeated _ _

theorem perm_repeated (h : p.Rearranges) {fuel n : ℕ} (hn : n ≤ fuel) :
    (p.repeated fuel n).perm = p.perm ^ n := by
  induction fuel generalizing n with
  | zero =>
    obtain rfl : n = 0 := by omega
    simp [repeated]
  | succ fuel ih =>
    have hhalf := h.repeated fuel (n / 2)
    have hsquare : ((p.repeated fuel (n / 2)).andThen (p.repeated fuel (n / 2))).perm =
        p.perm ^ (2 * (n / 2)) := by
      rw [perm_andThen hhalf hhalf rfl, ih (by omega), ← pow_add]
      congr 1
      omega
    unfold repeated
    split_ifs with h0 h2
    · simp [h0]
    · rw [hsquare, show 2 * (n / 2) = n by omega]
    · rw [perm_andThen (hhalf.andThen hhalf rfl) h (by simp), hsquare, ← pow_succ',
        show 2 * (n / 2) + 1 = n by omega]

theorem perm_power (h : p.Rearranges) (n : ℤ) : (p.power n).perm = p.perm ^ n := by
  cases n with
  | ofNat n => exact perm_repeated h le_rfl
  | negSucc n =>
    rw [power, perm_repeated h.inverse le_rfl, perm_inverse h, zpow_negSucc, inv_pow]

end Power

end Juggling.Permutation
