import Mathlib.GroupTheory.OrderOfElement
import Juggling.Proofs.Written

namespace Juggling.Permutation

variable {p q : Permutation}

namespace Upright

theorem identity (n : ℕ) (signed : Bool) : (identity n signed).Upright := by
  intro _ i hi
  rw [mem_elements, size_identity] at hi
  rw [apply_identity (by simpa using hi.2)]
  omega

theorem inverse (h : p.Rearranges) (hup : p.Upright) : p.inverse.Upright := by
  intro hsigned j hj
  have hel : p.IsElement (j : ℤ) := by simpa [mem_elements, IsElement] using hj
  have hback := apply_inverse h hel
  have hmem : (p.inverse.apply j).natAbs ∈ p.elements := mem_elements.mpr (isElement_inverse h hel)
  have hpos := hup hsigned _ hmem
  by_contra hneg
  -- What comes from a reversed element would be reversed.
  rw [Int.ofNat_natAbs_of_nonpos (not_lt.mp hneg), apply_neg, hback] at hpos
  omega

theorem andThen (h : p.Rearranges) (hp : p.Upright) (hq : q.Upright) (hs : p.size = q.size) :
    (p.andThen q).Upright := by
  intro hsigned i hi
  obtain ⟨hsigned, hsigned'⟩ : p.signed = false ∧ q.signed = false := by
    simpa [Permutation.andThen] using hsigned
  have hi : i ∈ p.elements := by simpa [elements] using hi
  have hel : q.IsElement (p.apply i) := by
    have := h.isElement_apply (i := i) (by simpa [IsElement] using mem_elements.mp hi)
    rwa [IsElement, ← hs]
  rw [apply_andThen]
  exact hq.apply_pos hsigned' hel (hp hsigned i hi)

theorem repeated (h : p.Rearranges) (hup : p.Upright) (fuel n : ℕ) :
    (p.repeated fuel n).Upright := by
  induction fuel generalizing n with
  | zero => exact .identity _ _
  | succ fuel ih =>
    have hhalf := h.repeated fuel (n / 2)
    have hsquare := andThen hhalf (ih (n / 2)) (ih (n / 2)) rfl
    unfold Permutation.repeated
    split_ifs
    · exact .identity _ _
    · exact hsquare
    · exact andThen (hhalf.andThen hhalf rfl) hsquare hup (by simp)

theorem power (h : p.Rearranges) (hup : p.Upright) (n : ℤ) : (p.power n).Upright := by
  cases n with
  | ofNat n => exact hup.repeated h n n
  | negSucc n => exact (hup.inverse h).repeated h.inverse _ _

end Upright

/-- Whether a rearrangement comes from texts and identities by the operations. -/
inductive Reachable : Permutation → Prop
  | identity (size : ℕ) (signed : Bool) : Reachable (identity size signed)
  | parse {size : ℕ} {spec : String} {signed : Bool} {p : Permutation} :
      parse size spec signed = .ok p → Reachable p
  | inverse {p : Permutation} : Reachable p → Reachable p.inverse
  | andThen {p q : Permutation} : Reachable p → Reachable q → p.size = q.size →
      Reachable (p.andThen q)
  | power {p : Permutation} (n : ℤ) : Reachable p → Reachable (p.power n)

namespace Reachable

theorem rearranges (h : p.Reachable) : p.Rearranges := by
  induction h with
  | identity size signed => exact .identity size signed
  | parse hok => exact rearranges_parse hok
  | inverse _ ih => exact ih.inverse
  | andThen _ _ hs hp hq => exact hp.andThen hq hs
  | power n _ ih => exact ih.power n

theorem upright (h : p.Reachable) : p.Upright := by
  induction h with
  | identity size signed => exact .identity size signed
  | parse hok => exact upright_parse hok
  | inverse h ih => exact ih.inverse h.rearranges
  | andThen h _ hs hp hq => exact .andThen h.rearranges hp hq hs
  | power n h ih => exact ih.power h.rearranges n

end Reachable

/-- Two elements that change places, one of them reversed on the way. -/
def quarter : Permutation := ⟨true, #[-2, 1]⟩

theorem parse_quarter : parse 2 "(1,2*,1*,2)" true = .ok quarter :=
  toOption_eq_some.mp (by decide +kernel)

theorem reachable_quarter : quarter.Reachable := .parse parse_quarter

theorem Rearranges.orderOf_perm (h : p.Rearranges) : orderOf p.perm = p.order :=
  Nat.dvd_antisymm (orderOf_dvd_of_pow_eq_one h.perm_pow_order)
    (h.order_dvd.mpr (pow_orderOf_eq_one _))

theorem Rearranges.isIdentity_iff (h : p.Rearranges) : p.isIdentity = true ↔ p.perm = 1 := by
  have hfix := h.perm_pow_eq_one (n := 1)
  rw [pow_one] at hfix
  rw [hfix, isIdentity, List.all_eq_true]
  refine forall₂_congr fun i hi ↦ ?_
  rw [h.perm_of_isElement (by simpa [IsElement] using mem_elements.mp hi), beq_iff_eq]

end Juggling.Permutation
