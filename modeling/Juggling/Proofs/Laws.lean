import Juggling.Proofs.Reachable

namespace Juggling.Permutation

variable {p q : Permutation}

/-- A rearrangement is known by its size, by whether reversals may be written, and by what it does
to signed numbers. -/
theorem Rearranges.eq_of_perm (hp : p.Rearranges) (hq : q.Rearranges) (hsize : p.size = q.size)
    (hsigned : p.signed = q.signed) (hperm : p.perm = q.perm) : p = q := by
  have himages : p.images = q.images := by
    refine Array.ext hsize fun i hi hi' ↦ ?_
    have hel : p.IsElement ((i : ℤ) + 1) := by
      simp only [IsElement, size]
      omega
    have hel' : q.IsElement ((i : ℤ) + 1) := by rwa [IsElement, ← hsize]
    have happ : p.apply ((i : ℤ) + 1) = q.apply ((i : ℤ) + 1) := by
      rw [← hp.perm_of_isElement hel, ← hq.perm_of_isElement hel', hperm]
    rw [apply_succ, apply_succ] at happ
    simpa [Array.getD_eq_getD_getElem?, hi, hi'] using happ
  cases p
  cases q
  exact congr (congrArg Permutation.mk hsigned) himages

@[simp] theorem signed_identity (n : ℕ) (signed : Bool) : (identity n signed).signed = signed := rfl

@[simp] theorem signed_inverse (p : Permutation) : p.inverse.signed = p.signed := rfl

@[simp] theorem signed_andThen (p q : Permutation) :
    (p.andThen q).signed = (p.signed || q.signed) := rfl

@[simp] theorem signed_repeated (p : Permutation) (fuel n : ℕ) :
    (p.repeated fuel n).signed = p.signed := by
  induction fuel generalizing n with
  | zero => rfl
  | succ fuel ih =>
    unfold repeated
    split_ifs <;> simp [ih]

@[simp] theorem signed_power (p : Permutation) (n : ℤ) : (p.power n).signed = p.signed := by
  cases n <;> simp [power]

theorem andThen_assoc (p q r : Permutation) :
    (p.andThen q).andThen r = p.andThen (q.andThen r) := by
  simp [andThen, Bool.or_assoc, Function.comp_def, ← apply_andThen q r]

namespace Rearranges

theorem andThen_inverse (h : p.Rearranges) : p.andThen p.inverse = .identity p.size p.signed := by
  refine (h.andThen h.inverse (by simp)).eq_of_perm (.identity _ _) (by simp) (by simp) ?_
  rw [perm_andThen h h.inverse (by simp), perm_inverse h, inv_mul_cancel, perm_identity]

theorem inverse_andThen (h : p.Rearranges) : p.inverse.andThen p = .identity p.size p.signed := by
  refine (h.inverse.andThen h (by simp)).eq_of_perm (.identity _ _) (by simp) (by simp) ?_
  rw [perm_andThen h.inverse h (by simp), perm_inverse h, mul_inv_cancel, perm_identity]

theorem inverse_inverse (h : p.Rearranges) : p.inverse.inverse = p := by
  refine h.inverse.inverse.eq_of_perm h (by simp) (by simp) ?_
  rw [perm_inverse h.inverse, perm_inverse h, inv_inv]

/-- To undo two rearrangements the later one is undone first. -/
theorem inverse_of_andThen (hp : p.Rearranges) (hq : q.Rearranges) (hs : p.size = q.size) :
    (p.andThen q).inverse = q.inverse.andThen p.inverse := by
  refine (hp.andThen hq hs).inverse.eq_of_perm (hq.inverse.andThen hp.inverse (by simp [hs]))
    (by simp [hs]) (by simp [Bool.or_comm]) ?_
  rw [perm_inverse (hp.andThen hq hs), perm_andThen hp hq hs,
    perm_andThen hq.inverse hp.inverse (by simp [hs]), perm_inverse hp, perm_inverse hq,
    mul_inv_rev]

theorem power_andThen_power (h : p.Rearranges) (a b : ℤ) :
    (p.power a).andThen (p.power b) = p.power (a + b) := by
  refine ((h.power a).andThen (h.power b) (by simp)).eq_of_perm (h.power _) (by simp) (by simp) ?_
  rw [perm_andThen (h.power a) (h.power b) (by simp), perm_power h, perm_power h, perm_power h,
    ← zpow_add, add_comm]

end Rearranges

/-- An element that is reversed in its place, beside one that stays. -/
def mirror : Permutation := ⟨true, #[-1, 2]⟩

theorem reachable_mirror : mirror.Reachable := by
  have hparse : parse 2 "(1,1*)" true = .ok mirror := toOption_eq_some.mp (by decide +kernel)
  exact .parse hparse

end Juggling.Permutation
