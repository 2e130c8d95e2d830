import Mathlib.Algebra.Group.MinimalAxioms
import Mathlib.Algebra.Group.TypeTags.Hom
import Juggling.Proofs.Exact
import Juggling.Proofs.Order

namespace Juggling

/-- What a transform does to times, to signed jugglers and to signed paths. -/
@[ext]
structure Motion (α : Type) where
  shift : α
  jugglers : Equiv.Perm ℤ
  paths : Equiv.Perm ℤ

namespace Motion

variable {α : Type}

/-- The same shift, the same image of one juggler, and the same images of all paths apart from
reversals. Events of that juggler are moved alike. -/
def AgreeAt (j : ℤ) (f g : Motion α) : Prop :=
  f.shift = g.shift ∧ f.jugglers j = g.jugglers j ∧ ∀ p, (f.paths p).natAbs = (g.paths p).natAbs

namespace AgreeAt

variable {j : ℤ} {f g h : Motion α}

@[refl] theorem refl (j : ℤ) (f : Motion α) : AgreeAt j f f := ⟨rfl, rfl, fun _ ↦ rfl⟩

theorem trans (hfg : AgreeAt j f g) (hgh : AgreeAt j g h) : AgreeAt j f h :=
  ⟨hfg.1.trans hgh.1, hfg.2.1.trans hgh.2.1, fun p ↦ (hfg.2.2 p).trans (hgh.2.2 p)⟩

end AgreeAt

variable [Exact α]

/-- First the one, then the other. -/
instance : Mul (Motion α) :=
  ⟨fun f g ↦ ⟨f.shift + g.shift, f.jugglers.trans g.jugglers, f.paths.trans g.paths⟩⟩

instance : One (Motion α) := ⟨⟨0, 1, 1⟩⟩

instance : Inv (Motion α) := ⟨fun f ↦ ⟨-f.shift, f.jugglers⁻¹, f.paths⁻¹⟩⟩

@[simp] theorem shift_mul (f g : Motion α) : (f * g).shift = f.shift + g.shift := rfl

@[simp] theorem jugglers_mul (f g : Motion α) (j : ℤ) :
    (f * g).jugglers j = g.jugglers (f.jugglers j) := rfl

@[simp] theorem paths_mul (f g : Motion α) (p : ℤ) : (f * g).paths p = g.paths (f.paths p) := rfl

@[simp] theorem shift_one : (1 : Motion α).shift = 0 := rfl

@[simp] theorem jugglers_one : (1 : Motion α).jugglers = 1 := rfl

@[simp] theorem paths_one : (1 : Motion α).paths = 1 := rfl

@[simp] theorem shift_inv (f : Motion α) : f⁻¹.shift = -f.shift := rfl

@[simp] theorem jugglers_inv (f : Motion α) : f⁻¹.jugglers = f.jugglers⁻¹ := rfl

@[simp] theorem paths_inv (f : Motion α) : f⁻¹.paths = f.paths⁻¹ := rfl

instance : Group (Motion α) := Group.ofLeftAxioms
  (fun f g h ↦ Motion.ext (add_assoc _ _ _) rfl rfl)
  (fun f ↦ Motion.ext (zero_add _) rfl rfl)
  (fun f ↦ Motion.ext (neg_add_cancel _) (Equiv.ext fun i ↦ by simp) (Equiv.ext fun i ↦ by simp))

def shiftHom : Motion α →* Multiplicative α where
  toFun f := .ofAdd f.shift
  map_one' := rfl
  map_mul' _ _ := rfl

@[simp] theorem shift_zpow (f : Motion α) (n : ℤ) : (f ^ n).shift = n * f.shift := by
  have h := map_zpow shiftHom f n
  rw [← zsmul_eq_mul]
  exact h

theorem jugglers_zpow (f : Motion α) (n : ℤ) : (f ^ n).jugglers = f.jugglers ^ n := by
  let hom : Motion α →* (Equiv.Perm ℤ)ᵐᵒᵖ :=
    { toFun := fun f ↦ .op f.jugglers, map_one' := rfl, map_mul' := fun _ _ ↦ rfl }
  have h := map_zpow hom f n
  exact MulOpposite.op_injective (h.trans (MulOpposite.op_zpow _ _).symm)

theorem paths_zpow (f : Motion α) (n : ℤ) : (f ^ n).paths = f.paths ^ n := by
  let hom : Motion α →* (Equiv.Perm ℤ)ᵐᵒᵖ :=
    { toFun := fun f ↦ .op f.paths, map_one' := rfl, map_mul' := fun _ _ ↦ rfl }
  have h := map_zpow hom f n
  exact MulOpposite.op_injective (h.trans (MulOpposite.op_zpow _ _).symm)

/-- A reversed juggler or path goes to the reversed image. -/
def signed : Subgroup (Motion α) where
  carrier := {f | (∀ i, f.jugglers (-i) = -f.jugglers i) ∧ ∀ i, f.paths (-i) = -f.paths i}
  one_mem' := ⟨fun _ ↦ rfl, fun _ ↦ rfl⟩
  mul_mem' := fun hf hg ↦
    ⟨fun i ↦ by simp [hf.1, hg.1], fun i ↦ by simp [hf.2, hg.2]⟩
  inv_mem' := by
    intro f hf
    constructor <;> intro i <;> simp only [jugglers_inv, paths_inv, Equiv.Perm.inv_eq_iff_eq]
    · simp [hf.1]
    · simp [hf.2]

namespace AgreeAt

variable {j : ℤ} {f g h : Motion α}

theorem natAbs_congr (hh : h ∈ signed) {p q : ℤ} (hpq : p.natAbs = q.natAbs) :
    (h.paths p).natAbs = (h.paths q).natAbs := by
  rcases Int.natAbs_eq_natAbs_iff.mp hpq with rfl | rfl
  · rfl
  · rw [hh.2, Int.natAbs_neg]

theorem mul_right (hh : h ∈ signed) (hfg : AgreeAt j f g) : AgreeAt j (f * h) (g * h) :=
  ⟨by simp [hfg.1], by simp [hfg.2.1], fun p ↦ natAbs_congr hh (hfg.2.2 p)⟩

theorem mul_left (hfg : AgreeAt (h.jugglers j) f g) : AgreeAt j (h * f) (h * g) :=
  ⟨by simp [hfg.1], by simp [hfg.2.1], fun p ↦ hfg.2.2 (h.paths p)⟩

theorem neg (hf : f ∈ signed) (hg : g ∈ signed) (hfg : AgreeAt j f g) : AgreeAt (-j) f g :=
  ⟨hfg.1, by rw [hf.1, hg.1, hfg.2.1], hfg.2.2⟩

end AgreeAt

end Motion

namespace Event

variable {α : Type} [Exact α]

/-- An event later and elsewhere: at a signed juggler, with other names for the paths. -/
def moved (e : Event α) (shift : α) (juggler : ℤ) (rename : ℕ → ℕ) : Event α where
  time := e.time + shift
  place := if juggler < 0 then { e.place with x := -e.place.x } else e.place
  juggler := juggler.natAbs
  hand := if juggler < 0 then e.hand.other else e.hand
  transitions := e.transitions.map fun t ↦ { t with path := rename t.path }

@[simp] theorem juggler_moved (e : Event α) (s : α) (j : ℤ) (r : ℕ → ℕ) :
    (e.moved s j r).juggler = j.natAbs := rfl

theorem moved_moved (e : Event α) (s s' : α) {j k : ℤ} (r r' : ℕ → ℕ) (hk : k = 0 → j = 0) :
    (e.moved s j r).moved s' k r' =
      e.moved (s + s') (if j < 0 then -k else k) (fun p ↦ r' (r p)) := by
  have htime : e.time + s + s' = e.time + (s + s') := add_assoc _ _ _
  have hneg (x : α) : - -x = x := neg_neg x
  have hhand : e.hand.other.other = e.hand := by cases e.hand <;> rfl
  have htransitions : (e.transitions.map fun t ↦ { t with path := r t.path }).map
      (fun t ↦ { t with path := r' t.path }) =
      e.transitions.map fun t ↦ { t with path := r' (r t.path) } := by
    rw [List.map_map]
    rfl
  by_cases hj : j < 0
  · by_cases hk' : k < 0
    · simp [moved, hj, hk', hneg, hhand, htransitions, htime, not_lt.mpr hk'.le]
    · have hk'' : 0 < k := by
        rcases lt_trichotomy k 0 with h | h | h
        · exact absurd h hk'
        · exact absurd (hk h) hj.ne
        · exact h
      simp [moved, hj, hk', hk'', htransitions, htime]
  · by_cases hk' : k < 0 <;> simp [moved, hj, hk', htransitions, htime]

end Event

namespace Transform

variable {α : Type}

/-- The renamings of a transform are rearrangements of as many jugglers and paths as there are. -/
structure Fits (jugglers paths : ℕ) (f : Transform α) : Prop where
  rearranges_jugglers : f.jugglers.Rearranges
  size_jugglers : f.jugglers.size = jugglers
  rearranges_paths : f.paths.Rearranges
  size_paths : f.paths.size = paths

variable {J N : ℕ} {f g : Transform α}

instance (J N : ℕ) (f : Transform α) : Decidable (f.Fits J N) :=
  decidable_of_iff (f.jugglers.Rearranges ∧ f.jugglers.size = J ∧ f.paths.Rearranges ∧
      f.paths.size = N)
    ⟨fun ⟨hj, hJ, hp, hN⟩ ↦ ⟨hj, hJ, hp, hN⟩, fun ⟨hj, hJ, hp, hN⟩ ↦ ⟨hj, hJ, hp, hN⟩⟩

noncomputable def motion (f : Transform α) : Motion α := ⟨f.shift, f.jugglers.perm, f.paths.perm⟩

@[simp] theorem shift_motion (f : Transform α) : f.motion.shift = f.shift := rfl

namespace Fits

theorem motion_jugglers (hf : f.Fits J N) {j : ℕ} (hj : j ≤ J) :
    f.motion.jugglers j = f.jugglers.apply j := by
  by_cases hz : j = 0
  · subst hz
    exact hf.rearranges_jugglers.perm_of_not_isElement (by simp [Permutation.IsElement])
  · refine hf.rearranges_jugglers.perm_of_isElement ?_
    simp only [Permutation.IsElement, hf.size_jugglers, Int.natAbs_natCast]
    omega

theorem apply_jugglers (hf : f.Fits J N) {j : ℕ} (hj : J < j) : f.jugglers.apply j = 0 :=
  Permutation.apply_eq_zero (by rwa [hf.size_jugglers, Int.natAbs_natCast])

theorem motion_paths (hf : f.Fits J N) {p : ℕ} (hp : p ≤ N) :
    f.motion.paths p = f.paths.apply p := by
  by_cases hz : p = 0
  · subst hz
    exact hf.rearranges_paths.perm_of_not_isElement (by simp [Permutation.IsElement])
  · refine hf.rearranges_paths.perm_of_isElement ?_
    simp only [Permutation.IsElement, hf.size_paths, Int.natAbs_natCast]
    omega

theorem target_paths (hf : f.Fits J N) {p : ℕ} (hp : N < p) : f.paths.target p = 0 := by
  rw [Permutation.target_eq, Permutation.apply_eq_zero (by rwa [hf.size_paths, Int.natAbs_natCast])]
  rfl

end Fits

theorem Fits.motion_jugglers_eq_one (hf : f.Fits J N)
    (h : f.jugglers.isIdentity = true) : f.motion.jugglers = 1 := by
  rw [Permutation.isIdentity, List.all_eq_true] at h
  ext i
  by_cases hi : f.jugglers.IsElement i
  · have hmem : i.natAbs ∈ f.jugglers.elements := Permutation.mem_elements.mpr hi
    have hfix : f.jugglers.apply i.natAbs = i.natAbs := by simpa using h _ hmem
    rw [Transform.motion, hf.rearranges_jugglers.perm_of_isElement hi, Equiv.Perm.one_apply]
    rcases Int.natAbs_eq i with hs | hs
    · rw [← hs] at hfix
      exact hfix
    · rw [hs, Permutation.apply_neg, hfix]
  · exact hf.rearranges_jugglers.perm_of_not_isElement hi

theorem Fits.motion_eq_of_agrees (hf : f.Fits J N) (hg : g.Fits J N) (hshift : f.shift = g.shift)
    (hj : f.jugglers.agrees g.jugglers = true) (hp : f.paths.agrees g.paths = true) :
    f.motion = g.motion := by
  have key {p q : Permutation} (hp : p.Rearranges) (hq : q.Rearranges) (hs : p.size = q.size)
      (ha : p.agrees q = true) : p.perm = q.perm := by
    ext i
    by_cases hi : p.IsElement i
    · have hi' : q.IsElement i := by rwa [Permutation.IsElement, ← hs]
      rw [hp.perm_of_isElement hi, hq.perm_of_isElement hi']
      refine Permutation.apply_eq_apply (Permutation.apply_neg p) (Permutation.apply_neg q)
        (fun k hk ↦ ?_) hi
      rw [Permutation.agrees, List.all_eq_true] at ha
      exact_mod_cast beq_iff_eq.mp (ha (k + 1) (Permutation.mem_elements.mpr (by omega)))
    · have hi' : ¬q.IsElement i := by rwa [Permutation.IsElement, ← hs]
      rw [hp.perm_of_not_isElement hi, hq.perm_of_not_isElement hi']
  exact Motion.ext hshift
    (key hf.rearranges_jugglers hg.rearranges_jugglers
      (hf.size_jugglers.trans hg.size_jugglers.symm) hj)
    (key hf.rearranges_paths hg.rearranges_paths (hf.size_paths.trans hg.size_paths.symm) hp)

/-- A juggler from those that exist, or none. -/
def clip (J j : ℕ) : ℕ := if j ≤ J then j else 0

theorem Fits.apply_clip (hf : f.Fits J N) (j : ℕ) :
    f.jugglers.apply j = f.motion.jugglers (clip J j) := by
  unfold clip
  split_ifs with hj
  · exact (hf.motion_jugglers hj).symm
  · rw [hf.apply_jugglers (by omega), hf.motion_jugglers (Nat.zero_le J)]
    rfl

section Products

variable [Scalar α]

namespace Fits

theorem identity (J N : ℕ) : (identity J N : Transform α).Fits J N :=
  ⟨.identity _ _, Permutation.size_identity _ _, .identity _ _, Permutation.size_identity _ _⟩

theorem andThen (hf : f.Fits J N) (hg : g.Fits J N) : (f.andThen g).Fits J N where
  rearranges_jugglers :=
    hf.rearranges_jugglers.andThen hg.rearranges_jugglers
      (hf.size_jugglers.trans hg.size_jugglers.symm)
  size_jugglers := (Permutation.size_andThen _ _).trans hf.size_jugglers
  rearranges_paths :=
    hf.rearranges_paths.andThen hg.rearranges_paths (hf.size_paths.trans hg.size_paths.symm)
  size_paths := (Permutation.size_andThen _ _).trans hf.size_paths

theorem power (hf : f.Fits J N) (n : ℤ) : (f.power n).Fits J N where
  rearranges_jugglers := hf.rearranges_jugglers.power n
  size_jugglers := (Permutation.size_power _ _).trans hf.size_jugglers
  rearranges_paths := hf.rearranges_paths.power n
  size_paths := (Permutation.size_power _ _).trans hf.size_paths

end Fits

end Products

variable [Exact α]

theorem shift_andThen (f g : Transform α) : (f.andThen g).shift = f.shift + g.shift := rfl

theorem shift_power (f : Transform α) (n : ℤ) : (f.power n).shift = f.shift * n := rfl

theorem apply_eq_moved (f : Transform α) (e : Event α) :
    f.apply e = e.moved f.shift (f.jugglers.apply e.juggler) f.paths.target := by
  simp only [apply, Event.moved, Permutation.flips, Permutation.target_eq, decide_eq_true_eq]

namespace Fits

theorem motion_mem_signed (hf : f.Fits J N) : f.motion ∈ Motion.signed :=
  ⟨hf.rearranges_jugglers.perm_neg, hf.rearranges_paths.perm_neg⟩

end Fits

theorem motion_identity (J N : ℕ) : (identity J N : Transform α).motion = 1 := by
  refine Motion.ext ?_ (Permutation.perm_identity _ _) (Permutation.perm_identity _ _)
  simp [motion, identity]

theorem motion_andThen (hf : f.Fits J N) (hg : g.Fits J N) :
    (f.andThen g).motion = f.motion * g.motion :=
  Motion.ext rfl
    (Permutation.perm_andThen hf.rearranges_jugglers hg.rearranges_jugglers
      (hf.size_jugglers.trans hg.size_jugglers.symm))
    (Permutation.perm_andThen hf.rearranges_paths hg.rearranges_paths
      (hf.size_paths.trans hg.size_paths.symm))

theorem motion_power (hf : f.Fits J N) (n : ℤ) : (f.power n).motion = f.motion ^ n := by
  refine Motion.ext ?_ ?_ ?_
  · rw [Motion.shift_zpow]
    exact mul_comm _ _
  · rw [Motion.jugglers_zpow]
    exact Permutation.perm_power hf.rearranges_jugglers n
  · rw [Motion.paths_zpow]
    exact Permutation.perm_power hf.rearranges_paths n

theorem apply_eq_apply (hf : f.Fits J N) (hg : g.Fits J N) {e : Event α}
    (h : Motion.AgreeAt (clip J e.juggler) f.motion g.motion) : f.apply e = g.apply e := by
  have hj : f.jugglers.apply e.juggler = g.jugglers.apply e.juggler := by
    rw [hf.apply_clip, hg.apply_clip, h.2.1]
  have hp : f.paths.target = g.paths.target := by
    funext p
    by_cases hp : p ≤ N
    · rw [Permutation.target_eq, Permutation.target_eq, ← hf.motion_paths hp, ← hg.motion_paths hp]
      exact h.2.2 p
    · rw [hf.target_paths (by omega), hg.target_paths (by omega)]
  have hs : f.shift = g.shift := h.1
  rw [apply_eq_moved, apply_eq_moved, hs, hj, hp]

theorem apply_andThen (hf : f.Fits J N) (hg : g.Fits J N) (e : Event α) :
    (f.andThen g).apply e = g.apply (f.apply e) := by
  have htarget (p : ℕ) :
      (f.paths.andThen g.paths).target p = g.paths.target (f.paths.target p) := by
    rw [Permutation.target_eq, Permutation.apply_andThen, Permutation.target_eq,
      Permutation.target_eq]
    rcases Int.natAbs_eq (f.paths.apply p) with hs | hs
    · rw [← hs]
    · conv_lhs => rw [hs, Permutation.apply_neg, Int.natAbs_neg]
  -- A juggler that exists keeps existing.
  have hzero : g.jugglers.apply (f.jugglers.apply e.juggler).natAbs = 0 →
      f.jugglers.apply e.juggler = 0 := by
    intro hz
    by_contra hne
    have hin : f.jugglers.IsElement e.juggler := by
      by_contra hout
      by_cases h0 : e.juggler = 0
      · exact hne (by rw [h0]; rfl)
      · refine hne (Permutation.apply_eq_zero ?_)
        simp only [Permutation.IsElement, Int.natAbs_natCast] at hout ⊢
        omega
    have hel := hf.rearranges_jugglers.isElement_apply hin
    have hel' : g.jugglers.IsElement (f.jugglers.apply e.juggler).natAbs := by
      rw [Permutation.IsElement, Int.natAbs_natCast, hg.size_jugglers, ← hf.size_jugglers]
      exact hel
    have := (hg.rearranges_jugglers.isElement_apply hel').1
    rw [hz] at this
    exact absurd this (by decide)
  have hsign : (f.jugglers.andThen g.jugglers).apply e.juggler =
      if f.jugglers.apply e.juggler < 0 then
        -g.jugglers.apply (f.jugglers.apply e.juggler).natAbs
      else g.jugglers.apply (f.jugglers.apply e.juggler).natAbs := by
    rw [Permutation.apply_andThen]
    split_ifs with hneg
    · rw [← Permutation.apply_neg, Int.ofNat_natAbs_of_nonpos hneg.le, neg_neg]
    · rw [Int.natAbs_of_nonneg (not_lt.mp hneg)]
  rw [apply_eq_moved g, apply_eq_moved f, Event.juggler_moved, Event.moved_moved _ _ _ _ _ hzero,
    apply_eq_moved]
  simp only [← hsign, ← htarget]
  rfl

end Transform

end Juggling
