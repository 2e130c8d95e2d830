import Mathlib.Data.Set.Finite.List
import Juggling.Proofs.Invariance

namespace Juggling.SymmetryGroup

variable {α : Type} {g : SymmetryGroup α}

/-- The motions of the representatives. -/
def Rep (g : SymmetryGroup α) : Type :=
  {m : Motion α // m ∈ g.representatives.toList.map Transform.motion}

instance : Finite g.Rep := List.finite_toSet _

theorem mem_motions {m : Motion α} :
    m ∈ g.representatives.toList.map Transform.motion ↔ ∃ r ∈ g.representatives, r.motion = m := by
  simp

variable [Exact α] {symmetries : List (Symmetry α)} {J N : ℕ}

namespace IsGroupOf

section Steps

variable (hg : g.IsGroupOf symmetries J N)

include hg

theorem one_mem : (1 : Motion α) ∈ g.representatives.toList.map Transform.motion := by
  obtain ⟨rest, hrest⟩ := hg.first
  rw [hrest, List.map_cons, Transform.motion_identity]
  exact List.mem_cons_self

theorem rep_shift_mem (r : g.Rep) : 0 ≤ r.1.shift ∧ r.1.shift < g.period := by
  obtain ⟨r', hr', h⟩ := mem_motions.mp r.2
  rw [← h]
  exact hg.shift_mem r' hr'

/-- Representatives that are the same product up to powers of the delay are the same. -/
theorem rep_unique {r r' : g.Rep} {m : Motion α} {y y' : ℤ}
    (h : r.1 = m * g.delay.motion ^ y) (h' : r'.1 = m * g.delay.motion ^ y') : r = r' := by
  have hr := hg.rep_shift_mem r
  have hr' := hg.rep_shift_mem r'
  have hs := congrArg Motion.shift h
  have hs' := congrArg Motion.shift h'
  simp only [Motion.shift_mul, Motion.shift_zpow, Transform.shift_motion, shift_delay] at hs hs'
  obtain ⟨rfl, -⟩ := period_unique (m := y') (n := y) hr.1 hr.2 hr'.1 hr'.2 (by linarith)
  exact Subtype.ext (h.trans h'.symm)

variable (hs : Separated g.period symmetries)

include hs

theorem exists_step {h : Transform α} (hh : h ∈ generators g.period symmetries) (r : g.Rep) :
    ∃ r' : g.Rep, ∃ y : ℤ, r'.1 = r.1 * h.motion * g.delay.motion ^ y := by
  obtain ⟨r₀, hr₀, heq⟩ := mem_motions.mp r.2
  obtain ⟨r', hr', y, hy⟩ := hg.exists_product hs hr₀ hh
  exact ⟨⟨r'.motion, mem_motions.mpr ⟨r', hr', rfl⟩⟩, y, heq ▸ hy⟩

/-- A generator rearranges the representatives. -/
theorem exists_perm {h : Transform α} (hh : h ∈ generators g.period symmetries) :
    ∃ φ : Equiv.Perm g.Rep, ∀ r, ∃ y : ℤ, (φ r).1 = r.1 * h.motion * g.delay.motion ^ y := by
  choose φ hφ using hg.exists_step hs hh
  have hinj : Function.Injective φ := by
    intro r r' heq
    obtain ⟨y, hy⟩ := hφ r
    obtain ⟨y', hy'⟩ := hφ r'
    rw [heq, hy'] at hy
    have hr := hg.rep_shift_mem r
    have hr' := hg.rep_shift_mem r'
    have hshift := congrArg Motion.shift hy
    simp only [Motion.shift_mul, Motion.shift_zpow, Transform.shift_motion, shift_delay] at hshift
    obtain ⟨rfl, -⟩ := period_unique (m := y) (n := y') hr.1 hr.2 hr'.1 hr'.2 (by linarith)
    exact Subtype.ext (mul_right_cancel (mul_right_cancel hy)).symm
  exact ⟨Equiv.ofBijective φ (Finite.injective_iff_bijective.mp hinj), hφ⟩

end Steps

def unit (hg : g.IsGroupOf symmetries J N) : g.Rep := ⟨1, hg.one_mem⟩

end IsGroupOf

/-- Rearrangements of the representatives that act on the jugglers as a permutation and on the
shifts as an offset, up to whole periods. -/
def moves (g : SymmetryGroup α) :
    Subgroup (Equiv.Perm g.Rep × Equiv.Perm ℤ × Multiplicative α) where
  carrier := {κ | ∀ r : g.Rep, (∀ j, (κ.1 r).1.jugglers j = κ.2.1 (r.1.jugglers j)) ∧
    ∃ y : ℤ, (κ.1 r).1.shift = r.1.shift + κ.2.2.toAdd + y * g.period}
  one_mem' r := ⟨fun _ ↦ rfl, 0, by simp⟩
  mul_mem' := by
    intro κ μ hκ hμ r
    obtain ⟨hj, y, hy⟩ := hμ r
    obtain ⟨hj', y', hy'⟩ := hκ (μ.1 r)
    refine ⟨fun j ↦ (hj' j).trans (congrArg κ.2.1 (hj j)), y + y', ?_⟩
    have : ((κ * μ).1 r).1.shift = (κ.1 (μ.1 r)).1.shift := rfl
    rw [this, hy', hy]
    simp only [Prod.snd_mul, toAdd_mul]
    push_cast
    ring
  inv_mem' := by
    intro κ hκ r
    obtain ⟨hj, y, hy⟩ := hκ (κ.1⁻¹ r)
    have hback : κ.1 (κ.1⁻¹ r) = r := by simp
    rw [hback] at hj hy
    refine ⟨fun j ↦ ?_, -y, ?_⟩
    · exact (κ.2.1.symm_apply_apply _).symm.trans (congrArg κ.2.1.symm (hj j).symm)
    · have : (κ⁻¹).2.2.toAdd = -κ.2.2.toAdd := rfl
      rw [this, hy]
      push_cast
      show (κ.1⁻¹ r).1.shift = _
      ring

/-- Some other representative leaves a juggler where he is, at the same moment. -/
def Shadows (g : SymmetryGroup α) (j : ℤ) : Prop :=
  ∃ r : g.Rep, r.1 ≠ 1 ∧ r.1.shift = 0 ∧ r.1.jugglers j = j

namespace IsGroupOf

variable (hg : g.IsGroupOf symmetries J N) (hs : Separated g.period symmetries)

include hg hs

/-- Every representative is where some move takes the identity. -/
theorem exists_move (r : g.Rep) : ∃ κ ∈ g.moves, κ.1 hg.unit = r := by
  have key : ∀ r ∈ g.representatives, ∀ r' : g.Rep, r'.1 = r.motion →
      ∃ κ ∈ g.moves, κ.1 hg.unit = r' := by
    refine hg.motion_induction hs
      (C := fun m ↦ ∀ r' : g.Rep, r'.1 = m → ∃ κ ∈ g.moves, κ.1 hg.unit = r') ?_ ?_
    · intro r' hr'
      exact ⟨1, g.moves.one_mem, Subtype.ext hr'.symm⟩
    · intro r hr h hh y ih r' hr'
      obtain ⟨κ, hκ, hunit⟩ := ih ⟨r.motion, mem_motions.mpr ⟨r, hr, rfl⟩⟩ rfl
      obtain ⟨φ, hφ⟩ := hg.exists_perm hs hh
      -- The rearrangement by a generator is a move, since the delay moves no jugglers.
      have hstep : (φ, h.motion.jugglers, .ofAdd h.shift) ∈ g.moves := by
        intro r
        obtain ⟨y, hy⟩ := hφ r
        refine ⟨fun j ↦ ?_, y, ?_⟩
        · rw [hy, Motion.jugglers_mul, hg.jugglers_delay_zpow]
          rfl
        · rw [hy]
          simp
      refine ⟨_, g.moves.mul_mem hstep hκ, ?_⟩
      obtain ⟨y', hy'⟩ := hφ ⟨r.motion, mem_motions.mpr ⟨r, hr, rfl⟩⟩
      have happ : ((φ, h.motion.jugglers, Multiplicative.ofAdd h.shift) * κ).1 hg.unit =
          φ (κ.1 hg.unit) := rfl
      rw [happ, hunit]
      exact hg.rep_unique hy' hr'
  obtain ⟨r', hr', h⟩ := mem_motions.mp r.2
  exact key r' hr' r h.symm

/-- Shadows go with the jugglers: a move takes a shadowed juggler to a shadowed one. -/
theorem shadows_of_move {κ : Equiv.Perm g.Rep × Equiv.Perm ℤ × Multiplicative α}
    (hκ : κ ∈ g.moves) {j : ℤ} (h : g.Shadows (κ.2.1 j)) : g.Shadows j := by
  obtain ⟨r, hne, hshift, hfix⟩ := h
  obtain ⟨μ, hμ, hunit⟩ := hg.exists_move hs r
  have hμj (i : ℤ) : μ.2.1 i = r.1.jugglers i := by
    rw [← hunit, (hμ hg.unit).1]
    rfl
  by_cases hstay : μ.1 (κ.1 hg.unit) = κ.1 hg.unit
  · -- Then `r` renames no juggler at all.
    refine ⟨r, hne, hshift, ?_⟩
    obtain ⟨i, hi⟩ := (κ.1 hg.unit).1.jugglers.surjective j
    have := (hμ (κ.1 hg.unit)).1 i
    rw [hstay, hi] at this
    rw [← hμj, ← this]
  · -- Otherwise `r` carried over to the other juggler is no identity.
    have hmem := g.moves.mul_mem (g.moves.mul_mem (g.moves.inv_mem hκ) hμ) hκ
    refine ⟨(κ⁻¹ * μ * κ).1 hg.unit, ?_, ?_, ?_⟩
    · intro h1
      have : (κ⁻¹ * μ * κ).1 hg.unit = hg.unit := Subtype.ext h1
      exact hstay (κ.1.symm.injective (this.trans (κ.1.symm_apply_apply _).symm))
    · obtain ⟨y, hy⟩ := (hμ hg.unit).2
      obtain ⟨y', hy'⟩ := (hmem hg.unit).2
      have hsum : (κ⁻¹ * μ * κ).2.2.toAdd = μ.2.2.toAdd := by
        simp only [Prod.snd_mul, Prod.snd_inv, toAdd_mul, toAdd_inv]
        ring
      rw [hunit, hshift] at hy
      have h1 : hg.unit.1.shift = 0 := rfl
      have hrange := hg.rep_shift_mem ((κ⁻¹ * μ * κ).1 hg.unit)
      rw [h1] at hy hy'
      rw [hsum] at hy'
      exact (period_unique (m := y - y') (n := 0) hrange.1 hrange.2 le_rfl hg.period_pos
        (by push_cast; linarith)).2
    · rw [(hmem hg.unit).1]
      have : (κ⁻¹ * μ * κ).2.1 (hg.unit.1.jugglers j) = κ.2.1.symm (μ.2.1 (κ.2.1 j)) := rfl
      rw [this, hμj, hfix, Equiv.symm_apply_apply]

theorem shadows_iff_of_rep (r : g.Rep) (j : ℤ) : g.Shadows (r.1.jugglers j) ↔ g.Shadows j := by
  obtain ⟨κ, hκ, hunit⟩ := hg.exists_move hs r
  have hκj (i : ℤ) : κ.2.1 i = r.1.jugglers i := by
    rw [← hunit, (hκ hg.unit).1]
    rfl
  constructor
  · intro h
    exact hg.shadows_of_move hs hκ (hκj j ▸ h)
  · intro h
    refine hg.shadows_of_move hs (g.moves.inv_mem hκ) ?_
    have : (κ⁻¹).2.1 (r.1.jugglers j) = j := by
      rw [← hκj]
      exact κ.2.1.symm_apply_apply j
    rwa [this]

/-- The sum of two shifts is a shift, up to whole periods. -/
theorem exists_shift_add (r r' : g.Rep) :
    ∃ r'' : g.Rep, ∃ y : ℤ, r.1.shift + r'.1.shift = r''.1.shift + y * g.period := by
  obtain ⟨κ, hκ, hunit⟩ := hg.exists_move hs r
  obtain ⟨κ', hκ', hunit'⟩ := hg.exists_move hs r'
  obtain ⟨y, hy⟩ := (hκ hg.unit).2
  obtain ⟨y', hy'⟩ := (hκ' r).2
  obtain ⟨y'', hy''⟩ := (hκ' hg.unit).2
  have h1 : hg.unit.1.shift = 0 := rfl
  rw [hunit', h1] at hy''
  refine ⟨κ'.1 r, y'' - y', ?_⟩
  rw [hy', hy'']
  push_cast
  ring

end IsGroupOf

end Juggling.SymmetryGroup
