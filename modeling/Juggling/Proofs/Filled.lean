import Juggling.Proofs.Covered
import Juggling.Proofs.Supply

namespace Juggling

variable {α : Type} [Exact α]

namespace SymmetryGroup

variable {symmetries : List (Symmetry α)} {J N : ℕ} {g : SymmetryGroup α}

/-- No two image times of one event are different but as near as images of one event that are a
period apart may be. -/
def Spaced (period : α) (symmetries : List (Symmetry α)) : Prop :=
  ∀ x ∈ offsets period symmetries, x ≠ 0 → HandCurve.periodTolerance ≤ |x|

theorem timeTolerance_lt : (timeTolerance : α) < HandCurve.periodTolerance := by
  rw [timeTolerance_eq, HandCurve.periodTolerance]
  simp only [OfScientific.ofScientific, Scalar.ofDecimal]
  norm_num

namespace Spaced

variable (hs : Spaced g.period symmetries)

include hs

theorem separated : Separated g.period symmetries :=
  fun x hx hne ↦ timeTolerance_lt.le.trans (hs x hx hne)

theorem timeTolerance_lt_period (hg : g.IsGroupOf symmetries J N) : timeTolerance < g.period := by
  have := hs _ hg.period_mem hg.period_pos.ne'
  rw [abs_of_pos hg.period_pos] at this
  exact timeTolerance_lt.trans_le this

theorem imageTime_eq (hg : g.IsGroupOf symmetries J N) (e : Event α) {k l : ℤ}
    (hnear : |g.imageTime e k - g.imageTime e l| < HandCurve.periodTolerance) :
    g.imageTime e k = g.imageTime e l := by
  by_contra hne
  exact absurd hnear (not_lt.mpr (hs _ (hg.imageTime_sub_mem e k l) (sub_ne_zero.mpr hne)))

end Spaced

end SymmetryGroup

namespace Layout

/-- How the moments of a layout are filled: with all images that were made, each of which coverage
knows. -/
structure Filled (l : Layout α) (J N : ℕ) where
  coverage : Coverage
  made : List (Generated α)
  run : (Expansion.mk l.timeline.seeds l.group coverage l.loop).Made N made
  sound : (Expansion.mk l.timeline.seeds l.group coverage l.loop).Sound J N
  moment : ∀ o ∈ made, ∃ m ∈ l.timeline.moments, m.toGenerated = o
  of_moment : ∀ m ∈ l.timeline.moments, m.toGenerated ∈ made
  knows : ∀ e ∈ l.timeline.seeds, ∀ k, coverage.Knows ((l.group.image k).apply e)

/-- The moments of a layout as those of the expansion they were made by. -/
abbrev Filled.expansion {l : Layout α} {J N : ℕ} (f : l.Filled J N) :
    Expansion.Filled ⟨l.timeline.seeds, l.group, f.coverage, l.loop⟩ J N l.timeline.moments :=
  ⟨f.made, f.run, f.sound, f.moment, f.of_moment, f.knows⟩

variable [Numeral α] {d : Declarations α} {l : Layout α}

theorem IsBuilt.loop_eq (h : IsBuilt d l) : l.loop = ⟨0, l.group.period⟩ := by
  rw [← h.low, ← h.high]

theorem IsBuilt.loop_high (h : IsBuilt d l) : l.loop.high = l.loop.low + l.group.period := by
  rw [h.low, h.high, zero_add]

section Build

variable (h : IsBuilt d l)
  (hperms : ∀ s ∈ d.symmetries, s.jugglers.Rearranges ∧ s.paths.Rearranges)
  (hs : SymmetryGroup.Separated l.group.period d.symmetries)

include h hperms hs

/-- No event of a layout is in the shadow of another. -/
theorem IsBuilt.free : ∀ e ∈ l.timeline.seeds, ¬l.group.Shadows e.juggler := by
  have hg := h.isGroupOf hperms
  have hsettled := Timeline.settle_ok hg.image_fits (Declarations.validate_ok h.valid).1 h.timeline
  rw [h.loop_eq] at hsettled
  have hsettle := hsettled.settle_eq 0
  by_contra hshadow
  push Not at hshadow
  rcases Timeline.settle_of_shadows hg hs 1 (fun e he ↦ (hsettled.placed e he).juggler) hshadow with
    ⟨err, herr⟩ | herr
  · cases hsettle.symm.trans herr
  · cases hsettle.symm.trans herr

theorem IsBuilt.filled : Nonempty (l.Filled d.jugglers d.paths) := by
  have hg := h.isGroupOf hperms
  obtain ⟨hplaced, ⟨x⟩⟩ := h.expanded hperms
  let f := Expansion.Filled.ofExpanded x hg hplaced fun o ho ↦
    x.mem_kept hg hs hplaced (h.free hperms hs) ho
  exact ⟨⟨x.coverage, f.made, f.run, f.sound, f.moment, f.of_moment, f.knows⟩⟩

end Build

namespace Filled

variable (f : l.Filled d.jugglers d.paths) (h : IsBuilt d l)
  (hperms : ∀ s ∈ d.symmetries, s.jugglers.Rearranges ∧ s.paths.Rearranges)

include f h hperms

theorem image_lt_high {m : Moment α} (hm : m ∈ l.timeline.moments) {q : ℤ}
    (hhigh : m.time + q * l.group.period < l.group.period) :
    m.image + q * l.group.size < f.run.high m.seed :=
  f.expansion.image_lt_high (h.isGroupOf hperms) hm (hhigh.trans_eq h.high.symm)

theorem exists_within {m : Moment α} (hm : m ∈ l.timeline.moments) {q : ℤ}
    (hlow : -timeTolerance ≤ m.time + q * l.group.period)
    (hhigh : m.time + q * l.group.period < l.group.period) :
    ∃ n ∈ l.timeline.moments, n.seed = m.seed ∧ n.image = m.image + q * l.group.size ∧
      n.event = m.event.later (q * l.group.period) (l.group.rename q) := by
  refine f.expansion.exists_within (h.isGroupOf hperms) hm ?_ (hhigh.trans_eq h.high.symm)
  simpa only [h.low, zero_sub] using hlow

/-- Every path is touched when the loop starts. -/
theorem touched_low {p : ℕ} (hp : 1 ≤ p ∧ p ≤ d.paths) :
    ∃ m ∈ l.timeline.moments, m.time ≤ timeTolerance ∧ m.Touches p := by
  simpa only [h.low, zero_add] using f.expansion.touched_low (h.isGroupOf hperms) hp

theorem touched_high {p : ℕ} (hp : 1 ≤ p ∧ p ≤ d.paths) :
    ∃ m ∈ l.timeline.moments, m.toGenerated ∈ f.run.forth ∧ l.group.period ≤ m.time ∧
      m.Touches p := by
  simpa only [h.high] using f.expansion.touched_high (h.isGroupOf hperms) hp

end Filled

end Layout

end Juggling
