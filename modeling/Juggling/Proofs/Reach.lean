import Juggling.Proofs.Filled

namespace Juggling

variable {α : Type} [Exact α] [Numeral α] {d : Declarations α} {l : Layout α}

namespace Layout

/-- No event that gives a hand its velocity follows the start of the loop within the tolerance. -/
def Clear (l : Layout α) (j : ℕ) (hand : Hand) : Prop :=
  ∀ m ∈ Moment.ofHand l.timeline.moments j hand, m.event.determinesVelocity = true →
    m.time ≤ timeTolerance → m.time ≤ l.loop.low

namespace Filled

variable (f : l.Filled d.jugglers d.paths) (h : IsBuilt d l)
  (hperms : ∀ s ∈ d.symmetries, s.jugglers.Rearranges ∧ s.paths.Rearranges)

include f h hperms

/-- A touch at the end of the loop is that at its start a period later. -/
theorem image_at_period {m n : Moment α} (hm : m ∈ l.timeline.moments)
    (hn : n ∈ l.timeline.moments) (hzero : m.time = 0) (hperiod : n.time = l.group.period)
    {t t' : Transition} (ht : t ∈ m.event.transitions) (ht' : t' ∈ n.event.transitions)
    (hpath : t'.path = l.group.rename 1 t.path) :
    n.seed = m.seed ∧ n.image = m.image + l.group.size := by
  have hg := h.isGroupOf hperms
  have hp := (h.placed hperms hm).path t ht
  have hback : n.time + ((-1 : ℤ) : α) * l.group.period = 0 := by
    rw [hperiod]
    push_cast
    ring
  obtain ⟨n', hn', hseed, himage, hevent⟩ := f.exists_within h hperms hn (q := -1)
    (by rw [hback]; linarith [timeTolerance_pos (α := α)]) (by rw [hback]; exact hg.period_pos)
  have htouch := Moment.touches_of_later hevent ⟨t', ht', hpath⟩
  rw [hg.rename_neg 1 hp] at htouch
  obtain rfl : m = n' := (h.traced hperms).eq_of_touches hp hm hn' ⟨t, ht, rfl⟩ htouch
    (hzero.trans (hback.symm.trans (Moment.time_of_later hevent).symm))
  exact ⟨hseed.symm, by omega⟩

/-- What a path does at the start of the loop it does again at its end. -/
theorem exists_at_period {m : Moment α} (hm : m ∈ l.timeline.moments) (hzero : m.time = 0) {p : ℕ}
    (htouch : m.Touches p) : ∃ n ∈ l.timeline.moments,
      n.event = m.event.later ((1 : ℤ) * l.group.period) (l.group.rename 1) := by
  have hg := h.isGroupOf hperms
  obtain ⟨t, ht, rfl⟩ := htouch
  have hp := (h.placed hperms hm).path t ht
  obtain ⟨n, hn, hforth, hle, t', ht', hpath⟩ := f.touched_high h hperms (hg.rename_mem 1 hp)
  obtain ⟨hlow, -⟩ := f.expansion.image_mem hm
  have hsize : (0 : ℤ) < l.group.size := by exact_mod_cast hg.size_pos
  have hhigh : m.image + 1 * l.group.size < f.run.high m.seed := by
    rcases hle.lt_or_eq with hlt | heq
    · -- All images up to another touch of the same path are made.
      obtain ⟨e, he, htime⟩ := f.expansion.exists_imageTime hm
      have hbeyond := (f.run.runForth.ordered hg (.inl rfl)).2 _ hforth m.seed e he
      rw [Int.cast_one, one_mul, sub_nonneg] at hbeyond
      by_contra hnot
      have hmono := hg.imageTime_mono e (not_lt.mp hnot)
      rw [hg.imageTime_add_size, ← htime, hzero, Int.cast_one, one_mul, zero_add] at hmono
      exact absurd (hlt.trans_le (hbeyond.trans hmono)) (lt_irrefl _)
    · obtain ⟨hseed, himage⟩ := f.image_at_period h hperms hm hn hzero heq.symm ht ht' hpath
      rw [one_mul, ← himage, ← hseed]
      exact (f.expansion.image_mem hn).2
  obtain ⟨n', hn', -, -, hevent⟩ := f.expansion.exists_later hg hm (q := 1) (by omega) hhigh
  exact ⟨n', hn', hevent⟩

/-- A hand that some image gives a velocity has one after the loop, where it first determines it. -/
theorem resolved_high (hp : timeTolerance < l.group.period) {m : Moment α}
    (hm : m ∈ l.timeline.moments) (hdetermines : m.event.determinesVelocity = true) :
    ∃ n ∈ l.timeline.moments, Generated.SameHand n.toGenerated m.toGenerated ∧
      l.group.period ≤ n.time ∧ l.Resolved n ∧ ∀ n' ∈ l.timeline.moments,
        Generated.SameHand n'.toGenerated m.toGenerated → n'.event.determinesVelocity = true →
        l.group.period ≤ n'.time → n.time ≤ n'.time := by
  obtain ⟨n, hn, hj, hhand, hhigh, hv, hfirst⟩ := f.expansion.resolved_high (h.isGroupOf hperms)
    (h.traced hperms) h.loop_high.ge hp (h.placed hperms hm).juggler
    (f.expansion.determines_known hm hdetermines)
  simp only [h.high] at hhigh hfirst
  exact ⟨n, hn, ⟨hj, hhand⟩, hhigh, hv, fun n' hn' hhand' ↦ hfirst n' hn' hhand'.1 hhand'.2⟩

/-- A hand that some image gives a velocity has one when the loop starts, where it last determines
it. -/
theorem resolved_low (hp : timeTolerance < l.group.period) {m : Moment α}
    (hm : m ∈ l.timeline.moments) (hdetermines : m.event.determinesVelocity = true)
    (hclear : l.Clear m.event.juggler m.event.hand) :
    ∃ n ∈ l.timeline.moments, Generated.SameHand n.toGenerated m.toGenerated ∧ n.time ≤ 0 ∧
      l.Resolved n ∧ ∀ n' ∈ l.timeline.moments,
        Generated.SameHand n'.toGenerated m.toGenerated → n'.event.determinesVelocity = true →
        n'.time ≤ 0 → n'.time ≤ n.time := by
  obtain ⟨n, hn, hj, hhand, hlow, hdet, hv, hlast⟩ := f.expansion.resolved_low
    (h.isGroupOf hperms) (h.traced hperms) h.loop_high.ge hp (h.placed hperms hm).juggler
    (f.expansion.determines_known hm hdetermines)
  simp only [h.low, zero_add] at hlow hlast
  refine ⟨n, hn, ⟨hj, hhand⟩, ?_, hv, fun n' hn' hhand' hdet' hle ↦ ?_⟩
  · exact h.low ▸ hclear n (mem_ofHand.mpr ⟨hn, hj, hhand⟩) hdet hlow
  · exact hlast n' hn' hhand'.1 hhand'.2 hdet' (hle.trans timeTolerance_pos.le)

end Filled

end Layout

end Juggling
