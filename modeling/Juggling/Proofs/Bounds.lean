import Juggling.Proofs.Reach

namespace Juggling.Layout

variable {α : Type} [Exact α] [Numeral α] {d : Declarations α} {l : Layout α}

section Links

variable (h : IsBuilt d l)
  (hperms : ∀ s ∈ d.symmetries, s.jugglers.Rearranges ∧ s.paths.Rearranges) {j : ℕ} {hand : Hand}
  {stops : List (Moment α × Option VelocityRef)}
  (hstops : HandLink.Stops l.paths l.timeline.moments j hand stops)

include h hperms hstops

/-- A link starts with the velocity of every moment that has one, but for the last. -/
theorem exists_link_from {m n : Moment α} (hm : m ∈ Moment.ofHand l.timeline.moments j hand)
    (hn : n ∈ Moment.ofHand l.timeline.moments j hand) (hlt : m.time < n.time)
    (hresolved : l.Resolved m) : ∃ k ∈ (steps stops).map (HandLink.between j hand),
      k.start = m ∧ k.startVelocity ≠ none := by
  obtain ⟨v, hv⟩ := hresolved
  obtain ⟨w, hw⟩ := (h.traced hperms).velocity _ (mem_ofHand.mp hn).1
  obtain ⟨b, hb⟩ := exists_step_from (h.sorted_stops hperms hstops) (hstops.mem hm hv)
    (hstops.mem hn hw) (fun heq ↦ hlt.ne (congrArg (·.1.time) heq)) (not_le.mpr hlt)
  exact ⟨_, List.mem_map_of_mem hb, rfl, Option.some_ne_none v⟩

theorem exists_link_to {m n : Moment α} (hm : m ∈ Moment.ofHand l.timeline.moments j hand)
    (hn : n ∈ Moment.ofHand l.timeline.moments j hand) (hlt : n.time < m.time)
    (hresolved : l.Resolved m) : ∃ k ∈ (steps stops).map (HandLink.between j hand),
      k.stop = m ∧ k.endVelocity ≠ none := by
  obtain ⟨v, hv⟩ := hresolved
  obtain ⟨w, hw⟩ := (h.traced hperms).velocity _ (mem_ofHand.mp hn).1
  obtain ⟨a, ha⟩ := exists_step_to (h.sorted_stops hperms hstops) (hstops.mem hm hv)
    (hstops.mem hn hw) (fun heq ↦ hlt.ne' (congrArg (·.1.time) heq)) (not_le.mpr hlt)
  exact ⟨_, List.mem_map_of_mem ha, rfl, Option.some_ne_none v⟩

end Links

namespace Filled

variable (f : l.Filled d.jugglers d.paths) (h : IsBuilt d l)
  (hperms : ∀ s ∈ d.symmetries, s.jugglers.Rearranges ∧ s.paths.Rearranges)
  (hs : SymmetryGroup.Spaced l.group.period d.symmetries)

include f h hperms hs

theorem time_of_closes {paths : Numbered (PathHistory α)} {m : Moment α}
    (hm : m ∈ l.timeline.moments) {k : HandLink α} (hk : k.stop ∈ l.timeline.moments)
    (hcloses : HandCurve.closes ⟨globalPlace l.tracks, paths, l.loop⟩ m k = true) :
    k.stop.time = m.time + l.group.period := by
  have hg := h.isGroupOf hperms
  obtain ⟨e, he, htime⟩ := f.expansion.exists_imageTime hm
  obtain ⟨e', he', htime'⟩ := f.expansion.exists_imageTime hk
  simp only [HandCurve.closes, HandCurve.period, h.low, h.high, sub_zero, Bool.and_eq_true,
    beq_iff_eq, decide_eq_true_eq, Scalar.abs_eq] at hcloses
  obtain ⟨hseed, hnear⟩ := hcloses
  rw [hseed] at he'
  obtain rfl : e = e' := Option.some.inj (he.symm.trans he')
  have hlater : m.time + l.group.period = l.group.imageTime e (m.image + 1 * l.group.size) := by
    rw [hg.imageTime_add_size, htime]
    push_cast
    ring
  rw [hlater, htime'] at hnear ⊢
  exact hs.imageTime_eq hg e hnear

section Hands

variable {j : ℕ} {hand : Hand} {stops : List (Moment α × Option VelocityRef)}
  (hstops : HandLink.Stops l.paths l.timeline.moments j hand stops)

include hstops

omit hs in
/-- Curves between moments with a velocity reach over the loop if there is such a moment. -/
theorem hand_reach_of_determines (htol : timeTolerance < l.group.period) {low high : α}
    {m : Moment α}
    (hmem : m ∈ Moment.ofHand l.timeline.moments j hand)
    (hdetermines : m.event.determinesVelocity = true)
    (hstart : ∀ k ∈ (steps stops).map (HandLink.between j hand),
      k.startVelocity ≠ none → low ≤ k.start.time)
    (hend : ∀ k ∈ (steps stops).map (HandLink.between j hand),
      k.endVelocity ≠ none → k.stop.time ≤ high) :
    l.group.period ≤ high ∧
      ((∀ m ∈ l.timeline.moments, m.time ≤ timeTolerance → m.time ≤ 0) → low ≤ 0) := by
  have hg := h.isGroupOf hperms
  obtain ⟨hm, rfl, rfl⟩ := mem_ofHand.mp hmem
  obtain ⟨n, hn, hhand, hhigh, hresolved, -⟩ := f.resolved_high h hperms htol hm hdetermines
  obtain ⟨_, o, _, hsplit, hlow, hj, hhand', -⟩ := f.run.exists_velocity_back hg f.sound
    (h.placed hperms hm).juggler (f.expansion.determines_known hm hdetermines)
  obtain ⟨n', hn', rfl⟩ := f.moment o
    (f.run.mem_made.mpr (.inl (hsplit ▸ List.mem_append_right _ List.mem_cons_self)))
  simp only [h.low, zero_add] at hlow
  obtain ⟨k, hk, hstop, hsome⟩ := exists_link_to h hperms hstops
    (mem_ofHand.mpr ⟨hn, hhand.1, hhand.2⟩) (mem_ofHand.mpr ⟨hn', hj, hhand'⟩)
    (hlow.trans_lt (htol.trans_le hhigh)) hresolved
  refine ⟨hhigh.trans (hstop ▸ hend k hk hsome), fun hclear ↦ ?_⟩
  obtain ⟨n₀, hn₀, hhand₀, hlow₀, hresolved₀, -⟩ := f.resolved_low h hperms htol hm hdetermines
    fun m hm _ hle ↦ h.low ▸ hclear m (mem_ofHand.mp hm).1 hle
  obtain ⟨k₀, hk₀, hstart₀, hsome₀⟩ := exists_link_from h hperms hstops
    (mem_ofHand.mpr ⟨hn₀, hhand₀.1, hhand₀.2⟩) (mem_ofHand.mpr ⟨hn, hhand.1, hhand.2⟩)
    (hlow₀.trans_lt (hg.period_pos.trans_le hhigh)) hresolved₀
  exact (hstart k₀ hk₀ hsome₀).trans (hstart₀ ▸ hlow₀)

omit hs in
/-- The link at the start of the loop starts at most a period before it: what happens at its start
happens again a period later, and not within the link. -/
theorem neg_period_le_of_straddles {k : HandLink α}
    (hk : k ∈ (steps stops).map (HandLink.between j hand))
    (hstraddles : k.start.time ≤ timeTolerance ∧ timeTolerance < k.stop.time) :
    -l.group.period ≤ k.start.time := by
  have hg := h.isGroupOf hperms
  by_contra! hlt
  obtain ⟨hstart, hhand⟩ := mem_ofHand.mp (mem_steps (hstops.step_of_link hk)).1
  have htime : k.start.time + ((1 : ℤ) : α) * l.group.period < 0 := by
    push_cast
    linarith
  -- What happens at the start of the link happens again before the loop starts.
  obtain ⟨n, hn, -, -, hevent⟩ := f.expansion.exists_later hg hstart (q := 1)
    (by
      have := (f.expansion.image_mem hstart).1
      have hsize : (0 : ℤ) < l.group.size := by exact_mod_cast hg.size_pos
      omega)
    (f.image_lt_high h hperms hstart (htime.trans hg.period_pos))
  have hn' : n ∈ Moment.ofHand l.timeline.moments j hand :=
    mem_ofHand.mpr ⟨hn, by rw [hevent]; exact hhand⟩
  have hlater : n.time = k.start.time + ((1 : ℤ) : α) * l.group.period :=
    Moment.time_of_later hevent
  have hpos : (0 : α) < ((1 : ℤ) : α) * l.group.period := by
    rw [Int.cast_one, one_mul]
    exact hg.period_pos
  have hstep := rel_of_step ((h.listed hperms).sorted_ofHand j hand |>.imp fun h ↦ h.2)
    (fun m ↦ le_refl m.time) (hstops.step_of_link hk) hn'
  rcases hstep with hle | hle <;> rw [hlater] at hle <;> linarith [timeTolerance_pos (α := α)]

/-- The curves of a hand go on to the end of the loop, and they start before it unless some event
follows the start too closely. -/
theorem hand_reach {low high : α}
    (hreach : HandCurve.Reach ⟨globalPlace l.tracks, l.paths, l.loop⟩ l.timeline.moments j hand
      ((steps stops).map (HandLink.between j hand)) low high) :
    l.group.period ≤ high ∧
      ((∀ m ∈ l.timeline.moments, m.time ≤ timeTolerance → m.time ≤ 0) → low ≤ 0) := by
  rcases hreach with ⟨hany, hstart, hend⟩ |
    ⟨-, k, hk, k', hk', c, hc, c', hc', rfl, hstraddles, hcloses, hmeet, hcloses', rfl⟩
  · obtain ⟨m, hmem, hdetermines⟩ := List.any_eq_true.mp hany
    exact f.hand_reach_of_determines h hperms hstops
      (hs.timeTolerance_lt_period (h.isGroupOf hperms)) hmem hdetermines hstart hend
  · -- Each of the two closed curves takes one period.
    have hmem {k : HandLink α} (hk : k ∈ (steps stops).map (HandLink.between j hand)) :=
      mem_steps (hstops.step_of_link hk)
    have htime := f.time_of_closes h hperms hs (mem_ofHand.mp (hmem hk).1).1
      (mem_ofHand.mp (hmem hk').2).1 hcloses
    have htime' := f.time_of_closes h hperms hs (mem_ofHand.mp (hmem hc).1).1
      (mem_ofHand.mp (hmem hc').2).1 hcloses'
    simp only [HandCurve.straddles, h.low, zero_add, Bool.and_eq_true, decide_eq_true_eq]
      at hstraddles
    refine ⟨?_, fun hclear ↦ hclear _ (mem_ofHand.mp (hmem hk).1).1 hstraddles.1⟩
    have hback := f.neg_period_le_of_straddles h hperms hstops hk hstraddles
    rw [htime', ← hmeet, htime]
    linarith

end Hands

end Filled

end Juggling.Layout
