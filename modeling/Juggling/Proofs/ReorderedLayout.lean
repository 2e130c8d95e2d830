import Juggling.Proofs.Chaining

namespace Juggling

variable {α : Type} [Exact α] {symmetries : List (Symmetry α)} {J N : ℕ} {g : SymmetryGroup α}

namespace SymmetryGroup.Discrete

variable {es : List (Event α)} (hd : Discrete g.period symmetries es)
  (hg : g.IsGroupOf symmetries J N) {e : Event α} (he : e ∈ g.imagesOf es)

include hd hg he

theorem clear_periods (q : ℤ) :
    e.time + q * g.period = 0 ∨ timeTolerance < |e.time + q * g.period| := by
  have hmem := shift_mem hg e (0 + q * g.size)
  rw [hg.imageTime_add_size, hg.imageTime_zero, add_sub_cancel_left] at hmem
  have himage : Discrete g.period symmetries [e] :=
    hd.image hg fun f hf ↦ List.mem_singleton.mp hf ▸ he
  exact himage.clear e List.mem_cons_self _ hmem

theorem le_zero (hle : e.time ≤ timeTolerance) : e.time ≤ 0 := by
  rcases hd.clear_periods hg he 0 with heq | hlt
  · simpa using heq.le
  · rw [Int.cast_zero, zero_mul, add_zero, lt_abs] at hlt
    rcases hlt with hlt | hlt
    · exact absurd hle (not_le.mpr hlt)
    · linarith [timeTolerance_pos (α := α)]

theorem le_periods {q : ℤ} (hle : q * g.period - timeTolerance ≤ e.time) :
    q * g.period ≤ e.time := by
  have hclear := hd.clear_periods hg he (-q)
  rw [Int.cast_neg, neg_mul, ← sub_eq_add_neg] at hclear
  rcases hclear with heq | hlt
  · linarith
  · rcases lt_abs.mp hlt with hlt | hlt
    · linarith [timeTolerance_pos (α := α)]
    · linarith

omit he in
theorem timeTolerance_lt_period (hne : es ≠ []) : timeTolerance < g.period := by
  obtain ⟨e, he⟩ := List.exists_mem_of_ne_nil es hne
  have hmem := shift_mem hg e (0 + 1 * g.size)
  rw [hg.imageTime_add_size, hg.imageTime_zero, add_sub_cancel_left, Int.cast_one, one_mul] at hmem
  have hpos := hg.period_pos
  rcases hd.apart e he e he _ hmem with heq | hlt
  · linarith
  · rwa [add_sub_cancel_left, abs_of_pos hpos] at hlt

omit hg he in
theorem of_perm {es' : List (Event α)} (hperm : es.Perm es') : Discrete g.period symmetries es' :=
  ⟨fun e he f hf ↦ hd.apart e (hperm.mem_iff.mpr he) f (hperm.mem_iff.mpr hf),
    fun e he ↦ hd.clear e (hperm.mem_iff.mpr he)⟩

end SymmetryGroup.Discrete

namespace Moment.Expanded

variable {seeds : List (Event α)} {moments : List (Moment α)}
  (hg : g.IsGroupOf symmetries J N) (hd : SymmetryGroup.Discrete g.period symmetries seeds)
  (hseeds : ∀ e ∈ seeds, Placed J N e) (hfree : ∀ e ∈ seeds, ¬g.Shadows e.juggler)
  (hne : seeds ≠ []) (x : Expanded seeds g J N ⟨0, g.period⟩ moments)

include hg hd hseeds hfree hne x

/-- What happens in a hand happens again a period later, up to another event of the hand. -/
theorem exists_hand_next {j : ℕ} {hand : Hand} {m n : Moment α}
    (hm : m ∈ Moment.ofHand moments j hand) (hn : n ∈ Moment.ofHand moments j hand)
    (hle : m.time + g.period ≤ n.time) : ∃ o ∈ Moment.ofHand moments j hand,
      o.seed = m.seed ∧ o.time = m.time + g.period := by
  have hs := hd.separated hne
  have hI := x.family hg hs hseeds hfree
  have hshows := x.shows hg hs hseeds hfree
  obtain ⟨hm, hmj, hmhand⟩ := Layout.mem_ofHand.mp hm
  obtain ⟨hn, hnj, hnhand⟩ := Layout.mem_ofHand.mp hn
  have hlater := hI.later _ (hshows.image m hm) 1
  have htime : (m.event.later ((1 : ℤ) * g.period) (g.rename 1)).time = m.time + g.period := by
    rw [Event.time_later, Int.cast_one, one_mul, time]
  obtain ⟨o, ho, hevent⟩ : ∃ o ∈ moments,
      o.event = m.event.later ((1 : ℤ) * g.period) (g.rename 1) := by
    rcases hle.lt_or_eq with hlt | heq
    · exact hshows.between _ hlater m hm n hn (by rw [htime]; linarith [hg.period_pos])
        (by rwa [htime])
    · exact ⟨n, hn, hI.unique _ (hshows.image n hn) _ hlater (by simp [hmj, hnj])
        (by simp [hmhand, hnhand]) (by rw [htime, heq, time])⟩
  refine ⟨o, Layout.mem_ofHand.mpr ⟨ho, by simp [hevent, hmj], by simp [hevent, hmhand]⟩, ?_,
    by rw [time, hevent, htime]⟩
  rw [x.related_iff hg hs hseeds hfree ho hm, hevent]
  obtain ⟨e, he, k, heq⟩ := hshows.image m hm
  exact ⟨e, he, ⟨k + 1 * g.size, by rw [hg.image_add_size (hseeds e he), heq]⟩, k, heq⟩

section Traced

variable [Numeral α] {place place' : Event α → Coordinate α} {paths : Numbered (PathHistory α)}
  (tr : Traced place J N moments paths)

include tr

/-- A hand that no flight gives a velocity is at an event before the loop, and at one long after
it. -/
theorem free_reach {j : ℕ} (hj : 1 ≤ j ∧ j ≤ J) {hand : Hand}
    (hnone : ∀ m ∈ Moment.ofHand moments j hand, m.event.determinesVelocity = false) :
    (∃ m ∈ Moment.ofHand moments j hand, m.time ≤ 0) ∧
      ∃ n ∈ Moment.ofHand moments j hand, 2 * g.period ≤ n.time := by
  have hs := hd.separated hne
  have hI := x.family hg hs hseeds hfree
  have hshows := x.shows hg hs hseeds hfree
  let f := Expansion.Filled.ofExpanded x hg hseeds fun o ho ↦ x.mem_kept hg hs hseeds hfree ho
  have hsuffices := f.suffices_of_traced hg tr (Coverage.scan_founded hg hseeds x.scan_eq).1
    (zero_add g.period).le (hd.timeTolerance_lt_period hg hne)
  -- No image of any event gives the hand a velocity, as it would within the loop.
  have hsteers : ¬Expansion.Steers ⟨seeds, g, x.coverage, ⟨0, g.period⟩⟩ j hand := by
    rintro ⟨e, he, k, hej, hehand, hdet⟩
    obtain ⟨q, hlow, hhigh⟩ := exists_period hg.period_pos ((g.image k).apply e).time
    obtain ⟨m, hm, heq⟩ := hshows.within _ (hI.later _ ⟨e, he, k, rfl⟩ q) hlow hhigh
    have := hnone m (Layout.mem_ofHand.mpr ⟨hm, by rw [heq]; exact hej, by rw [heq]; exact hehand⟩)
    rw [heq, Event.determinesVelocity_later] at this
    exact absurd (hdet.symm.trans this) (by decide)
  obtain ⟨⟨m, hm, hmlow⟩, n, hn, hnhigh⟩ := hsuffices.free j hand hj hsteers
  have himage {m : Moment α} (hm : m ∈ Moment.ofHand moments j hand) :=
    hshows.image m (Layout.mem_ofHand.mp hm).1
  have hnhigh' : ((2 : ℤ) : α) * g.period ≤ n.time :=
    hd.le_periods hg (himage hn) (by simpa [time] using hnhigh)
  exact ⟨⟨m, hm, hd.le_zero hg (himage hm) (by simpa [time] using hmlow)⟩, n, hn,
    by simpa using hnhigh'⟩

/-- A hand is known as long as its curves over the loop need it. -/
theorem exists_chains {j : ℕ} (hj : 1 ≤ j ∧ j ≤ J) {hand : Hand}
    {stops : List (Moment α × Option VelocityRef)}
    (hstops : HandLink.Stops paths moments j hand stops) :
    ∃ chains, HandCurve.chains ⟨place', paths, ⟨0, g.period⟩⟩ moments j hand
      ((steps stops).map (HandLink.between j hand)) = .ok chains := by
  have hshows := x.shows hg (hd.separated hne) hseeds hfree
  refine tr.exists_chains hstops (by simpa using hd.timeTolerance_lt_period hg hne)
    (fun m hm hle ↦ ?_) fun hnone ↦ ?_
  · exact hd.le_zero hg (hshows.image m hm) (by simpa [time] using hle)
  · obtain ⟨hlow, n, hn, hnhigh⟩ := x.free_reach hg hd hseeds hfree hne tr hj hnone
    refine ⟨hlow, ⟨n, hn, by linarith [hg.period_pos]⟩, fun m hm hle ↦ ?_⟩
    rw [sub_zero]
    exact x.exists_hand_next hg hd hseeds hfree hne hm hn (by linarith)

end Traced

end Moment.Expanded

namespace Layout.IsBuilt

variable [Numeral α] {d : Declarations α} {l : Layout α} (h : IsBuilt d l)
  (hperms : ∀ s ∈ d.symmetries, s.jugglers.Rearranges ∧ s.paths.Rearranges)
  (hd : SymmetryGroup.Discrete l.group.period d.symmetries d.events)

include h

theorem events_ne : d.events ≠ [] := (Declarations.validate_eq_ok.mp h.valid).1

include hperms hd

theorem events_free : ∀ e ∈ d.events, ¬l.group.Shadows e.juggler := by
  have hg := h.isGroupOf hperms
  by_contra hshadow
  push Not at hshadow
  have hbuild := h.timeline
  rw [h.loop_eq, Timeline.build] at hbuild
  rcases Timeline.settle_of_shadows hg (hd.separated h.events_ne) Timeline.rounds
    (fun e he ↦ ((Declarations.validate_ok h.valid).1 e he).juggler) hshadow with
    ⟨err, herr⟩ | herr
  · cases hbuild.symm.trans herr
  · cases hbuild.symm.trans herr

/-- In another order the events have the same masters. -/
theorem exists_timeline {es : List (Event α)} (hperm : d.events.Perm es)
    (hlimit : Timeline.build es l.group d.jugglers d.paths l.loop ≠
      .error (.user (.expansionLimit Expansion.limit))) :
    ∃ t, Timeline.build es l.group d.jugglers d.paths l.loop = .ok t ∧
      l.timeline.seeds.Perm t.seeds ∧
      SymmetryGroup.Discrete l.group.period d.symmetries l.timeline.seeds := by
  have hbuild := h.timeline
  rw [h.loop_eq, Timeline.build] at hbuild hlimit ⊢
  exact Timeline.settle_perm (h.isGroupOf hperms) hperm (Declarations.validate_ok h.valid).1
    (h.events_free hperms hd) hd hbuild hlimit

/-- In another order the events have a layout as well, unless that takes too many images. -/
theorem exists_of_perm {es : List (Event α)} (hperm : d.events.Perm es)
    (hlimit : Timeline.build es l.group d.jugglers d.paths l.loop ≠
      .error (.user (.expansionLimit Expansion.limit))) :
    ∃ l', IsBuilt { d with events := es } l' := by
  have hg := h.isGroupOf hperms
  obtain ⟨t, ht, hseeds, hdiscrete⟩ := h.exists_timeline hperms hd hperm hlimit
  rw [h.loop_eq] at ht
  have hplacedAll := (Declarations.validate_ok h.valid).1
  have hsettled := Timeline.settle_ok hg.image_fits hplacedAll h.timeline
  have hsettled' := Timeline.settle_ok hg.image_fits
    (fun e he ↦ hplacedAll e (hperm.mem_iff.mpr he)) ht
  obtain ⟨hplaced, ⟨x⟩⟩ := h.expanded hperms
  rw [h.loop_eq] at x
  obtain ⟨-, ⟨x'⟩⟩ := Moment.expand_ok hg hsettled'.expand
  have hs := hd.separated h.events_ne
  have hfree := h.free hperms hs
  have tr := h.traced hperms
  have halike := x.alike hg hs hplaced hfree hseeds x' tr.toWoven
  have hplace (q : ℤ) (e : Event α) := h.globalPlace_periods hperms q (l.group.rename q) e
  have hhigh : ∀ p, 1 ≤ p ∧ p ≤ d.paths →
      ∃ n ∈ l.timeline.moments, l.group.period ≤ n.time ∧ n.Touches p := by
    intro p hp
    obtain ⟨f⟩ := h.filled hperms hs
    obtain ⟨n, hn, -, hle, htouch⟩ := f.touched_high h hperms hp
    exact ⟨n, hn, hle, htouch⟩
  -- First the paths, then the velocities that they give, then the hands.
  obtain ⟨paths, hpaths⟩ := halike.exists_buildAll hg hplace hhigh tr.toWoven
  have w' := x'.woven hg hsettled'.placed hpaths
  have tr' : Traced _ _ _ _ _ := ⟨w', halike.exists_velocity hg hplace hhigh tr w'⟩
  obtain ⟨links, hlinks⟩ := HandLink.exists_buildAll tr'.velocity d.jugglers
  obtain ⟨⟨curves, hands⟩, hsolve⟩ := HandCurve.exists_solveAll
    (x := ⟨globalPlace l.tracks, paths, ⟨0, l.group.period⟩⟩) hlinks
    fun j hj hand stops hstops ↦ x'.exists_chains hg (hdiscrete.of_perm hseeds) hsettled'.placed
      (fun e he ↦ hfree e (hseeds.mem_iff.mpr he)) hsettled'.nonempty tr' hj hstops
  exact ⟨⟨l.group, ⟨0, l.group.period⟩, t, l.tracks, paths, hands, curves⟩,
    Declarations.validate_perm hperm h.valid, h.group, rfl, rfl, ht, h.loop_eq ▸ h.tracks, hpaths,
    links, hlinks, hsolve⟩

end Layout.IsBuilt

end Juggling
