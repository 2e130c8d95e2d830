import Juggling.Proofs.Chains
import Juggling.Proofs.Rebuild
import Juggling.Proofs.Settling

namespace Juggling

variable {α : Type} [Exact α]

namespace SymmetryGroup.IsGroupOf

variable {symmetries : List (Symmetry α)} {J N : ℕ} {g : SymmetryGroup α}

theorem placed_image (hg : g.IsGroupOf symmetries J N) {e : Event α} (he : Placed J N e) (k : ℤ) :
    Placed J N ((g.image k).apply e) :=
  (hg.image_fits k).placed he

end SymmetryGroup.IsGroupOf

namespace Moment.Expanded

variable {seeds : List (Event α)} {g : SymmetryGroup α} {J N : ℕ} {loop : Window α}
  {moments : List (Moment α)} (x : Expanded seeds g J N loop moments)

include x

theorem placed {symmetries : List (Symmetry α)} (hg : g.IsGroupOf symmetries J N)
    (hseeds : ∀ e ∈ seeds, Placed J N e) {m : Moment α} (hm : m ∈ moments) :
    Placed J N m.event := by
  rw [x.moments_eq] at hm
  obtain ⟨e, he, heq⟩ := x.run.generated (x.mem_made_of_kept (mem_numbered hm))
  rw [show m.event = (g.image m.image).apply e from congrArg Generated.event heq]
  exact hg.placed_image (hseeds e (List.mem_of_getElem? he)) m.image

theorem listed : Listed moments := by
  rw [x.moments_eq]
  exact listed_numbered (x.sorted.imp fun h ↦ ((Generated.notAfter_iff _ _).mp h).1)

end Moment.Expanded

namespace Layout

variable [Numeral α] {d : Declarations α} {l : Layout α}

/-- How the parts of a layout come from what it is made of. -/
structure IsBuilt (d : Declarations α) (l : Layout α) : Prop where
  valid : d.validate = .ok ()
  group : SymmetryGroup.ofSymmetries d.symmetries d.jugglers d.paths = .ok l.group
  low : l.loop.low = 0
  high : l.loop.high = l.group.period
  timeline : Timeline.build d.events l.group d.jugglers d.paths l.loop = .ok l.timeline
  tracks : d.tracks l.loop = .ok l.tracks
  paths : PathHistory.buildAll (globalPlace l.tracks) l.timeline.moments d.paths = .ok l.paths
  hands : ∃ links, HandLink.buildAll l.paths l.timeline.moments d.jugglers = .ok links ∧
    HandCurve.solveAll ⟨globalPlace l.tracks, l.paths, l.loop⟩ l.timeline.moments links =
      .ok (l.curves, l.hands)

theorem build_ok (hok : build d = .ok l) : IsBuilt d l := by
  unfold build ofTimeline at hok
  simp only [bind_eq_ok, lift_eq_ok] at hok
  obtain ⟨⟨⟩, hvalid, g, hg, t, ht, tracks, htracks, paths, hpaths, links, hlinks, ⟨curves, hands⟩,
    hsolve, hok⟩ := hok
  obtain rfl := pure_eq_ok.mp hok
  exact ⟨hvalid, hg, by simp, rfl, ht, htracks, hpaths, links, hlinks, hsolve⟩

/-- The group and the timeline of a layout are those that it was made of. -/
theorem build_of_timeline {g : SymmetryGroup α} {t : Timeline α} (hvalid : d.validate = .ok ())
    (hgroup : SymmetryGroup.ofSymmetries d.symmetries d.jugglers d.paths = .ok g)
    (htimeline : Timeline.build d.events g d.jugglers d.paths ⟨(0 : ℕ), g.period⟩ = .ok t)
    (hok : ofTimeline d g ⟨(0 : ℕ), g.period⟩ t = .ok l) :
    build d = .ok l ∧ l.group = g ∧ l.timeline = t := by
  refine ⟨?_, ?_⟩
  · unfold build
    simp only [bind_eq_ok, lift_eq_ok, Scalar.ofNat_eq]
    exact ⟨(), hvalid, g, hgroup, t, htimeline, hok⟩
  · unfold ofTimeline at hok
    simp only [bind_eq_ok, lift_eq_ok] at hok
    obtain ⟨tracks, -, paths, -, links, -, ⟨curves, hands⟩, -, hok⟩ := hok
    obtain rfl := pure_eq_ok.mp hok
    exact ⟨rfl, rfl⟩

theorem IsBuilt.build_eq (h : IsBuilt d l) : build d = .ok l := by
  obtain ⟨links, hlinks, hsolve⟩ := h.hands
  have hloop : (⟨(0 : ℕ), l.group.period⟩ : Window α) = l.loop := by
    rw [← h.high, Nat.cast_zero, ← h.low]
  unfold build ofTimeline
  simp only [bind_eq_ok, lift_eq_ok, Scalar.ofNat_eq]
  refine ⟨(), h.valid, l.group, h.group, ?_⟩
  rw [hloop]
  exact ⟨_, h.timeline, _, h.tracks, _, h.paths, links, hlinks, _, hsolve, rfl⟩

namespace IsBuilt

variable (h : IsBuilt d l)

include h

theorem path_ok {p : ℕ} (hp : 1 ≤ p ∧ p ≤ d.paths) : ∃ hist, l.paths.get? p = some hist ∧
    PathHistory.build (globalPlace l.tracks) l.timeline.moments p = .ok hist :=
  PathHistory.get?_of_buildAll h.paths hp

/-- The stops of a hand, their chains, and the links of the layout, which are those of the chains
with their numbers. -/
theorem hand_ok {j : ℕ} (hj : 1 ≤ j ∧ j ≤ d.jugglers) (hand : Hand) : ∃ stops chains,
    HandLink.Stops l.paths l.timeline.moments j hand stops ∧
    HandCurve.chains ⟨globalPlace l.tracks, l.paths, l.loop⟩ l.timeline.moments j hand
      ((steps stops).map (HandLink.between j hand)) = .ok chains ∧
    Numbers l.curves chains (l.handLinks j hand) := by
  obtain ⟨links, hlinks, hsolve⟩ := h.hands
  obtain ⟨built, hbuilt, heq⟩ := bind_eq_ok.mp hlinks
  obtain rfl := pure_eq_ok.mp heq
  obtain ⟨⟨curves, solved⟩, hfrom, heq⟩ := bind_eq_ok.mp hsolve
  have hcurves : curves = l.curves := congrArg Prod.fst (pure_eq_ok.mp heq)
  have hhands : Numbered.ofList solved = l.hands := congrArg Prod.snd (pure_eq_ok.mp heq)
  subst hcurves
  have hfresh : ∀ hs ∈ built, ∀ hand, HandLink.Fresh (hs.get hand) := by
    intro hs hmem hand
    obtain ⟨j, -, hhs⟩ := exists_of_forall₂ (mapM_eq_ok.mp hbuilt) hmem
    obtain ⟨stops, -, hlinks⟩ := HandLink.build_ok (HandLink.build_of_both hhs hand)
    rw [hlinks]
    exact HandLink.fresh_between stops
  obtain ⟨hs, hget, hok⟩ := Numbered.get?_of_mapM hbuilt hj
  obtain ⟨stops, hstops', hlinks⟩ := HandLink.build_ok (HandLink.build_of_both hok hand)
  obtain ⟨j, rfl⟩ : ∃ i, j = i + 1 := ⟨j - 1, by omega⟩
  rw [Numbered.get?_ofList] at hget
  obtain ⟨out, hout, hsolved⟩ := (HandCurve.solveFrom_ok hfresh hfrom).2 l.curves
    (List.prefix_refl _) j hs hget
  obtain ⟨chains, hchains, hnumbers⟩ := hsolved hand
  rw [Nat.add_comm 1 j, hlinks] at hchains
  refine ⟨stops, chains, hstops', hchains, ?_⟩
  have hout' : l.hands.get? (j + 1) = some out := by
    rw [← hhands, Numbered.get?_ofList]
    exact hout
  rwa [handLinks, Numbered.getD_of_get? hout']

variable (hperms : ∀ s ∈ d.symmetries, s.jugglers.Rearranges ∧ s.paths.Rearranges)

include hperms

theorem isGroupOf : l.group.IsGroupOf d.symmetries d.jugglers d.paths :=
  d.isGroupOf hperms h.valid h.group

theorem expanded : (∀ e ∈ l.timeline.seeds, Placed d.jugglers d.paths e) ∧
    Nonempty (Moment.Expanded l.timeline.seeds l.group d.jugglers d.paths l.loop
      l.timeline.moments) := by
  have hg := h.isGroupOf hperms
  have hsettled := Timeline.settle_ok hg.image_fits (Declarations.validate_ok h.valid).1 h.timeline
  exact ⟨hsettled.placed, (Moment.expand_ok hg hsettled.expand).2⟩

theorem placed {m : Moment α} (hm : m ∈ l.timeline.moments) :
    Placed d.jugglers d.paths m.event := by
  obtain ⟨hplaced, ⟨x⟩⟩ := h.expanded hperms
  exact x.placed (h.isGroupOf hperms) hplaced hm

theorem listed : Moment.Listed l.timeline.moments := by
  obtain ⟨-, ⟨x⟩⟩ := h.expanded hperms
  exact x.listed

end IsBuilt

end Layout

end Juggling
