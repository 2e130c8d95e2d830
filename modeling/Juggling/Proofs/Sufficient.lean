import Juggling.Proofs.Ending
import Juggling.Proofs.Exchange

namespace Juggling

variable {α : Type} [Exact α]

theorem Moment.Expanded.mem_kept_of_length {seeds : List (Event α)} {g : SymmetryGroup α}
    {J N : ℕ} {loop : Window α} {moments : List (Moment α)}
    (x : Expanded seeds g J N loop moments) (hlength : moments.length = x.made.length)
    {o : Generated α} (ho : o ∈ x.made) : o ∈ x.kept := by
  have hkept : x.kept.length = moments.length := by
    rw [congrArg List.length x.moments_eq, numbered, List.length_mapIdx]
  rw [x.sublist.eq_of_length (by rw [hkept, hlength, List.length_mergeSort])]
  exact List.mem_mergeSort.mpr ho

namespace Moment

/-- A flight gives the hand its velocity. -/
def Steered (paths : Numbered (PathHistory α)) (m : Moment α) : Prop :=
  ∃ r v, VelocityRef.ofMoment paths m = .ok (some r) ∧ r.resolve paths = .ok v

end Moment

namespace Expansion

/-- A hand with which some image throws something or catches it softly. -/
def Steers (x : Expansion α) (j : ℕ) (hand : Hand) : Prop :=
  ∃ e ∈ x.seeds, ∃ k, ((x.group.image k).apply e).juggler = j ∧
    ((x.group.image k).apply e).hand = hand ∧
    ((x.group.image k).apply e).determinesVelocity = true

/-- Moments that are enough for the curves over a loop: on both sides of it there is a touch of
every path and a velocity for every hand that is ever given one, and around it every other hand has
moments as far apart as two loops. -/
structure Suffices (x : Expansion α) (J N : ℕ) (paths : Numbered (PathHistory α))
    (moments : List (Moment α)) : Prop where
  touched : ∀ p, 1 ≤ p ∧ p ≤ N →
    (∃ m ∈ moments, m.time ≤ x.loop.low + timeTolerance ∧ m.Touches p) ∧
      ∃ m ∈ moments, x.loop.high ≤ m.time ∧ m.Touches p
  steered : ∀ j hand, x.Steers j hand →
    (∃ m ∈ Moment.ofHand moments j hand,
      m.time ≤ x.loop.low + timeTolerance ∧ m.Steered paths) ∧
      ∃ m ∈ Moment.ofHand moments j hand, x.loop.high ≤ m.time ∧ m.Steered paths
  free : ∀ j hand, 1 ≤ j ∧ j ≤ J → ¬x.Steers j hand →
    (∃ m ∈ Moment.ofHand moments j hand, m.time ≤ x.loop.low + timeTolerance) ∧
      ∃ m ∈ Moment.ofHand moments j hand,
        2 * x.loop.high - x.loop.low - timeTolerance ≤ m.time

namespace Filled

variable {x : Expansion α} {J N : ℕ} {moments : List (Moment α)} (f : x.Filled J N moments)
  {symmetries : List (Symmetry α)} (hg : x.group.IsGroupOf symmetries J N)

include f hg

theorem exists_event_low {j : ℕ} (hj : 1 ≤ j ∧ j ≤ J) (hand : Hand) :
    ∃ m ∈ Moment.ofHand moments j hand, m.time ≤ x.loop.low + timeTolerance := by
  obtain ⟨o, ho, htime, hhand⟩ := f.run.exists_event_back hg f.sound hj hand
  obtain ⟨m, hm, rfl⟩ := f.moment o (f.run.mem_made.mpr (.inl ho))
  exact ⟨m, Layout.mem_ofHand.mpr ⟨hm, hhand⟩, htime⟩

theorem exists_event_free {j : ℕ} (hj : 1 ≤ j ∧ j ≤ J) {hand : Hand}
    (hfree : (x.coverage.hand j hand).determinesVelocity = false) :
    ∃ m ∈ Moment.ofHand moments j hand,
      2 * x.loop.high - x.loop.low - timeTolerance ≤ m.time := by
  obtain ⟨o, ho, htime, hhand⟩ := f.run.exists_event_forth hg f.sound hj hfree
  obtain ⟨m, hm, rfl⟩ := f.moment o (f.run.mem_made.mpr (.inr ho))
  rw [freeUntil_eq] at htime
  exact ⟨m, Layout.mem_ofHand.mpr ⟨hm, hhand⟩, htime⟩

variable [Numeral α] {place : Event α → Coordinate α} {paths : Numbered (PathHistory α)}

theorem suffices_of_traced (h : Traced place J N moments paths)
    (hfounded : x.coverage.Founded fun e' ↦ ∃ e ∈ x.seeds, ∃ k, e' = (x.group.image k).apply e)
    (hloop : x.loop.low + x.group.period ≤ x.loop.high) (hlong : timeTolerance < x.group.period) :
    x.Suffices J N paths moments := by
  refine ⟨fun p hp ↦ ⟨f.touched_low hg hp, ?_⟩, fun j hand hsteers ↦ ?_, fun j hand hj hfree ↦ ?_⟩
  · obtain ⟨m, hm, -, hle, htouch⟩ := f.touched_high hg hp
    exact ⟨m, hm, hle, htouch⟩
  · obtain ⟨e, he, k, rfl, rfl, hdet⟩ := hsteers
    have hj := (hg.placed_image (f.sound.seeds e he) k).juggler
    have hknown := (f.knows e he k).velocity hdet
    obtain ⟨m, hm, hmj, hmh, hlow, -, ⟨v, hv⟩, -⟩ := f.resolved_low hg h hloop hlong hj hknown
    obtain ⟨n, hn, hnj, hnh, hhigh, ⟨w, hw⟩, -⟩ := f.resolved_high hg h hloop hlong hj hknown
    obtain ⟨_, hv'⟩ := h.exists_resolve hm hv
    obtain ⟨_, hw'⟩ := h.exists_resolve hn hw
    exact ⟨⟨m, Layout.mem_ofHand.mpr ⟨hm, hmj, hmh⟩, hlow, v, _, hv, hv'⟩,
      n, Layout.mem_ofHand.mpr ⟨hn, hnj, hnh⟩, hhigh, w, _, hw, hw'⟩
  · refine ⟨f.exists_event_low hg hj hand, f.exists_event_free hg hj ?_⟩
    -- What is on record for the hand is the doing of an image.
    by_contra hdet
    obtain ⟨_, ⟨e, he, k, rfl⟩, hhand⟩ := hfounded.velocity j hand (Bool.not_eq_false _ ▸ hdet)
    exact hfree ⟨e, he, k, hhand⟩

end Filled

variable [Numeral α] {x : Expansion α} {J N : ℕ} {symmetries : List (Symmetry α)}
  {made : List (Generated α)} {moments : List (Moment α)} {place : Event α → Coordinate α}
  {paths : Numbered (PathHistory α)} {links : Numbered (Hands (List (HandLink α)))}

/-- A timeline from which nothing is dropped, and over which all paths and hands are linked, is
enough for the curves over the loop, be the loop a period long or more. -/
theorem suffices_of_links
    (hfits : ∀ s ∈ symmetries, (SymmetryGroup.ofShift s (0 : α)).Fits J N)
    (hok : SymmetryGroup.ofSymmetries symmetries J N = .ok x.group)
    (hseeds : ∀ e ∈ x.seeds, Placed J N e)
    (hscan : Coverage.scan x.seeds x.group J N = .ok x.coverage)
    (hloop : x.loop.low + x.group.period ≤ x.loop.high) (hlong : timeTolerance < x.group.period)
    (hrun : x.run N = .ok made)
    (hexpand : Moment.expand x.seeds x.group J N x.loop = .ok moments)
    (hwhole : moments.length = made.length)
    (hpaths : PathHistory.buildAll place moments N = .ok paths)
    (hlinks : HandLink.buildAll paths moments J = .ok links) :
    x.Suffices J N paths moments := by
  have hg := SymmetryGroup.ofSymmetries_ok hfits hok
  obtain ⟨-, e, hrun'⟩ := Moment.exists_expanded hg hexpand
  have hx : ⟨x.seeds, x.group, e.coverage, x.loop⟩ = x := by
    rw [Except.ok.inj (e.scan_eq.symm.trans hscan)]
  obtain rfl : e.made = made := Except.ok.inj ((hx ▸ hrun').symm.trans hrun)
  have f := Filled.ofExpanded e hg hseeds fun o ho ↦ e.mem_kept_of_length hwhole ho
  exact (hx ▸ f).suffices_of_traced hg (e.traced hg hseeds hpaths hlinks)
    (Coverage.scan_founded hg hseeds hscan).1 hloop hlong

end Expansion

namespace Timeline

theorem suffices_exchange : ∃ made paths links, ∃ place : Event ℚ → Coordinate ℚ,
    SymmetryGroup.ofSymmetries exchange.symmetries 1 1 = .ok exchangeExpansion.group ∧
    Coverage.scan exchangeExpansion.seeds exchangeExpansion.group 1 1 =
      .ok exchangeExpansion.coverage ∧
    timeTolerance < exchangeExpansion.group.period ∧
    exchangeExpansion.run 1 = .ok made ∧
    Moment.expand exchangeExpansion.seeds exchangeExpansion.group 1 1 exchangeExpansion.loop =
      .ok exchangeTimeline.moments ∧
    exchangeTimeline.moments.length = made.length ∧
    PathHistory.buildAll place exchangeTimeline.moments 1 = .ok paths ∧
    HandLink.buildAll paths exchangeTimeline.moments 1 = .ok links ∧
    exchangeExpansion.Suffices 1 1 paths exchangeTimeline.moments := by
  have hfits := exchange.fits rearranges_exchange validate_exchange
  have hseeds := (exchange.validate_ok validate_exchange).1
  have hlong : timeTolerance < exchangeExpansion.group.period :=
    spaced_exchange.timeTolerance_lt_period
      (exchange.isGroupOf rearranges_exchange validate_exchange ofSymmetries_exchange)
  have hloop : exchangeExpansion.loop.low + exchangeExpansion.group.period ≤
      exchangeExpansion.loop.high :=
    (zero_add _).le
  have hcount : (exchangeExpansion.run 1).toOption.map List.length =
      some exchangeTimeline.moments.length := by
    decide +kernel
  obtain ⟨made, hmade, hlength⟩ := Option.map_eq_some_iff.mp hcount
  have hrun := toOption_eq_some.mp hmade
  obtain ⟨l, hbuild, -, -, htimeline⟩ := layOut_exchange
  have h := Layout.build_ok hbuild
  obtain ⟨links, hlinks, -⟩ := h.hands
  have hpaths := h.paths
  rw [htimeline] at hpaths hlinks
  exact ⟨made, l.paths, links, _, ofSymmetries_exchange, scan_exchange, hlong, hrun,
    expand_exchange, hlength.symm, hpaths, hlinks,
    Expansion.suffices_of_links hfits ofSymmetries_exchange hseeds scan_exchange hloop hlong hrun
      expand_exchange hlength.symm hpaths hlinks⟩

end Timeline

end Juggling
