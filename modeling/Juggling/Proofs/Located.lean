import Juggling.Proofs.Tables
import Juggling.Proofs.Velocities

namespace Juggling

variable {α : Type}

namespace Numbered

variable {ε β : Type}

theorem size_of_mapM {f : ℕ → Except ε β} {n : ℕ} {ys : List β}
    (h : (List.range' 1 n).mapM f = .ok ys) : (ofList ys).size = n := by
  have hlength := (mapM_eq_ok.mp h).length_eq
  rw [List.length_range'] at hlength
  rw [size, ofList, List.size_toArray, hlength]

/-- The entry for a number comes from the step that was made for it. -/
theorem ok_of_mapM {f : ℕ → Except ε β} {n : ℕ} {ys : List β}
    (h : (List.range' 1 n).mapM f = .ok ys) {i : ℕ} {y : β} (hy : (ofList ys).get? i = some y) :
    (1 ≤ i ∧ i ≤ n) ∧ f i = .ok y := by
  have hi := (has_iff (size_of_mapM h)).mp ⟨y, hy⟩
  obtain ⟨y', hy', hok⟩ := get?_of_mapM h hi
  obtain rfl := Option.some.inj (hy.symm.trans hy')
  exact ⟨hi, hok⟩

end Numbered

section Histories

/-- The history of a path is about moments in their places and about jugglers that exist. -/
structure PathHistory.Located (J : ℕ) (moments : List (Moment α)) (p : ℕ) (h : PathHistory α) :
    Prop where
  touch : ∀ t ∈ h.touches, moments[t.moment.index]? = some t.moment ∧
    t.transition ∈ t.moment.event.transitions ∧ t.transition.path = p
  path : ∀ k ∈ h.links, k.path = p
  start : ∀ k ∈ h.links, k.start ∈ h.touches
  stop : ∀ k ∈ h.links, k.stop ∈ h.touches
  held : ∀ k ∈ h.links, ∀ j hand, k.passage = .held j hand → 1 ≤ j ∧ j ≤ J

variable [Scalar α] [Numeral α] {J N s : ℕ} {moments : List (Moment α)}
  {place : Event α → Coordinate α} {paths : Numbered (PathHistory α)}
  (hm : ∀ m ∈ moments, m.Located J N s moments)

include hm

theorem PathHistory.located_of_build {p : ℕ} {h : PathHistory α}
    (hok : build place moments p = .ok h) : h.Located J moments p := by
  obtain ⟨htouches, hlinks⟩ := build_ok hok
  have hmem {t : Touch α} (ht : t ∈ h.touches) := Touch.mem_ofPath.mp (htouches ▸ ht)
  have hlink {k : PathLink α} (hk : k ∈ h.links) : ∃ a ∈ h.touches, ∃ b ∈ h.touches, ∃ passage,
      PathLink.passage? place p a b = .ok passage ∧ k = ⟨p, a, b, passage⟩ := by
    obtain ⟨⟨a, b⟩, hab, hbuild⟩ := exists_of_forall₂ hlinks hk
    obtain ⟨passage, hpassage, rfl⟩ := PathLink.build_ok hbuild
    exact ⟨a, (mem_steps hab).1, b, (mem_steps hab).2, passage, hpassage, rfl⟩
  refine ⟨fun t ht ↦ ?_, fun k hk ↦ ?_, fun k hk ↦ ?_, fun k hk ↦ ?_, fun k hk j hand hheld ↦ ?_⟩
  · obtain ⟨hmoment, htransition⟩ := hmem ht
    exact ⟨(hm _ hmoment).index, htransition⟩
  all_goals obtain ⟨a, ha, b, hb, passage, hpassage, rfl⟩ := hlink hk
  · rfl
  · exact ha
  · exact hb
  · obtain rfl : passage = .held j hand := hheld
    rcases PathLink.passage?_ok hpassage with ⟨_, _, _, heq, -⟩ | ⟨heq, -⟩
    · cases heq
    · cases heq
      exact (hm _ (hmem ha).1).placed.juggler

theorem PathHistory.located_of_buildAll (hok : buildAll place moments N = .ok paths) :
    paths.size = N ∧ ∀ p h, paths.get? p = some h → h.Located J moments p := by
  obtain ⟨hists, hhists, heq⟩ := bind_eq_ok.mp hok
  obtain rfl := pure_eq_ok.mp heq
  refine ⟨Numbered.size_of_mapM hhists, fun p h hget ↦ ?_⟩
  exact located_of_build hm (Numbered.ok_of_mapM hhists hget).2

end Histories

namespace VelocityRef

variable {paths : Numbered (PathHistory α)} {v : VelocityRef}

/-- There is a flight at some place in the history of a path. -/
def FlightAt (paths : Numbered (PathHistory α)) (path link : ℕ) : Prop :=
  ∃ h, paths.get? path = some h ∧ ∃ k, h.links[link]? = some k ∧ ∃ f, k.flight? = some f

/-- What a hand takes its velocity from is a flight. -/
def Flies (paths : Numbered (PathHistory α)) : VelocityRef → Prop
  | throw path link | softCatch path link => FlightAt paths path link

theorem flightAt_of_findIdx? {path link : ℕ} {q : PathLink α → Bool}
    (h : (paths.getD path .empty).links.findIdx? (fun k ↦ !k.isHeld && q k) = some link) :
    FlightAt paths path link := by
  cases hget : paths.get? path with
  | none =>
    rw [Numbered.getD, hget] at h
    cases h
  | some hist =>
    rw [Numbered.getD_of_get? hget] at h
    obtain ⟨hlink, hpred, -⟩ := List.findIdx?_eq_some_iff_getElem.mp h
    rw [Bool.and_eq_true] at hpred
    obtain ⟨-, f, hf, -⟩ := flight_of_index hget hlink hpred.1
    exact ⟨hist, hget, _, List.getElem?_eq_getElem hlink, f, hf⟩

/-- A moment gives the velocity of a flight or none, or the flight it should be of is missing. -/
theorem ofMoment_cases (paths : Numbered (PathHistory α)) (m : Moment α) :
    (∃ v, v.Flies paths ∧ ofMoment paths m = .ok (some v)) ∨ ofMoment paths m = .ok none ∨
      ∃ j hand t, ofMoment paths m = .error (.missingVelocityPath j hand t) := by
  -- Without a flight it depends on whether the flight would lie beyond an end of the timeline.
  have hif (beyond : Bool) {x : Except (InternalError α) (Option VelocityRef)}
      (hx : x = if beyond then .ok none else
        .error (.missingVelocityPath m.event.juggler m.event.hand m.event.time)) :
      x = .ok none ∨ ∃ j hand t, x = .error (.missingVelocityPath j hand t) := by
    cases beyond with
    | true => exact .inl hx
    | false => exact .inr ⟨_, _, _, hx⟩
  cases hthrow : m.event.find? .throwing with
  | some t =>
    cases hlink : (paths.getD t.path .empty).flightFrom? m with
    | some link =>
      refine .inl ⟨.throw t.path link, flightAt_of_findIdx? hlink, ?_⟩
      simp only [ofMoment, hthrow, hlink]
    | none =>
      refine .inr (hif ((paths.getD t.path .empty).endsAt m) ?_)
      simp only [ofMoment, hthrow, hlink]
  | none =>
    cases hsoft : m.event.find? .softCatching with
    | some t =>
      cases hlink : (paths.getD t.path .empty).flightTo? m with
      | some link =>
        refine .inl ⟨.softCatch t.path link, flightAt_of_findIdx? hlink, ?_⟩
        simp only [ofMoment, hthrow, hsoft, hlink]
      | none =>
        refine .inr (hif ((paths.getD t.path .empty).startsAt m) ?_)
        simp only [ofMoment, hthrow, hsoft, hlink]
    | none =>
      refine .inr (.inl ?_)
      simp only [ofMoment, hthrow, hsoft]

theorem flies_of_ofMoment {m : Moment α} (hv : ofMoment paths m = .ok (some v)) :
    v.Flies paths := by
  obtain ⟨w, hw, heq⟩ | heq | ⟨_, _, _, heq⟩ := ofMoment_cases paths m
  · obtain rfl := Option.some.inj (Except.ok.inj (heq.symm.trans hv))
    exact hw
  · cases heq.symm.trans hv
  · cases heq.symm.trans hv

theorem Flies.exists_resolve [Scalar α] (h : v.Flies paths) : ∃ w, v.resolve paths = .ok w := by
  have hflight {path link : ℕ} (h : FlightAt paths path link) :
      ∃ f, flight paths path link = .ok f := by
    obtain ⟨hist, hget, k, hk, f, hf⟩ := h
    exact ⟨f, by simp [flight, hget, hk, hf]⟩
  cases v with
  | throw path link =>
    obtain ⟨f, hf⟩ := hflight h
    exact ⟨f.startVelocity, map_eq_ok.mpr ⟨f, hf, rfl⟩⟩
  | softCatch path link =>
    obtain ⟨f, hf⟩ := hflight h
    exact ⟨f.endVelocity, map_eq_ok.mpr ⟨f, hf, rfl⟩⟩

end VelocityRef

namespace HandLink

/-- A link of a hand is between moments in their places, with velocities of flights and a curve
that exists. -/
structure Located (paths : Numbered (PathHistory α)) (moments : List (Moment α)) (curves j : ℕ)
    (hand : Hand) (k : HandLink α) : Prop where
  juggler : k.juggler = j
  hand : k.hand = hand
  start : moments[k.start.index]? = some k.start
  stop : moments[k.stop.index]? = some k.stop
  startVelocity : ∀ v, k.startVelocity = some v → v.Flies paths
  endVelocity : ∀ v, k.endVelocity = some v → v.Flies paths
  curve : ∀ i, k.curve = some i → i < curves

variable {paths : Numbered (PathHistory α)} {moments : List (Moment α)} {j : ℕ} {hand : Hand}
  {links : List (HandLink α)}

theorem Located.mono {curves curves' : ℕ} {k : HandLink α}
    (h : k.Located paths moments curves j hand) (hle : curves ≤ curves') :
    k.Located paths moments curves' j hand :=
  { h with curve := fun i hi ↦ (h.curve i hi).trans_le hle }

/-- The links of both hands of a juggler are in range. -/
def LocatedBoth (paths : Numbered (PathHistory α)) (moments : List (Moment α)) (curves j : ℕ)
    (links : Hands (List (HandLink α))) : Prop :=
  ∀ hand, ∀ k ∈ links.get hand, k.Located paths moments curves j hand

theorem located_of_build {J N s : ℕ} (hm : ∀ m ∈ moments, m.Located J N s moments)
    (hok : build paths moments j hand = .ok links) :
    Fresh links ∧ ∀ k ∈ links, k.Located paths moments 0 j hand := by
  obtain ⟨stops, hstops, rfl⟩ := build_ok hok
  refine ⟨fresh_between stops, fun k hk ↦ ?_⟩
  obtain ⟨⟨a, b⟩, hab, rfl⟩ := List.mem_map.mp hk
  have hmoment {t : Moment α × Option VelocityRef} (ht : t ∈ stops) :
      moments[t.1.index]? = some t.1 := by
    have hmem : t.1 ∈ Moment.ofHand moments j hand := by
      rw [← hstops.moments]
      exact List.mem_map_of_mem ht
    exact (hm _ (List.mem_of_mem_filter hmem)).index
  have hvelocity {t : Moment α × Option VelocityRef} (ht : t ∈ stops) (v : VelocityRef)
      (hv : t.2 = some v) : v.Flies paths :=
    VelocityRef.flies_of_ofMoment (hv ▸ hstops.velocity t ht)
  obtain ⟨ha, hb⟩ := mem_steps hab
  exact ⟨rfl, rfl, hmoment ha, hmoment hb, hvelocity ha, hvelocity hb, fun i hi ↦ by cases hi⟩

/-- The links of both hands of a juggler as they are built, before they have curves. -/
structure Built (paths : Numbered (PathHistory α)) (moments : List (Moment α)) (j : ℕ)
    (links : Hands (List (HandLink α))) : Prop where
  fresh : ∀ hand, Fresh (links.get hand)
  located : LocatedBoth paths moments 0 j links

theorem built_of_buildAll {J N s : ℕ} (hm : ∀ m ∈ moments, m.Located J N s moments)
    {all : Numbered (Hands (List (HandLink α)))} (hok : buildAll paths moments J = .ok all) :
    all.size = J ∧ ∀ j hs, all.get? j = some hs → Built paths moments j hs := by
  obtain ⟨hands, hhands, heq⟩ := bind_eq_ok.mp hok
  obtain rfl := pure_eq_ok.mp heq
  refine ⟨Numbered.size_of_mapM hhands, fun j hs hget ↦ ?_⟩
  obtain ⟨-, hboth⟩ := Numbered.ok_of_mapM hhands hget
  have hlocated (hand : Hand) := located_of_build hm (build_of_both hboth hand)
  exact ⟨fun hand ↦ (hlocated hand).1, fun hand ↦ (hlocated hand).2⟩

end HandLink

section Curves

variable {chains : List (Chain α)}

namespace Chain

/-- Links that come from chains, with the numbers of curves that are there. -/
structure Curved (chains : List (Chain α)) (curves : Array (Spline α))
    (links : List (HandLink α)) : Prop where
  origin : ∀ k ∈ links, ∃ c ∈ chains, ∃ l ∈ c.links, k = { l with curve := k.curve }
  lt : ∀ k ∈ links, ∀ i, k.curve = some i → i < curves.size

variable {s : Array (Spline α) × Array (HandLink α)} {c : Chain α}

theorem curved_numberNext (hc : c ∈ chains) (hfresh : ∀ k ∈ c.links, k.curve = none)
    (h : Curved chains s.1 s.2.toList) : s.1.size ≤ (numberNext s c).1.size ∧
      Curved chains (numberNext s c).1 (numberNext s c).2.toList := by
  cases hcurve : c.curve with
  | none =>
    have hstep : numberNext s c = (s.1, s.2 ++ c.links) := by simp [numberNext, hcurve]
    rw [hstep, Array.toList_appendList]
    exact ⟨le_rfl, List.forall_mem_append.mpr ⟨h.origin, fun k hk ↦ ⟨c, hc, k, hk, rfl⟩⟩,
      List.forall_mem_append.mpr ⟨h.lt, fun k hk i hi ↦ by cases (hfresh k hk).symm.trans hi⟩⟩
  | some curve =>
    have hstep : numberNext s c =
        (s.1.push curve, s.2 ++ c.links.map ({ · with curve := some s.1.size })) := by
      simp [numberNext, hcurve]
    have hgrow : s.1.size < (s.1.push curve).size := by simp
    rw [hstep, Array.toList_appendList]
    refine ⟨hgrow.le, List.forall_mem_append.mpr ⟨h.origin, fun k hk ↦ ?_⟩,
      List.forall_mem_append.mpr ⟨fun k hk i hi ↦ (h.lt k hk i hi).trans hgrow, fun k hk i hi ↦ ?_⟩⟩
    all_goals obtain ⟨l, hl, rfl⟩ := List.mem_map.mp hk
    · exact ⟨c, hc, l, hl, rfl⟩
    · obtain rfl := Option.some.inj hi
      exact hgrow

/-- Every link gets the number of a curve that is there by then, if it gets one. -/
theorem curved_number (hfresh : ∀ c ∈ chains, ∀ k ∈ c.links, k.curve = none)
    (known : Array (Spline α)) : known.size ≤ (number known chains).1.size ∧
      Curved chains (number known chains).1 (number known chains).2 :=
  List.foldlRecOn (motive := fun s : Array (Spline α) × Array (HandLink α) ↦
    known.size ≤ s.1.size ∧ Curved chains s.1 s.2.toList) chains numberNext
    ⟨le_rfl, by simp, by simp⟩ fun _ h c hc ↦
      have hnext := curved_numberNext hc (hfresh c hc) h.2
      ⟨h.1.trans hnext.1, hnext.2⟩

end Chain

variable [Scalar α] {x : HandCurve α} {moments : List (Moment α)} {j : ℕ} {hand : Hand}
  {links : List (HandLink α)}

namespace HandCurve

theorem located_of_chains (known : Array (Spline α))
    (hfresh : HandLink.Fresh links) (hlocated : ∀ k ∈ links, k.Located x.paths moments 0 j hand)
    (hok : x.chains moments j hand links = .ok chains) :
    known.size ≤ (Chain.number known chains).1.size ∧ ∀ k ∈ (Chain.number known chains).2,
      k.Located x.paths moments (Chain.number known chains).1.size j hand := by
  obtain ⟨hknown, hcurved⟩ := Chain.curved_number (fresh_of_chains hfresh hok) known
  obtain ⟨-, -, -, -, hsplit, -⟩ := chains_ok hfresh.joined hok
  refine ⟨hknown, fun k hk ↦ ?_⟩
  obtain ⟨c, hc, l, hl, heq⟩ := hcurved.origin k hk
  have h := hlocated l (hsplit ▸ List.mem_flatMap.mpr ⟨c, hc, hl⟩)
  rw [heq]
  exact ⟨h.juggler, h.hand, h.start, h.stop, h.startVelocity, h.endVelocity, hcurved.lt k hk⟩

theorem located_of_solveJuggler {known known' : Array (Spline α)}
    {hands solved : Hands (List (HandLink α))}
    (hbuilt : HandLink.Built x.paths moments j hands)
    (hok : x.solveJuggler moments known j hands = .ok (known', solved)) :
    known.size ≤ known'.size ∧ HandLink.LocatedBoth x.paths moments known'.size j solved := by
  obtain ⟨left, hleft, hok⟩ := bind_eq_ok.mp hok
  obtain ⟨right, hright, hok⟩ := bind_eq_ok.mp hok
  obtain ⟨hsize, hlocated⟩ := located_of_chains known (hbuilt.fresh .left) (hbuilt.located .left)
    hleft
  obtain ⟨hsize', hlocated'⟩ := located_of_chains (Chain.number known left).1
    (hbuilt.fresh .right) (hbuilt.located .right) hright
  cases pure_eq_ok.mp hok
  refine ⟨hsize.trans hsize', fun hand k hk ↦ ?_⟩
  cases hand with
  | left => exact (hlocated k hk).mono hsize'
  | right => exact hlocated' k hk

theorem located_of_solveFrom {known known' : Array (Spline α)}
    {hands solved : List (Hands (List (HandLink α)))}
    (hbuilt : ∀ (i : ℕ) (hs : Hands (List (HandLink α))), hands[i]? = some hs →
      HandLink.Built x.paths moments (j + i) hs)
    (hok : x.solveFrom moments known j hands = .ok (known', solved)) :
    known.size ≤ known'.size ∧ solved.length = hands.length ∧
      ∀ (i : ℕ) (out : Hands (List (HandLink α))), solved[i]? = some out →
        HandLink.LocatedBoth x.paths moments known'.size (j + i) out := by
  induction hands generalizing known j solved with
  | nil =>
    cases Except.ok.inj hok
    exact ⟨le_rfl, rfl, fun i out h ↦ by simp at h⟩
  | cons hs hands ih =>
    obtain ⟨⟨mid, out⟩, hfirst, hok⟩ := bind_eq_ok.mp hok
    obtain ⟨⟨known', outs⟩, hrest, hok⟩ := bind_eq_ok.mp hok
    cases pure_eq_ok.mp hok
    obtain ⟨hsize, hlocated⟩ := located_of_solveJuggler (hbuilt 0 hs rfl) hfirst
    have hbuilt' (i : ℕ) (hs : Hands (List (HandLink α))) (hi : hands[i]? = some hs) :
        HandLink.Built x.paths moments (j + 1 + i) hs := by
      rw [Nat.add_assoc, Nat.add_comm 1 i]
      exact hbuilt (i + 1) hs hi
    obtain ⟨hsize', hlength, hlocated'⟩ := ih hbuilt' hrest
    refine ⟨hsize.trans hsize', congrArg (· + 1) hlength, fun i out' hi ↦ ?_⟩
    cases i with
    | zero =>
      obtain rfl := Option.some.inj hi
      exact fun hand k hk ↦ (hlocated hand k hk).mono hsize'
    | succ i =>
      have := hlocated' i out' hi
      rwa [Nat.add_assoc, Nat.add_comm 1 i] at this

theorem located_of_solveAll {J : ℕ} {all hands : Numbered (Hands (List (HandLink α)))}
    {curves : Array (Spline α)} (hsize : all.size = J)
    (hbuilt : ∀ j hs, all.get? j = some hs → HandLink.Built x.paths moments j hs)
    (hok : x.solveAll moments all = .ok (curves, hands)) : hands.size = J ∧ ∀ j hs,
      hands.get? j = some hs → HandLink.LocatedBoth x.paths moments curves.size j hs := by
  obtain ⟨⟨curves, solved⟩, hfrom, hok⟩ := bind_eq_ok.mp hok
  cases pure_eq_ok.mp hok
  have hget (i : ℕ) : all.get? (i + 1) = all.toList[i]? := by
    rw [Numbered.get?, Numbered.toList, Array.getElem?_toList]
  obtain ⟨-, hlength, hlocated⟩ := located_of_solveFrom (fun i hs hi ↦ by
    rw [Nat.add_comm]
    exact hbuilt (i + 1) hs ((hget i).trans hi)) hfrom
  refine ⟨?_, fun j hs hj ↦ ?_⟩
  · rw [← hsize, Numbered.size, Numbered.ofList, List.size_toArray, hlength]
    exact Array.length_toList
  · cases j with
    | zero => cases hj
    | succ j =>
      rw [Numbered.get?_ofList] at hj
      have := hlocated j hs hj
      rwa [Nat.add_comm] at this

end HandCurve

end Curves

end Juggling
