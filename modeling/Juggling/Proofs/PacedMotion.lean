import Juggling.Proofs.Answers
import Juggling.Proofs.PacedLayout

namespace Juggling

variable {α : Type} [Exact α] {f : α}

namespace Layout

section Lookup

variable {β γ : Type} {R : β → γ → Prop} {range : β → Window α} {range' : γ → Window α} {t t' : α}

/-- Links that correspond are found at corresponding times. -/
theorem linkAt?_of_forall₂ (hR : ∀ a b, R a b →
    ((range' b).low ≤ t' ↔ (range a).low ≤ t) ∧ (t' ≤ (range' b).high ↔ t ≤ (range a).high))
    {xs : List β} {ys : List γ} (h : List.Forall₂ R xs ys) {a : β}
    (ha : linkAt? range t xs = some a) : ∃ b, linkAt? range' t' ys = some b ∧ R a b := by
  have htake : List.Forall₂ R (xs.takeWhile fun k ↦ (range k).low ≤ t)
      (ys.takeWhile fun k ↦ (range' k).low ≤ t') := by
    clear ha
    induction h with
    | nil => exact .nil
    | cons hab _ ih =>
      simp only [List.takeWhile_cons, (hR _ _ hab).1]
      split_ifs
      · exact .cons hab ih
      · exact .nil
  obtain ⟨hlast, hhigh⟩ := Option.filter_eq_some_iff.mp ha
  rw [List.getLast?_eq_getElem?] at hlast
  rcases getElem?_of_forall₂ htake ((xs.takeWhile fun k ↦ (range k).low ≤ t).length - 1) with
    ⟨a', b, ha', hb, hab⟩ | ⟨hnone, -⟩
  · obtain rfl : a' = a := Option.some.inj (ha'.symm.trans hlast)
    refine ⟨b, Option.filter_eq_some_iff.mpr ⟨?_, ?_⟩, hab⟩
    · rw [List.getLast?_eq_getElem?, ← htake.length_eq]
      exact hb
    · simpa [(hR _ _ hab).2] using hhigh
  · rw [hnone] at hlast
    cases hlast

theorem forall₂_of_common {δ ε : Type} {A : β → δ → Prop} {B : γ → ε → Prop} {σ : δ → ε}
    (hR : ∀ a z b, A a z → B b (σ z) → R a b) {xs : List β} {zs : List δ} {ys : List γ}
    (hA : List.Forall₂ A xs zs) (hB : List.Forall₂ B ys (zs.map σ)) : List.Forall₂ R xs ys := by
  induction hA generalizing ys with
  | nil =>
    cases hB
    exact .nil
  | cons ha _ ih =>
    cases hB with
    | cons hb hB => exact .cons (hR _ _ _ ha hb) (ih hB)

end Lookup

namespace IsStretch

variable {l l' : Layout α} (hl : IsStretch f l l') (hf : 0 < f)
include hl hf

theorem wrapTime (t : α) : l'.wrapTime (t * f) = l.wrapTime t * f := by
  have hperiod : l'.period = l.period * f := by
    rw [period, hl.loop, period, sub_mul]
    rfl
  have hlow : l'.loop.low = l.loop.low * f := congrArg Window.low hl.loop
  rw [Layout.wrapTime, hperiod, hlow, ← sub_mul, Scalar.remainder_mul hf, ← add_mul,
    Layout.wrapTime]

theorem isHeld {p : ℕ} {t : α} {b : Bool} (hok : l.isHeld p t = .ok b) :
    l'.isHeld p (t * f) = .ok b := by
  obtain ⟨k, hk, rfl⟩ := map_eq_ok.mp hok
  obtain ⟨k', hk', hpaced⟩ : ∃ k', linkAt? PathLink.range (l.wrapTime t * f) (l'.pathLinks p) =
      some k' ∧ PathLink.Paced f k k' := linkAt?_of_forall₂ (fun a b hab ↦ by
      rw [PathLink.range, hab.start, hab.stop]
      exact ⟨mul_le_mul_iff_left₀ hf, mul_le_mul_iff_left₀ hf⟩)
    (hl.paths p).links (pathLinkAt_eq_ok.mp hk)
  rw [Layout.isHeld, hl.wrapTime hf]
  exact map_eq_ok.mpr ⟨k', pathLinkAt_eq_ok.mpr hk', hpaced.isHeld⟩

theorem placement (j : ℕ) (t : α) : l'.placement j (t * f) = l.placement j t := by
  have hsize : l'.tracks.size = l.tracks.size := by
    rw [hl.tracks]
    exact Array.size_map
  have htrack : l'.track j = (l.track j).stretch f := by
    rw [track, track, hsize, Numbered.getD, hl.tracks, Numbered.get?_map, Numbered.getD]
    cases l.tracks.get? j <;> rfl
  rw [Layout.placement, hl.wrapTime hf, htrack, Track.placement_stretch hf, Layout.placement]

variable [Numeral α] {d : Declarations α} {T S : Set α} (ht : Times d l.group f T S)
  (h : IsBuilt d l) (h' : IsBuilt (d.stretch f) l')
  (hperms : ∀ s ∈ d.symmetries, s.jugglers.Rearranges ∧ s.paths.Rearranges)
include ht h h' hperms

theorem handLinks {j : ℕ} (hj : 1 ≤ j ∧ j ≤ d.jugglers) {hand : Hand}
    (hfree : ∀ m ∈ Moment.ofHand l.timeline.moments j hand, m.event.determinesVelocity = false) :
    List.Forall₂ (fun k k' ↦ k'.start = k.start.stretch f ∧ k'.stop = k.stop.stretch f ∧
      l'.curveOf? k' = (l.curveOf? k).map (·.stretch f)) (l.handLinks j hand)
      (l'.handLinks j hand) := by
  obtain ⟨stops, chains, hstops, hchains, hnumbers⟩ := h.hand_ok hj hand
  obtain ⟨stops', chains', hstops', hchains', hnumbers'⟩ := h'.hand_ok hj hand
  have hg := h.isGroupOf hperms
  have hmoments : l'.timeline.moments = l.timeline.moments.map (·.stretch f) :=
    congrArg Timeline.moments hl.timeline
  have hlinks : (steps stops').map (HandLink.between j hand) =
      ((steps stops).map (HandLink.between j hand)).map (·.stretch f) := by
    have hbuild := HandLink.build_stretch hl.paths hstops.build_eq
    rw [← hmoments] at hbuild
    exact Except.ok.inj (hstops'.build_eq.symm.trans hbuild)
  have htimes : ∀ k ∈ (steps stops).map (HandLink.between j hand),
      k.start.time ∈ T ∧ k.stop.time ∈ T := by
    intro k hk
    obtain ⟨hstart, hstop⟩ := List.of_mem_zip (hstops.step_of_link hk)
    exact ⟨ht.moment hg h.timeline _ (List.mem_of_mem_filter hstart),
      ht.moment hg h.timeline _ (List.mem_of_mem_filter (List.mem_of_mem_tail hstop))⟩
  have hcurves : HandCurve.Paced f ⟨globalPlace l.tracks, l.paths, l.loop⟩
      ⟨globalPlace l'.tracks, l'.paths, l'.loop⟩ :=
    ⟨fun e ↦ by rw [hl.tracks]; exact globalPlace_stretch hf l.tracks e, hl.paths, hl.loop⟩
  have hany : (Moment.ofHand l.timeline.moments j hand).any (·.event.determinesVelocity) = false :=
    List.any_eq_false.mpr fun m hm ↦ by simp [hfree m hm]
  have hfreed : HandCurve.chains ⟨globalPlace l'.tracks, l'.paths, l'.loop⟩
      l'.timeline.moments j hand
      ((steps stops').map (HandLink.between j hand)) = .ok (chains.map (·.stretch f)) := by
    unfold HandCurve.chains at hchains ⊢
    rw [hmoments, HandCurve.determines_stretch, hany, hlinks]
    rw [hany] at hchains
    exact hcurves.free ht.images (show l.loop.low ∈ T from h.low ▸ ht.zero)
      (fun t htime ↦ by
        rw [HandCurve.period, h.low, h.high, sub_zero]
        exact ht.later t htime) htimes hchains
  obtain rfl := Except.ok.inj (hchains'.symm.trans hfreed)
  have hpairs : (chains.map (·.stretch f)).flatMap (fun c ↦ c.links.map (c, ·)) =
      (chains.flatMap fun c ↦ c.links.map (c, ·)).map
        (Prod.map (·.stretch f) (·.stretch f)) := by
    simp only [List.flatMap_map, List.map_flatMap, Chain.stretch, List.map_map]
    rfl
  rw [Numbers, hpairs] at hnumbers'
  refine forall₂_of_common (fun k q k' hk hk' ↦ ?_) hnumbers hnumbers'
  obtain ⟨heq, hcurve⟩ := hk
  obtain ⟨heq', hcurve'⟩ := hk'
  refine ⟨?_, ?_, ?_⟩
  · rw [heq', heq]
    rfl
  · rw [heq', heq]
    rfl
  · rw [curveOf?, curveOf?, hcurve, hcurve']
    rfl

theorem handPlace {j : ℕ} (hj : 1 ≤ j ∧ j ≤ d.jugglers) {hand : Hand}
    (hfree : ∀ m ∈ Moment.ofHand l.timeline.moments j hand, m.event.determinesVelocity = false)
    {t : α} {c : Coordinate α} (hok : l.handPlace j hand t = .ok c) :
    l'.handPlace j hand (t * f) = .ok c := by
  obtain ⟨s, hs, rfl⟩ := map_eq_ok.mp hok
  unfold handCurveAt at hs
  cases hk : linkAt? handRange (l.wrapTime t) (l.handLinks j hand) with
  | none =>
    rw [hk] at hs
    cases hs
  | some k =>
    rw [hk, Option.bind_some] at hs
    have hlinks := hl.handLinks hf ht h h' hperms hj hfree
    obtain ⟨k', hk', -, -, hcurve⟩ : ∃ k', linkAt? handRange (l.wrapTime t * f)
        (l'.handLinks j hand) = some k' ∧ _ := linkAt?_of_forall₂ (fun a b hab ↦ by
          rw [handRange, hab.1, hab.2.1]
          exact ⟨mul_le_mul_iff_left₀ hf, mul_le_mul_iff_left₀ hf⟩) hlinks hk
    cases hc : l.curveOf? k with
    | none =>
      rw [hc] at hs
      cases hs
    | some c =>
      rw [hc] at hs hcurve
      obtain rfl := Except.ok.inj hs
      rw [Layout.handPlace, hl.wrapTime hf]
      refine map_eq_ok.mpr ⟨c.stretch f, ?_, Spline.position_stretch hf c _⟩
      rw [handCurveAt, hk', Option.bind_some, hcurve]
      rfl

end IsStretch

end Layout

end Juggling
