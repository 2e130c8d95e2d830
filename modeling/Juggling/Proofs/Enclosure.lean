import Juggling.Proofs.Bodies
import Juggling.Proofs.Queries

namespace Juggling

variable {α : Type} [Exact α]

theorem Linked.exists_high {β : Type} {range : β → Window α} {a b : α} {xs : List β}
    (h : Linked range a xs b) (hne : xs ≠ []) : ∃ k ∈ xs, (range k).high = b :=
  ⟨xs.getLast hne, List.getLast_mem hne, h.high_getLast? (List.getLast?_eq_some_getLast hne)⟩

namespace Layout

section Places

variable (l : Layout α)

/-- Whether a hand is at a place at a time by one of its links. -/
def HandAt (j : ℕ) (hand : Hand) (t : α) (c : Coordinate α) : Prop :=
  ∃ k ∈ l.handLinks j hand, t ∈ (handRange k).times ∧
    ∃ s, l.curveOf? k = some s ∧ s.position t = c

/-- Whether a prop is at a place at a time by one of its links. -/
def PropAt (p : ℕ) (t : α) (c : Coordinate α) : Prop :=
  ∃ k ∈ l.pathLinks p, t ∈ k.range.times ∧ match k.passage with
    | .thrown _ _ f => f.position t = c
    | .held j hand => l.HandAt j hand t c

variable {l} {j p : ℕ} {hand : Hand} {c : Coordinate α}

theorem exists_handAt {w : Window α} (hc : c ∈ l.handPlaces j hand w) :
    ∃ t ∈ w.times, l.HandAt j hand t c := by
  obtain ⟨k, hk, v, hv, s, hs, t, ht, rfl⟩ := hc
  obtain ⟨hwindow, hrange⟩ := times_of_overlap? hv
  exact ⟨t, hwindow ht, k, hk, hrange ht, s, hs, rfl⟩

theorem exists_propAt (hc : c ∈ l.pathPlaces p) : ∃ t ∈ l.loop.times, l.PropAt p t c := by
  obtain ⟨k, hk, v, hv, hc⟩ := hc
  obtain ⟨hloop, hrange⟩ := times_of_overlap? hv
  cases hpassage : k.passage with
  | thrown kind modifier f =>
    rw [hpassage] at hc
    obtain ⟨t, ht, rfl⟩ := hc
    exact ⟨t, hloop ht, k, hk, hrange ht, by rw [hpassage]⟩
  | held j hand =>
    rw [hpassage] at hc
    obtain ⟨t, ht, hat⟩ := exists_handAt hc
    exact ⟨t, hloop ht, k, hk, hrange ht, by rwa [hpassage]⟩

end Places

variable [Numeral α] {d : Declarations α} {l : Layout α} {j p : ℕ} {hand : Hand}

namespace Filled

variable (f : l.Filled d.jugglers d.paths) (h : IsBuilt d l)
  (hperms : ∀ s ∈ d.symmetries, s.jugglers.Rearranges ∧ s.paths.Rearranges)
include f h hperms

/-- A prop is in the hands of someone, or on its way there, up to the end of the loop. -/
theorem exists_pathLink_beyond (hp : 1 ≤ p ∧ p ≤ d.paths) (hne : l.pathLinks p ≠ []) :
    ∃ k ∈ l.pathLinks p, l.loop.high ≤ k.stop.time := by
  obtain ⟨a, b, hlinked, hbounds⟩ := h.linked_path hperms hp
  obtain ⟨k, hk, hhigh⟩ := hlinked.exists_high hne
  obtain ⟨m, hm, -, hle, t, ht, hpath⟩ := f.touched_high h hperms hp
  have htouch := (hbounds ⟨m, t⟩ (Touch.mem_ofPath.mpr ⟨hm, ht, hpath⟩)).2
  exact ⟨k, hk, (h.high ▸ hle.trans htouch).trans_eq hhigh.symm⟩

/-- A hand that some event gives a velocity is active after the loop has started. -/
theorem exists_after_start {m : Moment α} (hm : m ∈ l.timeline.moments)
    (hdetermines : m.event.determinesVelocity = true) :
    ∃ n ∈ l.timeline.moments, Generated.SameHand n.toGenerated m.toGenerated ∧ 0 < n.time := by
  have hpos := (h.isGroupOf hperms).period_pos
  obtain ⟨q, hlow, hhigh⟩ := exists_period hpos m.time
  obtain ⟨n, hn, -, -, hevent⟩ := f.exists_within h hperms hm
    ((neg_nonpos.mpr timeTolerance_pos.le).trans hlow) hhigh
  have htime : n.time = m.time + q * l.group.period := Moment.time_of_later hevent
  have hhand : Generated.SameHand n.toGenerated m.toGenerated := by
    constructor <;> simp [hevent]
  rcases hlow.lt_or_eq with hlt | heq
  · exact ⟨n, hn, hhand, hlt.trans_eq htime.symm⟩
  · -- What happens just when the loop starts happens again at its end.
    obtain ⟨t, ht, -⟩ := List.any_eq_true.mp hdetermines
    obtain ⟨o, ho, hlater⟩ := f.exists_at_period h hperms hn (htime.trans heq.symm)
      (Moment.touches_of_later hevent ⟨t, ht, rfl⟩)
    refine ⟨o, ho, ?_, ?_⟩
    · constructor <;> simp [hlater, hevent]
    · have := Moment.time_of_later hlater
      rw [htime, ← heq, zero_add, Int.cast_one, one_mul] at this
      exact hpos.trans_eq this.symm

/-- A hand that is known to be somewhere when the loop starts goes on from there. -/
theorem exists_handLink_beyond (hj : 1 ≤ j ∧ j ≤ d.jugglers) {t : α} {c : Coordinate α}
    (hc : l.handPlaceWithin j hand t = .ok c) (ht : t ≤ l.loop.low) :
    ∃ k ∈ l.handLinks j hand, l.loop.low < k.stop.time := by
  obtain ⟨s, hs, -⟩ := map_eq_ok.mp hc
  obtain ⟨k, hk, -⟩ := handCurveAt_eq_ok.mp hs
  obtain ⟨hmem, hrange⟩ := linkAt?_eq_some hk
  obtain ⟨-, m, hm, hstart⟩ := (h.linked_handLinks hperms hj hand).2 k hmem
  have hle : m.time ≤ l.loop.low := hstart.trans_le (hrange.1.trans ht)
  obtain ⟨n, hn, hlt⟩ : ∃ n ∈ Moment.ofHand l.timeline.moments j hand, l.loop.low < n.time := by
    obtain ⟨_, _, stops, -, hstops, hreach⟩ := h.covered hperms hj hand
    rcases hreach with ⟨hany, -⟩ | ⟨-, x, hx, -, -, -, -, -, -, -, hstraddles, -⟩
    · obtain ⟨o, ho, hdetermines⟩ := List.any_eq_true.mp hany
      obtain ⟨hmem, hj, hhand⟩ := mem_ofHand.mp ho
      obtain ⟨n, hn, hsame, hpos⟩ := f.exists_after_start h hperms hmem hdetermines
      exact ⟨n, mem_ofHand.mpr ⟨hn, hsame.1.trans hj, hsame.2.trans hhand⟩, h.low.trans_lt hpos⟩
    · simp only [HandCurve.straddles, Bool.and_eq_true, decide_eq_true_eq] at hstraddles
      exact ⟨x.stop, (mem_steps (hstops.step_of_link hx)).2,
        (le_add_of_nonneg_right timeTolerance_pos.le).trans_lt hstraddles.2⟩
  obtain ⟨k', hk', hstop⟩ := h.exists_handLink_to hperms hj hm hn (hle.trans_lt hlt)
  exact ⟨k', hk', hlt.trans_eq hstop.symm⟩

end Filled

namespace IsBuilt

variable (h : IsBuilt d l)
  (hperms : ∀ s ∈ d.symmetries, s.jugglers.Rearranges ∧ s.paths.Rearranges)
  (hcurves : ∀ s, l.HasCurve s → ∀ x ∈ s.first :: s.rest, x.Sharp ∧ x.Rooted)
include h hperms hcurves

variable {e : Extreme}

/-- The box around a path contains the places of its prop and touches some of them, from every
side. -/
theorem path_enclosed (hp : 1 ≤ p ∧ p ≤ d.paths) {r : Option (Coordinate α)}
    (hr : l.pathExtreme e p = .ok r) :
    (∀ t c, l.pathPlace p t = .ok c →
      SymmetryGroup.Separated l.group.period d.symmetries ∨
        (∃ k ∈ l.pathLinks p, l.wrapTime t < k.stop.time) →
      ∃ b, r = some b ∧ e.Within b c) ∧
    ∀ b, r = some b → ∀ i, ∃ t ∈ l.loop.times, ∃ c, l.PropAt p t c ∧ c.along i = b.along i := by
  have hboxes := h.pathExtreme_boxes hperms hcurves hp hr
  refine ⟨fun t c hc hon ↦ ?_, fun b hb i ↦ ?_⟩
  · refine hboxes.exists_within (h.mem_pathPlaces hperms hp hc (hon.elim (fun hs ↦ ?_) id))
    obtain ⟨f⟩ := h.filled hperms hs
    obtain ⟨k, hk, -⟩ := bind_eq_ok.mp hc
    have hmem := (linkAt?_eq_some (pathLinkAt_eq_ok.mp hk)).1
    obtain ⟨k', hk', hle⟩ := f.exists_pathLink_beyond h hperms hp (List.ne_nil_of_mem hmem)
    exact ⟨k', hk', (h.wrapTime_mem hperms t).2.trans_le hle⟩
  · obtain ⟨c, hc, heq⟩ := hboxes.exists_along hb i
    obtain ⟨t, ht, hat⟩ := exists_propAt hc
    exact ⟨t, ht, c, hat, heq⟩

theorem hand_enclosed (hj : 1 ≤ j ∧ j ≤ d.jugglers) {r : Option (Coordinate α)}
    (hr : l.handExtreme e j hand = .ok r) :
    (∀ t c, l.handPlace j hand t = .ok c →
      SymmetryGroup.Separated l.group.period d.symmetries ∨ l.loop.low < l.wrapTime t ∨
        (∃ k ∈ l.handLinks j hand, l.wrapTime t < k.stop.time) →
      ∃ b, r = some b ∧ e.Within b c) ∧
    ∀ b, r = some b → ∀ i, ∃ t ∈ l.loop.times, ∃ c, l.HandAt j hand t c ∧
      c.along i = b.along i := by
  have hboxes := h.handExtremeOver_boxes hperms hcurves hj hr
  refine ⟨fun t c hc hon ↦ ?_, fun b hb i ↦ ?_⟩
  · obtain ⟨hlow, hhigh⟩ := h.wrapTime_mem hperms t
    refine hboxes.exists_within (h.mem_handPlaces hperms hj ⟨hlow, hhigh.le⟩ hhigh hc
      (hon.elim (fun hs ↦ ?_) id))
    obtain ⟨f⟩ := h.filled hperms hs
    rcases hlow.lt_or_eq with hlt | heq
    · exact .inl hlt
    · exact .inr (heq ▸ f.exists_handLink_beyond h hperms hj hc heq.ge)
  · obtain ⟨c, hc, heq⟩ := hboxes.exists_along hb i
    obtain ⟨t, ht, hat⟩ := exists_handAt hc
    exact ⟨t, ht, c, hat, heq⟩

/-- The box around a juggler contains his shoulders, waist and head, whichever way he faces. -/
theorem body_enclosed (hturns : ∀ t, (l.placement j t).Turns) (hj : 1 ≤ j ∧ j ≤ d.jugglers)
    {b : Coordinate α} (hb : l.bodyExtreme e j = .ok b) {t : α} {hands : Hands (Coordinate α)}
    {x : Pose α} (hx : Pose.solve j (l.placement j t) hands = .ok x) {c : Coordinate α}
    (hc : c ∈ x.landmarks) : e.Within (e.around b) c := by
  obtain ⟨hand, w, height, hmem, rfl⟩ := Pose.mem_landmarks hx hc
  exact Extreme.within_around (hturns t) (h.within_track hperms hcurves hj hb t) hand hmem

end IsBuilt

end Layout

namespace Pattern

variable [Numeral α] {p q : Pattern α} {l : Layout α}

/-- The boxes around props, hands and bodies contain all places that those are asked for, and are
no larger than needed. Only where distinct image times of one event crowd may a prop or a hand that
no link leads on be missing from its box. -/
theorem boxes_bound (hperms : ∀ s ∈ p.symmetries, s.jugglers.Rearranges ∧ s.paths.Rearranges)
    (hok : p.layOut = (q, .ok ())) (hl : q.layout = some l) (hgenuine : l.Genuine)
    (hsharp : ∀ s, l.HasCurve s → ∀ x ∈ s.first :: s.rest, x.Sharp) (e : Extreme) :
    (∀ path r, q.pathExtreme e path = .ok r →
      (∀ t c, q.pathPlace path t = .ok c →
        SymmetryGroup.Separated l.group.period p.symmetries ∨
          (∃ k ∈ l.pathLinks path, l.wrapTime t < k.stop.time) →
        ∃ b, r = some b ∧ e.Within b c) ∧
      ∀ b, r = some b → ∀ i, ∃ t ∈ l.loop.times, ∃ c, l.PropAt path t c ∧ c.along i = b.along i) ∧
    (∀ j hand r, q.handExtreme e j hand = .ok r →
      (∀ t c, q.handPlace j hand t = .ok c →
        SymmetryGroup.Separated l.group.period p.symmetries ∨ l.loop.low < l.wrapTime t ∨
          (∃ k ∈ l.handLinks j hand, l.wrapTime t < k.stop.time) →
        ∃ b, r = some b ∧ e.Within b c) ∧
      ∀ b, r = some b → ∀ i, ∃ t ∈ l.loop.times, ∃ c, l.HandAt j hand t c ∧
        c.along i = b.along i) ∧
    ∀ j b, q.bodyExtreme e j = .ok b → ∀ t x, q.pose j t = .ok x →
      ∀ c ∈ x.landmarks, e.Within b c := by
  obtain ⟨l', h, rfl⟩ := layOut_ok hok
  obtain rfl := Option.some.inj hl
  have hlaid : ({ p with events := l'.masters, layout := some l', state := .clean } :
      Pattern α).laidOut = .ok l' := rfl
  have hcurves : ∀ s, l'.HasCurve s → ∀ x ∈ s.first :: s.rest, x.Sharp ∧ x.Rooted :=
    fun s hs x hx ↦ ⟨hsharp s hs x hx, hgenuine.rooted s hs x hx⟩
  refine ⟨fun path r hr ↦ ?_, fun j hand r hr ↦ ?_, fun j b hb t x hx c hc ↦ ?_⟩
  · have hp := mem_of_askPath hr
    obtain ⟨hwithin, htight⟩ :=
      h.path_enclosed hperms hcurves hp ((askPath_eq_ok hlaid hp).mp hr)
    exact ⟨fun t c hc ↦ hwithin t c ((askPath_eq_ok hlaid hp).mp hc), htight⟩
  · have hj := mem_of_askJuggler hr
    obtain ⟨hwithin, htight⟩ :=
      h.hand_enclosed hperms hcurves hj ((askJuggler_eq_ok hlaid hj).mp hr)
    exact ⟨fun t c hc ↦ hwithin t c ((askJuggler_eq_ok hlaid hj).mp hc), htight⟩
  · have hj := mem_of_askJuggler hx
    obtain ⟨corner, hcorner, hb⟩ := map_eq_ok.mp ((askJuggler_eq_ok hlaid hj).mp hb)
    obtain ⟨left, -, hx⟩ := bind_eq_ok.mp ((askJuggler_eq_ok hlaid hj).mp hx)
    obtain ⟨right, -, hx⟩ := bind_eq_ok.mp hx
    obtain rfl : e.around corner = b := by cases e <;> exact hb
    exact h.body_enclosed hperms hcurves (hgenuine.turns j) hj hcorner hx hc

/-- The exchange is laid out, and the box around its prop contains the place of the prop half-way
through its flight. -/
theorem boxes_bound_swing : ∃ q l, Timeline.swingPattern.layOut = (q, .ok ()) ∧
    q.layout = some l ∧ l.Genuine ∧
    (∀ s, l.HasCurve s → ∀ x ∈ s.first :: s.rest, x.Sharp) ∧
    SymmetryGroup.Separated l.group.period Timeline.swingPattern.symmetries ∧
    ∃ b c, q.pathExtreme .highest 1 = .ok (some b) ∧ q.pathPlace 1 (1 / 8) = .ok c ∧
      Extreme.highest.Within b c := by
  have hchecks : (Layout.ofTimeline Timeline.swing Timeline.exchangeGroup
      ⟨0, Timeline.exchangeGroup.period⟩ Timeline.swingTimeline).toOption.map (fun l ↦
        (l.curves.toList.all fun s ↦ (s.first :: s.rest).all fun x ↦ x.Sharp ∧ x.Rooted,
          (l.pathExtreme .highest 1).toOption, (l.pathPlace 1 (1 / 8)).toOption)) =
      some (true, some (some ⟨30, 30, 4441 / 40⟩), some ⟨-10, 30, 3543 / 32⟩) := by
    decide +kernel
  obtain ⟨l, hl, hchecks⟩ := Option.map_eq_some_iff.mp hchecks
  simp only [Prod.mk.injEq, toOption_eq_some, List.all_eq_true, decide_eq_true_eq,
    Array.mem_toList_iff] at hchecks
  obtain ⟨hcurves, hextreme, hplace⟩ := hchecks
  obtain ⟨hbuild, hgroup, -⟩ := Layout.build_of_timeline Timeline.validate_swing
    Timeline.ofSymmetries_exchange Timeline.build_swing (toOption_eq_some.mp hl)
  have h := Layout.build_ok hbuild
  have hstands (j : ℕ) : l.track j = .standing (.default j 1) := h.track_of_nil rfl j
  have hall : ∀ s, l.HasCurve s → ∀ x ∈ s.first :: s.rest, x.Sharp ∧ x.Rooted := by
    intro s hs
    cases hs with
    | hand hs => exact hcurves s hs
    | way hs => cases (hstands _).symm.trans hs
  have hgenuine : l.Genuine := by
    refine ⟨fun s hs x hx ↦ (hall s hs x hx).2, fun j t ↦ ?_⟩
    rw [Layout.placement, hstands]
    show |Scalar.cos (Scalar.radians (0 : ℚ))| ≤ 1 ∧ |Scalar.sin (Scalar.radians (0 : ℚ))| ≤ 1
    constructor <;> decide +kernel
  obtain ⟨q, hok, hl, hpaths, hlaid⟩ : ∃ q : Pattern ℚ, Timeline.swingPattern.layOut = (q, .ok ()) ∧
      q.layout = some l ∧ q.paths = 1 ∧ q.laidOut = .ok l :=
    ⟨_, layOut_of_isBuilt rfl h, rfl, rfl, rfl⟩
  have hsharp : ∀ s, l.HasCurve s → ∀ x ∈ s.first :: s.rest, x.Sharp :=
    fun s hs x hx ↦ (hall s hs x hx).1
  have hseparated : SymmetryGroup.Separated l.group.period Timeline.swingPattern.symmetries :=
    hgroup ▸ Timeline.spaced_exchange.separated
  have hp : 1 ≤ 1 ∧ 1 ≤ q.paths := ⟨le_rfl, hpaths.ge⟩
  have hextreme' : q.pathExtreme .highest 1 = .ok (some ⟨30, 30, 4441 / 40⟩) :=
    (askPath_eq_ok hlaid hp).mpr hextreme
  have hplace' : q.pathPlace 1 (1 / 8) = .ok ⟨-10, 30, 3543 / 32⟩ :=
    (askPath_eq_ok hlaid hp).mpr hplace
  obtain ⟨b, hb, hwithin⟩ := ((boxes_bound Timeline.rearranges_exchange hok hl hgenuine hsharp
    .highest).1 1 _ hextreme').1 _ _ hplace' (.inl hseparated)
  exact ⟨q, l, hok, hl, hgenuine, hsharp, hseparated, b, _, hb ▸ hextreme', hplace', hwithin⟩

end Pattern

end Juggling
