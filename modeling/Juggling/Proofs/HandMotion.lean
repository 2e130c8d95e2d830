import Juggling.Proofs.Queries
import Juggling.Proofs.Seams

namespace Juggling

variable {α : Type} [Exact α]

namespace Layout

/-- Links at times near another one reach to that. -/
theorem exists_near {β : Type} (range : β → Window α) (xs : List β) (t : α) : ∃ δ > 0, ∀ s,
    |s - t| < δ → ∀ k, linkAt? range s xs = some k → (range k).low ≤ t ∧ t ≤ (range k).high := by
  obtain ⟨δ, hδ, hgap⟩ := exists_gap (xs.flatMap fun k ↦ [(range k).low, (range k).high]) t
  refine ⟨δ, hδ, fun s hs k hk ↦ ?_⟩
  obtain ⟨hmem, hlow, hhigh⟩ := linkAt?_eq_some hk
  have hend {u : α} (hu : u = (range k).low ∨ u = (range k).high) (hne : u ≠ t) : δ ≤ |u - t| :=
    hgap u (List.mem_flatMap.mpr ⟨k, hmem, by simpa using hu⟩) hne
  obtain ⟨hleft, hright⟩ := abs_lt.mp hs
  constructor
  · by_contra! hlt
    have := hend (.inl rfl) hlt.ne'
    rw [abs_of_pos (sub_pos.mpr hlt)] at this
    linarith
  · by_contra! hlt
    have := hend (.inr rfl) hlt.ne
    rw [abs_of_neg (sub_neg.mpr hlt)] at this
    linarith

variable {l : Layout α} {j : ℕ} {hand : Hand} {t : α}

theorem handCurveAt_eq_ok {s : Spline α} : l.handCurveAt j hand t = .ok s ↔
    ∃ k, linkAt? handRange t (l.handLinks j hand) = some k ∧ l.curveOf? k = some s := by
  unfold handCurveAt
  split
  · rename_i s' hs
    rw [Except.ok.injEq, ← Option.some.injEq, ← hs, Option.bind_eq_some_iff]
  · rename_i hnone
    simp only [reduceCtorEq, false_iff]
    rintro ⟨k, hk, hcurve⟩
    cases hnone.symm.trans (Option.bind_eq_some_iff.mpr ⟨k, hk, hcurve⟩)

/-- How a hand moves: its place and velocity at each time, where they are known. -/
def handMotion (l : Layout α) (j : ℕ) (hand : Hand) (t : α) (c w : Coordinate α) : Prop :=
  ∃ s, l.handCurveAt j hand t = .ok s ∧ c = s.position t ∧ w = s.velocity t

def handVelocity (l : Layout α) (j : ℕ) (hand : Hand) (t : α) :
    Except (InternalError α) (Coordinate α) :=
  (l.handCurveAt j hand (l.wrapTime t)).map (·.velocity (l.wrapTime t))

/-- A hand moves steadily where all curves of links that reach there do. -/
theorem Joins.steady_of {Q : α → α → Spline α → Prop} (hx : l.Joins j hand Q) {c w : Coordinate α}
    {R : α → Prop}
    (hall : ∀ k ∈ l.handLinks j hand, ∀ s, l.curveOf? k = some s →
      k.start.time ≤ t ∧ t ≤ k.stop.time → (∃ u, R u ∧ k.start.time ≤ u) →
      s.position t = c ∧ s.velocity t = w) :
    Steady (fun u x y ↦ R u ∧ l.handMotion j hand u x y) t c w := by
  -- Near `t` only links that reach to it count, and each of them follows one curve.
  obtain ⟨δ, hδ, hnear⟩ := exists_near handRange (l.handLinks j hand) t
  have hlinks : Steady (fun u x y ↦ ∃ k ∈ l.handLinks j hand,
      (k.start.time ≤ t ∧ t ≤ k.stop.time) ∧ (R u ∧ k.start.time ≤ u) ∧
        ∃ s, l.curveOf? k = some s ∧ x = s.position u ∧ y = s.velocity u) t c w := by
    refine Steady.of_mem fun k hk ↦ ?_
    by_cases hreach : ∃ s u, l.curveOf? k = some s ∧ (k.start.time ≤ t ∧ t ≤ k.stop.time) ∧
        R u ∧ k.start.time ≤ u
    · obtain ⟨s, u, hs, hle, hR⟩ := hreach
      obtain ⟨hplace, hvelocity⟩ := hall k hk s hs hle ⟨u, hR⟩
      obtain ⟨a, b, -, -, hab⟩ := hx.carried k hk s hs
      obtain ⟨_, _, hstrand⟩ := hx.strand _ _ _ hab
      have hsteady := hstrand.spec.2.2.2 t
      rw [hplace, hvelocity] at hsteady
      refine hsteady.mono one_pos fun u _ x y ⟨_, _, s', hs', hxy⟩ ↦ ?_
      obtain rfl := Option.some.inj (hs.symm.trans hs')
      exact hxy
    · exact ⟨0, 1, one_pos, fun u _ x y ⟨hle, hR, s, hs, _⟩ ↦
        absurd ⟨s, u, hs, hle, hR⟩ hreach⟩
  refine hlinks.mono hδ fun u hu x y ⟨hR, s, hs, hxy⟩ ↦ ?_
  obtain ⟨k, hk, hcurve⟩ := handCurveAt_eq_ok.mp hs
  obtain ⟨hmem, hlow, -⟩ := linkAt?_eq_some hk
  exact ⟨k, hmem, hnear u hu k hk, ⟨hR, hlow⟩, s, hcurve, hxy⟩

variable [Numeral α] {d : Declarations α}

namespace IsBuilt

variable (h : IsBuilt d l)
  (hperms : ∀ s ∈ d.symmetries, s.jugglers.Rearranges ∧ s.paths.Rearranges)

include h hperms

theorem linked_handLinks (hj : 1 ≤ j ∧ j ≤ d.jugglers) (hand : Hand) :
    (∃ a b, Linked handRange a (l.handLinks j hand) b) ∧ ∀ k ∈ l.handLinks j hand,
      k.start.time < k.stop.time ∧
      ∃ m ∈ Moment.ofHand l.timeline.moments j hand, m.time = k.start.time := by
  obtain ⟨stops, chains, hstops, hchains, hnumbers⟩ := h.hand_ok hj hand
  obtain ⟨a, b, hlinked⟩ := h.linked_hand hperms hstops
  obtain ⟨-, -, -, -, hlinks, -⟩ :=
    HandCurve.chains_ok (HandLink.fresh_between stops).joined hchains
  have hranges := hnumbers.handRange
  rw [← hlinks] at hranges
  refine ⟨⟨a, b, hlinked.congr hranges⟩, fun k hk ↦ ?_⟩
  obtain ⟨k', hk', hrange⟩ := exists_of_forall₂ hranges.flip hk
  obtain ⟨hstart, hstop⟩ := Window.mk.inj hrange
  have hstep := hstops.step_of_link hk'
  rw [hstart, hstop]
  exact ⟨steps_of_pairwise (R := fun m n ↦ m.time < n.time) (h.strict_ofHand hperms j hand) hstep,
    _, (mem_steps hstep).1, rfl⟩

end IsBuilt

namespace Joins

variable {Q : α → α → Spline α → Prop} (hx : l.Joins j hand Q) (h : IsBuilt d l)
  (hperms : ∀ s ∈ d.symmetries, s.jugglers.Rearranges ∧ s.paths.Rearranges)
  (hj : 1 ≤ j ∧ j ≤ d.jugglers)

include hx h hperms hj

theorem agree {k k' : HandLink α} {s s' : Spline α} (hk : k ∈ l.handLinks j hand)
    (hk' : k' ∈ l.handLinks j hand) (hs : l.curveOf? k = some s) (hs' : l.curveOf? k' = some s')
    (hle : k.start.time ≤ t ∧ t ≤ k.stop.time) (hle' : k'.start.time ≤ t ∧ t ≤ k'.stop.time) :
    s.position t = s'.position t ∧ s.velocity t = s'.velocity t := by
  obtain ⟨⟨_, _, hlinked⟩, hspec⟩ := h.linked_handLinks hperms hj hand
  -- If one link ends where the other starts, there is a moment there.
  have key {k k' : HandLink α} {s s' : Spline α} (hk : k ∈ l.handLinks j hand)
      (hk' : k' ∈ l.handLinks j hand) (hs : l.curveOf? k = some s)
      (hs' : l.curveOf? k' = some s') (hstop : t ≤ k.stop.time) (hstart : k'.start.time ≤ t)
      (hle : k.stop.time ≤ k'.start.time) :
      s.position t = s'.position t ∧ s.velocity t = s'.velocity t := by
    obtain ⟨hlt, -⟩ := hspec k hk
    obtain ⟨hlt', m, hm, hmtime⟩ := hspec k' hk'
    obtain rfl : m.time = t := by linarith
    obtain ⟨a, b, ha, hb, hab⟩ := hx.carried k hk s hs
    obtain ⟨a', b', ha', hb', hab'⟩ := hx.carried k' hk' s' hs'
    obtain ⟨_, _, hstrand⟩ := hx.strand _ _ _ hab
    obtain ⟨_, _, hstrand'⟩ := hx.strand _ _ _ hab'
    refine ⟨?_, hx.meet _ _ _ _ _ _ _ hab hab' (by linarith) (by linarith) (by linarith)
      (by linarith)⟩
    rw [hstrand.spec.1 m hm (by linarith) (by linarith),
      hstrand'.spec.1 m hm (by linarith) (by linarith)]
  rcases hlinked.disjoint hk hk' with rfl | hend | hend
  · obtain rfl := Option.some.inj (hs.symm.trans hs')
    exact ⟨rfl, rfl⟩
  · exact key hk hk' hs hs' hle.2 hle'.1 hend
  · obtain ⟨hplace, hvelocity⟩ := key hk' hk hs' hs hle'.2 hle.1 hend
    exact ⟨hplace.symm, hvelocity.symm⟩

/-- Within the loop a hand moves steadily. -/
theorem steady {s : Spline α} (hs : l.handCurveAt j hand t = .ok s) :
    Steady (l.handMotion j hand) t (s.position t) (s.velocity t) := by
  obtain ⟨k, hk, hcurve⟩ := handCurveAt_eq_ok.mp hs
  obtain ⟨hmem, hlow, hhigh⟩ := linkAt?_eq_some hk
  have hsteady := hx.steady_of (R := fun _ ↦ True) fun k' hk' s' hs' hle _ ↦
    hx.agree h hperms hj hk' hmem hs' hcurve hle ⟨hlow, hhigh⟩
  exact hsteady.mono one_pos fun _ _ _ _ hxy ↦ ⟨trivial, hxy⟩

/-- Towards the end of the loop a hand moves as it does from its start on. -/
theorem steady_end {s : Spline α} (hs : l.handCurveAt j hand 0 = .ok s)
    (hclear : l.Clear j hand) :
    Steady (fun u x y ↦ u < l.group.period ∧ l.handMotion j hand u x y) l.group.period
      (s.position 0) (s.velocity 0) := by
  have hpos := (h.isGroupOf hperms).period_pos
  obtain ⟨⟨_, y, hlinked⟩, hspec⟩ := h.linked_handLinks hperms hj hand
  obtain ⟨k, hk, hcurve⟩ := handCurveAt_eq_ok.mp hs
  obtain ⟨hmem, hlow, hhigh⟩ := linkAt?_eq_some hk
  refine hx.steady_of fun k' hk' s' hs' hle ⟨u, hu, hle'⟩ ↦ ?_
  have hlt : 0 < k.stop.time :=
    lt_of_linkAt? hlinked (hpos.trans_le (hle.2.trans (hlinked.of_mem hk').2.2)) hk
  obtain ⟨a, b, ha, hb, hab⟩ := hx.carried k hmem s hcurve
  obtain ⟨a', b', ha', hb', hab'⟩ := hx.carried k' hk' s' hs'
  exact hx.seam _ _ _ _ _ _ hab' hab (by linarith) (hle.2.trans hb') (ha.trans hlow)
    (hlt.trans_le hb) hclear

end Joins

namespace IsBuilt

variable (h : IsBuilt d l)
  (hperms : ∀ s ∈ d.symmetries, s.jugglers.Rearranges ∧ s.paths.Rearranges)

include h hperms

theorem exists_wrapTime (t : α) : ∃ q : ℤ, t = l.wrapTime t + q * l.group.period := by
  refine ⟨⌊t / l.group.period⌋, ?_⟩
  rw [wrapTime, period, h.low, h.high, Scalar.remainder_eq, sub_zero, sub_zero, zero_add,
    abs_of_pos (h.isGroupOf hperms).period_pos]
  ring

theorem wrapTime_eq {s : α} {q : ℤ} (hlow : 0 ≤ s) (hhigh : s < l.group.period)
    (ht : t = s + q * l.group.period) : l.wrapTime t = s := by
  obtain ⟨hlow', hhigh'⟩ := h.wrapTime_mem hperms t
  rw [h.low] at hlow'
  rw [h.high] at hhigh'
  obtain ⟨q', hwrap⟩ := h.exists_wrapTime hperms t
  exact (period_unique hlow' hhigh' hlow hhigh (hwrap.symm.trans ht)).2

theorem wrapTime_add {u : α} (hlow : 0 ≤ u + (l.wrapTime t - t))
    (hhigh : u + (l.wrapTime t - t) < l.group.period) :
    l.wrapTime u = u + (l.wrapTime t - t) := by
  obtain ⟨q, hq⟩ := h.exists_wrapTime hperms t
  refine h.wrapTime_eq hperms (q := q) hlow hhigh ?_
  linarith

theorem wrapTime_before {u : α} (hzero : l.wrapTime t = 0) (hlt : u < t)
    (hlow : t - l.group.period < u) : l.wrapTime u = u + (l.group.period - t) := by
  obtain ⟨q, hq⟩ := h.exists_wrapTime hperms t
  refine h.wrapTime_eq hperms (q := q - 1) (by linarith) (by linarith) ?_
  push_cast
  linarith

end IsBuilt

/-- At all times a hand moves steadily, if it does over the start of the loop. -/
theorem Joins.steady_wrapTime {Q : α → α → Spline α → Prop} (hx : l.Joins j hand Q)
    (h : IsBuilt d l) (hperms : ∀ s ∈ d.symmetries, s.jugglers.Rearranges ∧ s.paths.Rearranges)
    (hj : 1 ≤ j ∧ j ≤ d.jugglers) {s : Spline α}
    (hs : l.handCurveAt j hand (l.wrapTime t) = .ok s)
    (hclear : l.wrapTime t = l.loop.low → l.Clear j hand) :
    Steady (fun u ↦ l.handMotion j hand (l.wrapTime u)) t (s.position (l.wrapTime t))
      (s.velocity (l.wrapTime t)) := by
  have hpos := (h.isGroupOf hperms).period_pos
  obtain ⟨hlow, hhigh⟩ := h.wrapTime_mem hperms t
  rw [h.low] at hlow hclear
  rw [h.high] at hhigh
  -- At the start of the loop the hand comes from the end, and from then on it goes on.
  rcases hlow.lt_or_eq with hlt | hzero
  · refine ((hx.steady h hperms hj hs).shift (add_sub_cancel t _).symm).mono
      (lt_min hlt (sub_pos.mpr hhigh)) fun u hu x y hxy ↦ ?_
    obtain ⟨hnear, hnear'⟩ := lt_min_iff.mp hu
    rwa [h.wrapTime_add hperms (by linarith [(abs_lt.mp hnear).1])
      (by linarith [(abs_lt.mp hnear').2])] at hxy
  · refine .glue ?_ ?_
    · rw [← hzero] at hs ⊢
      refine ((hx.steady_end h hperms hj hs (hclear hzero.symm)).shift
        (add_sub_cancel t _).symm).mono hpos fun u hu x y ⟨hlt, hxy⟩ ↦ ?_
      rw [h.wrapTime_before hperms hzero.symm hlt (by linarith [(abs_lt.mp hu).1])] at hxy
      exact ⟨by linarith, hxy⟩
    · refine ((hx.steady h hperms hj hs).shift (add_sub_cancel t _).symm).mono hpos
        fun u hu x y ⟨hle, hxy⟩ ↦ ?_
      rwa [h.wrapTime_add hperms (by linarith) (by linarith [(abs_lt.mp hu).2])] at hxy

namespace Filled

variable (f : l.Filled d.jugglers d.paths) (h : IsBuilt d l)
  (hperms : ∀ s ∈ d.symmetries, s.jugglers.Rearranges ∧ s.paths.Rearranges)
  (hs : SymmetryGroup.Spaced l.group.period d.symmetries) (hj : 1 ≤ j ∧ j ≤ d.jugglers)

include f h hperms hs hj

/-- Within the loop a hand has the velocities that flights give it. -/
theorem handVelocity_of_resolved {m : Moment α}
    (hm : m ∈ Moment.ofHand l.timeline.moments j hand) (hlow : 0 ≤ m.time)
    (hhigh : m.time < l.group.period) {r : VelocityRef} {v : Coordinate α}
    (hr : VelocityRef.ofMoment l.paths m = .ok (some r)) (hv : r.resolve l.paths = .ok v) :
    l.handVelocity j hand m.time = .ok v := by
  have hdet := Resolved.determines ⟨r, hr⟩
  obtain ⟨hmem, hmj, hmh⟩ := mem_ofHand.mp hm
  obtain ⟨low, high, stops, hcovered, hstops, hreach⟩ := h.covered hperms hj hand
  have hreaches := (f.hand_reach h hperms hs hstops hreach).1
  have hstart : low ≤ m.time := by
    rcases hreach with ⟨-, hstart, -⟩ | ⟨hnone, -⟩
    · obtain ⟨n, hn, ⟨hnj, hnh⟩, hle, -⟩ := f.resolved_high h hperms
        (hs.timeTolerance_lt_period (h.isGroupOf hperms)) hmem hdet
      obtain ⟨k, hk, rfl, hsome⟩ := exists_link_from h hperms hstops hm
        (mem_ofHand.mpr ⟨hn, hnj.trans hmj, hnh.trans hmh⟩) (hhigh.trans_le hle) ⟨r, hr⟩
      exact hstart k hk hsome
    · exact absurd hdet (List.any_eq_false.mp hnone m hm)
  obtain ⟨k, hk, hlink, ⟨s, hcurve, -⟩, hkstart, hkstop⟩ :=
    hcovered.exists_link hstart (hhigh.trans_le hreaches)
  obtain ⟨Q, hx⟩ := f.exists_joins h hperms hs hj hand
  obtain ⟨a, b, ha, hb, hab⟩ := hx.carried k hk s hcurve
  have hwrap : l.wrapTime m.time = m.time := wrapTime_of_mem (h.low ▸ hlow) (h.high ▸ hhigh)
  have hok := handCurveAt_eq_ok.mpr ⟨k, hlink, hcurve⟩
  rw [handVelocity, hwrap, hok, ← hx.paced _ _ _ _ _ hab ⟨m, hm, rfl, r, hr, hv⟩
    (ha.trans hkstart) (hkstop.trans_le hb)]
  rfl

/-- At a throw a hand is as fast as the prop that it throws first. -/
theorem handVelocity_of_throw {m : Moment α} (hm : m ∈ Moment.ofHand l.timeline.moments j hand)
    (hlow : 0 ≤ m.time) (hhigh : m.time < l.group.period) {t : Transition}
    (ht : m.event.find? .throwing = some t) : ∃ k ∈ l.pathLinks t.path, ∃ x,
      k.start.moment = m ∧ k.flight? = some x ∧
        l.handVelocity j hand m.time = .ok x.startVelocity := by
  have hmem := (mem_ofHand.mp hm).1
  obtain ⟨r, hr⟩ := f.resolved_of_throw h hperms hmem ht hhigh
  rcases h.flight_of_velocity hperms hmem hr with ⟨t', ht', k, hk, x, hstart, hx, hv⟩ | ⟨hnone, -⟩
  · obtain rfl := Option.some.inj (ht.symm.trans ht')
    exact ⟨k, hk, x, hstart, hx,
      f.handVelocity_of_resolved h hperms hs hj hm hlow hhigh hr hv⟩
  · cases hnone.symm.trans ht

/-- At a soft catch a hand that throws nothing is as fast as the prop that it catches first. -/
theorem handVelocity_of_softCatch {m : Moment α}
    (hm : m ∈ Moment.ofHand l.timeline.moments j hand) (hlow : 0 ≤ m.time)
    (hhigh : m.time < l.group.period) (hclear : m.time ≤ timeTolerance → l.Clear j hand)
    {t : Transition} (hnone : m.event.find? .throwing = none)
    (ht : m.event.find? .softCatching = some t) : ∃ k ∈ l.pathLinks t.path, ∃ x,
      k.stop.moment = m ∧ k.flight? = some x ∧
        l.handVelocity j hand m.time = .ok x.endVelocity := by
  obtain ⟨hmem, hmj, hmh⟩ := mem_ofHand.mp hm
  have hresolved : l.Resolved m := by
    -- Within the tolerance of the start a catch is the last event that gives the hand a velocity.
    by_cases hlt : timeTolerance < m.time
    · exact f.resolved_of_softCatch h hperms hmem hnone ht hlt
    · have hdet : m.event.determinesVelocity = true := by
        refine List.any_eq_true.mpr ⟨t, List.mem_of_find?_eq_some ht, ?_⟩
        rw [show t.kind = .softCatching by simpa using List.find?_some ht]
        rfl
      have hle := not_lt.mp hlt
      have hzero := h.low ▸ hclear hle m hm hdet hle
      obtain ⟨n, hn, ⟨hnj, hnh⟩, hnzero, hn', hlast⟩ := f.resolved_low h hperms
        (hs.timeTolerance_lt_period (h.isGroupOf hperms)) hmem hdet
        (by rw [hmj, hmh]; exact hclear hle)
      have := hlast m hmem ⟨rfl, rfl⟩ hdet hzero
      rwa [h.moment_unique hperms hmem hn ⟨hnj.symm, hnh.symm⟩ (by linarith)]
  obtain ⟨r, hr⟩ := hresolved
  rcases h.flight_of_velocity hperms hmem hr with
    ⟨t', ht', -⟩ | ⟨-, t', ht', k, hk, x, hstop, hx, hv⟩
  · cases hnone.symm.trans ht'
  · obtain rfl := Option.some.inj (ht.symm.trans ht')
    exact ⟨k, hk, x, hstop, hx,
      f.handVelocity_of_resolved h hperms hs hj hm hlow hhigh hr hv⟩

end Filled

end Layout

namespace Pattern

variable {p q : Pattern α} {l : Layout α}

def handVelocity (p : Pattern α) (j : ℕ) (hand : Hand) (t : α) :
    Except (PatternError α) (Coordinate α) :=
  p.askJuggler j fun l ↦ l.handVelocity j hand t

variable [Numeral α]

/-- Wherever it is known where a hand is, its velocity is that at which its place changes, and
does not jump; at the start of the loop, if no event that gives the hand its velocity follows
within the tolerance. At throws the hand is as fast as the first prop that leaves it, and at soft
catches without a throw as the first prop that arrives. -/
theorem hands_smooth (hperms : ∀ s ∈ p.symmetries, s.jugglers.Rearranges ∧ s.paths.Rearranges)
    (hok : p.layOut = (q, .ok ())) (hl : q.layout = some l)
    (hs : SymmetryGroup.Spaced l.group.period p.symmetries) {j : ℕ} (hj : 1 ≤ j ∧ j ≤ q.jugglers)
    (hand : Hand) :
    (∀ t c, q.handPlace j hand t = .ok c → (l.wrapTime t = l.loop.low → l.Clear j hand) →
      ∃ w, q.handVelocity j hand t = .ok w ∧
        Departs (fun u x ↦ q.handPlace j hand u = .ok x) t c w ∧
        Tends (fun u x ↦ q.handVelocity j hand u = .ok x) t w) ∧
    ∀ m ∈ Moment.ofHand l.timeline.moments j hand, l.loop.low ≤ m.time → m.time < l.loop.high →
      (∀ t, m.event.find? .throwing = some t → ∃ k ∈ l.pathLinks t.path, ∃ x,
        k.start.moment = m ∧ k.flight? = some x ∧
          q.handVelocity j hand m.time = .ok x.startVelocity) ∧
      ((m.time ≤ timeTolerance → l.Clear j hand) → m.event.find? .throwing = none →
        ∀ t, m.event.find? .softCatching = some t → ∃ k ∈ l.pathLinks t.path, ∃ x,
          k.stop.moment = m ∧ k.flight? = some x ∧
            q.handVelocity j hand m.time = .ok x.endVelocity) := by
  obtain ⟨l', h, rfl⟩ := layOut_ok hok
  obtain rfl := Option.some.inj hl
  have hlaid : ({ p with events := l'.masters, layout := some l', state := .clean } :
      Pattern α).laidOut = .ok l' := rfl
  obtain ⟨f⟩ := h.filled hperms hs.separated
  obtain ⟨Q, hx⟩ := f.exists_joins h hperms hs hj hand
  simp only [handPlace, handVelocity, askJuggler_eq_ok hlaid hj]
  refine ⟨fun t c hc hclear ↦ ?_, fun m hm hlow hhigh ↦ ⟨fun t ht ↦ ?_, fun hclear hnone t ht ↦ ?_⟩⟩
  · obtain ⟨s, hs', rfl⟩ := map_eq_ok.mp hc
    have hsteady := hx.steady_wrapTime h hperms hj hs' hclear
    refine ⟨_, map_eq_ok.mpr ⟨s, hs', rfl⟩, ?_, ?_⟩
    · refine hsteady.departs.mono fun u x hx ↦ ?_
      obtain ⟨s', hs', rfl⟩ := map_eq_ok.mp hx
      exact ⟨_, s', hs', rfl, rfl⟩
    · refine hsteady.tends_velocity.mono one_pos fun u _ x hx ↦ ?_
      obtain ⟨s', hs', rfl⟩ := map_eq_ok.mp hx
      exact ⟨_, s', hs', rfl, rfl⟩
  · exact f.handVelocity_of_throw h hperms hs hj hm (h.low ▸ hlow) (h.high ▸ hhigh) ht
  · exact f.handVelocity_of_softCatch h hperms hs hj hm (h.low ▸ hlow) (h.high ▸ hhigh) hclear hnone
      ht

/-- The layout of the exchange reaches over its loop. -/
theorem laid_exchange : ∃ l, Layout.IsBuilt Timeline.exchange l ∧ Timeline.exchangePattern.layOut =
    ({ Timeline.exchangePattern with layout := some l, state := .clean }, .ok ()) ∧
      l.timeline = Timeline.exchangeTimeline ∧ l.loop.high = 1 ∧
      SymmetryGroup.Spaced l.group.period Timeline.exchangePattern.symmetries ∧
      (∀ m ∈ l.timeline.moments, m.time ≤ timeTolerance → m.time ≤ l.loop.low) ∧
      l.Reaches 1 1 := by
  obtain ⟨l, hbuild, hok, hgroup, htimeline⟩ := Timeline.layOut_exchange
  have h := Layout.build_ok hbuild
  have hspaced : SymmetryGroup.Spaced l.group.period Timeline.exchangePattern.symmetries :=
    hgroup ▸ Timeline.spaced_exchange
  have hclear : ∀ m ∈ l.timeline.moments, m.time ≤ timeTolerance → m.time ≤ 0 :=
    htimeline ▸ Timeline.clear_exchange
  exact ⟨l, h, hok, htimeline, h.high.trans (congrArg SymmetryGroup.period hgroup), hspaced,
    h.low ▸ hclear, h.reaches_of_spaced Timeline.rearranges_exchange hspaced (.inr hclear)⟩

/-- The right hand of the exchange moves smoothly all the time, and it throws as the loop
starts. -/
theorem hands_smooth_exchange :
    (∀ s ∈ Timeline.exchangePattern.symmetries, s.jugglers.Rearranges ∧ s.paths.Rearranges) ∧
    ∃ q l, Timeline.exchangePattern.layOut = (q, .ok ()) ∧ q.layout = some l ∧
      SymmetryGroup.Spaced l.group.period Timeline.exchangePattern.symmetries ∧ 1 ≤ q.jugglers ∧
      (∀ t, ∃ c w, q.handPlace 1 .right t = .ok c ∧ q.handVelocity 1 .right t = .ok w ∧
        Departs (fun u x ↦ q.handPlace 1 .right u = .ok x) t c w ∧
        Tends (fun u x ↦ q.handVelocity 1 .right u = .ok x) t w) ∧
      ∃ k ∈ l.pathLinks 1, ∃ x, k.start.time = 0 ∧ k.flight? = some x ∧
        q.handVelocity 1 .right 0 = .ok x.startVelocity := by
  have hperms := Timeline.rearranges_exchange
  obtain ⟨l, h, hok, htimeline, -, hspaced, hclear, hreaches⟩ := laid_exchange
  obtain ⟨hsmooth, hthrows⟩ := hands_smooth (p := Timeline.exchangePattern) hperms hok rfl hspaced
    ⟨le_rfl, le_rfl⟩ .right
  refine ⟨hperms, _, l, hok, rfl, hspaced, le_rfl, fun t ↦ ?_, ?_⟩
  · obtain ⟨c, hc⟩ := (h.answersAt_of_reaches hperms hreaches t).2 1 ⟨le_rfl, le_rfl⟩ .right
    have hplace : Pattern.handPlace { Timeline.exchangePattern with
        layout := some l, state := .clean } 1 .right t = .ok c :=
      (askJuggler_eq_ok (f := fun l ↦ l.handPlace 1 .right t) rfl ⟨le_rfl, le_rfl⟩).mpr hc
    obtain ⟨w, hw⟩ := hsmooth t c hplace fun _ m hm _ hle ↦
      hclear m (Layout.mem_ofHand.mp hm).1 hle
    exact ⟨c, w, hplace, hw⟩
  · have hm : ∃ m ∈ Moment.ofHand Timeline.exchangeTimeline.moments 1 .right, m.time = 0 ∧
        m.event.find? .throwing = some { kind := .throwing, path := 1 } := by
      decide +kernel
    rw [← htimeline] at hm
    obtain ⟨m, hm, hzero, hthrow⟩ := hm
    obtain ⟨k, hk, x, rfl, hx, hv⟩ := (hthrows m hm (by rw [h.low, hzero])
      (by rw [h.high, hzero]; exact (h.isGroupOf hperms).period_pos)).1 _ hthrow
    exact ⟨k, hk, x, hzero, hx, hzero ▸ hv⟩

end Pattern

end Juggling
