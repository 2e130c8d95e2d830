import Juggling.Proofs.HandMotion
import Juggling.Proofs.Landings

namespace Juggling

variable {α : Type} [Exact α]

/-- Answers for times near `t` are near `c` but for a slack in each direction. -/
def TendsWithin (answer : α → Coordinate α → Prop) (t : α) (c : Coordinate α) (slack : Axis → α) :
    Prop :=
  ∀ r > 0, ∃ δ > 0, ∀ s, |s - t| < δ → ∀ a, answer s a → ∀ i,
    |a.along i - c.along i| ≤ slack i + r

section Limits

variable {answer answer' : α → Coordinate α → Prop} {t : α} {a b c : Coordinate α}
  {slack : Axis → α}

theorem Tends.eq (h : Tends answer t c) (ha : answer t a) : a = c := by
  refine Coordinate.ext_along fun i ↦ sub_eq_zero.mp (abs_eq_zero.mp ?_)
  refine le_antisymm (le_of_forall_pos_le_add fun r hr ↦ ?_) (abs_nonneg _)
  obtain ⟨δ, hδ, h⟩ := h r hr
  rw [zero_add]
  exact h t (by rwa [sub_self, abs_zero]) a ha i

theorem Tends.within (h : Tends answer t b) (hb : ∀ i, |b.along i - c.along i| ≤ slack i) :
    TendsWithin answer t c slack := by
  intro r hr
  obtain ⟨δ, hδ, h⟩ := h r hr
  refine ⟨δ, hδ, fun s hs a ha i ↦ (abs_sub_le _ (b.along i) _).trans ?_⟩
  rw [add_comm]
  exact add_le_add (hb i) (h s hs a ha i)

namespace TendsWithin

theorem mono (h : TendsWithin answer' t c slack) {δ : α} (hδ : 0 < δ)
    (hall : ∀ s, |s - t| < δ → ∀ a, answer s a → answer' s a) : TendsWithin answer t c slack := by
  intro r hr
  obtain ⟨δ', hδ', h⟩ := h r hr
  exact ⟨min δ δ', lt_min hδ hδ', fun s hs a ha ↦
    h s (hs.trans_le (min_le_right _ _)) a (hall s (hs.trans_le (min_le_left _ _)) a ha)⟩

theorem abs_sub_le (h : TendsWithin answer t c slack) (ha : answer t a) (i : Axis) :
    |a.along i - c.along i| ≤ slack i := by
  refine le_of_forall_pos_le_add fun r hr ↦ ?_
  obtain ⟨δ, hδ, h⟩ := h r hr
  exact h t (by rwa [sub_self, abs_zero]) a ha i

end TendsWithin

end Limits

/-- How far from its catch a prop may be when it arrives there. -/
def PathLink.slack (k : PathLink α) (i : Axis) : α :=
  match k.passage with
  | .held .. => 0
  | .thrown _ _ f => f.slack i

theorem PathLink.slack_nonneg (k : PathLink α) (i : Axis) : 0 ≤ k.slack i := by
  unfold slack
  split
  · exact le_rfl
  · exact Flight.slack_nonneg _ i

namespace Layout

/-- Where a prop is if it gets on as it does on a link. -/
def linkPlace (l : Layout α) (k : PathLink α) (t : α) :
    Except (InternalError α) (Coordinate α) :=
  match k.passage with
  | .held juggler hand => l.handPlaceWithin juggler hand t
  | .thrown _ _ f => .ok (f.position t)

variable {l : Layout α} {j p : ℕ} {hand : Hand} {t : α} {c : Coordinate α} {k k' : PathLink α}

theorem pathPlace_eq_ok (hwrap : l.wrapTime t = t) : l.pathPlace p t = .ok c ↔
    ∃ k, linkAt? PathLink.range t (l.pathLinks p) = some k ∧ l.linkPlace k t = .ok c := by
  simp only [pathPlace, bind_eq_ok, pathLinkAt_eq_ok, hwrap]
  rfl

theorem pathPlace_of_mem (hwrap : l.wrapTime t = t) {a b : α}
    (hlinked : Linked PathLink.range a (l.pathLinks p) b) (hk : k ∈ l.pathLinks p)
    (hlow : k.start.time ≤ t) (hhigh : t < k.stop.time) :
    l.pathPlace p t = .ok c ↔ l.linkPlace k t = .ok c := by
  rw [pathPlace_eq_ok hwrap, linkAt?_of_mem hlinked hk hlow hhigh]
  simp

section Hands

variable [Numeral α] {d : Declarations α} {Q : α → α → Spline α → Prop} (hx : l.Joins j hand Q)
  (h : IsBuilt d l) (hperms : ∀ s ∈ d.symmetries, s.jugglers.Rearranges ∧ s.paths.Rearranges)
  (hj : 1 ≤ j ∧ j ≤ d.jugglers)

include hx h hperms hj

theorem Joins.tends (hc : l.handPlaceWithin j hand t = .ok c) :
    Tends (fun u x ↦ l.handPlaceWithin j hand u = .ok x) t c := by
  obtain ⟨s, hs, rfl⟩ := map_eq_ok.mp hc
  refine (hx.steady h hperms hj hs).departs.tends.mono one_pos fun u _ x hx ↦ ?_
  obtain ⟨s', hs', rfl⟩ := map_eq_ok.mp hx
  exact ⟨_, s', hs', rfl, rfl⟩

/-- At a moment a hand is where the event happens. -/
theorem Joins.tends_moment {m : Moment α} (hm : m ∈ Moment.ofHand l.timeline.moments j hand) :
    Tends (fun u x ↦ l.handPlaceWithin j hand u = .ok x) m.time
      (globalPlace l.tracks m.event) := by
  -- All curves that reach there have the same velocity; if there is none, any will do.
  have hsteady : ∃ w, Steady (fun u x y ↦ True ∧ l.handMotion j hand u x y) m.time
      (globalPlace l.tracks m.event) w := by
    have hplace {k : HandLink α} {s : Spline α} (hk : k ∈ l.handLinks j hand)
        (hs : l.curveOf? k = some s) (hle : k.start.time ≤ m.time ∧ m.time ≤ k.stop.time) :
        s.position m.time = globalPlace l.tracks m.event := by
      obtain ⟨a, b, ha, hb, hab⟩ := hx.carried k hk s hs
      obtain ⟨_, _, hstrand⟩ := hx.strand _ _ _ hab
      exact hstrand.spec.1 m hm (ha.trans hle.1) (hle.2.trans hb)
    by_cases hreach : ∃ k ∈ l.handLinks j hand, ∃ s, l.curveOf? k = some s ∧
        k.start.time ≤ m.time ∧ m.time ≤ k.stop.time
    · obtain ⟨k, hk, s, hs, hle⟩ := hreach
      exact ⟨s.velocity m.time, hx.steady_of fun k' hk' s' hs' hle' _ ↦
        ⟨hplace hk' hs' hle', (hx.agree h hperms hj hk' hk hs' hs hle' hle).2⟩⟩
    · exact ⟨globalPlace l.tracks m.event, hx.steady_of fun k' hk' s' hs' hle' _ ↦
        absurd ⟨k', hk', s', hs', hle'⟩ hreach⟩
  obtain ⟨w, hsteady⟩ := hsteady
  refine hsteady.departs.tends.mono one_pos fun u _ x hx ↦ ?_
  obtain ⟨s, hs, rfl⟩ := map_eq_ok.mp hx
  exact ⟨_, trivial, s, hs, rfl, rfl⟩

end Hands

section Links

variable [Numeral α] {d : Declarations α} (f : l.Filled d.jugglers d.paths) (h : IsBuilt d l)
  (hperms : ∀ s ∈ d.symmetries, s.jugglers.Rearranges ∧ s.paths.Rearranges)
  (hs : SymmetryGroup.Spaced l.group.period d.symmetries) (hp : 1 ≤ p ∧ p ≤ d.paths)
  (hk : k ∈ l.pathLinks p)

include f h hperms hs hp hk

namespace Filled

theorem tends_linkPlace (hc : l.linkPlace k t = .ok c) :
    Tends (fun u x ↦ l.linkPlace k u = .ok x) t c := by
  obtain ⟨-, -, hpassage⟩ := h.path_link hp hk
  rcases PathLink.passage?_ok hpassage with ⟨_, _, x, heq, -, -, hx⟩ | ⟨heq, -⟩
  · simp only [linkPlace, heq, Except.ok.injEq] at hc ⊢
    subst hc
    exact (Flight.tends hx t).mono one_pos fun _ _ _ ha ↦ ha.symm
  · simp only [linkPlace, heq] at hc ⊢
    have hj := h.held hperms hp hk heq
    obtain ⟨Q, hx⟩ := f.exists_joins h hperms hs hj _
    exact hx.tends h hperms hj hc

/-- A prop sets out where it was touched. -/
theorem tends_start : Tends (fun u x ↦ l.linkPlace k u = .ok x) k.start.time
    (globalPlace l.tracks k.start.moment.event) := by
  obtain ⟨hstart, -, hpassage⟩ := h.path_link hp hk
  rcases PathLink.passage?_ok hpassage with ⟨_, _, x, heq, -, -, hx⟩ | ⟨heq, -⟩
  · have hends := (Flight.ends hx).1
    simp only [linkPlace, heq, Except.ok.injEq]
    rw [show globalPlace l.tracks k.start.moment.event = x.position k.start.time from hends.symm]
    exact (Flight.tends hx _).mono one_pos fun _ _ _ ha ↦ ha.symm
  · simp only [linkPlace, heq]
    have hj := h.held hperms hp hk heq
    obtain ⟨Q, hx⟩ := f.exists_joins h hperms hs hj _
    exact hx.tends_moment h hperms hj (mem_ofHand.mpr ⟨(Touch.mem_ofPath.mp hstart).1, rfl, rfl⟩)

/-- A prop gets to where it is touched next, or near it if it bounces. -/
theorem tends_stop : TendsWithin (fun u x ↦ l.linkPlace k u = .ok x) k.stop.time
    (globalPlace l.tracks k.stop.moment.event) k.slack := by
  obtain ⟨-, hstop, hpassage⟩ := h.path_link hp hk
  rcases PathLink.passage?_ok hpassage with ⟨_, _, x, heq, -, -, hx⟩ | ⟨heq, -, hhand⟩
  · have hends := (Flight.ends hx).2
    simp only [linkPlace, heq, Except.ok.injEq]
    refine ((Flight.tends hx _).mono one_pos fun _ _ _ ha ↦ ha.symm).within fun i ↦ ?_
    simp only [PathLink.slack, heq]
    exact hends i
  · simp only [linkPlace, heq]
    have hj := h.held hperms hp hk heq
    obtain ⟨Q, hx⟩ := f.exists_joins h hperms hs hj _
    have hm := mem_ofHand.mpr ⟨(Touch.mem_ofPath.mp hstop).1, hhand.1, hhand.2⟩
    refine (hx.tends_moment h hperms hj hm).within fun i ↦ ?_
    rw [sub_self, abs_zero]
    exact k.slack_nonneg i

end Filled

end Links

namespace Filled

variable [Numeral α] {d : Declarations α} (f : l.Filled d.jugglers d.paths) (h : IsBuilt d l)
  (hperms : ∀ s ∈ d.symmetries, s.jugglers.Rearranges ∧ s.paths.Rearranges)
  (hs : SymmetryGroup.Spaced l.group.period d.symmetries) (hp : 1 ≤ p ∧ p ≤ d.paths)

include f h hperms hs hp

theorem linked_path : ∃ a b, Linked PathLink.range a (l.pathLinks p) b ∧ a < l.group.period ∧
    l.group.period ≤ b := by
  obtain ⟨a, b, hlinked, hbounds⟩ := h.linked_path hperms hp
  obtain ⟨m, hm, hlow, t, ht, hpath⟩ := f.touched_low h hperms hp
  obtain ⟨n, hn, -, hhigh, t', ht', hpath'⟩ := f.touched_high h hperms hp
  have htol := hs.timeTolerance_lt_period (h.isGroupOf hperms)
  exact ⟨a, b, hlinked,
    (hbounds ⟨m, t⟩ (Touch.mem_ofPath.mpr ⟨hm, ht, hpath⟩)).1.trans_lt (hlow.trans_lt htol),
    hhigh.trans (hbounds ⟨n, t'⟩ (Touch.mem_ofPath.mpr ⟨hn, ht', hpath'⟩)).2⟩

theorem exists_link (hlow : 0 ≤ t) (hhigh : t < l.group.period) (hc : l.pathPlace p t = .ok c) :
    ∃ k ∈ l.pathLinks p, k.start.time ≤ t ∧ t < k.stop.time ∧ l.linkPlace k t = .ok c := by
  obtain ⟨a, b, hlinked, -, hb⟩ := f.linked_path h hperms hs hp
  obtain ⟨k, hk, hplace⟩ :=
    (pathPlace_eq_ok (wrapTime_of_mem (h.low ▸ hlow) (h.high ▸ hhigh))).mp hc
  obtain ⟨hmem, hstart, -⟩ := linkAt?_eq_some hk
  exact ⟨k, hmem, hstart, lt_of_linkAt? hlinked (hhigh.trans_le hb) hk, hplace⟩

theorem pathPlace_iff (hk : k ∈ l.pathLinks p) (hlow : 0 ≤ t) (hhigh : t < l.group.period)
    (hstart : k.start.time ≤ t) (hstop : t < k.stop.time) :
    l.pathPlace p t = .ok c ↔ l.linkPlace k t = .ok c := by
  obtain ⟨a, b, hlinked, -⟩ := f.linked_path h hperms hs hp
  exact pathPlace_of_mem (wrapTime_of_mem (h.low ▸ hlow) (h.high ▸ hhigh)) hlinked hk hstart hstop

theorem tends_from (hlow : 0 ≤ t) (hhigh : t < l.group.period) (hc : l.pathPlace p t = .ok c) :
    Tends (fun u x ↦ t ≤ u ∧ l.pathPlace p u = .ok x) t c := by
  obtain ⟨k, hk, hstart, hstop, hplace⟩ := f.exists_link h hperms hs hp hlow hhigh hc
  refine (f.tends_linkPlace h hperms hs hp hk hplace).mono
    (lt_min (sub_pos.mpr hstop) (sub_pos.mpr hhigh)) fun u hu x ⟨hle, hx⟩ ↦ ?_
  obtain ⟨hnear, hnear'⟩ := lt_min_iff.mp hu
  exact (f.pathPlace_iff h hperms hs hp hk (hlow.trans hle) (by linarith [(abs_lt.mp hnear').2])
    (hstart.trans hle) (by linarith [(abs_lt.mp hnear).2])).mp hx

theorem tends_until (hk : k ∈ l.pathLinks p) (hlt : k.start.time < k.stop.time)
    (hlow : 0 < k.stop.time) (hhigh : k.stop.time ≤ l.group.period) :
    TendsWithin (fun u x ↦ u < k.stop.time ∧ l.pathPlace p u = .ok x) k.stop.time
      (globalPlace l.tracks k.stop.moment.event) k.slack := by
  refine (f.tends_stop h hperms hs hp hk).mono (lt_min (sub_pos.mpr hlt) hlow)
    fun u hu x ⟨hle, hx⟩ ↦ ?_
  obtain ⟨hnear, hnear'⟩ := lt_min_iff.mp hu
  exact (f.pathPlace_iff h hperms hs hp hk (by linarith [(abs_lt.mp hnear').1])
    (hle.trans_le hhigh) (by linarith [(abs_lt.mp hnear).1]) hle).mp hx

theorem tends_between (hlow : 0 < t) (hhigh : t < l.group.period) (hc : l.pathPlace p t = .ok c)
    (hno : ∀ a ∈ Touch.ofPath l.timeline.moments p, a.time ≠ t) :
    Tends (fun u x ↦ l.pathPlace p u = .ok x) t c := by
  obtain ⟨k, hk, hstart, hstop, hplace⟩ := f.exists_link h hperms hs hp hlow.le hhigh hc
  have hstart := lt_of_le_of_ne hstart (hno _ (h.path_link hp hk).1)
  refine (f.tends_linkPlace h hperms hs hp hk hplace).mono (lt_min (lt_min (sub_pos.mpr hstart)
    (sub_pos.mpr hstop)) (lt_min hlow (sub_pos.mpr hhigh))) fun u hu x hx ↦ ?_
  simp only [lt_min_iff, abs_lt] at hu
  exact (f.pathPlace_iff h hperms hs hp hk (by linarith [hu.2.1.1]) (by linarith [hu.2.2.2])
    (by linarith [hu.1.1.1]) (by linarith [hu.1.2.2])).mp hx

/-- When it is touched a prop is where that happens. -/
theorem place_of_touch {a : Touch α} (ha : a ∈ Touch.ofPath l.timeline.moments p)
    (hlow : 0 ≤ a.time) (hhigh : a.time < l.group.period) (hc : l.pathPlace p a.time = .ok c) :
    c = globalPlace l.tracks a.moment.event := by
  obtain ⟨k, hk, hstart, hstop, hplace⟩ := f.exists_link h hperms hs hp hlow hhigh hc
  have hstep := (h.traced hperms).link_step hp hk
  have hle : a.time ≤ k.start.time :=
    (rel_of_step (R := fun x y ↦ x.time ≤ y.time) ((h.listed hperms).sorted_time_ofPath p)
      (fun x ↦ le_refl x.time) hstep ha).resolve_right (not_le.mpr hstop)
  have heq := le_antisymm hstart hle
  rw [← heq] at hplace
  rw [← h.touch_unique hperms hp (mem_steps hstep).1 ha heq]
  exact (f.tends_start h hperms hs hp hk).eq hplace

end Filled

section Seam

variable [Numeral α] {d : Declarations α} (f : l.Filled d.jugglers d.paths) (h : IsBuilt d l)
  (hperms : ∀ s ∈ d.symmetries, s.jugglers.Rearranges ∧ s.paths.Rearranges)
  (hs : SymmetryGroup.Spaced l.group.period d.symmetries) (hp : 1 ≤ p ∧ p ≤ d.paths)
  (hk : k ∈ l.pathLinks p) (hstart : k.start.time ≤ 0) (hstop : 0 < k.stop.time)
  (hk' : k' ∈ l.pathLinks (l.group.rename 1 p)) (hstart' : k'.start.time < l.group.period)
  (hstop' : l.group.period ≤ k'.stop.time)

include f h hperms hs hp hk hstart hstop hk' hstart' hstop'

/-- The link over the end of the loop is that over its start, or the one ends and the other starts
there. -/
theorem Filled.link_seam : k'.passage = k.passage.later l.group.period ∨
    k.start.time = 0 ∧ k'.stop.time = l.group.period ∧
      k'.stop.moment.event = k.start.moment.event.later l.group.period (l.group.rename 1) := by
  have hg := h.isGroupOf hperms
  have hp' := hg.rename_mem 1 hp
  by_cases hlt : k.start.time + l.group.period < k'.stop.time
  · exact .inl (h.link_later hperms hs.separated hp hk (hstart.trans_lt hstop) hk'
      (hstart'.trans_le hstop') hlt (by linarith))
  · obtain ⟨ha, -, -⟩ := h.path_link hp hk
    obtain ⟨-, hb, -⟩ := h.path_link hp' hk'
    have hzero : k.start.time = 0 := by linarith
    have htime : k'.stop.time = l.group.period := by linarith
    obtain ⟨hm, ht, hpath⟩ := Touch.mem_ofPath.mp ha
    obtain ⟨n, hn, hevent⟩ := f.exists_at_period h hperms hm hzero ⟨_, ht, hpath⟩
    rw [Int.cast_one, one_mul] at hevent
    obtain ⟨y, hy, rfl⟩ := (mem_ofPath_later h hperms hm hn hevent hp).mp ⟨_, ha, rfl⟩
    have hytime : y.time = l.group.period := by
      rw [Touch.time, Moment.time_of_later hevent, show k.start.moment.time = 0 from hzero,
        zero_add]
    refine .inr ⟨hzero, htime, ?_⟩
    rw [h.touch_unique hperms hp' hb hy (htime.trans hytime.symm), hevent]

/-- Towards the end of the loop a prop gets to where the one that it becomes is at the start. -/
theorem Filled.tends_seam (hc : l.linkPlace k 0 = .ok c)
    (hclear : ∀ j hand, k'.passage = .held j hand → l.Clear j hand) :
    TendsWithin (fun u x ↦ u < l.group.period ∧ l.linkPlace k' u = .ok x) l.group.period c
      k'.slack := by
  have hp' := (h.isGroupOf hperms).rename_mem 1 hp
  -- The prop is on the same link a period apart, or it is touched at the seam.
  rcases f.link_seam h hperms hs hp hk hstart hstop hk' hstart' hstop' with
    hlater | ⟨hzero, htime, hevent⟩
  · refine Tends.within (b := c) ?_ fun i ↦ by
      rw [sub_self, abs_zero]
      exact k'.slack_nonneg i
    cases hpassage : k.passage with
    | held j hand =>
      rw [hpassage] at hlater
      have hj := h.held hperms hp hk hpassage
      simp only [linkPlace, hpassage] at hc
      obtain ⟨s, hs', rfl⟩ := map_eq_ok.mp hc
      obtain ⟨Q, hx⟩ := f.exists_joins h hperms hs hj hand
      refine (hx.steady_end h hperms hj hs' (hclear j hand hlater)).departs.tends.mono one_pos
        fun u _ x ⟨hlt, hx⟩ ↦ ?_
      simp only [linkPlace, hlater, Passage.later] at hx
      obtain ⟨s', hs', rfl⟩ := map_eq_ok.mp hx
      exact ⟨_, hlt, s', hs', rfl, rfl⟩
    | thrown kind modifier x =>
      rw [hpassage] at hlater
      simp only [linkPlace, hpassage, Except.ok.injEq] at hc
      have hplace : l.linkPlace k' l.group.period = .ok c := by
        have := x.position_later l.group.period 0
        rw [zero_add, hc] at this
        simp only [linkPlace, hlater, Passage.later, this]
      exact (f.tends_linkPlace h hperms hs hp' hk' hplace).mono one_pos fun _ _ _ hx ↦ hx.2
  · have htends := f.tends_start h hperms hs hp hk
    rw [hzero] at htends
    have htends' := f.tends_stop h hperms hs hp' hk'
    rw [htime, hevent, h.globalPlace_later hperms, ← htends.eq hc] at htends'
    exact htends'.mono one_pos fun _ _ _ hx ↦ hx.2

/-- The hand that holds a prop at the end of the loop has a place at its start, where that of the
prop is known. -/
theorem Filled.exists_hand_seam (hc : l.linkPlace k 0 = .ok c) (hheld : k'.passage = .held j hand) :
    ∃ s, l.handCurveAt j hand 0 = .ok s := by
  have hp' := (h.isGroupOf hperms).rename_mem 1 hp
  have hsame (hpassage : k.passage = .held j hand) : ∃ s, l.handCurveAt j hand 0 = .ok s := by
    simp only [linkPlace, hpassage] at hc
    obtain ⟨s, hs, -⟩ := map_eq_ok.mp hc
    exact ⟨s, hs⟩
  rcases f.link_seam h hperms hs hp hk hstart hstop hk' hstart' hstop' with
    hlater | ⟨hzero, -, hevent⟩
  · rw [hheld] at hlater
    cases hpassage : k.passage with
    | held j' hand' =>
      rw [hpassage] at hlater
      cases hlater
      exact hsame hpassage
    | thrown kind modifier x =>
      rw [hpassage] at hlater
      cases hlater
  · -- The prop is released or kept by the hand at the very start.
    obtain ⟨hmem, -, hok⟩ := h.path_link hp hk
    have hhand : k.start.moment.event.juggler = j ∧ k.start.moment.event.hand = hand := by
      rcases PathLink.passage?_ok (h.path_link hp' hk').2.2 with
        ⟨_, _, _, heq, -⟩ | ⟨heq, -, hhand⟩
      · cases heq.symm.trans hheld
      · cases heq.symm.trans hheld
        rw [← Event.juggler_later, ← Event.hand_later, ← hevent]
        exact hhand
    rcases PathLink.passage?_ok hok with ⟨_, _, _, -, hthrow, -⟩ | ⟨heq, -⟩
    · have hpos := (h.isGroupOf hperms).period_pos
      obtain ⟨hm, ht, -⟩ := Touch.mem_ofPath.mp hmem
      obtain ⟨t, ht⟩ : ∃ t, k.start.moment.event.find? .throwing = some t :=
        Option.isSome_iff_exists.mp (List.find?_isSome.mpr ⟨_, ht, by simpa using hthrow⟩)
      obtain ⟨_, _, _, _, _, hv⟩ := f.handVelocity_of_throw h hperms hs
        (h.held hperms hp' hk' hheld) (mem_ofHand.mpr ⟨hm, hhand⟩) hzero.ge
        (hzero.trans_lt hpos) ht
      obtain ⟨s, hs, -⟩ := map_eq_ok.mp hv
      rw [show k.start.moment.time = 0 from hzero,
        wrapTime_of_mem (h.low ▸ le_rfl) (h.high ▸ hpos)] at hs
      exact ⟨s, hs⟩
    · exact hsame (by rw [heq, hhand.1, hhand.2])

/-- Where the prop that it becomes has a place at the start of the loop, a prop has one up to its
end. -/
theorem Filled.exists_place_seam (hc : l.linkPlace k 0 = .ok c) (hlow : 0 ≤ t)
    (hhigh : t < l.group.period) : ∃ x, l.linkPlace k' t = .ok x := by
  have hp' := (h.isGroupOf hperms).rename_mem 1 hp
  cases hpassage' : k'.passage with
  | thrown kind modifier x => exact ⟨_, by rw [linkPlace, hpassage']⟩
  | held j hand =>
    obtain ⟨s, hs'⟩ := f.exists_hand_seam h hperms hs hp hk hstart hstop hk' hstart' hstop' hc
      hpassage'
    obtain ⟨low, high, stops, hcovered, hstops, hreach⟩ :=
      h.covered hperms (h.held hperms hp' hk' hpassage') hand
    have hreaches := (f.hand_reach h hperms hs hstops hreach).1
    obtain ⟨s', hs'⟩ := hcovered.answers ((hcovered.of_answer hs').1.trans hlow)
      (hhigh.trans_le hreaches)
    exact ⟨_, by rw [linkPlace, hpassage']; exact map_eq_ok.mpr ⟨s', hs', rfl⟩⟩

end Seam

end Layout

theorem SymmetryGroup.IsGroupOf.rename_one {symmetries : List (Symmetry α)} {J N : ℕ}
    {g : SymmetryGroup α} (hg : g.IsGroupOf symmetries J N) {s : Symmetry α}
    (hmem : s ∈ symmetries) (hs : s.kind = .delay) {p : ℕ} (hp : p ≤ N) :
    g.rename 1 p = s.paths.target p := by
  rw [hg.rename_eq 1 hp, zpow_one, hg.delay_fits.motion_paths hp, ← hg.delay_eq s hmem hs]
  rfl

namespace Pattern

variable {p q : Pattern α} {l : Layout α} [Numeral α]

/-- Inside the loop a prop does not jump. When it is touched it is where the touching event happens,
and that is where it was heading, but for what a bounce may miss. Towards the end of the loop it
gets to where the path that it continues is at the start, if no event that gives the hand that
holds it a velocity follows the start within the tolerance. -/
theorem props_continuous
    (hperms : ∀ s ∈ p.symmetries, s.jugglers.Rearranges ∧ s.paths.Rearranges)
    (hok : p.layOut = (q, .ok ())) (hl : q.layout = some l)
    (hs : SymmetryGroup.Spaced l.group.period p.symmetries) (path : ℕ) :
    (∀ t c, l.loop.low < t → t < l.loop.high → q.pathPlace path t = .ok c →
      Tends (fun u x ↦ t ≤ u ∧ q.pathPlace path u = .ok x) t c ∧
      ((∀ a ∈ Touch.ofPath l.timeline.moments path, a.time ≠ t) →
        Tends (fun u x ↦ q.pathPlace path u = .ok x) t c) ∧
      ∀ a ∈ Touch.ofPath l.timeline.moments path, a.time = t →
        c = Layout.globalPlace l.tracks a.moment.event ∧
        ∀ k ∈ l.pathLinks path, k.stop.moment = a.moment → k.start.time < t →
          (∀ x, l.linkPlace k t = .ok x → ∀ i, |x.along i - c.along i| ≤ k.slack i) ∧
          TendsWithin (fun u x ↦ u < t ∧ q.pathPlace path u = .ok x) t c k.slack) ∧
    ∀ s ∈ p.symmetries, s.kind = .delay → ∀ path', s.paths.target path' = path →
      ∀ c, q.pathPlace path' l.loop.low = .ok c →
        ∃ k ∈ l.pathLinks path, k.start.time < l.loop.high ∧ l.loop.high ≤ k.stop.time ∧
          (∀ t, l.loop.low ≤ t → k.start.time ≤ t → t < l.loop.high →
            ∃ x, q.pathPlace path t = .ok x) ∧
          ((∀ j hand, k.passage = .held j hand → l.Clear j hand) →
            TendsWithin (fun t x ↦ t < l.loop.high ∧ q.pathPlace path t = .ok x) l.loop.high c
              k.slack) := by
  obtain ⟨l', h, rfl⟩ := layOut_ok hok
  obtain rfl := Option.some.inj hl
  have hlaid : ({ p with events := l'.masters, layout := some l', state := .clean } :
      Pattern α).laidOut = .ok l' := rfl
  obtain ⟨f⟩ := h.filled hperms hs.separated
  have hg := h.isGroupOf hperms
  have hpos := hg.period_pos
  rw [h.low, h.high]
  refine ⟨fun t c hlow hhigh hc ↦ ?_, fun s hmem hdelay path' htarget c hc ↦ ?_⟩
  · have hp := mem_of_askPath hc
    simp only [pathPlace, askPath_eq_ok hlaid hp] at hc ⊢
    refine ⟨f.tends_from h hperms hs hp hlow.le hhigh hc,
      f.tends_between h hperms hs hp hlow hhigh hc, ?_⟩
    rintro a ha rfl
    obtain rfl := f.place_of_touch h hperms hs hp ha hlow.le hhigh hc
    refine ⟨rfl, fun k hk hstop hstart ↦ ?_⟩
    have htime : k.stop.time = a.time := congrArg Moment.time hstop
    rw [← htime, ← hstop]
    exact ⟨fun x hx ↦ (f.tends_stop h hperms hs hp hk).abs_sub_le hx,
      f.tends_until h hperms hs hp hk (htime ▸ hstart) (htime ▸ hlow) (htime ▸ hhigh.le)⟩
  · have hp' := mem_of_askPath hc
    rw [← hg.rename_one hmem hdelay hp'.2] at htarget
    subst htarget
    have hp := hg.rename_mem 1 hp'
    simp only [pathPlace, askPath_eq_ok hlaid hp', askPath_eq_ok hlaid hp] at hc ⊢
    obtain ⟨a, b, hlinked, ha, hb⟩ := f.linked_path h hperms hs hp
    obtain ⟨k, hk, hstart, hstop⟩ : ∃ k ∈ l'.pathLinks (l'.group.rename 1 path'),
        k.start.time < l'.group.period ∧ l'.group.period ≤ k.stop.time :=
      hlinked.exists_up_to ha hb
    obtain ⟨k', hk', hstart', hstop', hplace⟩ := f.exists_link h hperms hs hp' le_rfl hpos hc
    -- Up to the end of the loop `k` says where the prop is.
    have hiff {t : α} {x : Coordinate α} (hlow : 0 ≤ t) (hle : k.start.time ≤ t)
        (hhigh : t < l'.group.period) := f.pathPlace_iff h hperms hs hp (c := x) hk hlow hhigh hle
          (hhigh.trans_le hstop)
    refine ⟨k, hk, hstart, hstop, fun t hlow hle hhigh ↦ ?_, fun hclear ↦ ?_⟩
    · obtain ⟨x, hx⟩ := f.exists_place_seam h hperms hs hp' hk' hstart' hstop' hk hstart hstop
        hplace hlow hhigh
      exact ⟨x, (hiff hlow hle hhigh).mpr hx⟩
    · refine (f.tends_seam h hperms hs hp' hk' hstart' hstop' hk hstart hstop hplace hclear).mono
        (lt_min hpos (sub_pos.mpr hstart)) fun u hu x hux ↦ ⟨hux.1, ?_⟩
      obtain ⟨hlt, hx⟩ := hux
      obtain ⟨hnear, hnear'⟩ := lt_min_iff.mp hu
      exact (hiff (by linarith [(abs_lt.mp hnear).1]) (by linarith [(abs_lt.mp hnear').1]) hlt).mp
        hx

/-- The prop of the exchange is caught where the catch happens, and from the end of the loop it
goes on at its start. -/
theorem props_continuous_exchange :
    (∀ s ∈ Timeline.exchangePattern.symmetries, s.jugglers.Rearranges ∧ s.paths.Rearranges) ∧
    ∃ q l, Timeline.exchangePattern.layOut = (q, .ok ()) ∧ q.layout = some l ∧
      SymmetryGroup.Spaced l.group.period Timeline.exchangePattern.symmetries ∧
      (∃ a ∈ Touch.ofPath l.timeline.moments 1, a.time = 1 / 4 ∧
        q.pathPlace 1 (1 / 4) = .ok (Layout.globalPlace l.tracks a.moment.event) ∧
        Tends (fun u x ↦ 1 / 4 ≤ u ∧ q.pathPlace 1 u = .ok x) (1 / 4)
          (Layout.globalPlace l.tracks a.moment.event)) ∧
      ∃ c, q.pathPlace 1 0 = .ok c ∧ ∃ k ∈ l.pathLinks 1,
        TendsWithin (fun u x ↦ u < 1 ∧ q.pathPlace 1 u = .ok x) 1 c k.slack := by
  have hperms := Timeline.rearranges_exchange
  obtain ⟨l, h, hok, htimeline, hhigh, hspaced, hclear, hreaches⟩ := laid_exchange
  have hanswer (t : ℚ) : ∃ c, Pattern.pathPlace { Timeline.exchangePattern with
      layout := some l, state := .clean } 1 t = .ok c := by
    obtain ⟨c, hc⟩ := ((h.answersAt_of_reaches hperms hreaches t).1 1 ⟨le_rfl, le_rfl⟩).1
    exact ⟨c, (askPath_eq_ok (f := fun l ↦ l.pathPlace 1 t) rfl ⟨le_rfl, le_rfl⟩).mpr hc⟩
  obtain ⟨hinside, hseam⟩ :=
    props_continuous (p := Timeline.exchangePattern) hperms hok rfl hspaced 1
  rw [h.low, hhigh] at hinside hseam
  refine ⟨hperms, _, l, hok, rfl, hspaced, ?_, ?_⟩
  · have ha : ∃ a ∈ Touch.ofPath Timeline.exchangeTimeline.moments 1, a.time = 1 / 4 := by
      decide +kernel
    rw [← htimeline] at ha
    obtain ⟨a, ha, htime⟩ := ha
    obtain ⟨c, hc⟩ := hanswer (1 / 4)
    obtain ⟨htends, -, htouch⟩ := hinside (1 / 4) c (by norm_num) (by norm_num) hc
    obtain ⟨rfl, -⟩ := htouch a ha htime
    exact ⟨a, ha, htime, hc, htends⟩
  · obtain ⟨c, hc⟩ := hanswer 0
    obtain ⟨k, hk, -, -, -, htends⟩ := hseam _ List.mem_cons_self rfl 1 (by decide +kernel) c hc
    exact ⟨c, hc, k, hk, htends fun j hand _ m hm _ hle ↦
      hclear m (Layout.mem_ofHand.mp hm).1 hle⟩

end Pattern

end Juggling
