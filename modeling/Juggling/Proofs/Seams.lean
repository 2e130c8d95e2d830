import Juggling.Proofs.Counterparts
import Juggling.Proofs.Courses

namespace Juggling

variable {α : Type} [Exact α]

namespace Layout

theorem Strand.unique {l : Layout α} {j : ℕ} {hand : Hand} {a b : α}
    {v w : Option (Coordinate α)} {s s' : Spline α} (hs : l.Strand j hand a b v w s)
    (hs' : l.Strand j hand a b v w s') : s = s' := by
  have hknots : s.knots = s'.knots := Except.ok.inj (hs.knots.symm.trans hs'.knots)
  exact Except.ok.inj (hs.solved.symm.trans (hknots ▸ hs'.solved))

/-- A time at which an event determines the velocity of a hand. -/
def Fixes (l : Layout α) (j : ℕ) (hand : Hand) (t : α) : Prop :=
  ∃ m ∈ Moment.ofHand l.timeline.moments j hand,
    m.time = t ∧ m.event.determinesVelocity = true

variable {l : Layout α} {j : ℕ} {hand : Hand} {t : α}

theorem Paced.fixes {v : Coordinate α} (hv : l.Paced j hand t v) : l.Fixes j hand t := by
  obtain ⟨m, hm, htime, r, hr, -⟩ := hv
  exact ⟨m, hm, htime, Resolved.determines ⟨r, hr⟩⟩

theorem Pinned.apart_of_paced {a b : α} {s : Spline α} (hs : l.Pinned j hand a b s)
    {v : Coordinate α} (hv : l.Paced j hand t v) : t ≤ a ∨ b ≤ t := by
  obtain ⟨m, hm, rfl, r, hr, -⟩ := hv
  exact hs.apart m hm ⟨r, hr⟩

theorem Free.unique {u a b a' b' : α} {s s' : Spline α} (hx : l.Free j hand u a b s)
    (hx' : l.Free j hand u a' b' s') (heq : a = a') : s = s' := by
  subst heq
  have hb : b = b' := hx.stop.trans hx'.stop.symm
  exact hx.strand.unique (hb ▸ hx'.strand)

variable [Numeral α] {d : Declarations α}

section Meet

variable (h : IsBuilt d l)
  (hperms : ∀ s ∈ d.symmetries, s.jugglers.Rearranges ∧ s.paths.Rearranges)

include h hperms

theorem Paced.unique {v w : Coordinate α} (hv : l.Paced j hand t v) (hw : l.Paced j hand t w) :
    v = w := by
  obtain ⟨m, hm, htime, r, hr, hresolve⟩ := hv
  obtain ⟨n, hn, htime', r', hr', hresolve'⟩ := hw
  obtain rfl := h.eq_of_time_eq hperms hm hn (htime.trans htime'.symm)
  obtain rfl := Option.some.inj (Except.ok.inj (hr.symm.trans hr'))
  exact Except.ok.inj (hresolve.symm.trans hresolve')

theorem Pinned.meet {a b a' b' : α} {s s' : Spline α} (hs : l.Pinned j hand a b s)
    (hs' : l.Pinned j hand a' b' s') (ha : a < t) (hb : t ≤ b) (ha' : a' ≤ t) (hb' : t < b') :
    s.velocity t = s'.velocity t := by
  obtain ⟨v, w, hstrand, hv, hw⟩ := hs.strand
  obtain ⟨v', w', hstrand', hv', hw'⟩ := hs'.strand
  rcases ha'.lt_or_eq with hlt | rfl
  · -- Neither curve ends within the other: they are the same.
    obtain rfl : a = a' := by
      rcases hs.apart_of_paced hv', hs'.apart_of_paced hv with ⟨hle | hle, hle' | hle'⟩ <;> linarith
    obtain rfl : b = b' := by
      rcases hs.apart_of_paced hw', hs'.apart_of_paced hw with ⟨hle | hle, hle' | hle'⟩ <;> linarith
    obtain rfl := hv.unique h hperms hv'
    obtain rfl := hw.unique h hperms hw'
    rw [hstrand.unique hstrand']
  · obtain rfl : a' = b := by
      rcases hs.apart_of_paced hv' with hle | hle
      · linarith
      · exact le_antisymm hb hle
    obtain rfl := hw.unique h hperms hv'
    rw [(hstrand.spec.2.1 _ _ rfl rfl).2, (hstrand'.spec.2.1 _ _ rfl rfl).1]

theorem Pinned.paced {a b : α} {s : Spline α} (hs : l.Pinned j hand a b s) {v : Coordinate α}
    (hv : l.Paced j hand t v) (ha : a ≤ t) (hb : t < b) : s.velocity t = v := by
  obtain ⟨v', w', hstrand, hv', -⟩ := hs.strand
  obtain rfl : a = t := by
    rcases hs.apart_of_paced hv with hle | hle
    · exact le_antisymm ha hle
    · linarith
  rw [(hstrand.spec.2.1 _ _ rfl rfl).1, hv'.unique h hperms hv]

end Meet

namespace Filled

variable (f : l.Filled d.jugglers d.paths) (h : IsBuilt d l)
  (hperms : ∀ s ∈ d.symmetries, s.jugglers.Rearranges ∧ s.paths.Rearranges)

include f h hperms

theorem resolved_of_throw {m : Moment α} (hm : m ∈ l.timeline.moments) {t : Transition}
    (ht : m.event.find? .throwing = some t) (hlt : m.time < l.group.period) : l.Resolved m := by
  have hp := (h.placed hperms hm).path t (List.mem_of_find?_eq_some ht)
  obtain ⟨n, hn, -, hle, htouch⟩ := f.touched_high h hperms hp
  exact h.throw_resolved hperms hm hn ht htouch (hlt.trans_le hle)

theorem resolved_of_softCatch {m : Moment α} (hm : m ∈ l.timeline.moments) {t : Transition}
    (hnone : m.event.find? .throwing = none) (ht : m.event.find? .softCatching = some t)
    (hlt : timeTolerance < m.time) : l.Resolved m := by
  have hp := (h.placed hperms hm).path t (List.mem_of_find?_eq_some ht)
  obtain ⟨n, hn, hle, htouch⟩ := f.touched_low h hperms hp
  exact h.softCatch_resolved hperms hm hn hnone ht htouch (hle.trans_lt hlt)

theorem fixes_next {n : Moment α} (ht : l.Fixes j hand t) (hn : n ∈ l.timeline.moments)
    (hlt : t + l.group.period < n.time) : l.Fixes j hand (t + l.group.period) := by
  obtain ⟨m, hm, rfl, hdet⟩ := ht
  obtain ⟨o, ho, htime, hevent⟩ := f.exists_hand_next h hperms hm hn hlt
  exact ⟨o, ho, htime, by rwa [hevent, Event.determinesVelocity_later]⟩

theorem fixes_previous {n : Moment α} (ht : l.Fixes j hand t) (hn : n ∈ l.timeline.moments)
    (hlt : n.time < t - l.group.period) : l.Fixes j hand (t - l.group.period) := by
  obtain ⟨m, hm, rfl, hdet⟩ := ht
  obtain ⟨o, ho, htime, hevent⟩ := f.exists_hand_previous h hperms hm hn hlt
  exact ⟨o, ho, by linarith, by rwa [hevent, Event.determinesVelocity_later] at hdet⟩

theorem paced_later (hs : SymmetryGroup.Separated l.group.period d.symmetries)
    {v w : Coordinate α} (hv : l.Paced j hand t v)
    (hw : l.Paced j hand (t + l.group.period) w)
    (haround : ∃ o ∈ l.timeline.moments, o.time < t ∨ t + l.group.period < o.time) : v = w := by
  obtain ⟨m, hm, rfl, r, hr, hresolve⟩ := hv
  obtain ⟨n, hn, htime, r', hr', hresolve'⟩ := hw
  have hevent := f.event_later h hperms hm hn htime (htime ▸ haround)
  have := h.resolve_later hperms hs (mem_ofHand.mp hm).1 (mem_ofHand.mp hn).1 hevent hr hr'
  rw [hresolve, hresolve'] at this
  exact (Except.ok.inj this).symm

section Clear

variable (hs : SymmetryGroup.Spaced l.group.period d.symmetries) (hclear : l.Clear j hand)

/-- Within the loop every event that determines the velocity of a hand has a flight for it. -/
theorem apart_of_fixes {a b : α} {s : Spline α} (hx : l.Pinned j hand a b s)
    (ht : l.Fixes j hand t) (hlow : timeTolerance < t) (hhigh : t < l.group.period) :
    t ≤ a ∨ b ≤ t := by
  obtain ⟨m, hm, rfl, hdet⟩ := ht
  refine hx.apart m hm ?_
  rcases Event.determinesVelocity_cases hdet with ⟨t, ht⟩ | ⟨hnone, t, ht⟩
  · exact f.resolved_of_throw h hperms (mem_ofHand.mp hm).1 ht hhigh
  · exact f.resolved_of_softCatch h hperms (mem_ofHand.mp hm).1 hnone ht hlow

include hs in
/-- The curve at the end of the loop leads to the first event after it that determines the
velocity. -/
theorem stop_le_of_fixes {a b : α} {s : Spline α} (hx : l.Pinned j hand a b s)
    (ha : a < l.group.period) (ht : l.Fixes j hand t)
    (hle : l.group.period ≤ t) : b ≤ t := by
  obtain ⟨m, hm, rfl, hdet⟩ := ht
  obtain ⟨hmem, hmj, hmh⟩ := mem_ofHand.mp hm
  obtain ⟨n, hn, ⟨hj, hhand⟩, hhigh, hresolved, hfirst⟩ := f.resolved_high h hperms
    (hs.timeTolerance_lt_period (h.isGroupOf hperms)) hmem hdet
  rcases hx.apart n (mem_ofHand.mpr ⟨hn, hj.trans hmj, hhand.trans hmh⟩) hresolved with hna | hbn
  · linarith
  · exact hbn.trans (hfirst m hmem ⟨rfl, rfl⟩ hdet hle)

include hs hclear in
/-- The curve at the start of the loop comes from the last event before it that determines the
velocity. -/
theorem fixes_le_start {a b : α} {s : Spline α} (hx : l.Pinned j hand a b s)
    (hb : 0 < b) (ht : l.Fixes j hand t) (hle : t ≤ 0) : t ≤ a := by
  obtain ⟨m, hm, rfl, hdet⟩ := ht
  obtain ⟨hmem, rfl, rfl⟩ := mem_ofHand.mp hm
  obtain ⟨n, hn, ⟨hj, hhand⟩, hlow, hresolved, hlast⟩ := f.resolved_low h hperms
    (hs.timeTolerance_lt_period (h.isGroupOf hperms)) hmem hdet hclear
  rcases hx.apart n (mem_ofHand.mpr ⟨hn, hj, hhand⟩) hresolved with hna | hbn
  · exact (hlast m hmem ⟨rfl, rfl⟩ hdet hle).trans hna
  · linarith

omit f hperms in
theorem lt_of_fixes (hclear : l.Clear j hand) (ht : l.Fixes j hand t) (hpos : 0 < t) :
    timeTolerance < t := by
  obtain ⟨m, hm, rfl, hdet⟩ := ht
  by_contra! hle
  exact absurd (h.low ▸ hclear m hm hdet hle) (not_le.mpr hpos)

include hs hclear in
/-- The curve at the end of the loop starts a period after the one at its start. -/
theorem start_later {a b a' b' : α} {s s' : Spline α} (hx : l.Pinned j hand a b s)
    (hx' : l.Pinned j hand a' b' s') (ha : a < l.group.period) (hb : l.group.period ≤ b)
    (ha' : a' < 0) (hb' : 0 < b') : a = a' + l.group.period := by
  have hpos := (h.isGroupOf hperms).period_pos
  obtain ⟨v, w, hstrand, hv, hw⟩ := hx.strand
  obtain ⟨v', w', hstrand', hv', hw'⟩ := hx'.strand
  obtain ⟨m, hm, hmtime⟩ := hstrand'.exists_start
  obtain ⟨n, hn, hntime⟩ := hstrand.exists_stop
  have hlast {t : α} (ht : l.Fixes j hand t) (hle : t ≤ 0) : t ≤ a' :=
    f.fixes_le_start h hperms hs hclear hx' hb' ht hle
  have hnext := f.fixes_next h hperms hv'.fixes (mem_ofHand.mp hn).1 (by linarith)
  have hlow : 0 < a' + l.group.period := by
    by_contra! hle
    linarith [hlast hnext hle]
  refine le_antisymm ?_ ?_
  · -- What starts the later curve happened a period before as well.
    by_contra! hlt
    linarith [hlast (f.fixes_previous h hperms hv.fixes (mem_ofHand.mp hm).1 (by linarith))
      (by linarith)]
  · exact (f.apart_of_fixes h hperms hx hnext (lt_of_fixes h hclear hnext hlow)
      (by linarith)).resolve_right (by linarith)

include hs hclear in
/-- The curve at the end of the loop stops a period after the one at its start. -/
theorem stop_later {a b a' b' : α} {s s' : Spline α} (hx : l.Pinned j hand a b s)
    (hx' : l.Pinned j hand a' b' s') (ha : a < l.group.period) (hb : l.group.period ≤ b)
    (ha' : a' < 0) (hb' : 0 < b') : b = b' + l.group.period := by
  have hpos := (h.isGroupOf hperms).period_pos
  obtain ⟨v, w, hstrand, hv, hw⟩ := hx.strand
  obtain ⟨v', w', hstrand', hv', hw'⟩ := hx'.strand
  obtain ⟨m, hm, hmtime⟩ := hstrand'.exists_start
  obtain ⟨n, hn, hntime⟩ := hstrand.exists_stop
  have hlast {t : α} (ht : l.Fixes j hand t) (hle : t ≤ 0) : t ≤ a' :=
    f.fixes_le_start h hperms hs hclear hx' hb' ht hle
  have hfirst {t : α} (ht : l.Fixes j hand t) (hle : l.group.period ≤ t) : b ≤ t :=
    f.stop_le_of_fixes h hperms hs hx ha ht hle
  have hprevious := f.fixes_previous h hperms hw.fixes (mem_ofHand.mp hm).1 (by linarith)
  have hlow : 0 < b - l.group.period := by
    by_contra! hle
    linarith [hlast hprevious hle]
  have hhigh : b - l.group.period < l.group.period := by
    by_contra! hle
    linarith [hfirst hprevious hle]
  refine le_antisymm ?_ ?_
  · -- What stops the earlier curve happens a period later as well.
    by_contra! hlt
    linarith [hfirst (f.fixes_next h hperms hw'.fixes (mem_ofHand.mp hn).1 (by linarith))
      (by linarith)]
  · have := (f.apart_of_fixes h hperms hx' hprevious (lt_of_fixes h hclear hprevious hlow)
      hhigh).resolve_left (by linarith)
    linarith

include hs hclear in
/-- The curves at the start of the loop and at its end are the same but for the period. -/
theorem pinned_later {a b a' b' : α} {s s' : Spline α} (hx : l.Pinned j hand a b s)
    (hx' : l.Pinned j hand a' b' s') (ha : a < l.group.period) (hb : l.group.period ≤ b)
    (ha' : a' < 0) (hb' : 0 < b') : s = s'.later l.group.period := by
  have hpos := (h.isGroupOf hperms).period_pos
  obtain rfl := f.start_later h hperms hs hclear hx hx' ha hb ha' hb'
  obtain rfl := f.stop_later h hperms hs hclear hx hx' ha hb ha' hb'
  obtain ⟨v, w, hstrand, hv, hw⟩ := hx.strand
  obtain ⟨v', w', hstrand', hv', hw'⟩ := hx'.strand
  obtain ⟨m, hm, hmtime⟩ := hstrand'.exists_start
  obtain ⟨n, hn, hntime⟩ := hstrand.exists_stop
  have hm := (mem_ofHand.mp hm).1
  have hn := (mem_ofHand.mp hn).1
  obtain rfl := f.paced_later h hperms hs.separated hv' hv ⟨n, hn, .inr (by linarith)⟩
  obtain rfl := f.paced_later h hperms hs.separated hw' hw ⟨m, hm, .inl (by linarith)⟩
  exact f.strand_later h hperms (ha'.trans hb') hstrand' hstrand

include hs hclear in
theorem pinned_seam {a b a' b' : α} {s s' : Spline α} (hx : l.Pinned j hand a b s)
    (hx' : l.Pinned j hand a' b' s') (ha : a < l.group.period) (hb : l.group.period ≤ b)
    (ha' : a' ≤ 0) (hb' : 0 < b') :
    s.position l.group.period = s'.position 0 ∧ s.velocity l.group.period = s'.velocity 0 := by
  rcases ha'.lt_or_eq with hlt | rfl
  · rw [f.pinned_later h hperms hs hclear hx hx' ha hb hlt hb']
    exact s'.later_at _
  · -- What happens at the start of the loop happens at its end as well.
    have hpos := (h.isGroupOf hperms).period_pos
    obtain ⟨v, w, hstrand, -, ⟨n, hn, hntime, r, hr, hresolve⟩⟩ := hx.strand
    obtain ⟨v', w', hstrand', ⟨m, hm, hzero, r', hr', hresolve'⟩, -⟩ := hx'.strand
    have hdet := Resolved.determines ⟨r', hr'⟩
    obtain ⟨t, ht, -⟩ := List.any_eq_true.mp hdet
    obtain ⟨o, ho, hevent⟩ := f.exists_at_period h hperms (mem_ofHand.mp hm).1 hzero ⟨t, ht, rfl⟩
    rw [Int.cast_one, one_mul] at hevent
    have hotime : o.time = l.group.period := by
      rw [Moment.time_of_later hevent, hzero, zero_add]
    have hohand : o ∈ Moment.ofHand l.timeline.moments j hand := by
      refine mem_ofHand.mpr ⟨ho, ?_⟩
      rw [hevent]
      exact (mem_ofHand.mp hm).2
    obtain rfl : b = l.group.period := by
      refine le_antisymm (f.stop_le_of_fixes h hperms hs hx ha ⟨o, hohand, hotime, ?_⟩ le_rfl) hb
      rwa [hevent, Event.determinesVelocity_later]
    obtain rfl := h.eq_of_time_eq hperms hn hohand (hntime.trans hotime.symm)
    have hvelocity := h.resolve_later hperms hs.separated (mem_ofHand.mp hm).1 ho hevent hr' hr
    rw [hresolve, hresolve', Except.ok.injEq] at hvelocity
    constructor
    · rw [← hntime, hstrand.spec.1 n hn (hntime ▸ ha.le) hntime.le, hevent,
        h.globalPlace_later hperms, ← hstrand'.spec.1 m hm hzero.ge (hzero ▸ hb'.le), hzero]
    · rw [(hstrand.spec.2.1 _ _ rfl rfl).2, (hstrand'.spec.2.1 _ _ rfl rfl).1, hvelocity]

end Clear

section Free

variable {a b a' b' : α} {s s' : Spline α}

/-- Of two closed curves the second is the first one a period later. -/
theorem free_later (hx : l.Free j hand t a b s) (hx' : l.Free j hand t a' b' s')
    (heq : a' = a + l.group.period) : s' = s.later l.group.period := by
  have hlt : a < b := by
    rw [hx.stop]
    exact lt_add_of_pos_right _ (h.isGroupOf hperms).period_pos
  refine f.strand_later h hperms hlt hx.strand ?_
  rw [hx.stop, ← heq, ← hx'.stop]
  exact hx'.strand

theorem free_meet {u : α} (hx : l.Free j hand u a b s) (hx' : l.Free j hand u a' b' s') (ha : a < t)
    (hb : t ≤ b) (ha' : a' ≤ t) (hb' : t < b') : s.velocity t = s'.velocity t := by
  have hstop := hx.stop
  have hstop' := hx'.stop
  rcases hx.start, hx'.start with ⟨hstart | hstart, hstart' | hstart'⟩
  · rw [hx.unique hx' (hstart.trans hstart'.symm)]
  · have heq : a' = a + l.group.period := by rw [hstart', hstart]
    obtain rfl : t = b := by linarith
    rw [f.free_later h hperms hx hx' heq, ← hx.strand.spec.2.2.1 rfl rfl,
      ← s.velocity_later l.group.period, ← hstop]
  · linarith
  · rw [hx.unique hx' (hstart.trans hstart'.symm)]

theorem free_seam {u : α} (hx : l.Free j hand u a b s) (hx' : l.Free j hand u a' b' s')
    (ha : a < l.group.period) (hb : l.group.period ≤ b) (ha' : a' ≤ 0) :
    s.position l.group.period = s'.position 0 ∧ s.velocity l.group.period = s'.velocity 0 := by
  have hpos := (h.isGroupOf hperms).period_pos
  have hstop := hx.stop
  by_cases heq : a = a'
  · obtain rfl : a = 0 := by linarith
    obtain rfl := hx.unique hx' heq
    rw [← (zero_add l.group.period), ← hstop]
    exact ⟨hx.closed.symm, (hx.strand.spec.2.2.1 rfl rfl).symm⟩
  · have heq : a = a' + l.group.period := by
      rcases hx.start, hx'.start with ⟨hstart | hstart, hstart' | hstart'⟩
      · exact absurd (hstart.trans hstart'.symm) heq
      · linarith
      · rw [hstart, hstart']
      · exact absurd (hstart.trans hstart'.symm) heq
    rw [f.free_later h hperms hx' hx heq]
    exact s'.later_at _

end Free

end Filled

/-- Curves that take a hand over the loop, each between two times, without a jump of velocity from
one to the next, and from the end of the loop to its start. -/
structure Joins (l : Layout α) (j : ℕ) (hand : Hand) (Q : α → α → Spline α → Prop) : Prop where
  carried : l.Carried j hand Q
  strand : ∀ a b s, Q a b s → ∃ v w, l.Strand j hand a b v w s
  meet : ∀ a b s a' b' s' t, Q a b s → Q a' b' s' → a < t → t ≤ b → a' ≤ t → t < b' →
    s.velocity t = s'.velocity t
  paced : ∀ a b s t v, Q a b s → l.Paced j hand t v → a ≤ t → t < b → s.velocity t = v
  seam : ∀ a b s a' b' s', Q a b s → Q a' b' s' → a < l.group.period → l.group.period ≤ b →
    a' ≤ 0 → 0 < b' → l.Clear j hand →
      s.position l.group.period = s'.position 0 ∧ s.velocity l.group.period = s'.velocity 0

theorem Filled.exists_joins (f : l.Filled d.jugglers d.paths) (h : IsBuilt d l)
    (hperms : ∀ s ∈ d.symmetries, s.jugglers.Rearranges ∧ s.paths.Rearranges)
    (hs : SymmetryGroup.Spaced l.group.period d.symmetries) (hj : 1 ≤ j ∧ j ≤ d.jugglers)
    (hand : Hand) : ∃ Q, l.Joins j hand Q := by
  rcases h.carried hperms f hs hj hand with hcarried | ⟨hnone, t, hcarried⟩
  · exact ⟨_, {
      carried := hcarried
      strand := fun a b s hx ↦
        let ⟨v, w, hstrand, _⟩ := hx.strand
        ⟨_, _, hstrand⟩
      meet := fun a b s a' b' s' t hx hx' ↦ hx.meet h hperms hx'
      paced := fun a b s t v hx ↦ hx.paced h hperms
      seam := fun a b s a' b' s' hx hx' ha hb ha' hb' hclear ↦
        f.pinned_seam h hperms hs hclear hx hx' ha hb ha' hb' }⟩
  · exact ⟨_, {
      carried := hcarried
      strand := fun a b s hx ↦ ⟨_, _, hx.strand⟩
      meet := fun a b s a' b' s' t hx hx' ↦ f.free_meet h hperms hx hx'
      paced := fun a b s t v _ hv _ _ ↦
        let ⟨m, hm, _, hdet⟩ := hv.fixes
        absurd hdet (by simp [hnone m hm])
      seam := fun a b s a' b' s' hx hx' ha hb ha' _ _ ↦
        f.free_seam h hperms hx hx' ha hb ha' }⟩

end Layout

end Juggling
