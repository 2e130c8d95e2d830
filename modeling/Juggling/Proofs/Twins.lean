import Juggling.Proofs.HandAnswers

namespace Juggling

variable {α : Type} [Exact α]

theorem Moment.Alike.symm {g : SymmetryGroup α} {J N : ℕ} {I : Set (Event α)}
    {moments moments' : List (Moment α)} (h : Alike g J N I moments moments') :
    Alike g J N I moments' moments :=
  ⟨h.family, h.shows', h.shows, h.alone⟩

namespace Layout

variable [Numeral α] {d d' : Declarations α} {l l' : Layout α} {I : Set (Event α)}

/-- A layout of which everything but the order of its seeds may be needed. -/
structure Sound (d : Declarations α) (l : Layout α) : Prop where
  built : IsBuilt d l
  perms : ∀ s ∈ d.symmetries, s.jugglers.Rearranges ∧ s.paths.Rearranges
  filled : Nonempty (l.Filled d.jugglers d.paths)
  clear : ∀ m ∈ l.timeline.moments, m.time ≤ timeTolerance → m.time ≤ 0
  long : timeTolerance < l.group.period
  past : ∀ j, 1 ≤ j ∧ j ≤ d.jugglers → ∀ hand,
    (∀ m ∈ Moment.ofHand l.timeline.moments j hand, m.event.determinesVelocity = false) →
      ∃ m ∈ Moment.ofHand l.timeline.moments j hand, l.group.period ≤ m.time

theorem Sound.exists_pathLink (S : Sound d l) {p : ℕ} (hp : 1 ≤ p ∧ p ≤ d.paths) {t : α}
    (hlow : 0 ≤ t) (hhigh : t < l.group.period) : ∃ k ∈ l.pathLinks p, l.pathLinkAt p t = .ok k ∧
      k.start.time ≤ t ∧ t < k.stop.time := by
  obtain ⟨f⟩ := S.filled
  obtain ⟨a, b, hlinked, hbounds⟩ := S.built.linked_path S.perms hp
  obtain ⟨m, hm, hmlow, u, hu, hpath⟩ := f.touched_low S.built S.perms hp
  obtain ⟨n, hn, -, hnhigh, u', hu', hpath'⟩ := f.touched_high S.built S.perms hp
  refine Layout.exists_pathLink hlinked ?_ (hhigh.trans_le (hnhigh.trans
    (hbounds ⟨n, u'⟩ (Touch.mem_ofPath.mpr ⟨hn, hu', hpath'⟩)).2))
  exact (hbounds ⟨m, u⟩ (Touch.mem_ofPath.mpr ⟨hm, hu, hpath⟩)).1.trans
    ((S.clear m hm hmlow).trans hlow)

/-- Two layouts that show the same events. -/
structure Twins (d d' : Declarations α) (l l' : Layout α) (I : Set (Event α)) : Prop where
  sound : Sound d l
  sound' : Sound d' l'
  jugglers : d'.jugglers = d.jugglers
  paths : d'.paths = d.paths
  group : l'.group = l.group
  tracks : l'.tracks = l.tracks
  alike : Moment.Alike l.group d.jugglers d.paths I l.timeline.moments l'.timeline.moments
  related : ∀ m ∈ l.timeline.moments, ∀ n ∈ l.timeline.moments, ∀ m' ∈ l'.timeline.moments,
    ∀ n' ∈ l'.timeline.moments, m'.event = m.event → n'.event = n.event →
      (m'.seed = n'.seed ↔ m.seed = n.seed)

namespace Twins

variable (T : Twins d d' l l' I)

include T

theorem symm : Twins d' d l' l I where
  sound := T.sound'
  sound' := T.sound
  jugglers := T.jugglers.symm
  paths := T.paths.symm
  group := T.group.symm
  tracks := T.tracks.symm
  alike := by
    rw [T.group, T.jugglers, T.paths]
    exact T.alike.symm
  related := fun m hm n hn m' hm' n' hn' heq heq' ↦
    (T.related m' hm' n' hn' m hm n hn heq.symm heq'.symm).symm

theorem isGroupOf : l.group.IsGroupOf d.symmetries d.jugglers d.paths :=
  T.sound.built.isGroupOf T.sound.perms

theorem loop : l'.loop = l.loop := by
  rw [T.sound.built.loop_eq, T.sound'.built.loop_eq, T.group]

theorem traced' :
    Traced (globalPlace l.tracks) d.jugglers d.paths l'.timeline.moments l'.paths := by
  have := T.sound'.built.traced T.sound'.perms
  rwa [T.tracks, T.jugglers, T.paths] at this

theorem globalPlace_periods (q : ℤ) (e : Event α) :
    globalPlace l.tracks (e.later (q * l.group.period) (l.group.rename q)) =
      globalPlace l.tracks e :=
  T.sound.built.globalPlace_periods T.sound.perms q _ e

/-- What one layout shows between two of its moments the other one shows as well. -/
theorem exists_between {m n : Moment α} (hm : m ∈ l.timeline.moments)
    (hn : n ∈ l.timeline.moments) {o' : Moment α} (ho' : o' ∈ l'.timeline.moments)
    (hlow : m.time < o'.time) (hhigh : o'.time < n.time) :
    ∃ o ∈ l.timeline.moments, o.event = o'.event :=
  T.alike.shows.between _ (T.alike.shows'.image o' ho') m hm n hn hlow hhigh

omit [Exact α] [Numeral α] T in
theorem ofHand_congr {moments : List (Moment α)} {j : ℕ} {hand : Hand} {o o' : Moment α}
    (ho : o ∈ moments) (heq : o.event = o'.event)
    (ho' : o' ∈ Moment.ofHand l'.timeline.moments j hand) : o ∈ Moment.ofHand moments j hand := by
  obtain ⟨-, hhand⟩ := mem_ofHand.mp ho'
  exact mem_ofHand.mpr ⟨ho, by rwa [heq]⟩

/-- At one time a hand is at the same event. -/
theorem event_eq {j : ℕ} {hand : Hand} {m m' : Moment α}
    (hm : m ∈ Moment.ofHand l.timeline.moments j hand)
    (hm' : m' ∈ Moment.ofHand l'.timeline.moments j hand) (htime : m'.time = m.time) :
    m'.event = m.event := by
  obtain ⟨hm, hj, hhand⟩ := mem_ofHand.mp hm
  obtain ⟨hm', hj', hhand'⟩ := mem_ofHand.mp hm'
  exact T.alike.family.unique _ (T.alike.shows'.image m' hm') _ (T.alike.shows.image m hm)
    (hj'.trans hj.symm) (hhand'.trans hhand.symm) htime

section Hands

variable {j : ℕ} {hand : Hand}

theorem exists_determines {m : Moment α} (hm : m ∈ Moment.ofHand l.timeline.moments j hand)
    (hdetermines : m.event.determinesVelocity = true) :
    ∃ m' ∈ Moment.ofHand l'.timeline.moments j hand, m'.event.determinesVelocity = true := by
  obtain ⟨hmem, rfl, rfl⟩ := mem_ofHand.mp hm
  obtain ⟨q, m', hm', heq, -⟩ := T.alike.symm.exists_earlier T.isGroupOf hmem
  rw [heq, Event.determinesVelocity_later] at hdetermines
  exact ⟨m', mem_ofHand.mpr ⟨hm', by rw [heq]; rfl, by rw [heq]; rfl⟩, hdetermines⟩

theorem exists_stretch {a b : α} {m n : Moment α}
    (hm : m ∈ Moment.ofHand l.timeline.moments j hand)
    (hn : n ∈ Moment.ofHand l.timeline.moments j hand) (ha : m.time = a) (hb : n.time = b)
    {o' : Moment α} (ho' : o' ∈ l'.stretch j hand a b) : ∃ o ∈ l.stretch j hand a b,
      o.event = o'.event := by
  obtain ⟨ho', hlow, hhigh⟩ := mem_stretch.mp ho'
  have hmem {o : Moment α} (ho : o ∈ Moment.ofHand l.timeline.moments j hand)
      (heq : o.event = o'.event) : o ∈ l.stretch j hand a b := by
    have htime : o.time = o'.time := by rw [Moment.time, heq, Moment.time]
    exact mem_stretch.mpr ⟨ho, htime ▸ hlow, htime ▸ hhigh⟩
  rcases hlow.lt_or_eq with hlow | heq
  · rcases hhigh.lt_or_eq with hhigh | heq'
    · obtain ⟨o, ho, heq⟩ := T.exists_between (mem_ofHand.mp hm).1 (mem_ofHand.mp hn).1
        (mem_ofHand.mp ho').1 (ha ▸ hlow) (hb ▸ hhigh)
      exact ⟨o, hmem (ofHand_congr ho heq ho') heq, heq⟩
    · have heq := (T.event_eq hn ho' (by rw [hb, heq'])).symm
      exact ⟨n, hmem hn heq, heq⟩
  · have heq := (T.event_eq hm ho' (by rw [ha, heq])).symm
    exact ⟨m, hmem hm heq, heq⟩

theorem stretch_eq {a b : α} {m n m' n' : Moment α}
    (hm : m ∈ Moment.ofHand l.timeline.moments j hand)
    (hn : n ∈ Moment.ofHand l.timeline.moments j hand) (ha : m.time = a) (hb : n.time = b)
    (hm' : m' ∈ Moment.ofHand l'.timeline.moments j hand)
    (hn' : n' ∈ Moment.ofHand l'.timeline.moments j hand) (ha' : m'.time = a) (hb' : n'.time = b) :
    (l'.stretch j hand a b).map (·.event) = (l.stretch j hand a b).map (·.event) := by
  have hsorted {d : Declarations α} {l : Layout α} (S : Sound d l) :
      ((l.stretch j hand a b).map (·.event)).Pairwise fun e f ↦ e.time < f.time :=
    List.pairwise_map.mpr ((S.built.strict_ofHand S.perms j hand).sublist List.filter_sublist)
  have hirrefl : Std.Irrefl fun e e' : Event α ↦ e.time < e'.time := ⟨fun _ ↦ lt_irrefl _⟩
  have hantisymm : Std.Antisymm fun e e' : Event α ↦ e.time < e'.time :=
    ⟨fun _ _ hlt hgt ↦ absurd hgt hlt.asymm⟩
  refine List.Pairwise.eq_of_mem_iff (r := fun e e' : Event α ↦ e.time < e'.time)
    (hsorted T.sound') (hsorted T.sound) fun e ↦ ?_
  simp only [List.mem_map]
  constructor
  · rintro ⟨o', ho', rfl⟩
    exact T.exists_stretch hm hn ha hb ho'
  · rintro ⟨o, ho, rfl⟩
    exact T.symm.exists_stretch hm' hn' ha' hb' ho

/-- Curves through the same stretch of a hand are the same. -/
theorem strand_eq {a b : α} {v w : Option (Coordinate α)} {s s' : Spline α}
    (hs : l.Strand j hand a b v w s) (hs' : l'.Strand j hand a b v w s') : s' = s := by
  obtain ⟨m, hm, ha⟩ := hs.exists_start
  obtain ⟨n, hn, hb⟩ := hs.exists_stop
  obtain ⟨m', hm', ha'⟩ := hs'.exists_start
  obtain ⟨n', hn', hb'⟩ := hs'.exists_stop
  have hstretch := T.stretch_eq hm hn ha hb hm' hn' ha' hb'
  have hmap {β : Type} (f : Event α → β) : (l'.stretch j hand a b).map (fun m ↦ f m.event) =
      (l.stretch j hand a b).map fun m ↦ f m.event := by
    have := congrArg (List.map f) hstretch
    rwa [List.map_map, List.map_map] at this
  have hknots := hs'.knots
  rw [T.tracks, hmap, show (l'.stretch j hand a b).map (·.time) = _ from hmap Event.time] at hknots
  have heq : s'.knots = s.knots := Except.ok.inj (hknots.symm.trans hs.knots)
  have hsolved := hs'.solved
  rw [heq] at hsolved
  exact Except.ok.inj (hsolved.symm.trans hs.solved)

theorem paced_eq {t : α} {v v' : Coordinate α} (hv : l.Paced j hand t v)
    (hv' : l'.Paced j hand t v') : v' = v := by
  obtain ⟨m, hm, htime, r, hr, hv⟩ := hv
  obtain ⟨m', hm', htime', r', hr', hv'⟩ := hv'
  have hevent := T.event_eq hm hm' (htime'.trans htime.symm)
  obtain ⟨hm, -⟩ := mem_ofHand.mp hm
  have hsame : m'.event = m.event.later ((0 : ℤ) * l.group.period) (l.group.rename 0) :=
    hevent.trans (Event.later_eq_self (by simp) fun t ht ↦ T.isGroupOf.rename_zero
      ((T.alike.family.placed _ (T.alike.shows.image m hm)).path t ht).2).symm
  have hresolve := T.alike.resolve_eq T.isGroupOf T.globalPlace_periods
    (T.sound.built.traced T.sound.perms) T.traced' hm (mem_ofHand.mp hm').1 hsame hr hr'
  exact Except.ok.inj (hv'.symm.trans (hresolve.trans hv))

variable {t : α} (hlow : 0 ≤ t) (hhigh : t < l.group.period)

include hlow hhigh

/-- No event of the other layout parts a curve with given velocities. -/
theorem pinned_within {a b a' b' : α} {s s' : Spline α} (hs : l.Pinned j hand a b s)
    (hs' : l'.Pinned j hand a' b' s') (ha : a ≤ t) (hb : t < b) (ha' : a' ≤ t) (hb' : t < b') :
    a' ≤ a ∧ b ≤ b' := by
  obtain ⟨f⟩ := T.sound.filled
  obtain ⟨⟨v, w, -, ⟨m, hm, rfl, -⟩, n, hn, rfl, -⟩, -⟩ := id hs
  obtain ⟨⟨v', w', -, ⟨m', hm', rfl, r, hr, -⟩, n', hn', rfl, r', hr', -⟩, -⟩ := hs'
  have hapart {o' : Moment α} (ho' : o' ∈ Moment.ofHand l'.timeline.moments j hand)
      (hresolved : l'.Resolved o') (hgt : m.time < o'.time) (hlt : o'.time < n.time) : False := by
    obtain ⟨o, ho, heq⟩ := T.exists_between (mem_ofHand.mp hm).1 (mem_ofHand.mp hn).1
      (mem_ofHand.mp ho').1 hgt hlt
    have htime : o.time = o'.time := congrArg Event.time heq
    rcases hs.apart_of_determines T.sound.built T.sound.perms T.sound.clear hlow hhigh f
      T.sound.long ha hb (ofHand_congr ho heq ho') (heq ▸ hresolved.determines) with hle | hle
    · exact absurd (htime ▸ hle) (not_le.mpr hgt)
    · exact absurd (htime ▸ hle) (not_le.mpr hlt)
  constructor
  · by_contra! hgt
    exact hapart hm' ⟨r, hr⟩ hgt (ha'.trans_lt hb)
  · by_contra! hlt
    exact hapart hn' ⟨r', hr'⟩ (ha.trans_lt hb') hlt

theorem pinned_eq {a b a' b' : α} {s s' : Spline α} (hs : l.Pinned j hand a b s)
    (hs' : l'.Pinned j hand a' b' s') (ha : a ≤ t) (hb : t < b) (ha' : a' ≤ t) (hb' : t < b') :
    s' = s := by
  obtain ⟨hle, hle'⟩ := T.pinned_within hlow hhigh hs hs' ha hb ha' hb'
  obtain ⟨hge, hge'⟩ := T.symm.pinned_within hlow (by rwa [T.group]) hs' hs ha' hb' ha hb
  obtain rfl := le_antisymm hle hge
  obtain rfl := le_antisymm hle' hge'
  obtain ⟨v, w, hstrand, hv, hw⟩ := hs.strand
  obtain ⟨v', w', hstrand', hv', hw'⟩ := hs'.strand
  obtain rfl := T.paced_eq hv hv'
  obtain rfl := T.paced_eq hw hw'
  exact T.strand_eq hstrand hstrand'

omit hlow hhigh

/-- A closed curve of the other layout does not end earlier. -/
theorem recloses_le {m n m' n' : Moment α} (hm : m ∈ Moment.ofHand l.timeline.moments j hand)
    (hm' : m' ∈ Moment.ofHand l'.timeline.moments j hand) (hevent : m'.event = m.event)
    (hn : l.Recloses j hand m n) (hn' : l'.Recloses j hand m' n') : n.time ≤ n'.time := by
  by_contra! hlt
  have htime : m'.time = m.time := congrArg Event.time hevent
  obtain ⟨o, ho, heq⟩ := T.exists_between (mem_ofHand.mp hm).1 (mem_ofHand.mp hn.mem).1
    (mem_ofHand.mp hn'.mem).1 (htime ▸ hn'.lt) hlt
  have hotime : o.time = n'.time := congrArg Event.time heq
  have hseed : o.seed = m.seed := ((T.related m (mem_ofHand.mp hm).1 o ho m' (mem_ofHand.mp hm').1
    n' (mem_ofHand.mp hn'.mem).1 hevent heq.symm).mp hn'.seed.symm).symm
  have hfar := hn.first o (ofHand_congr ho heq hn'.mem) (hotime ▸ htime ▸ hn'.lt) (hotime ▸ hlt)
    hseed
  have hnear := hn'.near
  rw [T.group, htime, ← hotime] at hnear
  exact absurd hnear (not_lt.mpr hfar)

theorem recloses_eq {m n m' n' : Moment α} (hm : m ∈ Moment.ofHand l.timeline.moments j hand)
    (hm' : m' ∈ Moment.ofHand l'.timeline.moments j hand) (hevent : m'.event = m.event)
    (hn : l.Recloses j hand m n) (hn' : l'.Recloses j hand m' n') : n'.event = n.event :=
  T.event_eq hn.mem hn'.mem (le_antisymm (T.symm.recloses_le hm' hm hevent.symm hn' hn)
    (T.recloses_le hm hm' hevent hn hn'))

/-- Closed curves start at the same event. -/
theorem closes_le {m n o m' n' o' : Moment α} {s s₁ s' s₁' : Spline α}
    (hc : l.Closes j hand m n o s s₁) (hc' : l'.Closes j hand m' n' o' s' s₁') :
    m'.time ≤ m.time := by
  by_contra! hgt
  have hpos : 0 < n.time := by
    by_contra! hle
    exact absurd hc.first.lt (not_lt.mpr (hc.last n hc.first.mem hle))
  obtain ⟨p, hp, heq⟩ := T.exists_between (mem_ofHand.mp hc.mem).1 (mem_ofHand.mp hc.first.mem).1
    (mem_ofHand.mp hc'.mem).1 hgt (hc'.low.trans_lt hpos)
  have htime : p.time = m'.time := congrArg Event.time heq
  have := hc.last p (ofHand_congr hp heq hc'.mem) (htime ▸ hc'.low)
  exact absurd (htime ▸ this) (not_le.mpr hgt)

theorem handCurveAt_eq_of_closes (hlow : 0 ≤ t) (hhigh : t < l.group.period)
    {m n o m' n' o' : Moment α} {s s₁ s' s₁' : Spline α} (hc : l.Closes j hand m n o s s₁)
    (hc' : l'.Closes j hand m' n' o' s' s₁') :
    l'.handCurveAt j hand t = l.handCurveAt j hand t := by
  have hm := T.event_eq hc.mem hc'.mem (le_antisymm (T.closes_le hc hc') (T.symm.closes_le hc' hc))
  have hn := T.recloses_eq hc.mem hc'.mem hm hc.first hc'.first
  have ho := T.recloses_eq hc.first.mem hc'.first.mem hn hc.second hc'.second
  have hmtime : m'.time = m.time := congrArg Event.time hm
  have hntime : n'.time = n.time := congrArg Event.time hn
  have hotime : o'.time = o.time := congrArg Event.time ho
  obtain rfl := T.strand_eq hc.strand (by rw [← hmtime, ← hntime]; exact hc'.strand)
  obtain rfl := T.strand_eq hc.strand' (by rw [← hntime, ← hotime]; exact hc'.strand')
  rw [hc.answer t hlow hhigh, hc'.answer t hlow (by rwa [T.group]), hntime, hotime]

/-- A hand is on the same curve. -/
theorem handCurveAt_eq (hj : 1 ≤ j ∧ j ≤ d.jugglers) (hlow : 0 ≤ t) (hhigh : t < l.group.period) :
    l'.handCurveAt j hand t = l.handCurveAt j hand t := by
  have hj' : 1 ≤ j ∧ j ≤ d'.jugglers := by rwa [T.jugglers]
  have hhigh' : t < l'.group.period := by rwa [T.group]
  by_cases hdet : ∃ m ∈ Moment.ofHand l.timeline.moments j hand, m.event.determinesVelocity = true
  · obtain ⟨m, hm, hdet⟩ := hdet
    obtain ⟨m', hm', hdet'⟩ := T.exists_determines hm hdet
    obtain ⟨f⟩ := T.sound.filled
    obtain ⟨f'⟩ := T.sound'.filled
    obtain ⟨a, b, s, hs, hpinned, ha, hb⟩ := exists_pinned T.sound.built T.sound.perms T.sound.clear
      hj hlow hhigh f T.sound.long hm hdet
    obtain ⟨a', b', s', hs', hpinned', ha', hb'⟩ := exists_pinned T.sound'.built T.sound'.perms
      T.sound'.clear hj' hlow hhigh' f' T.sound'.long hm' hdet'
    rw [hs, hs', T.pinned_eq hlow hhigh hpinned hpinned' ha hb ha' hb']
  · have hnone {d : Declarations α} {l : Layout α} (S : Sound d l)
        (hj : 1 ≤ j ∧ j ≤ d.jugglers)
        (hdet : ¬∃ m ∈ Moment.ofHand l.timeline.moments j hand, m.event.determinesVelocity = true) :
        ∃ m n o s s', l.Closes j hand m n o s s' := by
      have hfalse : ∀ m ∈ Moment.ofHand l.timeline.moments j hand,
          m.event.determinesVelocity = false := by
        simpa using hdet
      exact exists_closes S.built S.perms S.clear hj hfalse (S.past j hj hand hfalse)
    obtain ⟨m, n, o, s, s₁, hc⟩ := hnone T.sound hj hdet
    obtain ⟨m', n', o', s', s₁', hc'⟩ := hnone T.sound' hj' fun ⟨m', hm', hdet'⟩ ↦
      hdet (T.symm.exists_determines hm' hdet')
    exact T.handCurveAt_eq_of_closes hlow hhigh hc hc'

end Hands

section Answers

variable {p : ℕ} (hp : 1 ≤ p ∧ p ≤ d.paths) {t : α}

include hp

/-- A path is on a link like that of the other layout. -/
theorem exists_pathLink (hlow : 0 ≤ t) (hhigh : t < l.group.period) :
    ∃ k ∈ l.pathLinks p, ∃ k', l.pathLinkAt p t = .ok k ∧ l'.pathLinkAt p t = .ok k' ∧
      k'.passage = k.passage.later ((0 : ℤ) * l.group.period) := by
  obtain ⟨k, hk, hat, hstart, hstop⟩ := T.sound.exists_pathLink hp hlow hhigh
  obtain ⟨k', hk', hat', hstart', hstop'⟩ := T.sound'.exists_pathLink (p := p) (by rwa [T.paths])
    hlow (by rwa [T.group])
  refine ⟨k, hk, k', hat, hat', T.alike.passage_eq T.isGroupOf T.globalPlace_periods
    (T.sound.built.traced T.sound.perms).toWoven T.traced'.toWoven hp hk (hstart.trans_lt hstop)
    (by rwa [T.isGroupOf.rename_zero hp.2]) (hstart'.trans_lt hstop') ?_ ?_⟩
  · simpa using hstart.trans_lt hstop'
  · simpa using hstart'.trans_lt hstop

omit hp in
theorem wrapTime_eq (t : α) : l'.wrapTime t = l.wrapTime t := by
  rw [wrapTime, wrapTime, period, period, T.loop]

omit hp in
theorem wrapTime_mem (t : α) : 0 ≤ l.wrapTime t ∧ l.wrapTime t < l.group.period := by
  have := T.sound.built.wrapTime_mem T.sound.perms t
  rwa [T.sound.built.low, T.sound.built.high] at this

theorem isHeld_eq (t : α) : l'.isHeld p t = l.isHeld p t := by
  obtain ⟨hlow, hhigh⟩ := T.wrapTime_mem t
  obtain ⟨k, -, k', hk, hk', hpassage⟩ := T.exists_pathLink hp hlow hhigh
  rw [isHeld, isHeld, T.wrapTime_eq, hk, hk', Except.map, Except.map,
    PathLink.isHeld_of_later hpassage]

omit hp in
theorem handPlace_eq {j : ℕ} (hj : 1 ≤ j ∧ j ≤ d.jugglers) (hand : Hand) (t : α) :
    l'.handPlace j hand t = l.handPlace j hand t := by
  obtain ⟨hlow, hhigh⟩ := T.wrapTime_mem t
  rw [handPlace, handPlace, T.wrapTime_eq, handPlaceWithin, handPlaceWithin,
    T.handCurveAt_eq hj hlow hhigh]

theorem pathPlace_eq (t : α) : l'.pathPlace p t = l.pathPlace p t := by
  obtain ⟨hlow, hhigh⟩ := T.wrapTime_mem t
  obtain ⟨k, hmem, k', hk, hk', hpassage⟩ := T.exists_pathLink hp hlow hhigh
  rw [pathPlace, pathPlace, T.wrapTime_eq, hk, hk']
  simp only [bind, Except.bind, hpassage]
  cases hx : k.passage with
  | held j hand =>
    simp only [Passage.later, handPlaceWithin,
      T.handCurveAt_eq (T.sound.built.held T.sound.perms hp hmem hx) hlow hhigh]
  | thrown kind modifier f =>
    have hposition := f.position_later ((0 : ℤ) * l.group.period) (l.wrapTime t)
    rw [Int.cast_zero, zero_mul, add_zero] at hposition
    simp only [Passage.later, Int.cast_zero, zero_mul, hposition]

end Answers

end Twins

namespace IsBuilt

variable (h : IsBuilt d l)
  (hperms : ∀ s ∈ d.symmetries, s.jugglers.Rearranges ∧ s.paths.Rearranges)
  (hd : SymmetryGroup.Discrete l.group.period d.symmetries d.events)

include h hperms hd

theorem sound : Sound d l := by
  have hg := h.isGroupOf hperms
  have hs := hd.separated h.events_ne
  obtain ⟨-, -, -, hdiscrete⟩ := h.exists_timeline hperms hd (List.Perm.refl _)
    (by rw [h.timeline]; exact fun heq ↦ by cases heq)
  obtain ⟨hplaced, ⟨x⟩⟩ := h.expanded hperms
  rw [h.loop_eq] at x
  have hfree := h.free hperms hs
  have hne := (Timeline.settle_ok hg.image_fits (Declarations.validate_ok h.valid).1
    h.timeline).nonempty
  have hshows := x.shows hg hs hplaced hfree
  refine ⟨h, hperms, h.filled hperms hs, fun m hm ↦ hdiscrete.le_zero hg (hshows.image m hm),
    hd.timeTolerance_lt_period hg h.events_ne, fun j hj hand hnone ↦ ?_⟩
  obtain ⟨-, n, hn, hle⟩ := x.free_reach hg hdiscrete hplaced hfree hne (h.traced hperms) hj hnone
  exact ⟨n, hn, by linarith [hg.period_pos]⟩

/-- Layouts of the same events in different order show the same events. -/
theorem twins {es : List (Event α)} (hperm : d.events.Perm es) {l' : Layout α}
    (h' : IsBuilt { d with events := es } l') :
    Twins d { d with events := es } l l' (l.group.imagesOf l.timeline.seeds) := by
  have hg := h.isGroupOf hperms
  have hs := hd.separated h.events_ne
  have hgroup : l'.group = l.group := Except.ok.inj (h'.group.symm.trans h.group)
  have hloop : l'.loop = l.loop := by rw [h.loop_eq, h'.loop_eq, hgroup]
  have hbuild := h'.timeline
  rw [hgroup, hloop] at hbuild
  obtain ⟨t, ht, hseeds, -⟩ := h.exists_timeline hperms hd hperm
    (by rw [hbuild]; exact fun heq ↦ by cases heq)
  obtain rfl : t = l'.timeline := Except.ok.inj (ht.symm.trans hbuild)
  obtain ⟨hplaced, ⟨x⟩⟩ := h.expanded hperms
  obtain ⟨hplaced', ⟨x'⟩⟩ := h'.expanded hperms
  rw [hgroup, hloop, h.loop_eq] at x'
  rw [h.loop_eq] at x
  have hfree := h.free hperms hs
  have hfree' : ∀ e ∈ l'.timeline.seeds, ¬l.group.Shadows e.juggler :=
    fun e he ↦ hfree e (hseeds.mem_iff.mpr he)
  refine ⟨h.sound hperms hd, h'.sound hperms (hgroup ▸ hd.of_perm hperm), rfl, rfl, hgroup,
    Except.ok.inj (h'.tracks.symm.trans (hloop ▸ h.tracks)), x.alike hg hs hplaced hfree hseeds x'
      (h.traced hperms).toWoven, fun m hm n hn m' hm' n' hn' heq heq' ↦ ?_⟩
  rw [x.related_iff hg hs hplaced hfree hm hn, x'.related_iff hg hs hplaced' hfree' hm' hn', heq,
    heq', SymmetryGroup.related_perm hseeds]

end IsBuilt

end Layout

end Juggling
