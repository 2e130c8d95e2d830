import Juggling.Proofs.Strands

namespace Juggling

variable {α : Type} [Exact α]

theorem HandCurve.Spans.mem {x : HandCurve α} {links : List (HandLink α)} {chains : List (Chain α)}
    {c : Chain α} (h : x.Spans links chains) (hc : c ∈ chains) : c.curve = none ∨
    ∃ pre ls k post v w, links = pre ++ (ls ++ [k]) ++ post ∧
      (ls ++ [k]).head?.bind (·.startVelocity) = some v ∧ (∀ l ∈ ls, l.endVelocity = none) ∧
      k.endVelocity = some w ∧ x.clamped (ls ++ [k]) v w = .ok c := by
  induction h with
  | @rest ks hks =>
    rw [List.mem_singleton.mp hc]
    exact .inl rfl
  | @cons ls ks k v w chain chains hstart hls hend hchain hks ih =>
    rcases List.mem_cons.mp hc with rfl | hc
    · exact .inr ⟨[], ls, k, ks, v, w, by simp, hstart, hls, hend, hchain⟩
    · refine (ih hc).imp_right ?_
      rintro ⟨pre, ls', k', post, v', w', rfl, hrest⟩
      exact ⟨ls ++ k :: pre, ls', k', post, v', w', by simp, hrest⟩

namespace Layout

section Parts

variable {l : Layout α} {j : ℕ} {hand : Hand} {stops : List (Moment α × Option VelocityRef)}

/-- Stops of a hand that follow each other, from one time to another. -/
structure Part (l : Layout α) (j : ℕ) (hand : Hand)
    (stops part : List (Moment α × Option VelocityRef)) (a b : α) : Prop where
  sublist : part.Sublist stops
  moments : part.map Prod.fst = l.stretch j hand a b
  head : (part.map Prod.fst).head?.map Moment.time = some a
  last : (part.map Prod.fst).getLast?.map Moment.time = some b

theorem Part.bounds {part : List (Moment α × Option VelocityRef)} {a b : α}
    (hpart : l.Part j hand stops part a b) {k : HandLink α}
    (hk : k ∈ (steps part).map (HandLink.between j hand)) :
    a ≤ k.start.time ∧ k.stop.time ≤ b := by
  obtain ⟨p, hp, rfl⟩ := List.mem_map.mp hk
  obtain ⟨hp, hp'⟩ := mem_steps hp
  have hmem {s : Moment α × Option VelocityRef} (hs : s ∈ part) : s.1 ∈ l.stretch j hand a b := by
    rw [← hpart.moments]
    exact List.mem_map_of_mem hs
  exact ⟨(mem_stretch.mp (hmem hp)).2.1, (mem_stretch.mp (hmem hp')).2.2⟩

theorem Part.strand {part : List (Moment α × Option VelocityRef)} {a b : α}
    (hpart : l.Part j hand stops part a b) {c : Chain α}
    (hlinks : c.links = (steps part).map (HandLink.between j hand)) (hne : c.links ≠ [])
    {v w : Option (Coordinate α)}
    (hsolves : HandCurve.Solves ⟨globalPlace l.tracks, l.paths, l.loop⟩ v w c) {s : Spline α}
    (hs : c.curve = some s) : l.Strand j hand a b v w s := by
  obtain ⟨k, s', hcurve, hsolve, hk⟩ := hsolves
  obtain rfl := Option.some.inj (hcurve.symm.trans hs)
  rw [hlinks, Chain.stops_between fun hnil ↦ hne (by rw [hlinks, hnil]; rfl), hpart.moments] at hk
  have hknots := Spline.knots_ofKnots hsolve
  have hlow := k.low_range
  have hhigh := k.high_range
  rw [(Knots.ofLists_ok hk).1, ← hpart.moments] at hlow hhigh
  have ha := hpart.head
  have hb := hpart.last
  rw [← List.head?_map, show (List.map Moment.time _).head? = _ from hlow] at ha
  rw [← List.getLast?_map, show (List.map Moment.time _).getLast? = _ from hhigh] at hb
  refine ⟨hknots ▸ hk, hknots ▸ hsolve, ?_⟩
  rw [hknots, ← Option.some.inj ha, ← Option.some.inj hb]

end Parts

variable [Numeral α] {d : Declarations α} {l : Layout α} {j : ℕ} {hand : Hand}

/-- The velocity that a flight gives a hand at a time. -/
def Paced (l : Layout α) (j : ℕ) (hand : Hand) (t : α) (v : Coordinate α) : Prop :=
  ∃ m ∈ Moment.ofHand l.timeline.moments j hand, m.time = t ∧
    ∃ r, VelocityRef.ofMoment l.paths m = .ok (some r) ∧ r.resolve l.paths = .ok v

/-- A curve from one moment at which a flight gives a hand its velocity to the next. -/
structure Pinned (l : Layout α) (j : ℕ) (hand : Hand) (a b : α) (s : Spline α) : Prop where
  strand : ∃ v w, l.Strand j hand a b (some v) (some w) s ∧ l.Paced j hand a v ∧ l.Paced j hand b w
  apart : ∀ m ∈ Moment.ofHand l.timeline.moments j hand, l.Resolved m → m.time ≤ a ∨ b ≤ m.time

/-- One of the two closed curves of a hand without velocities, the first of which starts at `t`. -/
structure Free (l : Layout α) (j : ℕ) (hand : Hand) (t a b : α) (s : Spline α) : Prop where
  start : a = t ∨ a = t + l.group.period
  stop : b = a + l.group.period
  strand : l.Strand j hand a b none none s
  closed : s.position a = s.position b

/-- Every link of a hand that follows a curve follows it between times with some property. -/
def Carried (l : Layout α) (j : ℕ) (hand : Hand) (Q : α → α → Spline α → Prop) : Prop :=
  ∀ k ∈ l.handLinks j hand, ∀ s, l.curveOf? k = some s →
    ∃ a b, a ≤ k.start.time ∧ k.stop.time ≤ b ∧ Q a b s

omit [Numeral α] in
/-- What holds of the links of every chain with a curve holds of all links that follow one. -/
theorem carried_of_chains {chains : List (Chain α)}
    (hnumbers : Numbers l.curves chains (l.handLinks j hand)) {Q : α → α → Spline α → Prop}
    (hQ : ∀ c ∈ chains, ∀ s, c.curve = some s →
      ∃ a b, (∀ k ∈ c.links, a ≤ k.start.time ∧ k.stop.time ≤ b) ∧ Q a b s) :
    l.Carried j hand Q := by
  intro k hk s hcurve
  obtain ⟨c, hc, k', hk', hrange, hcurve'⟩ := hnumbers.mem hk
  obtain ⟨a, b, hbounds, hab⟩ := hQ c hc s (hcurve'.symm.trans hcurve)
  obtain ⟨ha, hb⟩ := hbounds k' hk'
  obtain ⟨hstart, hstop⟩ := Window.mk.inj hrange
  exact ⟨a, b, hstart ▸ ha, hstop ▸ hb, hab⟩

namespace IsBuilt

variable (h : IsBuilt d l)
  (hperms : ∀ s ∈ d.symmetries, s.jugglers.Rearranges ∧ s.paths.Rearranges)
  {stops : List (Moment α × Option VelocityRef)}
  (hstops : HandLink.Stops l.paths l.timeline.moments j hand stops)

include h hperms hstops

theorem exists_part {pre ls post : List (HandLink α)}
    (hlinks : (steps stops).map (HandLink.between j hand) = pre ++ ls ++ post)
    {first last : HandLink α} (hfirst : ls.head? = some first) (hlast : ls.getLast? = some last) :
    ∃ part, ls = (steps part).map (HandLink.between j hand) ∧
      l.Part j hand stops part first.start.time last.stop.time := by
  obtain ⟨AB, C, hsplit, hAB, -⟩ := List.map_eq_append_iff.mp hlinks
  obtain ⟨A, B, rfl, -, rfl⟩ := List.map_eq_append_iff.mp hAB
  rw [List.head?_map, Option.map_eq_some_iff] at hfirst
  rw [List.getLast?_map, Option.map_eq_some_iff] at hlast
  obtain ⟨p, hp, rfl⟩ := hfirst
  obtain ⟨q, hq, rfl⟩ := hlast
  -- Links that follow each other are the steps of a part of the stops.
  obtain ⟨X, part, Z, rfl, rfl⟩ := exists_of_steps_eq hsplit
    (List.ne_nil_of_mem (List.mem_of_head? hp))
  have hhead : (part.map Prod.fst).head? = some p.1.1 := by
    rw [List.head?_map, head?_of_steps hp]
    rfl
  have hfinal : (part.map Prod.fst).getLast? = some q.2.1 := by
    rw [List.getLast?_map, getLast?_of_steps hq]
    rfl
  refine ⟨part, rfl, (List.sublist_append_right _ _).trans (List.sublist_append_left _ _),
    ?_, ?_, ?_⟩
  · have hsorted := h.strict_ofHand hperms j hand
    rw [← hstops.moments, List.map_append, List.map_append] at hsorted
    rw [stretch, ← hstops.moments, List.map_append, List.map_append]
    exact (filter_stretch hsorted hhead hfinal).symm
  · rw [hhead]
    rfl
  · rw [hfinal]
    rfl

/-- At a moment within a part at which a flight gives the hand its velocity a step of the part ends
with that velocity. -/
theorem exists_step_to_part {part : List (Moment α × Option VelocityRef)} {a b : α}
    (hpart : l.Part j hand stops part a b) {s : Moment α × Option VelocityRef} (hs : s ∈ part)
    {m : Moment α} (hm : m ∈ Moment.ofHand l.timeline.moments j hand) {r : VelocityRef}
    (hr : VelocityRef.ofMoment l.paths m = .ok (some r)) (ha : a ≤ m.time) (hb : m.time ≤ b)
    (hlt : s.1.time < m.time) : ∃ t, (t, (m, some r)) ∈ steps part := by
  have hmem : (m, some r) ∈ part := by
    have hmem : m ∈ part.map Prod.fst := by
      rw [hpart.moments]
      exact mem_stretch.mpr ⟨hm, ha, hb⟩
    obtain ⟨t, ht, rfl⟩ := List.mem_map.mp hmem
    have := Except.ok.inj ((hstops.velocity t (hpart.sublist.subset ht)).symm.trans hr)
    rwa [← this]
  exact exists_step_to ((h.sorted_stops hperms hstops).sublist hpart.sublist) hmem hs
    (fun heq ↦ hlt.ne' (congrArg (·.1.time) heq)) (not_le.mpr hlt)

theorem pinned_of_clamped {pre ls post : List (HandLink α)} {k : HandLink α} {v w : VelocityRef}
    {c : Chain α}
    (hlinks : (steps stops).map (HandLink.between j hand) = pre ++ (ls ++ [k]) ++ post)
    (hstart : (ls ++ [k]).head?.bind (·.startVelocity) = some v)
    (hls : ∀ l ∈ ls, l.endVelocity = none) (hend : k.endVelocity = some w)
    (hc : HandCurve.clamped ⟨globalPlace l.tracks, l.paths, l.loop⟩ (ls ++ [k]) v w = .ok c)
    {s : Spline α} (hs : c.curve = some s) :
    ∃ a b, (∀ k' ∈ c.links, a ≤ k'.start.time ∧ k'.stop.time ≤ b) ∧ l.Pinned j hand a b s := by
  obtain ⟨x, hx, hc⟩ := bind_eq_ok.mp hc
  obtain ⟨y, hy, hc⟩ := bind_eq_ok.mp hc
  rw [lift_eq_ok] at hx hy
  obtain ⟨hclinks, hsolves⟩ := HandCurve.solve_ok hc
  obtain ⟨first, hfirst, hv⟩ := Option.bind_eq_some_iff.mp hstart
  obtain ⟨part, hpart, hspec⟩ := h.exists_part hperms hstops hlinks hfirst
    List.getLast?_concat
  have hstrand := hspec.strand (hclinks.trans hpart) (by simp [hclinks]) hsolves hs
  -- The stops at which the chain starts and ends have velocities.
  have hpaced {t : Moment α × Option VelocityRef} (ht : t ∈ part) {r : VelocityRef}
      {u : Coordinate α} (hr : t.2 = some r) (hu : r.resolve l.paths = .ok u) :
      l.Paced j hand t.1.time u := by
    refine ⟨t.1, ?_, rfl, r, hr ▸ hstops.velocity t (hspec.sublist.subset ht), hu⟩
    rw [← hstops.moments]
    exact List.mem_map_of_mem (hspec.sublist.subset ht)
  have hmem {k' : HandLink α} (hk' : k' ∈ ls ++ [k]) :
      ∃ p ∈ steps part, k' = HandLink.between j hand p := by
    rw [hpart] at hk'
    obtain ⟨p, hp, rfl⟩ := List.mem_map.mp hk'
    exact ⟨p, hp, rfl⟩
  obtain ⟨p, hp, rfl⟩ := hmem (List.mem_of_head? hfirst)
  obtain ⟨q, hq, rfl⟩ := hmem (List.mem_append_right ls List.mem_cons_self)
  refine ⟨_, _, fun k' hk' ↦ hspec.bounds (by rwa [← hpart, ← hclinks]),
    ⟨x, y, hstrand, hpaced (mem_steps hp).1 hv hx, hpaced (mem_steps hq).2 hend hy⟩, ?_⟩
  rintro m hm ⟨r, hr⟩
  by_contra! hbetween
  -- The link that ends at such a moment is not the last one.
  obtain ⟨t, ht⟩ := h.exists_step_to_part hperms hstops hspec (mem_steps hp).1 hm hr
    hbetween.1.le hbetween.2.le hbetween.1
  have hlink : HandLink.between j hand (t, (m, some r)) ∈ ls ++ [HandLink.between j hand q] := by
    rw [hpart]
    exact List.mem_map_of_mem ht
  rcases List.mem_append.mp hlink with hlink | hlink
  · cases hls _ hlink
  · have := congrArg HandLink.stop (List.mem_singleton.mp hlink)
    exact hbetween.2.ne (congrArg Moment.time this)

omit hstops in
/-- Images of one event that are of the same hand are in the same place. -/
theorem place_eq_of_seed (f : l.Filled d.jugglers d.paths) {m n : Moment α}
    (hm : m ∈ Moment.ofHand l.timeline.moments j hand)
    (hn : n ∈ Moment.ofHand l.timeline.moments j hand) (hseed : n.seed = m.seed)
    (htime : n.time = m.time + l.group.period) :
    globalPlace l.tracks n.event = globalPlace l.tracks m.event := by
  obtain ⟨hm, hmj, hmh⟩ := mem_ofHand.mp hm
  obtain ⟨hn, hnj, hnh⟩ := mem_ofHand.mp hn
  obtain ⟨e, he, heq⟩ := f.run.generated (f.of_moment m hm)
  obtain ⟨e', he', heq'⟩ := f.run.generated (f.of_moment n hn)
  rw [show n.toGenerated.seed = m.toGenerated.seed from hseed] at he'
  obtain rfl := Option.some.inj (he.symm.trans he')
  have hevent : m.event = (l.group.image m.image).apply e := congrArg Generated.event heq
  have hevent' : n.event = (l.group.image n.image).apply e := congrArg Generated.event heq'
  have hplace : n.event.place = m.event.place := by
    rw [hevent, hevent']
    rw [hevent] at hmh
    rw [hevent', ← hmh] at hnh
    simp only [Transform.apply] at hnh ⊢
    split_ifs at hnh ⊢ <;> first | rfl | (cases he : e.hand <;> simp [he, Hand.other] at hnh)
  rw [← h.globalPlace_later hperms m.event (l.group.rename 1), globalPlace, globalPlace, hplace,
    hnj, Event.juggler_later, hmj, Event.time_later, Event.place_later,
    show n.event.time = m.event.time + l.group.period from htime]

/-- A closed chain leads from a moment to the same one a period later. -/
theorem ends_of_closed (f : l.Filled d.jugglers d.paths)
    (hs : SymmetryGroup.Spaced l.group.period d.symmetries) {pre post : List (HandLink α)}
    {c : Chain α} (hlinks : (steps stops).map (HandLink.between j hand) = pre ++ c.links ++ post)
    (hc : HandCurve.Closed ⟨globalPlace l.tracks, l.paths, l.loop⟩ c) {first last : HandLink α}
    (hfirst : c.links.head? = some first) (hlast : c.links.getLast? = some last) :
    first.start ∈ Moment.ofHand l.timeline.moments j hand ∧
      last.stop ∈ Moment.ofHand l.timeline.moments j hand ∧ last.stop.seed = first.start.seed ∧
        last.stop.time = first.start.time + l.group.period := by
  obtain ⟨first', last', init, hinit, hhead, hcloses, -⟩ := hc.closes
  obtain rfl := Option.some.inj (hhead.symm.trans hfirst)
  obtain rfl : last' = last := by
    rw [hinit, List.getLast?_concat] at hlast
    exact Option.some.inj hlast
  have hmem {k : HandLink α} (hk : k ∈ c.links) :
      k.start ∈ Moment.ofHand l.timeline.moments j hand ∧
        k.stop ∈ Moment.ofHand l.timeline.moments j hand :=
    mem_steps (hstops.step_of_link
      (hlinks ▸ List.mem_append_left _ (List.mem_append_right _ hk)))
  have hm := (hmem (List.mem_of_head? hfirst)).1
  have hn := (hmem (List.mem_of_getLast? hlast)).2
  have htime := f.time_of_closes h hperms hs (mem_ofHand.mp hm).1 (mem_ofHand.mp hn).1 hcloses
  rw [HandCurve.closes, Bool.and_eq_true, beq_iff_eq] at hcloses
  exact ⟨hm, hn, hcloses.1, htime⟩

theorem free_of_closed (f : l.Filled d.jugglers d.paths)
    (hs : SymmetryGroup.Spaced l.group.period d.symmetries) {pre post : List (HandLink α)}
    {c : Chain α} (hlinks : (steps stops).map (HandLink.between j hand) = pre ++ c.links ++ post)
    (hc : HandCurve.Closed ⟨globalPlace l.tracks, l.paths, l.loop⟩ c) {first last : HandLink α}
    (hfirst : c.links.head? = some first) (hlast : c.links.getLast? = some last) {t : α}
    (ht : first.start.time = t ∨ first.start.time = t + l.group.period) {s : Spline α}
    (hcurve : c.curve = some s) :
    ∃ a b, (∀ k ∈ c.links, a ≤ k.start.time ∧ k.stop.time ≤ b) ∧ l.Free j hand t a b s := by
  obtain ⟨hm, hn, hseed, htime⟩ := h.ends_of_closed hperms hstops f hs hlinks hc hfirst hlast
  obtain ⟨part, hpart, hspec⟩ := h.exists_part hperms hstops hlinks hfirst hlast
  have hle : first.start.time ≤ last.stop.time := by
    rw [htime]
    exact le_add_of_nonneg_right (h.isGroupOf hperms).period_pos.le
  have hstrand :=
    hspec.strand hpart (List.ne_nil_of_mem (List.mem_of_head? hfirst)) hc.solves hcurve
  have hpass := hstrand.spec.1
  refine ⟨_, _, fun k hk ↦ hspec.bounds (hpart ▸ hk), ht, htime, hstrand, ?_⟩
  rw [hpass _ hm le_rfl hle, hpass _ hn hle le_rfl, h.place_eq_of_seed hperms f hm hn hseed htime]

theorem pinned_of_mem {chains : List (Chain α)} (hchains : HandCurve.pinned
      ⟨globalPlace l.tracks, l.paths, l.loop⟩ none ((steps stops).map (HandLink.between j hand)) =
        .ok chains) {c : Chain α} (hc : c ∈ chains) {s : Spline α} (hcurve : c.curve = some s) :
    ∃ a b, (∀ k ∈ c.links, a ≤ k.start.time ∧ k.stop.time ≤ b) ∧ l.Pinned j hand a b s := by
  obtain ⟨bare, rest, spans, hsplit, rfl, -, hspans⟩ :=
    HandCurve.pinned_ok (HandLink.joined_between stops) hchains
  rcases List.mem_append.mp hc with hc | hc
  · obtain ⟨k, -, rfl⟩ := List.mem_map.mp hc
    cases hcurve
  · rcases hspans.mem hc with hnone | ⟨pre, ls, k, post, v, w, rfl, hstart, hls, hend, hclamped⟩
    · cases hnone.symm.trans hcurve
    · have hlinks : (steps stops).map (HandLink.between j hand) =
          (bare ++ pre) ++ (ls ++ [k]) ++ post := by
        rw [hsplit]
        simp
      exact h.pinned_of_clamped hperms hstops hlinks hstart hls hend hclamped hcurve

theorem free_of_mem (f : l.Filled d.jugglers d.paths)
    (hs : SymmetryGroup.Spaced l.group.period d.symmetries) {chains : List (Chain α)}
    (hchains : HandCurve.free ⟨globalPlace l.tracks, l.paths, l.loop⟩ j hand
      ((steps stops).map (HandLink.between j hand)) = .ok chains) : ∃ t, ∀ c ∈ chains, ∀ s,
        c.curve = some s → ∃ a b, (∀ k ∈ c.links, a ≤ k.start.time ∧ k.stop.time ≤ b) ∧
          l.Free j hand t a b s := by
  obtain ⟨before, c, d, after, hlinks, rfl, hc, hd, -⟩ := HandCurve.free_ok hchains
  obtain ⟨first, last, init, hinit, hfirst, -⟩ := hc.closes
  obtain ⟨first', last', init', hinit', hfirst', -⟩ := hd.closes
  have hlast : c.links.getLast? = some last := by rw [hinit, List.getLast?_concat]
  have hlast' : d.links.getLast? = some last' := by rw [hinit', List.getLast?_concat]
  obtain ⟨x, y, hlinked⟩ := h.linked_hand hperms hstops
  -- The second curve starts where the first one ends.
  have hmeet : last.stop.time = first'.start.time := by
    rw [hlinks] at hlinked
    obtain ⟨_, hlinked, -⟩ := hlinked.split
    obtain ⟨z, hlinked, hd⟩ := hlinked.split
    obtain ⟨_, -, hc⟩ := hlinked.split
    exact (hc.high_getLast? hlast).trans (hd.low_head? hfirst').symm
  have hlinks' : (steps stops).map (HandLink.between j hand) =
      before ++ c.links ++ (d.links ++ after) := by
    rw [hlinks, List.append_assoc]
  refine ⟨first.start.time, fun e he s hcurve ↦ ?_⟩
  simp only [List.mem_cons, List.not_mem_nil, or_false] at he
  rcases he with rfl | rfl | rfl | rfl
  · cases hcurve
  · exact h.free_of_closed hperms hstops f hs hlinks' hc hfirst hlast (.inl rfl) hcurve
  · obtain ⟨-, -, -, htime⟩ := h.ends_of_closed hperms hstops f hs hlinks' hc hfirst hlast
    exact h.free_of_closed hperms hstops f hs hlinks hd hfirst' hlast' (.inr (hmeet ▸ htime))
      hcurve
  · cases hcurve

omit hstops in
theorem carried_pinned (hj : 1 ≤ j ∧ j ≤ d.jugglers) {m : Moment α}
    (hm : m ∈ Moment.ofHand l.timeline.moments j hand)
    (hdetermines : m.event.determinesVelocity = true) : l.Carried j hand (l.Pinned j hand) := by
  obtain ⟨stops, chains, hstops, hchains, hnumbers⟩ := h.hand_ok hj hand
  rw [HandCurve.chains, if_pos (List.any_eq_true.mpr ⟨m, hm, hdetermines⟩)] at hchains
  exact carried_of_chains hnumbers fun c hc s ↦ h.pinned_of_mem hperms hstops hchains hc

omit hstops in
/-- The curves of a hand lead from each velocity that a flight gives it to the next, or else there
are two closed ones. -/
theorem carried (f : l.Filled d.jugglers d.paths)
    (hs : SymmetryGroup.Spaced l.group.period d.symmetries) (hj : 1 ≤ j ∧ j ≤ d.jugglers)
    (hand : Hand) :
    l.Carried j hand (l.Pinned j hand) ∨
      (∀ m ∈ Moment.ofHand l.timeline.moments j hand, m.event.determinesVelocity = false) ∧
        ∃ t, l.Carried j hand (l.Free j hand t) := by
  by_cases hpinned : ∃ m ∈ Moment.ofHand l.timeline.moments j hand,
      m.event.determinesVelocity = true
  · obtain ⟨m, hm, hdetermines⟩ := hpinned
    exact .inl (h.carried_pinned hperms hj hm hdetermines)
  · obtain ⟨stops, chains, hstops, hchains, hnumbers⟩ := h.hand_ok hj hand
    have hnone : (Moment.ofHand l.timeline.moments j hand).any (·.event.determinesVelocity) =
        false := by
      simpa using hpinned
    rw [HandCurve.chains, hnone] at hchains
    obtain ⟨t, hfree⟩ := h.free_of_mem hperms hstops f hs hchains
    exact .inr ⟨by simpa using hpinned, t, carried_of_chains hnumbers hfree⟩

end IsBuilt

end Layout

end Juggling
