import Juggling.Proofs.ReorderedLayout
import Juggling.Proofs.HandMotion

namespace Juggling

variable {α : Type} [Exact α]

theorem HandLink.Ascend.block {pre links post : List (HandLink α)}
    (h : Ascend (pre ++ links ++ post)) {first last : HandLink α}
    (hfirst : links.head? = some first) (hlast : links.getLast? = some last) :
    (∀ k ∈ pre, k.stop.time ≤ first.start.time) ∧
      (∀ k ∈ links, first.start.time ≤ k.start.time ∧ k.stop.time ≤ last.stop.time) ∧
      ∀ k ∈ post, last.stop.time ≤ k.start.time := by
  obtain ⟨hlinks, -, hpost⟩ := List.pairwise_append.mp h.stop_le_start
  obtain ⟨-, -, hpre⟩ := List.pairwise_append.mp hlinks
  have hlt {k : HandLink α} (hk : k ∈ links) : k.start.time < k.stop.time :=
    h.lt k (List.mem_append_left _ (List.mem_append_right _ hk))
  have hfirstmem := List.mem_of_head? hfirst
  have hlastmem := List.mem_of_getLast? hlast
  refine ⟨fun k hk ↦ hpre k hk first hfirstmem, fun k hk ↦ ⟨?_, ?_⟩,
    fun k hk ↦ hpost last (List.mem_append_right _ hlastmem) k hk⟩
  · obtain ⟨ks, rfl⟩ : ∃ ks, links = first :: ks := List.head?_eq_some_iff.mp hfirst
    rcases List.mem_cons.mp hk with rfl | hk
    · exact le_rfl
    · exact (hlt hfirstmem).le.trans
        ((List.pairwise_cons.mp h.of_append.stop_le_start).1 k hk)
  · obtain ⟨ks, rfl⟩ := List.getLast?_eq_some_iff.mp hlast
    rcases List.mem_append.mp hk with hk' | hk'
    · exact ((List.pairwise_append.mp h.of_append.stop_le_start).2.2 k hk' last
        List.mem_cons_self).trans (hlt hlastmem).le
    · rw [List.mem_singleton.mp hk']

end Juggling

namespace Juggling.Layout

variable {α : Type} [Exact α]

/-- Whether a moment of a hand is the next after another at which the same happens about a period
later. -/
structure Recloses (l : Layout α) (j : ℕ) (hand : Hand) (m n : Moment α) : Prop where
  mem : n ∈ Moment.ofHand l.timeline.moments j hand
  lt : m.time < n.time
  seed : n.seed = m.seed
  near : |n.time - (m.time + l.group.period)| < HandCurve.periodTolerance
  first : ∀ o ∈ Moment.ofHand l.timeline.moments j hand, m.time < o.time → o.time < n.time →
    o.seed = m.seed → HandCurve.periodTolerance ≤ |o.time - (m.time + l.group.period)|

/-- The two closed curves of a hand that no flight gives a velocity. The first one leads over the
start of the loop. -/
structure Closes (l : Layout α) (j : ℕ) (hand : Hand) (m n o : Moment α) (s s' : Spline α) :
    Prop where
  mem : m ∈ Moment.ofHand l.timeline.moments j hand
  low : m.time ≤ 0
  last : ∀ m' ∈ Moment.ofHand l.timeline.moments j hand, m'.time ≤ 0 → m'.time ≤ m.time
  first : l.Recloses j hand m n
  second : l.Recloses j hand n o
  strand : l.Strand j hand m.time n.time none none s
  strand' : l.Strand j hand n.time o.time none none s'
  answer : ∀ t, 0 ≤ t → t < l.group.period → l.handCurveAt j hand t =
    if t < n.time then .ok s else if t < o.time then .ok s' else .error (.missingHandCurve j hand t)

variable [Numeral α] {d : Declarations α} {l : Layout α} (h : IsBuilt d l)
  (hperms : ∀ s ∈ d.symmetries, s.jugglers.Rearranges ∧ s.paths.Rearranges)
  (hclear : ∀ m ∈ l.timeline.moments, m.time ≤ timeTolerance → m.time ≤ 0)
  {j : ℕ} (hj : 1 ≤ j ∧ j ≤ d.jugglers) {hand : Hand} {t : α}
  (hlow : 0 ≤ t) (hhigh : t < l.group.period)

section Pinned

variable (f : l.Filled d.jugglers d.paths) (hlong : timeTolerance < l.group.period)

include h hperms hclear f hlong hlow hhigh

/-- Around a time within the loop a curve leads from one event that determines the velocity to the
next. -/
theorem Pinned.apart_of_determines {a b : α} {s : Spline α} (hs : l.Pinned j hand a b s)
    (ha : a ≤ t) (hb : t < b) {m : Moment α} (hm : m ∈ Moment.ofHand l.timeline.moments j hand)
    (hdetermines : m.event.determinesVelocity = true) : m.time ≤ a ∨ b ≤ m.time := by
  by_contra hnot
  push Not at hnot
  obtain ⟨hmem, rfl, rfl⟩ := mem_ofHand.mp hm
  -- A moment with a velocity in between would end the curve.
  have hcontra {n : Moment α} (hn : n ∈ l.timeline.moments)
      (hhand : Generated.SameHand n.toGenerated m.toGenerated) (hresolved : l.Resolved n)
      (han : a < n.time) (hbn : n.time < b) : False := by
    rcases hs.apart n (mem_ofHand.mpr ⟨hn, hhand.1, hhand.2⟩) hresolved with hle | hle
    · exact absurd han (not_lt.mpr hle)
    · exact absurd hbn (not_lt.mpr hle)
  have hrefl : Generated.SameHand m.toGenerated m.toGenerated := ⟨rfl, rfl⟩
  rcases lt_or_ge m.time l.group.period with hlt | hge
  · rcases Event.determinesVelocity_cases hdetermines with ⟨t', ht'⟩ | ⟨hnone, t', ht'⟩
    · exact hcontra hmem hrefl (f.resolved_of_throw h hperms hmem ht' hlt) hnot.1 hnot.2
    · rcases lt_or_ge timeTolerance m.time with hpos | hle
      · exact hcontra hmem hrefl (f.resolved_of_softCatch h hperms hmem hnone ht' hpos)
          hnot.1 hnot.2
      · obtain ⟨n, hn, hhand, hnlow, hresolved, hmax⟩ := f.resolved_low h hperms hlong hmem
          hdetermines fun m hm _ hle ↦ h.low ▸ hclear m (mem_ofHand.mp hm).1 hle
        have hmn := hmax m hmem hrefl hdetermines (hclear m hmem hle)
        exact hcontra hn hhand hresolved (hnot.1.trans_le hmn) (by linarith)
  · obtain ⟨n, hn, hhand, hnhigh, hresolved, hmin⟩ :=
      f.resolved_high h hperms hlong hmem hdetermines
    have hnm := hmin m hmem hrefl hdetermines hge
    exact hcontra hn hhand hresolved (by linarith) (hnm.trans_lt hnot.2)

include hj

theorem exists_pinned {m : Moment α} (hm : m ∈ Moment.ofHand l.timeline.moments j hand)
    (hdetermines : m.event.determinesVelocity = true) : ∃ a b s,
      l.handCurveAt j hand t = .ok s ∧ l.Pinned j hand a b s ∧ a ≤ t ∧ t < b := by
  obtain ⟨low, high, stops, hcovered, hstops, hreach⟩ := h.covered hperms hj hand
  obtain ⟨-, hstart, hend⟩ := hreach.resolve_right fun hfree ↦ by
    have := List.any_eq_false.mp hfree.1 m hm
    exact this hdetermines
  obtain ⟨hpast, hbefore⟩ := f.hand_reach_of_determines h hperms hstops hlong hm hdetermines
    hstart hend
  obtain ⟨k, hk, hat, ⟨s, hs, -⟩, hkstart, hkstop⟩ :=
    hcovered.exists_link ((hbefore hclear).trans hlow) (hhigh.trans_le hpast)
  obtain ⟨a, b, ha, hb, hpinned⟩ := h.carried_pinned hperms hj hm hdetermines k hk s hs
  exact ⟨a, b, s, handCurveAt_eq_ok.mpr ⟨k, hat, hs⟩, hpinned, ha.trans hkstart,
    hkstop.trans_le hb⟩

end Pinned

section Free

omit [Numeral α] in
theorem closes_iff {x : HandCurve α} {m : Moment α} {k : HandLink α} : x.closes m k = true ↔
    k.stop.seed = m.seed ∧ |k.stop.time - (m.time + x.period)| < HandCurve.periodTolerance := by
  rw [HandCurve.closes, Bool.and_eq_true, beq_iff_eq, decide_eq_true_eq, Scalar.abs_eq]

include h hperms

theorem ascend_of_stops {stops : List (Moment α × Option VelocityRef)}
    (hstops : HandLink.Stops l.paths l.timeline.moments j hand stops) :
    HandLink.Ascend ((steps stops).map (HandLink.between j hand)) := by
  have hstrict := h.strict_ofHand hperms j hand
  rw [← hstops.moments, List.pairwise_map] at hstrict
  exact HandLink.ascend_between hstrict

/-- All moments of a hand but the first are the ends of links. -/
theorem exists_link_to_of_lt {stops : List (Moment α × Option VelocityRef)}
    (hstops : HandLink.Stops l.paths l.timeline.moments j hand stops) {m n : Moment α}
    (hm : m ∈ Moment.ofHand l.timeline.moments j hand)
    (hn : n ∈ Moment.ofHand l.timeline.moments j hand) (hlt : m.time < n.time) :
    ∃ k ∈ (steps stops).map (HandLink.between j hand), k.stop = n := by
  have hnothead : (Moment.ofHand l.timeline.moments j hand).head? ≠ some n := fun hhead ↦ by
    have := head_rel (R := fun m n : Moment α ↦ m.time ≤ n.time)
      ((h.strict_ofHand hperms j hand).imp le_of_lt) (fun m ↦ le_refl m.time) hm hhead
    exact absurd hlt (not_lt.mpr this)
  obtain ⟨y, hy⟩ := (head?_or_step hn).resolve_left hnothead
  obtain ⟨k, hk, -, rfl⟩ := hstops.exists_link hy
  exact ⟨k, hk, rfl⟩

/-- A closed curve ends at the first moment at which it may end. -/
theorem recloses_of_closed {stops : List (Moment α × Option VelocityRef)}
    (hstops : HandLink.Stops l.paths l.timeline.moments j hand stops)
    {pre post : List (HandLink α)} {c : Chain α}
    (hlinks : (steps stops).map (HandLink.between j hand) = pre ++ c.links ++ post)
    (hc : HandCurve.Closed ⟨globalPlace l.tracks, l.paths, l.loop⟩ c) :
    ∃ first last s, c.links.head? = some first ∧ c.links.getLast? = some last ∧
      c.curve = some s ∧ l.Recloses j hand first.start last.stop ∧
      l.Strand j hand first.start.time last.stop.time none none s := by
  obtain ⟨first, last, init, hinit, hhead, hcloses, hnot⟩ := hc.closes
  have hlast : c.links.getLast? = some last := by rw [hinit, List.getLast?_concat]
  have hne : c.links ≠ [] := by simp [hinit]
  have hperiod : HandCurve.period ⟨globalPlace l.tracks, l.paths, l.loop⟩ = l.group.period := by
    rw [HandCurve.period, h.low, h.high, sub_zero]
  have hascend := ascend_of_stops h hperms hstops
  have hmem {k : HandLink α} (hk : k ∈ c.links) : k ∈ (steps stops).map (HandLink.between j hand) :=
    hlinks ▸ List.mem_append_left _ (List.mem_append_right _ hk)
  have hfirstmem := List.mem_of_head? hhead
  have hlastmem := List.mem_of_getLast? hlast
  obtain ⟨part, hpart, hpart'⟩ := h.exists_part hperms hstops hlinks hhead hlast
  obtain ⟨-, s, hs, -⟩ := hc.solves
  rw [closes_iff, hperiod] at hcloses
  obtain ⟨rest, hrest⟩ : ∃ rest, c.links = first :: rest := by
    obtain ⟨k, ks, hks⟩ := List.exists_cons_of_ne_nil hne
    rw [hks, List.head?_cons, Option.some.injEq] at hhead
    exact ⟨ks, hhead ▸ hks⟩
  refine ⟨first, last, s, hhead, hlast, hs, ⟨(mem_steps (hstops.step_of_link (hmem hlastmem))).2,
    ?_, hcloses.1, hcloses.2, fun o ho hlow hhigh hseed ↦ ?_⟩, hpart'.strand hpart hne hc.solves hs⟩
  · have hle := (hpart'.bounds (hpart ▸ hlastmem)).1
    exact hle.trans_lt (hascend.lt last (hmem hlastmem))
  · -- The link to such a moment is one of those that do not close the curve.
    obtain ⟨k, hk, rfl⟩ := exists_link_to_of_lt h hperms hstops
      (mem_steps (hstops.step_of_link (hmem hfirstmem))).1 ho hlow
    by_contra hnear
    rw [not_le] at hnear
    have hkinit : k ∈ init := by
      rw [hlinks] at hascend hk
      have hfrom : k ∈ c.links ++ post := by
        rw [hrest, List.append_assoc, List.cons_append] at hascend hk
        rw [hrest]
        exact hascend.mem_from hk hlow
      rw [hinit, List.append_assoc, List.mem_append] at hfrom
      refine hfrom.resolve_right fun hmem ↦ ?_
      rw [hinit] at hascend
      have hascend' : HandLink.Ascend ((pre ++ init) ++ last :: post) := by simpa using hascend
      exact absurd hhigh (not_lt.mpr (hascend'.stop_le (by simpa using hmem)))
    have := hnot k hkinit
    rw [← Bool.not_eq_true, closes_iff, hperiod] at this
    exact this ⟨hseed, hnear⟩

include hj

/-- The curve of a hand at a time is that of the chain that leads over it. -/
theorem exists_chain_at {stops : List (Moment α × Option VelocityRef)} {chains : List (Chain α)}
    (hlinks : (steps stops).map (HandLink.between j hand) = chains.flatMap (·.links))
    (hnumbers : Numbers l.curves chains (l.handLinks j hand)) {first last : HandLink α}
    (hfirst : first ∈ (steps stops).map (HandLink.between j hand)) (hstart : first.start.time ≤ t)
    (hlast : last ∈ (steps stops).map (HandLink.between j hand)) (hstop : t < last.stop.time) :
    ∃ c ∈ chains, ∃ k ∈ c.links, k.start.time ≤ t ∧ t < k.stop.time ∧
      (∀ s, c.curve = some s → l.handCurveAt j hand t = .ok s) ∧
      (c.curve = none → l.handCurveAt j hand t = .error (.missingHandCurve j hand t)) := by
  obtain ⟨⟨a, b, hlinked⟩, -⟩ := h.linked_handLinks hperms hj hand
  have hrange {k : HandLink α} (hk : k ∈ (steps stops).map (HandLink.between j hand)) :
      a ≤ k.start.time ∧ k.stop.time ≤ b := by
    obtain ⟨k', hk', heq⟩ := exists_of_forall₂ hnumbers.handRange (hlinks ▸ hk)
    obtain ⟨hstart, hstop⟩ := Window.mk.inj heq
    obtain ⟨hle, -, hle'⟩ := hlinked.of_mem hk'
    exact ⟨hstart ▸ hle, hstop ▸ hle'⟩
  have ha := (hrange hfirst).1.trans hstart
  have hb := hstop.trans_le (hrange hlast).2
  obtain ⟨k, hk⟩ := exists_linkAt? hlinked (fun hnil ↦ by
    rw [hnil] at hlinked
    exact absurd hb (not_lt.mpr (hlinked ▸ ha))) ha hb.le
  have hhigh := lt_of_linkAt? hlinked hb hk
  obtain ⟨hmem, hlow, -⟩ := linkAt?_eq_some hk
  obtain ⟨c, hc, k', hk', heq, hcurve⟩ := hnumbers.mem hmem
  rw [heq] at hlow hhigh
  refine ⟨c, hc, k', hk', hlow, hhigh, fun s hs ↦ ?_, fun hnone ↦ ?_⟩
  · rw [handCurveAt, hk, Option.bind_some, hcurve, hs]
  · rw [handCurveAt, hk, Option.bind_some, hcurve, hnone]

include hclear

/-- A hand that no flight gives a velocity has two closed curves, and no other. -/
theorem exists_closes (hnone : ∀ m ∈ Moment.ofHand l.timeline.moments j hand,
      m.event.determinesVelocity = false)
    (hpast : ∃ m ∈ Moment.ofHand l.timeline.moments j hand, l.group.period ≤ m.time) :
    ∃ m n o s s', l.Closes j hand m n o s s' := by
  obtain ⟨stops, chains, hstops, hchains, hnumbers⟩ := h.hand_ok hj hand
  rw [HandCurve.chains, if_neg (by simpa using hnone)] at hchains
  obtain ⟨before, c, e, after, hlinks, rfl, hc, he, first, hfirst, hstraddles⟩ :=
    HandCurve.free_ok hchains
  have hlinks' : (steps stops).map (HandLink.between j hand) =
      before ++ c.links ++ (e.links ++ after) := by
    rw [hlinks, List.append_assoc (before ++ c.links)]
  obtain ⟨first', last, s, hfirst', hlast, hs, hrecloses, hstrand⟩ :=
    recloses_of_closed h hperms hstops hlinks' hc
  obtain ⟨second, last', s', hsecond, hlast', hs', hrecloses', hstrand'⟩ :=
    recloses_of_closed h hperms hstops hlinks he
  obtain rfl : first' = first := Option.some.inj (hfirst'.symm.trans hfirst)
  have hascend := ascend_of_stops h hperms hstops
  obtain ⟨hbefore, hwithin, -⟩ := (hlinks' ▸ hascend).block hfirst hlast
  obtain ⟨-, hwithin', hafter⟩ := (hlinks ▸ hascend).block hsecond hlast'
  have hjoined : second.start = last.stop := by
    have := hascend.joined
    rw [hlinks, List.append_assoc, List.isChain_append] at this
    exact this.2.2 last (by rw [List.getLast?_append, hlast]; rfl) second
      (by rw [List.head?_append, hsecond]; rfl)
  rw [hjoined] at hrecloses' hstrand' hwithin'
  have hfirstmem : first' ∈ (steps stops).map (HandLink.between j hand) :=
    hlinks' ▸ List.mem_append_left _ (List.mem_append_right _ (List.mem_of_head? hfirst))
  have hm := (mem_steps (hstops.step_of_link hfirstmem)).1
  simp only [HandCurve.straddles, h.low, zero_add, Bool.and_eq_true, decide_eq_true_eq]
    at hstraddles
  have hzero := hclear _ (mem_ofHand.mp hm).1 hstraddles.1
  refine ⟨first'.start, last.stop, last'.stop, s, s', hm, hzero, fun m hm hle ↦ ?_, hrecloses,
    hrecloses', hstrand, hstrand', fun t hlow hhigh ↦ ?_⟩
  · refine (rel_of_step ((h.strict_ofHand hperms j hand).imp le_of_lt) (fun m ↦ le_refl m.time)
      (hstops.step_of_link hfirstmem) hm).resolve_right fun hge ↦ ?_
    linarith [timeTolerance_pos (α := α), hstraddles.2]
  -- The chain that leads over the time is one of four.
  obtain ⟨n, hn, hge⟩ := hpast
  obtain ⟨k, hk, rfl⟩ := exists_link_to_of_lt h hperms hstops hm hn (by linarith)
  obtain ⟨c', hc', k', hk', hstart, hstop, hsome, hmissing⟩ :=
    exists_chain_at h hperms hj (by simpa [Chain.uncovered] using hlinks) hnumbers hfirstmem
      (hzero.trans hlow) hk (hhigh.trans_le hge)
  simp only [List.mem_cons, List.not_mem_nil, or_false] at hc'
  rcases hc' with rfl | rfl | rfl | rfl
  · exact absurd (hbefore k' hk') (not_le.mpr (by linarith))
  · rw [if_pos (hstop.trans_le (hwithin k' hk').2), hsome s hs]
  · obtain ⟨hge, hle⟩ := hwithin' k' hk'
    rw [if_neg (not_lt.mpr (hge.trans hstart)), if_pos (hstop.trans_le hle), hsome s' hs']
  · have hge := (hafter k' hk').trans hstart
    rw [if_neg (not_lt.mpr (hrecloses'.lt.le.trans hge)), if_neg (not_lt.mpr hge), hmissing rfl]

end Free

end Juggling.Layout
