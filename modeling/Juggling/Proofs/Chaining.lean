import Juggling.Proofs.Counterparts
import Juggling.Proofs.Stretch

namespace Juggling

variable {α : Type}

namespace Knots

variable [Exact α]

theorem firstDecrease?_of_isChain {i : ℕ} {t : α} {ts : List α} (h : (t :: ts).IsChain (· < ·)) :
    firstDecrease? i t ts = none := by
  induction ts generalizing i t with
  | nil => rfl
  | cons t' ts ih =>
    obtain ⟨hlt, hts⟩ := List.isChain_cons_cons.mp h
    rw [firstDecrease?, if_pos hlt]
    exact ih hts

/-- Two or more places at increasing times give knots. -/
theorem exists_ofLists_of_increasing {positions : List (Coordinate α)} {times : List α}
    (hlen : positions.length = times.length) (htwo : 2 ≤ times.length)
    (h : times.IsChain (· < ·)) (v w : Option (Coordinate α)) :
    ∃ k, ofLists positions times v w = .ok k := by
  obtain ⟨t, u, ts, rfl⟩ : ∃ t u ts, times = t :: u :: ts := by
    match times, htwo with
    | t :: u :: ts, _ => exact ⟨t, u, ts, rfl⟩
  obtain ⟨p, q, ps, rfl⟩ : ∃ p q ps, positions = p :: q :: ps := by
    match positions, hlen.symm ▸ htwo with
    | p :: q :: ps, _ => exact ⟨p, q, ps, rfl⟩
  have hlen' : ps.length = ts.length := Nat.succ.inj (Nat.succ.inj hlen)
  simp only [ofLists, List.length_cons, hlen', ne_eq, not_true_eq_false, if_false,
    List.zipWith_cons_cons, (map_zipWith_mk hlen').1, firstDecrease?_of_isChain h]
  exact ⟨_, rfl⟩

/-- Two or more moments at increasing times give knots. -/
theorem exists_ofLists_of_isChain (place : Event α → Coordinate α) {m n : Moment α}
    {ms : List (Moment α)} (h : (m :: n :: ms).IsChain fun m n ↦ m.time < n.time)
    (v w : Option (Coordinate α)) :
    ∃ k, ofLists ((m :: n :: ms).map fun m ↦ place m.event) ((m :: n :: ms).map (·.time)) v w =
      .ok k :=
  exists_ofLists_of_increasing (by simp) (by simp)
    ((List.isChain_map Moment.time (l := m :: n :: ms)).mpr h) v w

end Knots

/-- Links of a hand that follow each other, each of which takes time. -/
structure HandLink.Ascend [LT α] (links : List (HandLink α)) : Prop where
  joined : links.IsChain fun k l ↦ l.start = k.stop
  lt : ∀ k ∈ links, k.start.time < k.stop.time

variable [Exact α]

namespace HandLink.Ascend

variable {links pre post : List (HandLink α)}

theorem of_append (h : Ascend (pre ++ links ++ post)) : Ascend links where
  joined := List.IsChain.infix h.joined ⟨pre, post, rfl⟩
  lt := fun k hk ↦ h.lt k (List.mem_append_left _ (List.mem_append_right _ hk))

theorem left (h : Ascend (links ++ post)) : Ascend links :=
  of_append (show Ascend ([] ++ links ++ post) by simpa using h)

theorem right (h : Ascend (pre ++ links)) : Ascend links :=
  of_append (show Ascend (pre ++ links ++ []) by simpa using h)

theorem isChain_stops (h : Ascend links) :
    (Chain.stops links).IsChain fun m n ↦ m.time < n.time := by
  induction links with
  | nil => exact .nil
  | cons k ks ih =>
    have hlt := h.lt k List.mem_cons_self
    cases ks with
    | nil => simpa [Chain.stops] using hlt
    | cons l ls =>
      have hks := ih (right (show Ascend ([k] ++ l :: ls) from h))
      obtain ⟨hjoined, -⟩ := List.isChain_cons_cons.mp h.joined
      have heq : Chain.stops (k :: l :: ls) = k.start :: Chain.stops (l :: ls) := by
        simp [Chain.stops, List.getLast?_cons_cons]
      have heq' : Chain.stops (l :: ls) = l.start :: (Chain.stops (l :: ls)).tail := by
        simp [Chain.stops]
      rw [heq, heq']
      rw [heq'] at hks
      exact List.isChain_cons_cons.mpr ⟨hjoined ▸ hlt, hks⟩

theorem stop_le_start (h : Ascend links) :
    links.Pairwise fun k l ↦ k.stop.time ≤ l.start.time := by
  let R : HandLink α → HandLink α → Prop :=
    fun k l ↦ k.stop.time ≤ l.start.time ∧ l.start.time < l.stop.time
  have : IsTrans (HandLink α) R :=
    ⟨fun _ _ _ hkl hlm ↦ ⟨(hkl.1.trans hkl.2.le).trans hlm.1, hlm.2⟩⟩
  have hsteps : ∀ s ∈ steps links, R s.1 s.2 := by
    rintro ⟨k, l⟩ hs
    obtain ⟨pre, post, rfl⟩ := exists_append_of_mem_steps hs
    have hjoined := (List.isChain_cons_cons.mp h.right.joined).1
    exact ⟨(congrArg Moment.time hjoined).ge, h.lt l (by simp)⟩
  exact (List.isChain_iff_pairwise.mp (isChain_of_steps hsteps)).imp fun h ↦ h.1

theorem mem_from {k l : HandLink α} (h : Ascend (pre ++ l :: post)) (hk : k ∈ pre ++ l :: post)
    (hlt : l.start.time < k.stop.time) : k ∈ l :: post := by
  refine (List.mem_append.mp hk).resolve_left fun hpre ↦ ?_
  have := (List.pairwise_append.mp h.stop_le_start).2.2 k hpre l List.mem_cons_self
  exact absurd hlt (not_lt.mpr this)

theorem mem_after {k l : HandLink α} (h : Ascend (pre ++ l :: post)) (hk : k ∈ pre ++ l :: post)
    (hlt : l.stop.time < k.stop.time) : k ∈ post := by
  have hl := h.lt l (by simp)
  refine (List.mem_cons.mp (h.mem_from hk (hl.trans hlt))).resolve_left fun heq ↦ ?_
  exact absurd hlt (heq ▸ lt_irrefl _)

theorem stop_le {k l : HandLink α} (h : Ascend (pre ++ l :: post)) (hk : k ∈ l :: post) :
    l.stop.time ≤ k.stop.time := by
  rcases List.mem_cons.mp hk with rfl | hk
  · exact le_rfl
  · have := (List.pairwise_cons.mp h.right.stop_le_start).1 k hk
    exact this.trans (h.lt k (by simp [hk])).le

end HandLink.Ascend

namespace HandCurve

variable {x : HandCurve α} {links : List (HandLink α)}

theorem exists_solve (h : HandLink.Ascend links) (hne : links ≠ []) (v w : Option (Coordinate α)) :
    ∃ c, x.solve links v w = .ok c := by
  have hchain := h.isChain_stops
  obtain ⟨m, n, ms, hstops⟩ : ∃ m n ms, Chain.stops links = m :: n :: ms := by
    obtain ⟨k, ks, rfl⟩ := List.exists_cons_of_ne_nil hne
    cases ks with
    | nil => exact ⟨_, _, _, rfl⟩
    | cons l ls => exact ⟨_, _, _, rfl⟩
  rw [hstops] at hchain
  obtain ⟨k, hk⟩ := Knots.exists_ofLists_of_isChain x.place hchain v w
  obtain ⟨s, hs⟩ := Spline.exists_ofKnots k
  simp only [solve, lift_eq_ok, bind_eq_ok, hstops]
  exact ⟨_, k, hk, s, hs, rfl⟩

/-- Curves between velocities are there if the velocities are. -/
theorem exists_pinned {current : Option (VelocityRef × List (HandLink α))}
    (h : HandLink.Ascend ((current.map (·.2)).getD [] ++ links))
    (hcurrent : ∀ v ls, current = some (v, ls) → ∃ c, v.resolve x.paths = .ok c)
    (hstart : ∀ k ∈ links, ∀ v, k.startVelocity = some v → ∃ c, v.resolve x.paths = .ok c)
    (hend : ∀ k ∈ links, ∀ v, k.endVelocity = some v → ∃ c, v.resolve x.paths = .ok c) :
    ∃ chains, x.pinned current links = .ok chains := by
  induction links generalizing current with
  | nil => exact ⟨_, rfl⟩
  | cons k ks ih =>
    have hks := fun l hl ↦ hstart l (List.mem_cons_of_mem k hl)
    have hks' := fun l hl ↦ hend l (List.mem_cons_of_mem k hl)
    have key (v : VelocityRef) (ls : List (HandLink α)) (hasc : HandLink.Ascend (ls ++ k :: ks))
        (hv : ∃ c, v.resolve x.paths = .ok c) :
        ∃ chains, x.pinned (some (v, ls)) (k :: ks) = .ok chains := by
      have hsplit : ls ++ k :: ks = (ls ++ [k]) ++ ks := by simp
      rw [hsplit] at hasc
      unfold pinned
      cases hw : k.endVelocity with
      | none => exact ih hasc (fun _ _ heq ↦ by cases heq; exact hv) hks hks'
      | some w =>
        obtain ⟨c, hc⟩ := hv
        obtain ⟨c', hc'⟩ := hend k List.mem_cons_self w hw
        obtain ⟨chain, hchain⟩ := exists_solve (x := x) hasc.left (by simp) (some c) (some c')
        obtain ⟨chains, hchains⟩ := @ih none hasc.right (fun _ _ heq ↦ by cases heq)
          hks hks'
        exact ⟨_, bind_eq_ok.mpr ⟨chain, bind_eq_ok.mpr ⟨c, lift_eq_ok.mpr hc,
          bind_eq_ok.mpr ⟨c', lift_eq_ok.mpr hc', hchain⟩⟩, bind_eq_ok.mpr ⟨chains, hchains, rfl⟩⟩⟩
    rcases current with _ | ⟨v, ls⟩
    · cases hv : k.startVelocity with
      | none =>
        obtain ⟨chains, hchains⟩ := @ih none
          (HandLink.Ascend.right (show HandLink.Ascend ([k] ++ ks) from h)) (fun _ _ heq ↦ by cases heq) hks hks'
        unfold pinned
        simp only [hv, Option.map_none]
        exact ⟨_, bind_eq_ok.mpr ⟨chains, hchains, rfl⟩⟩
      | some v =>
        rw [pinned_none hv]
        exact key v [] h (hstart k List.mem_cons_self v hv)
    · exact key v ls h (hcurrent v ls rfl)

theorem exists_splitAfter? {β : Type} {p : β → Bool} {xs : List β} (h : ∃ y ∈ xs, p y = true) :
    ∃ r, splitAfter? p xs = some r := by
  induction xs with
  | nil => simp at h
  | cons y ys ih =>
    unfold splitAfter?
    by_cases hy : p y = true
    · rw [if_pos hy]
      exact ⟨_, rfl⟩
    · obtain ⟨z, hz, hp⟩ := h
      obtain ⟨r, hr⟩ := ih ⟨z, (List.mem_cons.mp hz).resolve_left fun heq ↦ hy (heq ▸ hp), hp⟩
      rw [if_neg hy, hr]
      exact ⟨_, rfl⟩

theorem exists_closed {j : ℕ} {hand : Hand} {first : HandLink α} {ls : List (HandLink α)}
    (h : HandLink.Ascend (first :: ls))
    (hcloses : ∃ k ∈ first :: ls, x.closes first.start k = true) :
    ∃ r, x.closed j hand (first :: ls) = .ok r := by
  obtain ⟨⟨chain, rest⟩, hsplit⟩ := exists_splitAfter? hcloses
  obtain ⟨ys, y, hchain, heq, -, -⟩ := splitAfter?_eq_some hsplit
  rw [heq] at h
  obtain ⟨c, hc⟩ := exists_solve (x := x) h.left (by simp [hchain]) none none
  simp only [closed, hsplit]
  exact ⟨_, bind_eq_ok.mpr ⟨c, hc, rfl⟩⟩

theorem closes_of_eq {m : Moment α} {k : HandLink α} (hseed : k.stop.seed = m.seed)
    (htime : k.stop.time = m.time + x.period) : x.closes m k = true := by
  have hpos : (0 : α) < periodTolerance := timeTolerance_pos.trans SymmetryGroup.timeTolerance_lt
  simp [closes, hseed, htime, Scalar.abs_eq, hpos]

/-- There are two closed curves if some link leads over the start of the loop, and what happens up
to the end of the loop happens again a period later. -/
theorem exists_free {j : ℕ} {hand : Hand} (h : HandLink.Ascend links) (hpos : 0 < x.period)
    (hstraddles : ∃ k ∈ links, x.straddles k = true)
    (hlow : ∀ k ∈ links, x.straddles k = true → k.start.time ≤ x.loop.low)
    (hnext : ∀ m, (∃ k ∈ links, k.start = m ∨ k.stop = m) → m.time ≤ x.loop.low + x.period →
      ∃ k ∈ links, k.stop.seed = m.seed ∧ k.stop.time = m.time + x.period) :
    ∃ chains, x.free j hand links = .ok chains := by
  obtain ⟨first, ls, hfirst⟩ : ∃ first ls, links.dropWhile (!x.straddles ·) = first :: ls := by
    refine List.exists_cons_of_ne_nil fun hnil ↦ ?_
    obtain ⟨k, hk, hyes⟩ := hstraddles
    simpa [hyes] using List.dropWhile_eq_nil_iff.mp hnil k hk
  have hyes : x.straddles first = true := by
    have := List.head?_dropWhile_not (fun k ↦ !x.straddles k) links
    rw [hfirst] at this
    simpa using this
  have hsplit := List.takeWhile_append_dropWhile (p := (!x.straddles ·)) (l := links)
  rw [hfirst] at hsplit
  generalize links.takeWhile (!x.straddles ·) = before at hsplit
  have hfirstmem : first ∈ links := by simp [← hsplit]
  have hfirstlow := hlow first hfirstmem hyes
  -- The first curve closes a period later at the latest.
  obtain ⟨k, hk, hkseed, hktime⟩ := hnext first.start ⟨first, hfirstmem, .inl rfl⟩ (by linarith)
  have hkcloses := closes_of_eq hkseed hktime
  rw [← hsplit] at h hk
  have hk' := h.mem_from hk (by linarith)
  obtain ⟨⟨chain, rest⟩, hchain⟩ : ∃ r, x.closed j hand (first :: ls) = .ok r :=
    exists_closed h.right ⟨k, hk', hkcloses⟩
  obtain ⟨heq, -, first', last, init, hinit, hhead, -, hnot⟩ := closed_ok hchain
  obtain rfl : first' = first := by
    have := congrArg List.head? heq
    rw [List.head?_append, hhead] at this
    exact (Option.some.inj this).symm
  have hwhole : before ++ first' :: ls = (before ++ init) ++ last :: rest := by
    rw [heq, hinit]
    simp
  rw [hwhole] at h hk
  have hlast : last.stop.time ≤ k.stop.time := by
    rw [heq, hinit, List.append_assoc, List.mem_append] at hk'
    exact h.stop_le (hk'.resolve_left fun hmem ↦ by simp [hnot k hmem] at hkcloses)
  -- So does the second one, which starts where the first one ends.
  have hmem {l : HandLink α} : l ∈ before ++ init ++ last :: rest ↔ l ∈ links := by
    rw [← hwhole, hsplit]
  obtain ⟨k', hk', hkseed', hktime'⟩ := hnext last.stop
    ⟨last, hmem.mp (by simp), .inr rfl⟩ (by linarith)
  have hkrest := h.mem_after (hmem.mpr hk') (by linarith)
  obtain ⟨first₂, ls₂, rfl⟩ := List.exists_cons_of_ne_nil (List.ne_nil_of_mem hkrest)
  have hjoined : first₂.start = last.stop := (List.isChain_cons_cons.mp h.right.joined).1
  obtain ⟨r, hr⟩ : ∃ r, x.closed j hand (first₂ :: ls₂) = .ok r := exists_closed
    (HandLink.Ascend.right (show HandLink.Ascend ([last] ++ first₂ :: ls₂) from h.right))
    ⟨k', hkrest, closes_of_eq (hjoined ▸ hkseed') (hjoined ▸ hktime')⟩
  simp only [free, hfirst, List.isEmpty_cons, Bool.false_eq_true, if_false]
  exact ⟨_, bind_eq_ok.mpr ⟨_, hchain, bind_eq_ok.mpr ⟨_, hr, rfl⟩⟩⟩

end HandCurve

section Hands

variable {moments : List (Moment α)} {J N : ℕ} {paths : Numbered (PathHistory α)} {j : ℕ}
  {hand : Hand} {stops : List (Moment α × Option VelocityRef)}

namespace HandLink

theorem ascend_between (hsorted : stops.Pairwise fun s s' ↦ s.1.time < s'.1.time) :
    Ascend ((steps stops).map (between j hand)) := by
  constructor
  · exact (List.isChain_map _).mpr
      ((isChain_steps stops).imp fun _ _ h ↦ congrArg Prod.fst h.symm)
  · intro k hk
    obtain ⟨⟨a, b⟩, hp, rfl⟩ := List.mem_map.mp hk
    have hlt := steps_of_pairwise hsorted hp
    exact hlt

omit [Exact α] in
theorem exists_build (hv : ∀ m ∈ moments, ∃ v, VelocityRef.ofMoment paths m = .ok v) (j : ℕ)
    (hand : Hand) : ∃ links, build paths moments j hand = .ok links := by
  have hstops : ∀ m ∈ Moment.ofHand moments j hand,
      ∃ s, (VelocityRef.ofMoment paths m).map (fun v ↦ (m, v)) = .ok s := by
    intro m hm
    obtain ⟨v, hv⟩ := hv m (List.mem_filter.mp hm).1
    exact ⟨_, map_eq_ok.mpr ⟨v, hv, rfl⟩⟩
  obtain ⟨stops, hstops⟩ := exists_mapM_ok_iff.mpr hstops
  exact ⟨_, bind_eq_ok.mpr ⟨stops, hstops, rfl⟩⟩

omit [Exact α] in
theorem exists_buildAll (hv : ∀ m ∈ moments, ∃ v, VelocityRef.ofMoment paths m = .ok v) (J : ℕ) :
    ∃ links, buildAll paths moments J = .ok links := by
  have hboth : ∀ j ∈ List.range' 1 J, ∃ hs, (do
      let left ← build paths moments j .left
      let right ← build paths moments j .right
      return Hands.mk left right) = .ok hs := by
    intro j _
    obtain ⟨left, hleft⟩ := exists_build hv j .left
    obtain ⟨right, hright⟩ := exists_build hv j .right
    exact ⟨_, bind_eq_ok.mpr ⟨left, hleft, bind_eq_ok.mpr ⟨right, hright, rfl⟩⟩⟩
  obtain ⟨all, hall⟩ := exists_mapM_ok_iff.mpr hboth
  exact ⟨_, bind_eq_ok.mpr ⟨all, hall, rfl⟩⟩

end HandLink

omit [Exact α] in
theorem HandLink.Stops.exists_link (hstops : Stops paths moments j hand stops) {m n : Moment α}
    (hmn : (m, n) ∈ steps (Moment.ofHand moments j hand)) :
    ∃ k ∈ (steps stops).map (between j hand), k.start = m ∧ k.stop = n := by
  rw [← hstops.moments, steps_map] at hmn
  obtain ⟨p, hp, heq⟩ := List.mem_map.mp hmn
  obtain ⟨hstart, hstop⟩ := Prod.mk.inj heq
  exact ⟨_, List.mem_map_of_mem hp, hstart, hstop⟩

theorem HandCurve.exists_solveFrom {x : HandCurve α} {known : Array (Spline α)} {j n : ℕ}
    {all : List (Hands (List (HandLink α)))}
    (hbuilt : List.Forall₂ (fun j hs ↦ (do
      let left ← HandLink.build paths moments j .left
      let right ← HandLink.build paths moments j .right
      return Hands.mk left right) = .ok hs) (List.range' j n) all)
    (hchains : ∀ i, j ≤ i ∧ i < j + n → ∀ hand stops, HandLink.Stops paths moments i hand stops →
      ∃ chains, x.chains moments i hand ((steps stops).map (HandLink.between i hand)) =
        .ok chains) :
    ∃ r, x.solveFrom moments known j all = .ok r := by
  induction n generalizing known j all with
  | zero =>
    obtain rfl := List.forall₂_nil_left_iff.mp hbuilt
    exact ⟨_, rfl⟩
  | succ n ih =>
    rw [List.range'_succ] at hbuilt
    obtain ⟨hs, rest, hhs, hrest, rfl⟩ := List.forall₂_cons_left_iff.mp hbuilt
    have hhand (hand : Hand) : ∃ chains, x.chains moments j hand (hs.get hand) = .ok chains := by
      obtain ⟨stops, hstops, hlinks⟩ := HandLink.build_ok (HandLink.build_of_both hhs hand)
      rw [hlinks]
      exact hchains j ⟨le_rfl, by omega⟩ hand stops hstops
    obtain ⟨left, hleft⟩ := hhand .left
    obtain ⟨right, hright⟩ := hhand .right
    obtain ⟨others, hothers⟩ := ih hrest (fun i hi ↦ hchains i ⟨by omega, by omega⟩)
    exact ⟨_, bind_eq_ok.mpr ⟨_, bind_eq_ok.mpr ⟨left, hleft, bind_eq_ok.mpr ⟨right, hright, rfl⟩⟩,
      bind_eq_ok.mpr ⟨others, hothers, rfl⟩⟩⟩

theorem HandCurve.exists_solveAll {x : HandCurve α}
    {links : Numbered (Hands (List (HandLink α)))}
    (hlinks : HandLink.buildAll paths moments J = .ok links)
    (hchains : ∀ j, 1 ≤ j ∧ j ≤ J → ∀ hand stops, HandLink.Stops paths moments j hand stops →
      ∃ chains, x.chains moments j hand ((steps stops).map (HandLink.between j hand)) =
        .ok chains) :
    ∃ r, x.solveAll moments links = .ok r := by
  obtain ⟨all, hall, heq⟩ := bind_eq_ok.mp hlinks
  obtain rfl := pure_eq_ok.mp heq
  obtain ⟨r, hr⟩ : ∃ r, x.solveFrom moments #[] 1 all = .ok r := exists_solveFrom (mapM_eq_ok.mp hall)
    fun j hj ↦ hchains j (by omega)
  exact ⟨_, bind_eq_ok.mpr ⟨r, hr, rfl⟩⟩

/-- All hands whose velocities are known have their curves; those without any velocity have them
if their events are known up to two periods after the loop starts. -/
theorem Traced.exists_chains [Numeral α] {place place' : Event α → Coordinate α}
    (tr : Traced place J N moments paths) (hstops : HandLink.Stops paths moments j hand stops)
    {loop : Window α} (hlong : timeTolerance < loop.high - loop.low)
    (hclear : ∀ m ∈ moments, m.time ≤ loop.low + timeTolerance → m.time ≤ loop.low)
    (hfree : (∀ m ∈ Moment.ofHand moments j hand, m.event.determinesVelocity = false) →
      (∃ m ∈ Moment.ofHand moments j hand, m.time ≤ loop.low) ∧
      (∃ m ∈ Moment.ofHand moments j hand, loop.high ≤ m.time) ∧
      ∀ m ∈ Moment.ofHand moments j hand, m.time ≤ loop.high →
        ∃ n ∈ Moment.ofHand moments j hand, n.seed = m.seed ∧
          n.time = m.time + (loop.high - loop.low)) :
    ∃ chains, HandCurve.chains ⟨place', paths, loop⟩ moments j hand
      ((steps stops).map (HandLink.between j hand)) = .ok chains := by
  have hstrict := tr.strict_ofHand j hand
  have hascend : HandLink.Ascend ((steps stops).map (HandLink.between j hand)) := by
    rw [← hstops.moments, List.pairwise_map] at hstrict
    exact HandLink.ascend_between hstrict
  have hmem {s : Moment α × Option VelocityRef} (hs : s ∈ stops) : s.1 ∈ moments := by
    have := List.mem_map_of_mem (f := Prod.fst) hs
    rw [hstops.moments] at this
    exact (List.mem_filter.mp this).1
  have hresolve {s : Moment α × Option VelocityRef} (hs : s ∈ stops) {v : VelocityRef}
      (hv : s.2 = some v) : ∃ c, v.resolve paths = .ok c :=
    tr.exists_resolve (hmem hs) (hv ▸ hstops.velocity s hs)
  rw [HandCurve.chains]
  split_ifs with hany
  · refine HandCurve.exists_pinned hascend (fun _ _ heq ↦ by cases heq) (fun k hk v hv ↦ ?_)
      fun k hk v hv ↦ ?_
    all_goals
      obtain ⟨p, hp, rfl⟩ := List.mem_map.mp hk
    · exact hresolve (mem_steps hp).1 hv
    · exact hresolve (mem_steps hp).2 hv
  · have hnone : ∀ m ∈ Moment.ofHand moments j hand, m.event.determinesVelocity = false := by
      simpa using hany
    obtain ⟨⟨m, hm, hmlow⟩, ⟨n, hn, hnhigh⟩, hnext⟩ := hfree hnone
    have htol := timeTolerance_pos (α := α)
    have hends {k : HandLink α} (hk : k ∈ (steps stops).map (HandLink.between j hand)) :=
      mem_steps (hstops.step_of_link hk)
    refine HandCurve.exists_free hascend (htol.trans hlong) ?_ (fun k hk hstraddles ↦ ?_)
      fun o ho hle ↦ ?_
    · obtain ⟨a, b, hab, ha, hb⟩ := exists_step_across
        (P := fun m : Moment α ↦ m.time ≤ loop.low + timeTolerance)
        (hstrict.imp fun hlt hle ↦ hlt.le.trans hle) hm hn (by linarith) (by linarith)
      obtain ⟨k, hk, rfl, rfl⟩ := hstops.exists_link hab
      rw [not_le] at hb
      exact ⟨k, hk, by simp [HandCurve.straddles, ha, hb]⟩
    · simp only [HandCurve.straddles, Bool.and_eq_true, decide_eq_true_eq] at hstraddles
      exact hclear _ (List.mem_filter.mp (hends hk).1).1 hstraddles.1
    · have ho' : o ∈ Moment.ofHand moments j hand := by
        obtain ⟨k, hk, rfl | rfl⟩ := ho
        · exact (hends hk).1
        · exact (hends hk).2
      rw [HandCurve.period, add_sub_cancel] at hle
      obtain ⟨n, hn, hseed, htime⟩ := hnext o ho' hle
      -- The later moment is not the first of the hand.
      have hnot : (Moment.ofHand moments j hand).head? ≠ some n := fun hhead ↦ by
        have := head_rel (R := fun m n : Moment α ↦ m.time ≤ n.time) (hstrict.imp le_of_lt)
          (fun m ↦ le_refl m.time) ho' hhead
        linarith
      obtain ⟨y, hy⟩ := (head?_or_step hn).resolve_left hnot
      obtain ⟨k, hk, -, rfl⟩ := hstops.exists_link hy
      exact ⟨k, hk, hseed, htime⟩

end Hands

end Juggling
