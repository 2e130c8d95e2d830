import Juggling.Proofs.Family

namespace Juggling

variable {α : Type} [Exact α]

theorem head?_or_step {β : Type} {x : β} {xs : List β} (hx : x ∈ xs) :
    xs.head? = some x ∨ ∃ y, (y, x) ∈ steps xs := by
  induction xs with
  | nil => cases hx
  | cons z zs ih =>
    rcases List.mem_cons.mp hx with rfl | hx
    · exact .inl rfl
    · rcases ih hx with hhead | ⟨y, hy⟩
      · exact .inr ⟨z, mem_steps_cons.mpr (.inl ⟨rfl, hhead⟩)⟩
      · exact .inr ⟨y, mem_steps_cons.mpr (.inr hy)⟩

/-- A touch like another some time before, of a renamed path. -/
structure Touch.IsLater (s : α) (r : ℕ → ℕ) (a a' : Touch α) : Prop where
  event : a'.moment.event = a.moment.event.later s r
  transition : a'.transition = { a.transition with path := r a.transition.path }

variable {symmetries : List (Symmetry α)} {J N : ℕ} {g : SymmetryGroup α} {I : Set (Event α)}
  {moments moments' : List (Moment α)}

/-- Two choices of moments at which the same events happen. -/
structure Moment.Alike (g : SymmetryGroup α) (J N : ℕ) (I : Set (Event α))
    (moments moments' : List (Moment α)) : Prop where
  family : g.Family J N I
  shows : Shows g I moments
  shows' : Shows g I moments'
  alone : ∀ p, 1 ≤ p ∧ p ≤ N → ∀ e ∈ I, ∀ f ∈ I, e.Touches p → f.Touches p → e.time = f.time →
    e = f

namespace Moment.Alike

variable (h : Alike g J N I moments moments') (hg : g.IsGroupOf symmetries J N)

omit [Exact α] in
theorem touches {p : ℕ} {moments : List (Moment α)} {a : Touch α}
    (ha : a ∈ Touch.ofPath moments p) : a.moment ∈ moments ∧ a.moment.Touches p := by
  obtain ⟨hm, ht, hp⟩ := Touch.mem_ofPath.mp ha
  exact ⟨hm, _, ht, hp⟩

include h hg

/-- Steps around one time, and around that time some periods later, are alike. -/
theorem isLater_of_steps {p : ℕ} (hp : 1 ≤ p ∧ p ≤ N) {q : ℤ} {a b a' b' : Touch α}
    (hab : (a, b) ∈ steps (Touch.ofPath moments p)) (hlt : a.time < b.time)
    (hab' : (a', b') ∈ steps (Touch.ofPath moments' (g.rename q p))) (hlt' : a'.time < b'.time)
    (hlow : a.time + q * g.period < b'.time) (hhigh : a'.time < b.time + q * g.period) :
    Touch.IsLater (q * g.period) (g.rename q) a a' ∧
      Touch.IsLater (q * g.period) (g.rename q) b b' := by
  have hadjacent := (h.shows.adjacent_of_step hab hlt).later h.family hg hp q
  have hadjacent' := h.shows'.adjacent_of_step hab' hlt'
  obtain ⟨ha, hb⟩ := hadjacent'.unique (h.alone _ (hg.rename_mem q hp)) hadjacent hhigh hlow
  have hne {a b : Touch α} (hlt : a.time < b.time) : a.moment ≠ b.moment :=
    fun heq ↦ hlt.ne (congrArg Moment.time heq)
  obtain ⟨hlast, hhead⟩ := Touch.step_across hab (hne hlt)
  obtain ⟨hlast', hhead'⟩ := Touch.step_across hab' (hne hlt')
  have hfilter {e : Event α} (he : e ∈ I) := hg.filter_later (h.family.placed e he)
    (s := q * g.period) q hp
  rw [ha, hfilter (h.shows.image _ (touches (mem_steps hab).1).1), List.getLast?_map, hlast,
    Option.map_some, Option.some.injEq] at hlast'
  rw [hb, hfilter (h.shows.image _ (touches (mem_steps hab).2).1), List.head?_map, hhead,
    Option.map_some, Option.some.injEq] at hhead'
  exact ⟨⟨ha, hlast'.symm⟩, hb, hhead'.symm⟩

/-- Every moment of one choice is some periods after a moment within the loop of the other. -/
theorem exists_earlier {m' : Moment α} (hm' : m' ∈ moments') : ∃ q : ℤ, ∃ m ∈ moments,
    m'.event = m.event.later (q * g.period) (g.rename q) ∧ 0 ≤ m.time ∧ m.time < g.period := by
  obtain ⟨q, f, hf, heq, hlow, hhigh⟩ := h.family.exists_in_loop hg (h.shows'.image m' hm')
  obtain ⟨m, hm, rfl⟩ := h.shows.within f hf hlow hhigh
  exact ⟨q, m, hm, heq, hlow, hhigh⟩

/-- Every step of one choice is like a step of the other, provided that this one has all the
touches after its loop. -/
theorem exists_step (hhigh : ∀ p, 1 ≤ p ∧ p ≤ N → ∃ n ∈ moments, g.period ≤ n.time ∧ n.Touches p)
    {p' : ℕ} (hp' : 1 ≤ p' ∧ p' ≤ N) {a' b' : Touch α}
    (hab' : (a', b') ∈ steps (Touch.ofPath moments' p')) :
    ∃ q : ℤ, ∃ p a b, (1 ≤ p ∧ p ≤ N) ∧ (a, b) ∈ steps (Touch.ofPath moments p) ∧
      Touch.IsLater (q * g.period) (g.rename q) a a' ∧
      Touch.IsLater (q * g.period) (g.rename q) b b' := by
  obtain ⟨ha', hb'⟩ := mem_steps hab'
  obtain ⟨hma', htouch'⟩ := touches ha'
  obtain ⟨q, m, hm, heq, hmlow, hmhigh⟩ := h.exists_earlier hg hma'
  have hp : 1 ≤ g.rename (-q) p' ∧ g.rename (-q) p' ≤ N := hg.rename_mem (-q) hp'
  have hback : g.rename q (g.rename (-q) p') = p' := by
    have := hg.rename_neg (-q) hp'
    rwa [neg_neg] at this
  rw [← hback] at hab'
  have hmI := h.shows.image m hm
  by_cases hmoment : a'.moment = b'.moment
  · -- Within one moment the other has the same step.
    have hwithin := Touch.step_within h.shows'.listed.nodup hab' hmoment
    rw [heq, hg.filter_later (h.family.placed _ hmI) q hp, steps_map] at hwithin
    obtain ⟨⟨t, t'⟩, ht, hwithin⟩ := List.mem_map.mp hwithin
    obtain ⟨hta, htb⟩ := Prod.mk.inj hwithin
    exact ⟨q, _, _, _, hp, Touch.step_of_within hm ht, ⟨heq, hta.symm⟩,
      ⟨hmoment ▸ heq, htb.symm⟩⟩
  · have hlt' : a'.time < b'.time := by
      refine (steps_of_pairwise (h.shows'.listed.sorted_time_ofPath _) hab').lt_of_ne fun htime ↦ ?_
      obtain ⟨hmb', htouchb'⟩ := touches hb'
      exact hmoment (h.shows'.once _ hma' _ hmb' (h.alone p' hp' _ (h.shows'.image _ hma') _
        (h.shows'.image _ hmb') htouch' htouchb' htime))
    have hatime : a'.time = m.time + q * g.period := by
      rw [Touch.time, Moment.time, heq, Event.time_later, Moment.time]
    obtain ⟨n, hn, hnhigh, hntouch⟩ := hhigh _ hp
    have hmtouch : m.Touches (g.rename (-q) p') := by
      rw [Touches, heq, ← hback] at htouch'
      exact (h.family.touches_later hg hmI hp).mp htouch'
    obtain ⟨a, b, hab, hle, hlt⟩ := h.shows.listed.exists_step hm hn hmtouch hntouch
      (P := (· ≤ m.time)) (fun _ _ hst hle ↦ hst.trans hle) le_rfl
      (not_le.mpr (hmhigh.trans_le hnhigh))
    rw [not_le] at hlt
    exact ⟨q, _, a, b, hp, hab, h.isLater_of_steps hg hp hab (hle.trans_lt hlt) hab' hlt'
      (by linarith) (by linarith)⟩

end Moment.Alike

namespace PathHistory

variable [Numeral α] {place : Event α → Coordinate α}

theorem exists_buildAll
    (hsteps : ∀ p, 1 ≤ p ∧ p ≤ N → ∀ s ∈ steps (Touch.ofPath moments p),
      ∃ x, PathLink.passage? place p s.1 s.2 = .ok x) :
    ∃ paths, buildAll place moments N = .ok paths := by
  have hbuild : ∀ p ∈ List.range' 1 N, ∃ hist, build place moments p = .ok hist := by
    intro p hp
    rw [List.mem_range'_1] at hp
    have hlinks : ∀ s ∈ steps (Touch.ofPath moments p),
        ∃ k, PathLink.build place p s.1 s.2 = .ok k := by
      intro s hs
      obtain ⟨x, hx⟩ := hsteps p (by omega) s hs
      exact ⟨_, map_eq_ok.mpr ⟨x, hx, rfl⟩⟩
    obtain ⟨links, hlinks⟩ := exists_mapM_ok_iff.mpr hlinks
    exact ⟨_, bind_eq_ok.mpr ⟨links, hlinks, rfl⟩⟩
  obtain ⟨hists, hhists⟩ := exists_mapM_ok_iff.mpr hbuild
  exact ⟨_, bind_eq_ok.mpr ⟨hists, hhists, rfl⟩⟩

end PathHistory

namespace Moment.Alike

variable [Numeral α] {place : Event α → Coordinate α} {paths paths' : Numbered (PathHistory α)}
  (h : Alike g J N I moments moments') (hg : g.IsGroupOf symmetries J N)
  (hplace : ∀ (q : ℤ) e, place (e.later (q * g.period) (g.rename q)) = place e)
  (hhigh : ∀ p, 1 ≤ p ∧ p ≤ N → ∃ n ∈ moments, g.period ≤ n.time ∧ n.Touches p)

include h hg hplace hhigh

/-- Where one choice of moments gives histories, so does the other. -/
theorem exists_buildAll (w : Woven place J N moments paths) :
    ∃ paths', PathHistory.buildAll place moments' N = .ok paths' := by
  refine PathHistory.exists_buildAll fun p' hp' s hs ↦ ?_
  obtain ⟨q, p, a, b, hp, hab, ha, hb⟩ := h.exists_step hg hhigh hp' hs
  obtain ⟨x, hx⟩ := w.step_ok hp hab
  exact ⟨_, PathLink.passage?_later (hplace q) ha.event hb.event ha.transition hb.transition hx⟩

end Moment.Alike

namespace PathLink

variable {k k' : PathLink α} {s : α} {f : Flight α}

theorem flight?_of_later (h : k'.passage = k.passage.later s) :
    k'.flight? = k.flight?.map (·.later s) := by
  rw [flight?, flight?, h]
  cases k.passage <;> rfl

theorem isHeld_of_later (h : k'.passage = k.passage.later s) : k'.isHeld = k.isHeld := by
  rw [isHeld, isHeld, h]
  cases k.passage <;> rfl

omit [Exact α] in
theorem isHeld_of_flight (h : k.flight? = some f) : k.isHeld = false := by
  unfold flight? at h
  unfold isHeld
  cases hpassage : k.passage <;> simp_all

end PathLink

namespace Woven

variable [Numeral α] {place : Event α → Coordinate α} {paths : Numbered (PathHistory α)}
  (w : Woven place J N moments paths)

include w

theorem link_step {p : ℕ} (hp : 1 ≤ p ∧ p ≤ N) {k : PathLink α}
    (hk : k ∈ (paths.getD p .empty).links) :
    (k.start, k.stop) ∈ steps (Touch.ofPath moments p) := by
  obtain ⟨hist, hget, hbuild⟩ := w.history p hp
  obtain ⟨-, -, hall⟩ := PathHistory.links_of_build hget hbuild
  obtain ⟨s, hs, -, heq⟩ := exists_of_forall₂ hall hk
  rw [heq]
  exact hs

theorem exists_link {p : ℕ} (hp : 1 ≤ p ∧ p ≤ N) {a b : Touch α}
    (hab : (a, b) ∈ steps (Touch.ofPath moments p)) : ∃ k ∈ (paths.getD p .empty).links,
      k.start = a ∧ k.stop = b ∧ PathLink.passage? place p a b = .ok k.passage := by
  obtain ⟨hist, hget, hbuild⟩ := w.history p hp
  obtain ⟨-, -, hall⟩ := PathHistory.links_of_build hget hbuild
  obtain ⟨k, hk, hpassage, heq⟩ := exists_of_forall₂ hall.flip hab
  exact ⟨k, hk, congrArg PathLink.start heq, congrArg PathLink.stop heq, hpassage⟩

theorem lt_of_flight {p : ℕ} (hp : 1 ≤ p ∧ p ≤ N) {k : PathLink α}
    (hk : k ∈ (paths.getD p .empty).links) {f : Flight α} (hf : k.flight? = some f) :
    k.start.time < k.stop.time := by
  rcases PathLink.passage?_ok (w.path_link hp hk).2.2 with ⟨_, _, _, -, -, -, hbuild⟩ | ⟨hheld, -⟩
  · exact (Flight.build_ok hbuild).1
  · simp [PathLink.flight?, hheld] at hf

/-- A path that is touched again later has a step away from a touch. -/
theorem exists_step_from {p : ℕ} (hp : 1 ≤ p ∧ p ≤ N) {m n : Moment α} (hm : m ∈ moments)
    (hn : n ∈ moments) (htouch : m.Touches p) (htouch' : n.Touches p) (hlt : m.time < n.time) :
    ∃ a b, (a, b) ∈ steps (Touch.ofPath moments p) ∧ a.moment = m ∧ m.time < b.time := by
  obtain ⟨a, b, hab, hle, hlt⟩ := w.listed.exists_step hm hn htouch htouch' (P := (· ≤ m.time))
    (fun _ _ hst hle ↦ hst.trans hle) le_rfl (not_le.mpr hlt)
  rw [not_le] at hlt
  have hge : m.time ≤ a.time := by
    obtain ⟨t, ht, hpath⟩ := htouch
    exact (rel_of_step (w.listed.sorted_time_ofPath p) (fun a ↦ le_refl a.time) hab
      (Touch.mem_ofPath (t := ⟨m, t⟩).mpr ⟨hm, ht, hpath⟩)).resolve_right (not_le.mpr hlt)
  obtain ⟨ham, hat, hap⟩ := Touch.mem_ofPath.mp (mem_steps hab).1
  exact ⟨a, b, hab, w.eq_of_touches hp ham hm ⟨_, hat, hap⟩ htouch (le_antisymm hle hge), hlt⟩

/-- A hand has a velocity, or is known to have none, at a throw if that is followed by a flight
or by nothing. -/
theorem exists_velocity_of_throw {m : Moment α} (hm : m ∈ moments) {t : Transition}
    (ht : m.event.find? .throwing = some t)
    (hflight : ∀ a, (Touch.ofPath moments t.path).getLast? = some a → a.moment ≠ m →
      ∃ k ∈ (paths.getD t.path .empty).links, k.isHeld = false ∧ k.start.moment = m) :
    ∃ v, VelocityRef.ofMoment paths m = .ok v := by
  have hmem := List.mem_of_find?_eq_some ht
  obtain ⟨hist, hget, hbuild⟩ := w.history t.path ((w.placed m hm).path t hmem)
  obtain ⟨htouches, -⟩ := PathHistory.build_ok hbuild
  simp only [VelocityRef.ofMoment, ht, Numbered.getD_of_get? hget] at hflight ⊢
  cases hfrom : hist.flightFrom? m with
  | some i => exact ⟨_, rfl⟩
  | none =>
    obtain ⟨a, ha⟩ : ∃ a, (Touch.ofPath moments t.path).getLast? = some a :=
      ⟨_, List.getLast?_eq_some_getLast (List.ne_nil_of_mem
        (Touch.mem_ofPath (t := ⟨m, t⟩).mpr ⟨hm, hmem, rfl⟩))⟩
    by_cases hmoment : a.moment = m
    · have hends : hist.endsAt m = true := by
        rw [PathHistory.endsAt, htouches, ha, Option.map_some, hmoment, beq_self_eq_true]
      simp only [hends, if_true]
      exact ⟨_, rfl⟩
    · obtain ⟨k, hk, hheld, hstart⟩ := hflight a ha hmoment
      have := List.findIdx?_eq_none_iff.mp hfrom k hk
      simp [hheld, hstart] at this

theorem exists_velocity_of_softCatch {m : Moment α} (hm : m ∈ moments) {t : Transition}
    (hnone : m.event.find? .throwing = none) (ht : m.event.find? .softCatching = some t)
    (hflight : ∀ a, (Touch.ofPath moments t.path).head? = some a → a.moment ≠ m →
      ∃ k ∈ (paths.getD t.path .empty).links, k.isHeld = false ∧ k.stop.moment = m) :
    ∃ v, VelocityRef.ofMoment paths m = .ok v := by
  have hmem := List.mem_of_find?_eq_some ht
  obtain ⟨hist, hget, hbuild⟩ := w.history t.path ((w.placed m hm).path t hmem)
  obtain ⟨htouches, -⟩ := PathHistory.build_ok hbuild
  simp only [VelocityRef.ofMoment, hnone, ht, Numbered.getD_of_get? hget] at hflight ⊢
  cases hto : hist.flightTo? m with
  | some i => exact ⟨_, rfl⟩
  | none =>
    obtain ⟨a, ha⟩ : ∃ a, (Touch.ofPath moments t.path).head? = some a :=
      ⟨_, List.head?_eq_some_head (List.ne_nil_of_mem
        (Touch.mem_ofPath (t := ⟨m, t⟩).mpr ⟨hm, hmem, rfl⟩))⟩
    by_cases hmoment : a.moment = m
    · have hstarts : hist.startsAt m = true := by
        rw [PathHistory.startsAt, htouches, ha, Option.map_some, hmoment, beq_self_eq_true]
      simp only [hstarts, if_true]
      exact ⟨_, rfl⟩
    · obtain ⟨k, hk, hheld, hstop⟩ := hflight a ha hmoment
      have := List.findIdx?_eq_none_iff.mp hto k hk
      simp [hheld, hstop] at this

/-- What is caught softly was in flight before, unless its path starts there. -/
theorem exists_flight_to {m : Moment α} (hm : m ∈ moments) {t : Transition}
    (ht : t ∈ m.event.transitions) (hcatch : t.kind.isCatch = true) {a : Touch α}
    (ha : (Touch.ofPath moments t.path).head? = some a) (hne : a.moment ≠ m) :
    ∃ k ∈ (paths.getD t.path .empty).links, k.isHeld = false ∧ k.stop.moment = m := by
  have hp := (w.placed m hm).path t ht
  have hx := Touch.mem_ofPath (t := ⟨m, t⟩).mpr ⟨hm, ht, rfl⟩
  obtain ⟨x, hstep⟩ := (head?_or_step hx).resolve_left fun hhead ↦
    hne (by rw [Option.some.inj (ha.symm.trans hhead)])
  obtain ⟨k, hk, hstart, hstop, hpassage⟩ := w.exists_link hp hstep
  refine ⟨k, hk, ?_, by rw [hstop]⟩
  rcases PathLink.passage?_ok hpassage with ⟨_, _, _, hthrown, -⟩ | ⟨-, hnot, -⟩
  · rw [PathLink.isHeld, hthrown]
  · exact absurd (hcatch.symm.trans hnot) (by decide)

end Woven

namespace Moment.Alike

variable [Numeral α] {place : Event α → Coordinate α} {paths paths' : Numbered (PathHistory α)}
  (h : Alike g J N I moments moments') (hg : g.IsGroupOf symmetries J N)
  (hplace : ∀ (q : ℤ) e, place (e.later (q * g.period) (g.rename q)) = place e)

include h hg hplace

/-- Links around one time, and around that time some periods later, are alike. -/
theorem passage_eq (w : Woven place J N moments paths) (w' : Woven place J N moments' paths')
    {p : ℕ} (hp : 1 ≤ p ∧ p ≤ N) {q : ℤ} {k k' : PathLink α}
    (hk : k ∈ (paths.getD p .empty).links) (hlt : k.start.time < k.stop.time)
    (hk' : k' ∈ (paths'.getD (g.rename q p) .empty).links) (hlt' : k'.start.time < k'.stop.time)
    (hlow : k.start.time + q * g.period < k'.stop.time)
    (hhigh : k'.start.time < k.stop.time + q * g.period) :
    k'.passage = k.passage.later (q * g.period) := by
  have hp' := hg.rename_mem q hp
  obtain ⟨hstart, hstop⟩ := h.isLater_of_steps hg hp (w.link_step hp hk) hlt
    (w'.link_step hp' hk') hlt' hlow hhigh
  exact Except.ok.inj ((w'.path_link hp' hk').2.2.symm.trans (PathLink.passage?_later (hplace q)
    hstart.event hstop.event hstart.transition hstop.transition (w.path_link hp hk).2.2))

/-- Where one choice of moments gives hands their velocities, so does the other. -/
theorem exists_velocity
    (hhigh : ∀ p, 1 ≤ p ∧ p ≤ N → ∃ n ∈ moments, g.period ≤ n.time ∧ n.Touches p)
    (tr : Traced place J N moments paths) (w' : Woven place J N moments' paths') :
    ∀ m' ∈ moments', ∃ v, VelocityRef.ofMoment paths' m' = .ok v := by
  intro m' hm'
  cases hthrow : m'.event.find? .throwing with
  | none =>
    cases hsoft : m'.event.find? .softCatching with
    | none => exact ⟨none, by simp [VelocityRef.ofMoment, hthrow, hsoft]⟩
    | some t =>
      have hkind : t.kind = .softCatching := by simpa using List.find?_some hsoft
      exact w'.exists_velocity_of_softCatch hm' hthrow hsoft fun a ha hne ↦
        w'.exists_flight_to hm' (List.mem_of_find?_eq_some hsoft) (by rw [hkind]; rfl) ha hne
  | some t' =>
    refine w'.exists_velocity_of_throw hm' hthrow fun z hz hne ↦ ?_
    have hmem := List.mem_of_find?_eq_some hthrow
    obtain ⟨q, m, hm, heq, hmlow, hmhigh⟩ := h.exists_earlier hg hm'
    have hmI := h.shows.image m hm
    -- The path is touched after the throw, so there is a step away from it.
    obtain ⟨hzm, hztouch⟩ := touches (List.mem_of_getLast? hz)
    have hp' := (w'.placed m' hm').path t' hmem
    have htouch' : m'.Touches t'.path := ⟨t', hmem, rfl⟩
    have hlt : m'.time < z.time := by
      refine (rel_getLast (w'.listed.sorted_time_ofPath _) (fun a ↦ le_refl a.time)
        (Touch.mem_ofPath (t := ⟨m', t'⟩).mpr ⟨hm', hmem, rfl⟩) hz).lt_of_ne fun htime ↦ ?_
      exact hne (w'.eq_of_touches hp' hm' hzm htouch' hztouch htime).symm
    obtain ⟨a', b', hab', ha', hlt'⟩ := w'.exists_step_from hp' hm' hzm htouch' hztouch hlt
    have htime : m'.time = m.time + q * g.period := by
      rw [time, heq, Event.time_later, time]
    -- In the loop the step is a flight.
    rw [heq, Event.find?_later, Option.map_eq_some_iff] at hthrow
    obtain ⟨t, ht, rfl⟩ := hthrow
    have hp := (tr.placed m hm).path t (List.mem_of_find?_eq_some ht)
    rcases tr.throw_cases hm ht with ⟨k, hk, f, -, hstart, hf, -⟩ | ⟨-, a, ha, ham⟩
    · obtain ⟨k', hk', hstart', hstop', hpassage⟩ := w'.exists_link hp' hab'
      refine ⟨k', hk', ?_, by rw [hstart', ha']⟩
      have hkstart : k.start.time = m.time := congrArg time hstart
      have hkstart' : k'.start.time = m'.time := by rw [hstart', Touch.time, ha']
      have hflight := tr.lt_of_flight hp hk hf
      have hpassage := h.passage_eq hg hplace tr.toWoven w' hp hk hflight hk'
        (by rw [hkstart', hstop']; exact hlt') (by rw [hkstart, hstop', ← htime]; exact hlt')
        (by rw [hkstart', htime, ← hkstart]; linarith)
      exact PathLink.isHeld_of_flight (by rw [PathLink.flight?_of_later hpassage, hf]; rfl)
    · obtain ⟨n, hn, hnhigh, hntouch⟩ := hhigh t.path hp
      obtain ⟨t₁, ht₁, hpath₁⟩ := hntouch
      have hle := rel_getLast (tr.listed.sorted_time_ofPath _) (fun a ↦ le_refl a.time)
        (Touch.mem_ofPath (t := ⟨n, t₁⟩).mpr ⟨hn, ht₁, hpath₁⟩) ha
      have hatime : a.time = m.time := congrArg time ham
      exact absurd hle (not_le.mpr (hatime ▸ hmhigh.trans_le hnhigh))

/-- A hand has the same velocity at one event, whichever moments are chosen. -/
theorem resolve_eq (tr : Traced place J N moments paths) (tr' : Traced place J N moments' paths')
    {m m' : Moment α} (hm : m ∈ moments) (hm' : m' ∈ moments') {q : ℤ}
    (hevent : m'.event = m.event.later (q * g.period) (g.rename q)) {v v' : VelocityRef}
    (hv : VelocityRef.ofMoment paths m = .ok (some v))
    (hv' : VelocityRef.ofMoment paths' m' = .ok (some v')) :
    v'.resolve paths' = v.resolve paths := by
  have hfind (kind : TransitionKind) : m'.event.find? kind =
      (m.event.find? kind).map fun t ↦ { t with path := g.rename q t.path } := by
    rw [hevent, Event.find?_later]
  have htime : m'.time = m.time + q * g.period := time_of_later hevent
  rcases tr.flight_of_velocity hm hv with ⟨t, ht, k, hk, f, hstart, hf, hresolve⟩ |
      ⟨hnone, t, ht, k, hk, f, hstop, hf, hresolve⟩ <;>
    rcases tr'.flight_of_velocity hm' hv' with ⟨t', ht', k', hk', f', hstart', hf', hresolve'⟩ |
      ⟨hnone', t', ht', k', hk', f', hstop', hf', hresolve'⟩
  · rw [hfind, ht, Option.map_some, Option.some.injEq] at ht'
    subst ht'
    have hp := (tr.placed m hm).path t (List.mem_of_find?_eq_some ht)
    have hlt := tr.lt_of_flight hp hk hf
    have hlt' := tr'.lt_of_flight (hg.rename_mem q hp) hk' hf'
    have heq : k'.start.time = k.start.time + q * g.period := by
      rw [Touch.time, hstart', htime, Touch.time, hstart]
    have hflight := PathLink.flight?_of_later (h.passage_eq hg hplace tr.toWoven tr'.toWoven hp hk
      hlt hk' hlt' (heq ▸ hlt') (by rw [heq]; linarith))
    rw [hf, hf', Option.map_some, Option.some.injEq] at hflight
    rw [hresolve, hresolve', hflight, f.startVelocity_later]
  · rw [hfind, ht] at hnone'
    cases hnone'
  · rw [hfind, hnone] at ht'
    cases ht'
  · rw [hfind, ht, Option.map_some, Option.some.injEq] at ht'
    subst ht'
    have hp := (tr.placed m hm).path t (List.mem_of_find?_eq_some ht)
    have hlt := tr.lt_of_flight hp hk hf
    have hlt' := tr'.lt_of_flight (hg.rename_mem q hp) hk' hf'
    have heq : k'.stop.time = k.stop.time + q * g.period := by
      rw [Touch.time, hstop', htime, Touch.time, hstop]
    have hflight := PathLink.flight?_of_later (h.passage_eq hg hplace tr.toWoven tr'.toWoven hp hk
      hlt hk' hlt' (by rw [heq]; linarith) (heq ▸ hlt'))
    rw [hf, hf', Option.map_some, Option.some.injEq] at hflight
    rw [hresolve, hresolve', hflight, f.endVelocity_later]

end Moment.Alike

namespace Moment.Expanded

variable {seeds seeds' : List (Event α)}

/-- The same seeds in another order show the same events. -/
theorem alike [Numeral α] (hg : g.IsGroupOf symmetries J N)
    (hs : SymmetryGroup.Separated g.period symmetries) (hseeds : ∀ e ∈ seeds, Placed J N e)
    (hfree : ∀ e ∈ seeds, ¬g.Shadows e.juggler) (x : Expanded seeds g J N ⟨0, g.period⟩ moments)
    (hperm : seeds.Perm seeds') (x' : Expanded seeds' g J N ⟨0, g.period⟩ moments')
    {place : Event α → Coordinate α} {paths : Numbered (PathHistory α)}
    (w : Woven place J N moments paths) : Alike g J N (g.imagesOf seeds) moments moments' := by
  have hmem {e : Event α} (he : e ∈ seeds') : e ∈ seeds := hperm.mem_iff.mpr he
  have hI := x.family hg hs hseeds hfree
  have hshows := x.shows hg hs hseeds hfree
  have hshows' := x'.shows hg hs (fun e he ↦ hseeds e (hmem he)) fun e he ↦ hfree e (hmem he)
  rw [← SymmetryGroup.imagesOf_perm hperm] at hshows'
  exact ⟨hI, hshows, hshows', fun p hp ↦ hshows.alone hI hg hp fun p hp m hm n hn ↦
    w.eq_of_touches hp hm hn⟩

end Moment.Expanded

namespace Layout.IsBuilt

variable [Numeral α] {d : Declarations α} {l : Layout α} (h : IsBuilt d l)
  (hperms : ∀ s ∈ d.symmetries, s.jugglers.Rearranges ∧ s.paths.Rearranges)
  (hs : SymmetryGroup.Separated l.group.period d.symmetries)

include h hperms hs

theorem alike : Moment.Alike l.group d.jugglers d.paths (l.group.imagesOf l.timeline.seeds)
    l.timeline.moments l.timeline.moments := by
  obtain ⟨hplaced, ⟨x⟩⟩ := h.expanded hperms
  rw [h.loop_eq] at x
  exact x.alike (h.isGroupOf hperms) hs hplaced (h.free hperms hs) (.refl _) x
    (h.traced hperms).toWoven

/-- Links of a path and of the one it becomes that meet when one of them is put off by a period are
alike. -/
theorem link_later {p : ℕ} (hp : 1 ≤ p ∧ p ≤ d.paths) {k k' : PathLink α}
    (hk : k ∈ l.pathLinks p) (hlt : k.start.time < k.stop.time)
    (hk' : k' ∈ l.pathLinks (l.group.rename 1 p)) (hlt' : k'.start.time < k'.stop.time)
    (hlow : k.start.time + l.group.period < k'.stop.time)
    (hhigh : k'.start.time < k.stop.time + l.group.period) :
    k'.passage = k.passage.later l.group.period := by
  have w := (h.traced hperms).toWoven
  simpa using (h.alike hperms hs).passage_eq (h.isGroupOf hperms)
    (fun q ↦ h.globalPlace_periods hperms q _) w w hp (q := 1) hk hlt hk' hlt' (by simpa using hlow)
    (by simpa using hhigh)

/-- The velocities that a hand takes a period apart are the same. -/
theorem resolve_later {m m' : Moment α} (hm : m ∈ l.timeline.moments)
    (hm' : m' ∈ l.timeline.moments)
    (hevent : m'.event = m.event.later l.group.period (l.group.rename 1)) {v v' : VelocityRef}
    (hv : VelocityRef.ofMoment l.paths m = .ok (some v))
    (hv' : VelocityRef.ofMoment l.paths m' = .ok (some v')) :
    v'.resolve l.paths = v.resolve l.paths := by
  have tr := h.traced hperms
  exact (h.alike hperms hs).resolve_eq (h.isGroupOf hperms)
    (fun q ↦ h.globalPlace_periods hperms q _) tr tr hm hm' (q := 1) (by simpa using hevent) hv hv'

end Layout.IsBuilt

end Juggling
