import Juggling.Proofs.Complete
import Juggling.Proofs.Flights

namespace Juggling

theorem Moment.eq_of_mem_numbered {α : Type} {made : List (Generated α)} (hmade : made.Nodup)
    {m n : Moment α} (hm : m ∈ numbered made) (hn : n ∈ numbered made)
    (heq : m.toGenerated = n.toGenerated) : m = n := by
  obtain ⟨i, hi, rfl⟩ := List.mem_mapIdx.mp hm
  obtain ⟨k, hk, rfl⟩ := List.mem_mapIdx.mp hn
  obtain rfl := (hmade.getElem_inj_iff).mp heq
  rfl

/-- Props fly from throws to catches, and otherwise stay in the hand they are in. -/
theorem PathLink.passage?_ok {α : Type} [Scalar α] [Numeral α] {place : Event α → Coordinate α}
    {p : ℕ} {a b : Touch α} {passage : Passage α} (hok : passage? place p a b = .ok passage) :
    (∃ kind modifier f, passage = .thrown kind modifier f ∧ a.transition.kind = .throwing ∧
      b.transition.kind.isCatch = true ∧
      Flight.build kind modifier ⟨knot place a, knot place b⟩ = .ok f) ∨
    passage = .held a.moment.event.juggler a.moment.event.hand ∧
      b.transition.kind.isCatch = false ∧
      Generated.SameHand b.moment.toGenerated a.moment.toGenerated := by
  unfold passage? at hok
  simp only at hok
  split_ifs at hok with hcatch hthrow hthrows hhand
  · simp only [lift_eq_ok, map_eq_ok] at hok
    obtain ⟨f, hf, rfl⟩ := hok
    exact .inl ⟨_, _, f, rfl, by simpa using hthrow, hcatch, hf⟩
  · cases hok
    exact .inr ⟨rfl, Bool.not_eq_true _ ▸ hcatch, (Generated.hasHand_iff _ _).mp hhand⟩

variable {α : Type} [Exact α]

/-- On one hand there is one moment at a time. -/
theorem Moment.Expanded.unique {seeds : List (Event α)} {g : SymmetryGroup α} {J N : ℕ}
    {loop : Window α} {moments : List (Moment α)} (x : Expanded seeds g J N loop moments)
    {m n : Moment α} (hm : m ∈ moments) (hn : n ∈ moments)
    (hhand : Generated.SameHand m.toGenerated n.toGenerated) (htime : m.time = n.time) : m = n := by
  rw [x.moments_eq] at hm hn
  refine eq_of_mem_numbered x.nodup hm hn
    (x.eq_of_near (mem_numbered hm) (mem_numbered hn) hhand ?_)
  rw [show n.event.time - m.event.time = 0 from sub_eq_zero.mpr htime.symm, abs_zero]
  exact timeTolerance_pos

variable [Numeral α]

theorem Flight.build_ok {kind : ThrowKind} {modifier : String} {launch : Launch α} {f : Flight α}
    (hok : build kind modifier launch = .ok f) :
    launch.start.time < launch.stop.time ∧ f.range = launch.range := by
  unfold build at hok
  split_ifs at hok with hlt
  refine ⟨hlt, ?_⟩
  cases kind with
  | toss =>
    obtain ⟨f, hf, rfl⟩ := map_eq_ok.mp hok
    obtain ⟨g, rfl⟩ := Toss.build_ok hf
    rfl
  | bounce =>
    obtain ⟨f, hf, rfl⟩ := map_eq_ok.mp hok
    obtain ⟨_, _, _, -, -, -, -, -, -, -, -, -, rfl⟩ := Bounce.build_ok hf
    rfl

theorem PathHistory.links_of_build {place : Event α → Coordinate α} {moments : List (Moment α)}
    {paths : Numbered (PathHistory α)} {p : ℕ} {hist : PathHistory α}
    (hget : paths.get? p = some hist) (hbuild : build place moments p = .ok hist) :
    hist.touches = Touch.ofPath moments p ∧ hist.links = (paths.getD p .empty).links ∧
    List.Forall₂ (fun s k ↦ PathLink.passage? place p s.1 s.2 = .ok k.passage ∧
      k = ⟨p, s.1, s.2, k.passage⟩) (steps (Touch.ofPath moments p))
        (paths.getD p .empty).links := by
  obtain ⟨htouches, hlinks⟩ := build_ok hbuild
  rw [Numbered.getD_of_get? hget, ← htouches]
  refine ⟨rfl, rfl, hlinks.imp fun s k hk ↦ ?_⟩
  obtain ⟨passage, hpassage, rfl⟩ := PathLink.build_ok hk
  exact ⟨hpassage, rfl⟩

theorem PathHistory.link_of_build {place : Event α → Coordinate α} {moments : List (Moment α)}
    {paths : Numbered (PathHistory α)} {p : ℕ} {hist : PathHistory α}
    (hget : paths.get? p = some hist) (hbuild : build place moments p = .ok hist)
    {k : PathLink α} (hk : k ∈ (paths.getD p .empty).links) :
    k.start ∈ Touch.ofPath moments p ∧ k.stop ∈ Touch.ofPath moments p ∧
      PathLink.passage? place p k.start k.stop = .ok k.passage := by
  obtain ⟨-, -, hall⟩ := links_of_build hget hbuild
  obtain ⟨s, hs, hpassage, heq⟩ := exists_of_forall₂ hall hk
  rw [heq]
  exact ⟨(mem_steps hs).1, (mem_steps hs).2, hpassage⟩

/-- Moments in order, with the histories of all paths. -/
structure Woven (place : Event α → Coordinate α) (J N : ℕ) (moments : List (Moment α))
    (paths : Numbered (PathHistory α)) : Prop where
  listed : Moment.Listed moments
  placed : ∀ m ∈ moments, Placed J N m.event
  unique : ∀ m ∈ moments, ∀ n ∈ moments, Generated.SameHand m.toGenerated n.toGenerated →
    m.time = n.time → m = n
  history : ∀ p, 1 ≤ p ∧ p ≤ N → ∃ hist, paths.get? p = some hist ∧
    PathHistory.build place moments p = .ok hist

/-- The histories of all paths give the hands their velocities. -/
structure Traced (place : Event α → Coordinate α) (J N : ℕ) (moments : List (Moment α))
    (paths : Numbered (PathHistory α)) : Prop extends Woven place J N moments paths where
  velocity : ∀ m ∈ moments, ∃ v, VelocityRef.ofMoment paths m = .ok v

theorem Moment.Expanded.woven {seeds : List (Event α)} {g : SymmetryGroup α} {J N : ℕ}
    {loop : Window α} {moments : List (Moment α)} (x : Expanded seeds g J N loop moments)
    {symmetries : List (Symmetry α)} (hg : g.IsGroupOf symmetries J N)
    (hseeds : ∀ e ∈ seeds, Placed J N e) {place : Event α → Coordinate α}
    {paths : Numbered (PathHistory α)}
    (hpaths : PathHistory.buildAll place moments N = .ok paths) : Woven place J N moments paths :=
  ⟨x.listed, fun _ hm ↦ x.placed hg hseeds hm,
    fun _ hm _ hn hhand htime ↦ x.unique hm hn hhand htime,
    fun _ hp ↦ PathHistory.get?_of_buildAll hpaths hp⟩

theorem Moment.Expanded.traced {seeds : List (Event α)} {g : SymmetryGroup α} {J N : ℕ}
    {loop : Window α} {moments : List (Moment α)} (x : Expanded seeds g J N loop moments)
    {symmetries : List (Symmetry α)} (hg : g.IsGroupOf symmetries J N)
    (hseeds : ∀ e ∈ seeds, Placed J N e) {place : Event α → Coordinate α}
    {paths : Numbered (PathHistory α)} {links : Numbered (Hands (List (HandLink α)))}
    (hpaths : PathHistory.buildAll place moments N = .ok paths)
    (hlinks : HandLink.buildAll paths moments J = .ok links) :
    Traced place J N moments paths :=
  ⟨x.woven hg hseeds hpaths, fun _ hm ↦
    HandLink.velocity_of_buildAll hlinks hm (x.placed hg hseeds hm).juggler⟩

namespace Woven

variable {place : Event α → Coordinate α} {J N : ℕ} {moments : List (Moment α)}
  {paths : Numbered (PathHistory α)} (h : Woven place J N moments paths)

include h

theorem path_link {p : ℕ} (hp : 1 ≤ p ∧ p ≤ N) {k : PathLink α}
    (hk : k ∈ (paths.getD p .empty).links) :
    k.start ∈ Touch.ofPath moments p ∧ k.stop ∈ Touch.ofPath moments p ∧
      PathLink.passage? place p k.start k.stop = .ok k.passage := by
  obtain ⟨hist, hget, hbuild⟩ := h.history p hp
  exact PathHistory.link_of_build hget hbuild hk

theorem step_ok {p : ℕ} (hp : 1 ≤ p ∧ p ≤ N) {a b : Touch α}
    (hab : (a, b) ∈ steps (Touch.ofPath moments p)) :
    ∃ passage, PathLink.passage? place p a b = .ok passage := by
  obtain ⟨hist, hget, hbuild⟩ := h.history p hp
  obtain ⟨-, -, hall⟩ := PathHistory.links_of_build hget hbuild
  obtain ⟨k, -, hk, -⟩ := exists_of_forall₂ hall.flip hab
  exact ⟨_, hk⟩

/-- A step of a path takes time unless it stays at one moment. -/
theorem time_lt_of_step {p : ℕ} (hp : 1 ≤ p ∧ p ≤ N) {a b : Touch α}
    (hab : (a, b) ∈ steps (Touch.ofPath moments p)) :
    (a.moment = b.moment ∧ b.transition.kind.isCatch = false) ∨ a.time < b.time := by
  obtain ⟨passage, hpassage⟩ := h.step_ok hp hab
  rcases PathLink.passage?_ok hpassage with ⟨_, _, f, -, -, -, hf⟩ | ⟨-, hcatch, hhand⟩
  · exact .inr (Flight.build_ok hf).1
  · obtain ⟨ha, hb⟩ := mem_steps hab
    have hle := steps_of_pairwise (h.listed.sorted_time_ofPath p) hab
    rcases hle.lt_or_eq with hlt | heq
    · exact .inr hlt
    · exact .inl ⟨h.unique _ (Touch.mem_ofPath.mp ha).1 _ (Touch.mem_ofPath.mp hb).1
        ⟨hhand.1.symm, hhand.2.symm⟩ heq, hcatch⟩

theorem pairwise_touches {p : ℕ} (hp : 1 ≤ p ∧ p ≤ N) :
    (Touch.ofPath moments p).Pairwise fun a b ↦
      (a.moment = b.moment ∧ b.transition.kind.isCatch = false) ∨ a.time < b.time := by
  have htrans : IsTrans (Touch α) fun a b ↦
      (a.moment = b.moment ∧ b.transition.kind.isCatch = false) ∨ a.time < b.time := by
    refine ⟨fun a b c hab hbc ↦ ?_⟩
    rcases hab with ⟨hab, -⟩ | hab <;> rcases hbc with ⟨hbc, hc⟩ | hbc
    · exact .inl ⟨hab.trans hbc, hc⟩
    · exact .inr (by rwa [Touch.time, hab])
    · exact .inr (by rwa [Touch.time, Touch.time, ← hbc])
    · exact .inr (hab.trans hbc)
  exact List.isChain_iff_pairwise.mp (isChain_of_steps fun s hs ↦ h.time_lt_of_step hp hs)

/-- Of the touches of a path at one time all are of one moment. -/
theorem touch_unique {p : ℕ} (hp : 1 ≤ p ∧ p ≤ N) {a b : Touch α}
    (ha : a ∈ Touch.ofPath moments p) (hb : b ∈ Touch.ofPath moments p)
    (htime : a.time = b.time) : a.moment = b.moment := by
  have hpairs := (h.pairwise_touches hp).imp
    (S := fun a b ↦ a.time = b.time → a.moment = b.moment) fun {a b} hab heq ↦
      hab.elim (·.1) fun hlt ↦ absurd heq hlt.ne
  have hsymm : Std.Symm fun a b : Touch α ↦ a.time = b.time → a.moment = b.moment :=
    ⟨fun _ _ hab heq ↦ (hab heq.symm).symm⟩
  exact hpairs.forall_of_forall (fun _ _ _ ↦ rfl) ha hb htime

/-- At one moment nothing is caught after it was touched. -/
theorem not_catch_after {m : Moment α} (hm : m ∈ moments) {before after : List Transition}
    {t t' : Transition} (htrans : m.event.transitions = before ++ t :: after) (ht' : t' ∈ after)
    (hpath : t'.path = t.path) : t'.kind.isCatch = false := by
  have hp := (h.placed m hm).path t (htrans ▸ List.mem_append_right _ List.mem_cons_self)
  have hsub : [⟨m, t⟩, ⟨m, t'⟩].Sublist (Touch.ofPath moments t.path) := by
    obtain ⟨ms, ns, heq⟩ := List.append_of_mem hm
    rw [heq, Touch.ofPath, List.flatMap_append, List.flatMap_cons, htrans]
    refine List.Sublist.trans ?_ (List.sublist_append_right _ _)
    refine List.Sublist.trans ?_ (List.sublist_append_left _ _)
    refine (?_ : List.Sublist [t, t'] _).map _
    rw [List.filter_append]
    refine List.Sublist.trans ?_ (List.sublist_append_right _ _)
    rw [List.filter_cons_of_pos (by simp)]
    exact List.Sublist.cons_cons t
      (List.singleton_sublist.mpr (List.mem_filter.mpr ⟨ht', by simpa using hpath⟩))
  have := (h.pairwise_touches hp).forall_sublist hsub
  exact this.elim (·.2) fun hlt ↦ absurd hlt (lt_irrefl _)

end Woven

namespace Layout.IsBuilt

variable {d : Declarations α} {l : Layout α} (h : IsBuilt d l)

include h

theorem path_link {p : ℕ} (hp : 1 ≤ p ∧ p ≤ d.paths) {k : PathLink α} (hk : k ∈ l.pathLinks p) :
    k.start ∈ Touch.ofPath l.timeline.moments p ∧ k.stop ∈ Touch.ofPath l.timeline.moments p ∧
      PathLink.passage? (globalPlace l.tracks) p k.start k.stop = .ok k.passage := by
  obtain ⟨hist, hget, hbuild⟩ := h.path_ok hp
  exact PathHistory.link_of_build hget hbuild hk

variable (hperms : ∀ s ∈ d.symmetries, s.jugglers.Rearranges ∧ s.paths.Rearranges)

include hperms

theorem held {p : ℕ} (hp : 1 ≤ p ∧ p ≤ d.paths) {k : PathLink α} (hk : k ∈ l.pathLinks p) {j : ℕ}
    {hand : Hand} (hheld : k.passage = .held j hand) : 1 ≤ j ∧ j ≤ d.jugglers := by
  obtain ⟨hstart, -, hpassage⟩ := h.path_link hp hk
  rcases PathLink.passage?_ok hpassage with ⟨_, _, _, heq, -⟩ | ⟨heq, -⟩
  · cases heq.symm.trans hheld
  · cases heq.symm.trans hheld
    exact (h.placed hperms (Touch.mem_ofPath.mp hstart).1).juggler

theorem moment_unique {m n : Moment α} (hm : m ∈ l.timeline.moments) (hn : n ∈ l.timeline.moments)
    (hhand : Generated.SameHand m.toGenerated n.toGenerated) (htime : m.time = n.time) : m = n := by
  obtain ⟨-, ⟨x⟩⟩ := h.expanded hperms
  exact x.unique hm hn hhand htime

theorem traced :
    Traced (globalPlace l.tracks) d.jugglers d.paths l.timeline.moments l.paths := by
  obtain ⟨hplaced, ⟨x⟩⟩ := h.expanded hperms
  obtain ⟨links, hlinks, -⟩ := h.hands
  exact x.traced (h.isGroupOf hperms) hplaced h.paths hlinks

/-- Of the touches of a path at one time all are of one moment. -/
theorem touch_unique {p : ℕ} (hp : 1 ≤ p ∧ p ≤ d.paths) {a b : Touch α}
    (ha : a ∈ Touch.ofPath l.timeline.moments p) (hb : b ∈ Touch.ofPath l.timeline.moments p)
    (htime : a.time = b.time) : a.moment = b.moment :=
  (h.traced hperms).touch_unique hp ha hb htime

end Layout.IsBuilt

end Juggling
