import Juggling.Proofs.Velocities

namespace Juggling

variable {α : Type}

namespace Event

variable {e : Event α} {s : α} {r : ℕ → ℕ}

theorem determinesVelocity_cases (h : e.determinesVelocity = true) :
    (∃ t, e.find? .throwing = some t) ∨
      e.find? .throwing = none ∧ ∃ t, e.find? .softCatching = some t := by
  cases hthrow : e.find? .throwing with
  | some t => exact .inl ⟨t, rfl⟩
  | none =>
    refine .inr ⟨rfl, ?_⟩
    obtain ⟨t, ht, hkind⟩ := List.any_eq_true.mp h
    rw [← Option.isSome_iff_exists, find?, List.find?_isSome]
    refine ⟨t, ht, ?_⟩
    have hne := List.find?_eq_none.mp hthrow t ht
    cases hk : t.kind <;> simp_all [TransitionKind.determinesVelocity]

variable [Exact α]

@[simp] theorem determinesVelocity_later :
    (e.later s r).determinesVelocity = e.determinesVelocity := by
  simp [determinesVelocity, transitions_later, Function.comp_def]

theorem find?_later (kind : TransitionKind) :
    (e.later s r).find? kind = (e.find? kind).map fun t ↦ { t with path := r t.path } := by
  rw [find?, transitions_later, List.find?_map]
  rfl

end Event

variable [Exact α]

theorem Moment.touches_of_later {m n : Moment α} {s : α} {r : ℕ → ℕ}
    (h : n.event = m.event.later s r) {p : ℕ} (htouch : m.Touches p) : n.Touches (r p) := by
  obtain ⟨t, ht, rfl⟩ := htouch
  exact ⟨_, h ▸ Event.mem_transitions_later ht, rfl⟩

theorem exists_period {period : α} (hp : 0 < period) (t : α) :
    ∃ q : ℤ, 0 ≤ t + q * period ∧ t + q * period < period := by
  refine ⟨-⌊t / period⌋, ?_⟩
  rw [Int.cast_neg, neg_mul, ← sub_eq_add_neg]
  exact ⟨Int.sub_floor_div_mul_nonneg t hp, Int.sub_floor_div_mul_lt t hp⟩

theorem pair_sublist {β : Type} {x y : β} (xs : List β) {ys : List β} (hy : y ∈ ys) :
    [x, y].Sublist (xs ++ x :: ys) :=
  ((List.singleton_sublist.mpr hy).cons_cons x).trans (List.sublist_append_right xs _)

namespace Expansion

/-- Moments that are all the images that were made of the seeds of an expansion, which coverage
knows. -/
structure Filled (x : Expansion α) (J N : ℕ) (moments : List (Moment α)) where
  made : List (Generated α)
  run : x.Made N made
  sound : x.Sound J N
  moment : ∀ o ∈ made, ∃ m ∈ moments, m.toGenerated = o
  of_moment : ∀ m ∈ moments, m.toGenerated ∈ made
  knows : ∀ e ∈ x.seeds, ∀ k, x.coverage.Knows ((x.group.image k).apply e)

namespace Filled

/-- A timeline from which nothing was dropped. -/
def ofExpanded {seeds : List (Event α)} {g : SymmetryGroup α} {J N : ℕ} {loop : Window α}
    {moments : List (Moment α)} (e : Moment.Expanded seeds g J N loop moments)
    {symmetries : List (Symmetry α)} (hg : g.IsGroupOf symmetries J N)
    (hseeds : ∀ e ∈ seeds, Placed J N e) (hkept : ∀ o ∈ e.made, o ∈ e.kept) :
    Filled ⟨seeds, g, e.coverage, loop⟩ J N moments where
  made := e.made
  run := e.run
  sound := by
    have hsized := (Coverage.scan_ok hg hseeds e.scan_eq).1
    exact ⟨hseeds, hsized.hands, hsized.paths⟩
  moment := fun o ho ↦ by
    rw [e.moments_eq]
    exact Moment.exists_mem_numbered (hkept o ho)
  of_moment := fun m hm ↦ by
    rw [e.moments_eq] at hm
    exact e.mem_made_of_kept (Moment.mem_numbered hm)
  knows := (Coverage.scan_ok hg hseeds e.scan_eq).2

variable {x : Expansion α} {J N : ℕ} {moments : List (Moment α)} (f : x.Filled J N moments)
  {m n : Moment α}

include f

theorem exists_imageTime (hm : m ∈ moments) :
    ∃ e, x.seeds[m.seed]? = some e ∧ m.time = x.group.imageTime e m.image := by
  obtain ⟨e, he, heq⟩ := f.run.generated (f.of_moment m hm)
  refine ⟨e, he, ?_⟩
  rw [← SymmetryGroup.time_image]
  exact congrArg (fun o ↦ o.event.time) heq

theorem image_mem (hm : m ∈ moments) :
    f.run.low m.seed < m.image ∧ m.image < f.run.high m.seed := by
  obtain ⟨e, he, heq⟩ := f.run.generated (f.of_moment m hm)
  exact (f.run.mem_iff he m.image).mp (heq ▸ f.of_moment m hm)

theorem determines_known (hm : m ∈ moments) (hdetermines : m.event.determinesVelocity = true) :
    (x.coverage.hand m.event.juggler m.event.hand).determinesVelocity = true := by
  obtain ⟨e, he, heq⟩ := f.run.generated (f.of_moment m hm)
  have hevent : m.event = _ := congrArg Generated.event heq
  rw [hevent] at hdetermines ⊢
  exact (f.knows e (List.mem_of_getElem? he) m.image).velocity hdetermines

variable {symmetries : List (Symmetry α)} (hg : x.group.IsGroupOf symmetries J N)

include hg

theorem exists_later (hm : m ∈ moments) {q : ℤ}
    (hlow : f.run.low m.seed < m.image + q * x.group.size)
    (hhigh : m.image + q * x.group.size < f.run.high m.seed) :
    ∃ n ∈ moments, n.seed = m.seed ∧ n.image = m.image + q * x.group.size ∧
      n.event = m.event.later (q * x.group.period) (x.group.rename q) := by
  obtain ⟨e, he, heq⟩ := f.run.generated (f.of_moment m hm)
  obtain ⟨n, hn, hgen⟩ := f.moment _ ((f.run.mem_iff he _).mpr ⟨hlow, hhigh⟩)
  refine ⟨n, hn, (congrArg Generated.seed hgen :), (congrArg Generated.image hgen :), ?_⟩
  rw [show n.event = _ from congrArg Generated.event hgen,
    show m.event = _ from congrArg Generated.event heq]
  exact hg.image_add_size (f.sound.seeds e (List.mem_of_getElem? he)) _ q

theorem image_lt_high (hm : m ∈ moments) {q : ℤ}
    (hhigh : m.time + q * x.group.period < x.loop.high) :
    m.image + q * x.group.size < f.run.high m.seed := by
  obtain ⟨e, he, htime⟩ := f.exists_imageTime hm
  rw [htime, ← hg.imageTime_add_size] at hhigh
  refine lt_of_le_of_lt ?_ (f.run.last_lt_high m.seed)
  by_contra hlt
  have hmono := hg.imageTime_mono e
    (show f.run.last m.seed + 1 ≤ m.image + q * x.group.size by omega)
  exact absurd ((f.run.last_spec m.seed e he).2.trans hmono) (not_le.mpr hhigh)

theorem exists_within (hm : m ∈ moments) {q : ℤ}
    (hlow : x.loop.low - timeTolerance ≤ m.time + q * x.group.period)
    (hhigh : m.time + q * x.group.period < x.loop.high) :
    ∃ n ∈ moments, n.seed = m.seed ∧ n.image = m.image + q * x.group.size ∧
      n.event = m.event.later (q * x.group.period) (x.group.rename q) := by
  obtain ⟨e, he, htime⟩ := f.exists_imageTime hm
  refine f.exists_later hg hm ?_ (f.image_lt_high hg hm hhigh)
  rw [htime, ← hg.imageTime_add_size] at hlow
  by_contra hle
  have hmono := hg.imageTime_mono e (not_lt.mp hle)
  exact absurd (hlow.trans hmono) (not_le.mpr (f.run.low_spec m.seed e he))

theorem knows_later (hm : m ∈ moments) (q : ℤ) :
    x.coverage.Knows (m.event.later (q * x.group.period) (x.group.rename q)) := by
  obtain ⟨e, he, heq⟩ := f.run.generated (f.of_moment m hm)
  have hmem := List.mem_of_getElem? he
  rw [show m.event = _ from congrArg Generated.event heq,
    ← hg.image_add_size (f.sound.seeds e hmem)]
  exact f.knows e hmem _

/-- Some periods away every moment has an image in the loop. -/
theorem exists_in_loop (hloop : x.loop.low + x.group.period ≤ x.loop.high) (hm : m ∈ moments) :
    ∃ q : ℤ, ∃ n ∈ moments, n.event = m.event.later (q * x.group.period) (x.group.rename q) ∧
      x.loop.low ≤ n.time ∧ n.time < x.loop.high := by
  obtain ⟨q, hlow, hhigh⟩ := exists_period hg.period_pos (m.time - x.loop.low)
  obtain ⟨n, hn, -, -, hevent⟩ := f.exists_within hg hm (q := q)
    (by linarith [timeTolerance_pos (α := α)]) (by linarith)
  have htime := Moment.time_of_later hevent
  exact ⟨q, n, hn, hevent, by linarith, by linarith⟩

/-- What is caught at some moment is known to be caught, on whatever path it is. -/
theorem caught_rename (hm : m ∈ moments) {t : Transition} (ht : t ∈ m.event.transitions)
    (hcatch : t.kind.isCatch = true) (q : ℤ) :
    (x.coverage.path (x.group.rename q t.path)).caught = true :=
  (f.knows_later hg hm q).caught _ (Event.mem_transitions_later ht) hcatch

theorem thrown_rename (hm : m ∈ moments) {t : Transition} (ht : t ∈ m.event.transitions)
    (hthrow : t.kind = .throwing) (q : ℤ) :
    (x.coverage.path (x.group.rename q t.path)).thrown = true :=
  (f.knows_later hg hm q).thrown _ (Event.mem_transitions_later ht) hthrow

/-- Every path is touched when the loop starts. -/
theorem touched_low {p : ℕ} (hp : 1 ≤ p ∧ p ≤ N) :
    ∃ m ∈ moments, m.time ≤ x.loop.low + timeTolerance ∧ m.Touches p := by
  obtain ⟨o, ho, htime, htouch⟩ := f.run.exists_touch_back hg f.sound hp
  obtain ⟨m, hm, rfl⟩ := f.moment o (f.run.mem_made.mpr (.inl ho))
  exact ⟨m, hm, htime, htouch⟩

theorem high_le_of_forth {o : Generated α} (ho : o ∈ f.run.forth) :
    x.loop.high ≤ o.event.time := by
  have hbeyond := (f.run.runForth.beyond hg (.inl rfl) (t := x.loop.high) fun j e he ↦ ?_).1 o ho
  · push_cast at hbeyond
    linarith
  · have := (f.run.last_spec j e he).2
    push_cast
    linarith

theorem touched_high {p : ℕ} (hp : 1 ≤ p ∧ p ≤ N) :
    ∃ m ∈ moments, m.toGenerated ∈ f.run.forth ∧ x.loop.high ≤ m.time ∧ m.Touches p := by
  obtain ⟨o, ho, htouch⟩ := f.run.exists_touch_forth hg f.sound hp
  obtain ⟨m, hm, rfl⟩ := f.moment o (f.run.mem_made.mpr (.inr ho))
  exact ⟨m, hm, ho, f.high_le_of_forth hg ho, htouch⟩

theorem lt_high_of_back (hm : m ∈ moments) (hback : m.toGenerated ∈ f.run.back) :
    m.time < x.loop.high := by
  obtain ⟨e, he, htime⟩ := f.exists_imageTime hm
  have hle := ((f.run.runBack.mem_backward_iff he m.image).mp (by
    obtain ⟨e', he', heq⟩ := f.run.generated (f.of_moment m hm)
    obtain rfl := Option.some.inj (he.symm.trans he')
    exact heq ▸ hback)).2
  rw [htime]
  exact (hg.imageTime_mono e hle).trans_lt (f.run.last_spec m.seed e he).1

theorem mem_back_of_lt (hm : m ∈ moments) (hlt : m.time < x.loop.high) :
    m.toGenerated ∈ f.run.back :=
  (f.run.mem_made.mp (f.of_moment m hm)).resolve_right fun hforth ↦
    absurd (f.high_le_of_forth hg hforth) (not_le.mpr hlt)

theorem mem_forth_of_le (hm : m ∈ moments) (hle : x.loop.high ≤ m.time) :
    m.toGenerated ∈ f.run.forth :=
  (f.run.mem_made.mp (f.of_moment m hm)).resolve_left fun hback ↦
    absurd (f.lt_high_of_back hg hm hback) (not_lt.mpr hle)

/-- Nothing is left out after a moment. -/
theorem low_lt_of_lt (hloop : x.loop.low ≤ x.loop.high) {i : ℕ} {e : Event α}
    (he : x.seeds[i]? = some e) {k : ℤ} (hn : n ∈ moments) (hlt : n.time < x.group.imageTime e k) :
    f.run.low i < k := by
  by_contra hle
  have hmono := hg.imageTime_mono e (not_lt.mp hle)
  rcases f.run.mem_made.mp (f.of_moment n hn) with hback | hforth
  · have hbeyond := (f.run.runBack.ordered hg (.inr rfl)).2 _ hback i e he
    rw [Int.cast_neg, Int.cast_one, neg_one_mul, neg_sub, sub_nonneg] at hbeyond
    exact absurd (hlt.trans_le (hmono.trans hbeyond)) (lt_irrefl _)
  · have hstart := f.run.low_spec i e he
    have hle' : x.loop.high ≤ n.time := f.high_le_of_forth hg hforth
    linarith [timeTolerance_pos (α := α)]

theorem lt_high_of_lt {i : ℕ} {e : Event α} (he : x.seeds[i]? = some e) {k : ℤ}
    (hn : n ∈ moments) (hlt : x.group.imageTime e k < n.time) : k < f.run.high i := by
  rcases f.run.mem_made.mp (f.of_moment n hn) with hback | hforth
  · refine lt_of_le_of_lt ?_ (f.run.last_lt_high i)
    by_contra hle
    have hmono := hg.imageTime_mono e (show f.run.last i + 1 ≤ k by omega)
    have hlast := (f.run.last_spec i e he).2
    linarith [f.lt_high_of_back hg hn hback]
  · by_contra hle
    have hmono := hg.imageTime_mono e (not_lt.mp hle)
    have hbeyond := (f.run.runForth.ordered hg (.inl rfl)).2 _ hforth i e he
    rw [Int.cast_one, one_mul, sub_nonneg] at hbeyond
    exact absurd (hlt.trans_le (hbeyond.trans hmono)) (lt_irrefl _)

theorem le_of_forth (hpair : [m.toGenerated, n.toGenerated].Sublist f.run.forth) :
    m.time ≤ n.time := by
  have := (f.run.runForth.ordered hg (.inl rfl)).1.forall_sublist hpair
  rwa [Int.cast_one, one_mul, sub_nonneg] at this

theorem le_of_back (hpair : [m.toGenerated, n.toGenerated].Sublist f.run.back) :
    n.time ≤ m.time := by
  have := (f.run.runBack.ordered hg (.inr rfl)).1.forall_sublist hpair
  rwa [Int.cast_neg, Int.cast_one, neg_one_mul, neg_sub, sub_nonneg] at this

section Traced

variable [Numeral α] {place : Event α → Coordinate α} {paths : Numbered (PathHistory α)}
  (h : Traced place J N moments paths)

include h

omit hg in
/-- Images that touch one path are not made for one time. -/
theorem time_ne (hm : m ∈ moments) (hn : n ∈ moments) {t t' : Transition}
    (ht : t ∈ m.event.transitions) (ht' : t' ∈ n.event.transitions) (hpath : t'.path = t.path)
    (hpair : [m.toGenerated, n.toGenerated].Sublist (f.run.back ++ f.run.forth)) :
    m.time ≠ n.time := by
  intro heq
  obtain rfl : m = n :=
    h.eq_of_touches ((h.placed m hm).path t ht) hm hn ⟨t, ht, rfl⟩ ⟨t', ht', hpath⟩ heq
  have hnodup : (f.run.back ++ f.run.forth).Nodup := f.run.made_eq ▸ f.run.nodup
  simpa using hnodup.sublist hpair

variable (hloop : x.loop.low + x.group.period ≤ x.loop.high)

include hloop

theorem caught_of_throw (hm : m ∈ moments) {t : Transition}
    (ht : m.event.find? .throwing = some t) : (x.coverage.path t.path).caught = true := by
  have hp := (h.placed m hm).path t (List.mem_of_find?_eq_some ht)
  -- The throw a whole number of periods away within the loop is not the last touch of its path.
  obtain ⟨q, n, hn, hevent, -, hhigh⟩ := f.exists_in_loop hg hloop hm
  obtain ⟨n', hn', -, htime, htouch⟩ := f.touched_high hg (hg.rename_mem q hp)
  have hfind : n.event.find? .throwing = some { t with path := x.group.rename q t.path } := by
    rw [hevent, Event.find?_later, ht, Option.map_some]
  obtain ⟨-, c, hc, t', ht', hcatch, hpath⟩ :=
    h.throw_resolved hn hn' hfind htouch (hhigh.trans_le htime)
  have := f.caught_rename hg hc ht' hcatch (-q)
  rwa [hpath, hg.rename_neg q hp] at this

omit hloop in
/-- What is caught is thrown by some image when its path was touched before, be it some periods
away. -/
theorem thrown_of_touched {m' : Moment α} (hm : m ∈ moments) {t : Transition}
    (ht : t ∈ m.event.transitions) (hcatch : t.kind.isCatch = true) {q : ℤ} (hn : n ∈ moments)
    (hevent : n.event = m.event.later (q * x.group.period) (x.group.rename q))
    (hm' : m' ∈ moments) (htouch : m'.Touches (x.group.rename q t.path))
    (hlt : m'.time < n.time) : (x.coverage.path t.path).thrown = true := by
  obtain ⟨c, hc, t', ht', hthrow, htp⟩ := h.exists_throw_before hn hm'
    (t := { t with path := x.group.rename q t.path })
    (hevent ▸ Event.mem_transitions_later ht) hcatch htouch hlt
  have := f.thrown_rename hg hc ht' hthrow (-q)
  rwa [htp, hg.rename_neg q ((h.placed m hm).path t ht)] at this

/-- What a moment of the loop touches was touched before, unless the image of the moment a period
later was made. -/
theorem exists_touch_before (hn : n ∈ moments) (hhigh : n.time < x.loop.high)
    (hmade : f.run.high n.seed ≤ n.image + 1 * x.group.size) {p : ℕ} (hp : 1 ≤ p ∧ p ≤ N)
    (htouch : n.Touches p) : ∃ m ∈ moments, m.Touches p ∧ m.time < n.time := by
  -- The path was touched after the loop, not after that image, and so a period before as well.
  obtain ⟨y, hy, hforth, hle, hytouch⟩ := f.touched_high hg (hg.rename_mem 1 hp)
  obtain ⟨e, he, htime⟩ := f.exists_imageTime hn
  have hbeyond := (f.run.runForth.ordered hg (.inl rfl)).2 _ hforth n.seed e he
  have hmono := hg.imageTime_mono e hmade
  rw [hg.imageTime_add_size, ← htime] at hmono
  push_cast at hbeyond hmono
  have hback : y.time ≤ n.time + x.group.period := by
    rw [Moment.time]
    linarith
  obtain ⟨m, hm, hseed, himage, hevent⟩ := f.exists_within hg hy (q := -1)
    (by push_cast; linarith [timeTolerance_pos (α := α)]) (by push_cast; linarith)
  have hmtime := Moment.time_of_later hevent
  have hmtouch := Moment.touches_of_later hevent hytouch
  rw [hg.rename_neg 1 hp] at hmtouch
  push_cast at hmtime
  refine ⟨m, hm, hmtouch, lt_of_le_of_ne (by linarith) fun heq ↦ ?_⟩
  obtain rfl := h.eq_of_touches hp hm hn hmtouch htouch heq
  rw [hseed, himage] at hmade
  have := (f.image_mem hy).2
  omega

variable (hlong : timeTolerance < x.group.period)

include hlong

/-- What is caught is thrown by some image. -/
theorem thrown_of_catch (hm : m ∈ moments) {t : Transition} (ht : t ∈ m.event.transitions)
    (hcatch : t.kind.isCatch = true) : (x.coverage.path t.path).thrown = true := by
  have hp := (h.placed m hm).path t ht
  obtain ⟨q, n, hn, hevent, hlow, hhigh⟩ := f.exists_in_loop hg hloop hm
  by_cases hlt : x.loop.low + timeTolerance < n.time
  · obtain ⟨n', hn', hle, htouch⟩ := f.touched_low hg (hg.rename_mem q hp)
    exact f.thrown_of_touched hg h hm ht hcatch hn hevent hn' htouch (hle.trans_lt hlt)
  by_cases hmade : n.image + 1 * x.group.size < f.run.high n.seed
  · -- One period later the path was touched at the start of the loop.
    have hsize : (0 : ℤ) < x.group.size := by exact_mod_cast hg.size_pos
    obtain ⟨n', hn', -, -, hevent'⟩ := f.exists_later hg hn
      (by linarith [(f.image_mem hn).1]) hmade
    have htime := Moment.time_of_later hevent'
    have hnext : n'.event =
        m.event.later ((q + 1 : ℤ) * x.group.period) (x.group.rename (q + 1)) := by
      rw [hevent', hevent, Event.later_later]
      refine Event.later_congr (by push_cast; ring) fun t ht ↦ ?_
      exact hg.rename_rename q 1 ((h.placed m hm).path t ht)
    obtain ⟨y, hy, hle, htouch⟩ := f.touched_low hg (hg.rename_mem (q + 1) hp)
    push_cast at htime
    exact f.thrown_of_touched hg h hm ht hcatch hn' hnext hy htouch (by linarith)
  · obtain ⟨n', hn', htouch, hlt'⟩ := f.exists_touch_before hg h hloop hn hhigh (not_lt.mp hmade)
      (hg.rename_mem q hp) (Moment.touches_of_later hevent ⟨t, ht, rfl⟩)
    exact f.thrown_of_touched hg h hm ht hcatch hn hevent hn' htouch hlt'

section Hands

variable {j : ℕ} {hand : Hand} (hj : 1 ≤ j ∧ j ≤ J)
  (hdetermines : (x.coverage.hand j hand).determinesVelocity = true)

include hj hdetermines

/-- A hand that some image gives a velocity has one after the loop, where it first determines it. -/
theorem resolved_high : ∃ n ∈ moments, n.event.juggler = j ∧ n.event.hand = hand ∧
    x.loop.high ≤ n.time ∧ (∃ v, VelocityRef.ofMoment paths n = .ok (some v)) ∧
    ∀ n' ∈ moments, n'.event.juggler = j → n'.event.hand = hand →
      n'.event.determinesVelocity = true → x.loop.high ≤ n'.time → n.time ≤ n'.time := by
  obtain ⟨pre, o, post, hsplit, hoj, hohand, hdet, hfirst, hcatch⟩ :=
    f.run.exists_velocity_forth hg f.sound hj hdetermines
  have ho : o ∈ f.run.forth := hsplit ▸ List.mem_append_right _ List.mem_cons_self
  obtain ⟨n, hn, rfl⟩ := f.moment o (f.run.mem_made.mpr (.inr ho))
  have htime := f.high_le_of_forth hg ho
  have hpair {o' : Generated α} (ho' : o' ∈ post) : [n.toGenerated, o'].Sublist f.run.forth :=
    hsplit ▸ pair_sublist pre ho'
  refine ⟨n, hn, hoj, hohand, htime, ?_, fun n' hn' hj' hhand' hdet' hle ↦ ?_⟩
  · rcases Event.determinesVelocity_cases hdet with ⟨t, ht⟩ | ⟨hnone, t, ht⟩
    · have hmem := List.mem_of_find?_eq_some ht
      obtain ⟨hkind, before, after, htrans, hbefore⟩ := List.find?_eq_some_iff_append.mp ht
      rcases hcatch before t after htrans (by simpa using hbefore) (by simpa using hkind)
        (f.caught_of_throw hg h hloop hn ht) with
        ⟨t', ht', hpath, hcatch⟩ | ⟨o', ho', t', ht', -, hpath⟩
      · exact absurd (h.not_catch_after hn htrans ht' hpath) (by simp [hcatch])
      · -- The catch is made later, and not at the same moment.
        have hforth : o' ∈ f.run.forth := (hpair ho').subset (by simp)
        obtain ⟨n', hn', rfl⟩ := f.moment o' (f.run.mem_made.mpr (.inr hforth))
        have hne := f.time_ne h hn hn' hmem ht' hpath
          ((hpair ho').trans (List.sublist_append_right _ _))
        exact (h.throw_resolved hn hn' ht ⟨t', ht', hpath⟩
          (lt_of_le_of_ne (f.le_of_forth hg (hpair ho')) hne)).1
    · obtain ⟨n', hn', hlow, htouch⟩ :=
        f.touched_low hg ((h.placed n hn).path t (List.mem_of_find?_eq_some ht))
      refine h.softCatch_resolved hn hn' hnone ht htouch (hlow.trans_lt ?_)
      exact (by linarith : _ < x.loop.high).trans_le htime
  · -- What comes after the loop is made forwards, and none before the first gives a velocity.
    have hforth := f.mem_forth_of_le hg hn' hle
    rw [hsplit] at hforth
    rcases List.mem_append.mp hforth with hpre | hpost
    · exact absurd hdet' (by simp [hfirst _ hpre hj' hhand'])
    · rcases List.mem_cons.mp hpost with heq | hpost
      · exact (congrArg (·.event.time) heq).ge
      · exact f.le_of_forth hg (hpair hpost)

/-- A hand that some image gives a velocity has one when the loop starts, where it last determines
it. -/
theorem resolved_low : ∃ n ∈ moments, n.event.juggler = j ∧ n.event.hand = hand ∧
    n.time ≤ x.loop.low + timeTolerance ∧ n.event.determinesVelocity = true ∧
    (∃ v, VelocityRef.ofMoment paths n = .ok (some v)) ∧
    ∀ n' ∈ moments, n'.event.juggler = j → n'.event.hand = hand →
      n'.event.determinesVelocity = true → n'.time ≤ x.loop.low + timeTolerance →
      n'.time ≤ n.time := by
  obtain ⟨pre, o, post, hsplit, hlow, hoj, hohand, hdet, hlast, hthrown⟩ :=
    f.run.exists_velocity_back hg f.sound hj hdetermines
  have ho : o ∈ f.run.back := hsplit ▸ List.mem_append_right _ List.mem_cons_self
  obtain ⟨n, hn, rfl⟩ := f.moment o (f.run.mem_made.mpr (.inl ho))
  have hshort : x.loop.low + timeTolerance < x.loop.high := by linarith
  have hpair {o' : Generated α} (ho' : o' ∈ post) : [n.toGenerated, o'].Sublist f.run.back :=
    hsplit ▸ pair_sublist pre ho'
  refine ⟨n, hn, hoj, hohand, hlow, hdet, ?_, fun n' hn' hj' hhand' hdet' hle ↦ ?_⟩
  · rcases Event.determinesVelocity_cases hdet with ⟨t, ht⟩ | ⟨hnone, t, ht⟩
    · have hpath := (h.placed n hn).path t (List.mem_of_find?_eq_some ht)
      obtain ⟨n', hn', -, hhigh, htouch⟩ := f.touched_high hg hpath
      exact (h.throw_resolved hn hn' ht htouch ((hlow.trans_lt hshort).trans_le hhigh)).1
    · have hmem := List.mem_of_find?_eq_some ht
      have hkind : t.kind = .softCatching := by simpa using List.find?_some ht
      have hhas : n.event.has .throwing = false := by
        rw [Event.has, List.any_eq_false]
        simpa using List.find?_eq_none.mp hnone
      obtain ⟨o', ho', t', ht', -, hpath⟩ := hthrown hhas t hmem hkind
        (f.thrown_of_catch hg h hloop hlong hn hmem (by rw [hkind]; rfl))
      -- The throw is made further back, and not at the same moment.
      have hback : o' ∈ f.run.back := (hpair ho').subset (by simp)
      obtain ⟨n', hn', rfl⟩ := f.moment o' (f.run.mem_made.mpr (.inl hback))
      have hne := f.time_ne h hn hn' hmem ht' hpath
        ((hpair ho').trans (List.sublist_append_left _ _))
      exact h.softCatch_resolved hn hn' hnone ht ⟨t', ht', hpath⟩
        (lt_of_le_of_ne (f.le_of_back hg (hpair ho')) hne.symm)
  · -- What comes before it is made backwards, and none before the first gives a velocity.
    have hback := f.mem_back_of_lt hg hn' (hle.trans_lt hshort)
    rw [hsplit] at hback
    rcases List.mem_append.mp hback with hpre | hpost
    · exact absurd hdet' (by simp [hlast _ hpre hj' hhand' hle])
    · rcases List.mem_cons.mp hpost with heq | hpost
      · exact (congrArg (·.event.time) heq).le
      · exact f.le_of_back hg (hpair hpost)

end Hands

end Traced

end Filled

end Expansion

end Juggling
