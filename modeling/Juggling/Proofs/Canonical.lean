import Juggling.Proofs.Budget
import Juggling.Proofs.Exchange
import Juggling.Proofs.Queries

namespace Juggling

variable {α : Type} [Exact α] {symmetries : List (Symmetry α)} {J N : ℕ}

/-- Backwards a loop shorter than the tolerance needs nothing from before the tolerance: when all
recurs in every period, its own images will do. -/
theorem Expansion.le_time_of_brief {x : Expansion α} (hg : x.group.IsGroupOf symmetries J N)
    (hseeds : ∀ e ∈ x.seeds, Placed J N e)
    (hscan : Coverage.scan x.seeds x.group J N = .ok x.coverage)
    (hloop : x.loop.high = x.loop.low + x.group.period)
    (hbrief : x.group.period < timeTolerance) (hrecurs : x.Recurs 1) {made : List (Generated α)}
    (hrun : x.run N = .ok made) {o : Generated α} (ho : o ∈ made) :
    x.loop.low - timeTolerance ≤ o.event.time := by
  have hpos := hg.period_pos
  obtain ⟨back, hback, hrun⟩ := bind_eq_ok.mp hrun
  obtain ⟨forth, hforth, hrun⟩ := bind_eq_ok.mp hrun
  obtain rfl := pure_eq_ok.mp hrun
  rw [before_eq_lastInLoop] at hback hforth
  rcases List.mem_append.mp ho with ho | ho
  · obtain ⟨before, c, n, hbefore, hgo, hbeyond⟩ := x.pass_backward.exists_before hback o ho
    simp only [add_zero] at hbefore
    by_contra! hearly
    have hpast : ∀ i e, x.seeds[i]? = some e →
        x.group.imageTime e (c i) < x.loop.low - timeTolerance := by
      intro i e he
      have := hbeyond i e he
      push_cast at this
      linarith
    refine hgo (.inr ⟨fulfilled_backward hg hseeds hscan Nat.one_pos hrecurs
      (x.loop.low + 2 * x.group.period - timeTolerance) (by linarith) hbefore
      (fun i e he ↦ ?_) (fun i e he ↦ ?_), hpast⟩)
    · linarith [(lastInLoop_spec hg he).2]
    · have := hpast i e he
      push_cast
      linarith
  · obtain ⟨c, n, hforth, -⟩ := x.pass_forward.run_of_ok hforth
    linarith [le_time_of_forward hg hforth ho, timeTolerance_pos (α := α)]

namespace Moment

theorem earlier_cases (m n : Moment α) : earlier m n = m ∨ earlier m n = n ∧
    (n.time < m.time ∨ m.image ≠ 0 ∧ n.image = 0 ∧ n.time < m.time + timeTolerance) := by
  simp only [earlier, Scalar.abs_eq]
  by_cases hnear : |m.time - n.time| < timeTolerance
  · by_cases hstay : (m.image == 0 || n.image != 0) = true
    · simp [if_pos hnear, hstay]
    · rw [if_pos hnear, if_neg hstay]
      simp only [Bool.or_eq_true, beq_iff_eq, bne_iff_ne, not_or, not_not] at hstay
      exact .inr ⟨rfl, .inr ⟨hstay.1, hstay.2, by linarith [(abs_lt.mp hnear).1]⟩⟩
  · by_cases hle : Scalar.precedes m.time n.time = true
    · simp [if_neg hnear, hle]
    · rw [if_neg hnear, if_neg hle]
      exact .inr ⟨rfl, .inl (not_le.mp fun h ↦ hle ((Scalar.precedes_iff _ _).mpr h))⟩

/-- The first of some moments in order of time is the earliest, unless a seed itself is less than
the tolerance later. -/
theorem earliest?_of_sorted {first m : Moment α} {ms : List (Moment α)}
    (hsorted : (first :: ms).Pairwise fun a b ↦ a.time ≤ b.time)
    (h : earliest? (first :: ms) = some m) :
    m = first ∨ m.image = 0 ∧ m.time < first.time + timeTolerance := by
  obtain rfl := Option.some.inj h
  -- The best so far is the first or a seed, and what comes next is no earlier.
  have hfold (best : Moment α) (hbest : best = first ∨ best.image = 0 ∧
      best.time < first.time + timeTolerance) (ns : List (Moment α))
      (hns : (best :: ns).Pairwise fun a b ↦ a.time ≤ b.time) :
      ns.foldl earlier best = first ∨ (ns.foldl earlier best).image = 0 ∧
        (ns.foldl earlier best).time < first.time + timeTolerance := by
    induction ns generalizing best with
    | nil => exact hbest
    | cons n ns ih =>
      obtain ⟨hle, hns⟩ := List.pairwise_cons.mp hns
      rw [List.foldl_cons]
      rcases earlier_cases best n with heq | ⟨heq, hlt | ⟨hother, hself, hnear⟩⟩ <;> rw [heq]
      · exact ih best hbest (List.pairwise_cons.mpr
          ⟨fun b hb ↦ hle b (List.mem_cons_of_mem _ hb), (List.pairwise_cons.mp hns).2⟩)
      · exact absurd (hle n List.mem_cons_self) (not_le.mpr hlt)
      · obtain rfl := hbest.resolve_right fun h ↦ hother h.1
        exact ih n (.inr ⟨hself, hnear⟩) hns
  exact hfold first (.inl rfl) ms hsorted

/-- When some image is in the loop the master is one that is, and none there is earlier by the
tolerance. -/
theorem master?_within {loop : Window α} {images : List (Moment α)} {m m₀ : Moment α}
    (hsorted : images.Pairwise fun a b ↦ a.time ≤ b.time) (h : master? loop images = some m)
    (hm₀ : m₀ ∈ images.filter (isWithin loop)) : m ∈ images ∧ isWithin loop m = true ∧
      ∀ n ∈ images, isWithin loop n = true → m.time < n.time + timeTolerance := by
  cases hwithin : images.filter (isWithin loop) with
  | nil => simp [hwithin] at hm₀
  | cons first ms =>
    have hearliest : earliest? (first :: ms) = some m := by
      rw [master?, hwithin] at h
      exact h
    have hsorted' : (first :: ms).Pairwise fun a b ↦ a.time ≤ b.time :=
      hwithin ▸ hsorted.sublist List.filter_sublist
    obtain ⟨hm, hin⟩ := List.mem_filter.mp (hwithin ▸ earliest?_mem hearliest)
    refine ⟨hm, hin, fun n hn hnin ↦ ?_⟩
    have hfirst : first.time ≤ n.time := by
      rcases List.mem_cons.mp (hwithin ▸ List.mem_filter.mpr ⟨hn, hnin⟩) with rfl | hn
      · exact le_rfl
      · exact (List.pairwise_cons.mp hsorted').1 n hn
    rcases earliest?_of_sorted hsorted' hearliest with rfl | ⟨-, hnear⟩
    · linarith [timeTolerance_pos (α := α)]
    · linarith

namespace Expanded

variable {g : SymmetryGroup α} {seeds : List (Event α)} {moments : List (Moment α)}
  (x : Expanded seeds g J N ⟨0, g.period⟩ moments) (hg : g.IsGroupOf symmetries J N)
  (hseeds : ∀ e ∈ seeds, Placed J N e)

include x hg hseeds

/-- What is kept for the image one period after one that is kept before the loop. -/
theorem exists_kept_next {i : ℕ} {e : Event α} (he : seeds[i]? = some e) {o : Generated α}
    (ho : o ∈ x.kept) (hseed : o.seed = i) (hneg : o.event.time < 0) :
    ∃ o' ∈ x.kept, Generated.SameHand o' o ∧ o'.seed = i ∧
      o'.event.time ≤ o.event.time + g.period ∧
      o.event.time + g.period - o'.event.time < timeTolerance ∧
      (o'.event.transitions.map fun t ↦ (t.path, t.kind)).Perm
        (o.event.transitions.map fun t ↦ (g.rename 1 t.path, t.kind)) := by
  have hplaced := hseeds e (List.mem_of_getElem? he)
  have hgen := x.eq_image_of_seed he ho hseed
  have hevent : (g.image (o.image + 1 * g.size)).apply e =
      o.event.later ((1 : ℤ) * g.period) (g.rename 1) := by
    rw [hg.image_add_size hplaced, congrArg Generated.event hgen]
  have hnext : g.imageTime e (o.image + 1 * g.size) = o.event.time + g.period := by
    rw [← SymmetryGroup.time_image, hevent, Event.time_later, Int.cast_one, one_mul]
  have hmade : ⟨i, o.image + 1 * g.size, o.event.later ((1 : ℤ) * g.period) (g.rename 1)⟩ ∈
      x.made := by
    rw [← hevent]
    refine (x.run.mem_iff he _).mpr ⟨?_, ?_⟩
    · have hmem := x.mem_made_of_kept ho
      rw [hgen] at hmem
      have := ((x.run.mem_iff he o.image).mp hmem).1
      omega
    · exact (le_last hg x he (by linarith)).trans_lt (x.run.last_lt_high i)
  obtain ⟨o', ho', hhand, hseed', hle, hnear, htouches⟩ := x.exists_kept hmade
  rw [Event.time_later, Int.cast_one, one_mul] at hle hnear
  rw [Event.transitions_later, List.map_map] at htouches
  exact ⟨o', ho', hhand, hseed', hle, hnear, htouches⟩

/-- An image and the one a period later do the same to the same paths when they are so close that
one of them is dropped. -/
theorem perm_of_brief (hbrief : g.period < timeTolerance) {i : ℕ} {e : Event α}
    (he : seeds[i]? = some e) {k : ℤ} (hlow : -g.period ≤ g.imageTime e k)
    (hhigh : g.imageTime e k < 0) :
    (((g.image k).apply e).transitions.map fun t ↦ (g.rename 1 t.path, t.kind)).Perm
      (((g.image k).apply e).transitions.map fun t ↦ (t.path, t.kind)) := by
  have hpos := hg.period_pos
  obtain ⟨o, ho, -, hseed, hle, -, htouches⟩ := x.exists_kept
    (mem_made_of_within hg x he (by linarith) (by linarith))
  rw [SymmetryGroup.time_image] at hle
  obtain ⟨o', ho', hhand, -, hle', hnear, hnext⟩ :=
    x.exists_kept_next hg hseeds he ho hseed (by linarith)
  obtain rfl : o' = o := x.eq_of_near ho' ho hhand (abs_lt.mpr ⟨by linarith, by linarith⟩)
  have hmap := htouches.map fun t ↦ (g.rename 1 t.1, t.2)
  rw [List.map_map, List.map_map] at hmap
  exact hmap.symm.trans (hnext.symm.trans htouches)

/-- In a loop shorter than the tolerance everything recurs in every period. -/
theorem recurs_of_brief (hbrief : g.period < timeTolerance) :
    (Expansion.mk seeds g x.coverage ⟨0, g.period⟩).Recurs 1 := by
  intro e he k q t ht
  obtain ⟨i, hi, rfl⟩ := List.getElem_of_mem he
  have hplaced := hseeds _ he
  obtain ⟨n, hlow, hhigh⟩ := hg.exists_image_within (.inl rfl) seeds[i] k Nat.one_pos 0 (-g.period)
  push_cast at hlow hhigh
  simp only [one_mul, sub_zero, neg_add_cancel] at hlow hhigh
  have hperm := x.perm_of_brief hg hseeds hbrief (List.getElem?_eq_getElem hi) hlow hhigh
  have hrename : ∀ t ∈ ((g.image (k + n * g.size)).apply seeds[i]).transitions,
      1 ≤ t.path ∧ t.path ≤ N := (hg.image_fits _).placed hplaced |>.path
  generalize hts : ((g.image (k + n * g.size)).apply seeds[i]).transitions = ts at hperm hrename
  -- What one period does not change no number of periods does.
  have hstep (m : ℤ) : (ts.map fun t ↦ (g.rename (m + 1) t.path, t.kind)).Perm
      (ts.map fun t ↦ (g.rename m t.path, t.kind)) := by
    have hmap := hperm.map fun t ↦ (g.rename m t.1, t.2)
    rw [List.map_map, List.map_map] at hmap
    refine (List.Perm.of_eq (List.map_congr_left fun t ht ↦ ?_)).trans hmap
    simp only [Function.comp_apply]
    rw [hg.rename_rename _ _ (hrename t ht), add_comm]
  have hsame (m : ℤ) : (ts.map fun t ↦ (g.rename m t.path, t.kind)).Perm
      (ts.map fun t ↦ (g.rename 0 t.path, t.kind)) := by
    induction m using Int.induction_on with
    | zero => exact .refl _
    | succ m ih => exact (hstep m).trans ih
    | pred m ih =>
      have := hstep (-m - 1)
      rw [sub_add_cancel] at this
      exact this.symm.trans ih
  have htouches (m : ℤ) : ((g.image (k + n * g.size + m * g.size)).apply seeds[i]).transitions.map
      (fun t ↦ (t.path, t.kind)) = ts.map fun t ↦ (g.rename m t.path, t.kind) := by
    rw [hg.image_add_size hplaced, Event.transitions_later, List.map_map, hts]
    rfl
  have hmem := ((hsame (-n)).trans (hsame (q - n)).symm).subset (a := (t.path, t.kind)) (by
    rw [← htouches, show k + n * (g.size : ℤ) + -n * g.size = k by ring]
    exact List.mem_map_of_mem ht)
  rw [← htouches, show k + n * (g.size : ℤ) + (q - n) * g.size = k + 1 * q * g.size by ring] at hmem
  obtain ⟨t', ht', heq⟩ := List.mem_map.mp hmem
  exact ⟨t', by simpa using ht', congrArg Prod.fst heq, congrArg Prod.snd heq⟩

/-- Of every seed an image is kept that lies in the loop. -/
theorem exists_kept_within
    (hrun : (Expansion.mk seeds g x.coverage ⟨0, g.period⟩).run N = .ok x.made)
    {i : ℕ} {e : Event α} (he : seeds[i]? = some e) : ∃ o ∈ x.kept, o.seed = i ∧
      -timeTolerance ≤ o.event.time ∧ o.event.time < g.period - timeTolerance := by
  have htol := timeTolerance_pos (α := α)
  have hpos := hg.period_pos
  obtain ⟨k, hk, hk'⟩ := hg.exists_imageTime_mem e (g.period - timeTolerance)
  obtain ⟨o, ho, hhand, hseed, hle, hnear, -⟩ := x.exists_kept
    (mem_made_of_within hg x he (by linarith) (by linarith))
  rw [SymmetryGroup.time_image] at hle hnear
  by_cases hin : -timeTolerance ≤ o.event.time
  · exact ⟨o, ho, hseed, hin, by linarith⟩
  rcases lt_or_ge g.period timeTolerance with hbrief | hlong
  · -- Nothing before the tolerance is made at all.
    refine absurd ?_ hin
    have := Expansion.le_time_of_brief (x := ⟨seeds, g, x.coverage, ⟨0, g.period⟩⟩) hg hseeds
      x.scan_eq (by simp) hbrief (x.recurs_of_brief hg hseeds hbrief) hrun (x.mem_made_of_kept ho)
    simpa using this
  · -- Its next image is in the loop, and what is kept for that one is too late to be before it.
    obtain ⟨o', ho', hhand', hseed', hle', hnear', -⟩ :=
      x.exists_kept_next hg hseeds he ho hseed (by linarith)
    refine ⟨o', ho', hseed', ?_, by linarith⟩
    by_contra! hearly
    obtain rfl : o' = o := x.eq_of_near ho' ho hhand' (abs_lt.mpr ⟨by linarith, by linarith⟩)
    linarith

end Expanded

end Moment

theorem SymmetryGroup.IsGroupOf.apply_image_zero {g : SymmetryGroup α}
    (hg : g.IsGroupOf symmetries J N) {e : Event α} (he : Placed J N e) :
    (g.image 0).apply e = e := by
  have hmotion : (g.image 0).motion = (g.delay.power 0).motion := by
    rw [hg.motion_image, hg.representative_zero, Transform.motion_identity,
      Transform.motion_power hg.delay_fits, Int.zero_ediv, one_mul]
  calc (g.image 0).apply e
      = (g.delay.power 0).apply e :=
        Transform.apply_eq_apply (hg.image_fits 0) (hg.delay_fits.power 0) (hmotion ▸ .refl _ _)
    _ = e.later ((0 : ℤ) * g.period) (g.rename 0) := hg.power_apply 0 he.juggler.2
    _ = e := Event.later_eq_self (by simp) fun t ht ↦ hg.rename_zero (he.path t ht).2

/-- A moment is the canonical master of a seed: the seed itself, as early in the loop as any of its
images, and all of these refer to it. -/
structure Timeline.IsCanonical (t : Timeline α) (g : SymmetryGroup α) (loop : Window α) (i : ℕ)
    (e : Event α) (m : Moment α) : Prop where
  mem : m ∈ t.moments
  listed : t.moments[m.index]? = some m
  seed : m.seed = i
  image : m.image = 0
  event : m.event = e
  within : loop.low - timeTolerance ≤ m.time ∧ m.time < loop.high - timeTolerance
  earliest : ∀ n ∈ t.moments, n.seed = i → loop.low - timeTolerance ≤ n.time →
    n.time < loop.high - timeTolerance → m.time < n.time + timeTolerance
  unique : ∀ n ∈ t.moments, n.seed = i → (t.isMaster n = true ↔ n = m)
  images : ∀ n ∈ t.moments, n.seed = i → t.masterOf n = m.index ∧
    n.event = (g.image n.image).apply m.event ∧ n.event.transitions.map (·.path) =
      m.event.transitions.map fun t ↦ (g.image n.image).paths.target t.path

/-- The master that is chosen in the loop is the seed itself once the seeds are settled. -/
theorem Timeline.IsSettled.master_eq {g : SymmetryGroup α} {t : Timeline α} {loop : Window α}
    (h : t.IsSettled g J N loop) {i : ℕ} (hi : i < t.seeds.length) : ∃ m,
      Moment.master? loop (t.moments.filter (·.seed == i)) = some m ∧ m.image = 0 ∧
      t.masters[i]? = some m.index := by
  obtain ⟨ms, hmasters, hall, hindices⟩ := h.masters
  have hms := mapM_eq_ok.mp hmasters
  have hlength : i < ms.length := by rw [← hms.length_eq, List.length_range]; exact hi
  have hi' := hms.get (by simpa using hi) hlength
  refine ⟨ms[i], ?_, ?_, ?_⟩
  · simp only [List.get_eq_getElem, List.getElem_range] at hi'
    split at hi'
    · rename_i m hm
      rw [hm, Except.ok.inj hi']
    · cases hi'
  · simpa using List.all_eq_true.mp hall ms[i] (List.getElem_mem hlength)
  · rw [hindices, List.getElem?_map, List.getElem?_eq_getElem hlength]
    rfl

theorem Timeline.IsSettled.exists_canonical {g : SymmetryGroup α} {t : Timeline α}
    (h : t.IsSettled g J N ⟨0, g.period⟩) (hg : g.IsGroupOf symmetries J N) {i : ℕ} {e : Event α}
    (he : t.seeds[i]? = some e) : ∃ m, t.IsCanonical g ⟨0, g.period⟩ i e m := by
  obtain ⟨-, x, hrun⟩ := Moment.exists_expanded hg h.expand
  have hplaced := h.placed e (List.mem_of_getElem? he)
  obtain ⟨m, hmaster, himage, hindex⟩ := h.master_eq (List.getElem?_eq_some_iff.mp he).1
  obtain ⟨o, ho, hoseed, hlow, hhigh⟩ := x.exists_kept_within hg h.placed hrun he
  obtain ⟨m₀, hm₀, -⟩ := exists_mem_within x ho hoseed hlow hhigh
  have hsorted : (t.moments.filter (·.seed == i)).Pairwise fun a b ↦ a.time ≤ b.time :=
    (x.listed.sorted.imp fun h ↦ h.2).sublist List.filter_sublist
  obtain ⟨hmem, hin, hfirst⟩ := Moment.master?_within hsorted hmaster hm₀
  obtain ⟨hm, hseed⟩ := List.mem_filter.mp hmem
  have hgen {n : Moment α} (hn : n ∈ t.moments) (hseed : n.seed = i) :
      n.event = (g.image n.image).apply e :=
    congrArg Generated.event (of_mem_images x he (List.mem_filter.mpr ⟨hn, by simpa⟩)).2
  have hevent : m.event = e := by
    rw [hgen hm (by simpa using hseed), himage, hg.apply_image_zero hplaced]
  have hmasterOf {n : Moment α} (hseed : n.seed = i) : t.masterOf n = m.index := by
    rw [Timeline.masterOf, hseed, List.getD_eq_getElem?_getD, hindex]
    rfl
  simp only [Moment.isWithin, Bool.and_eq_true, decide_eq_true_eq] at hin hfirst
  refine ⟨m, ⟨hm, ?_, by simpa using hseed, himage, hevent, hin,
    fun n hn hnseed hnlow hnhigh ↦ hfirst n (List.mem_filter.mpr ⟨hn, by simpa⟩) ⟨hnlow, hnhigh⟩,
    fun n hn hnseed ↦ ⟨fun hself ↦ ?_, ?_⟩, fun n hn hnseed ↦ ⟨hmasterOf hnseed, ?_, ?_⟩⟩⟩
  · obtain ⟨k, hk, rfl⟩ := List.getElem_of_mem hm
    rw [x.listed.index k _ (List.getElem?_eq_getElem hk), List.getElem?_eq_getElem hk]
  · rw [Timeline.isMaster, hmasterOf hnseed, beq_iff_eq] at hself
    exact x.listed.eq_of_index_eq hn hm hself.symm
  · rintro rfl
    rw [Timeline.isMaster, hmasterOf hnseed, beq_self_eq_true]
  · rw [hevent]
    exact hgen hn hnseed
  · rw [hgen hn hnseed, hevent, Transform.apply, List.map_map]
    rfl

namespace Pattern

variable [Numeral α] {p q : Pattern α}

/-- Every event of a pattern that was laid out is the canonical master of its images, and every
moment is an image of one of the events. -/
theorem masters_canonical (hperms : ∀ s ∈ p.symmetries, s.jugglers.Rearranges ∧ s.paths.Rearranges)
    (hok : p.layOut = (q, .ok ())) : ∃ l, q.layout = some l ∧
      (∀ i e, q.events[i]? = some e → ∃ m, l.timeline.IsCanonical l.group l.loop i e m) ∧
      ∀ n ∈ l.timeline.moments, n.seed < q.events.length := by
  obtain ⟨l, h, rfl⟩ := layOut_ok hok
  have hg := h.isGroupOf hperms
  have hloop : l.loop = ⟨0, l.group.period⟩ := by rw [← h.low, ← h.high]
  have hsettled := Timeline.settle_ok hg.image_fits (Declarations.validate_ok h.valid).1 h.timeline
  refine ⟨l, rfl, fun i e he ↦ ?_, fun n hn ↦ ?_⟩
  · rw [hloop] at hsettled ⊢
    exact hsettled.exists_canonical hg he
  · obtain ⟨-, ⟨x⟩⟩ := h.expanded hperms
    rw [x.moments_eq] at hn
    obtain ⟨e, he, -⟩ := x.run.generated (x.mem_made_of_kept (Moment.mem_numbered hn))
    exact (List.getElem?_eq_some_iff.mp he).1

theorem masters_exchange :
    (∀ s ∈ Timeline.exchangePattern.symmetries, s.jugglers.Rearranges ∧ s.paths.Rearranges) ∧
    ∃ q l, Timeline.exchangePattern.layOut = (q, .ok ()) ∧ q.layout = some l ∧
      ∀ i e, q.events[i]? = some e → ∃ m, l.timeline.IsCanonical l.group l.loop i e m := by
  obtain ⟨l, -, hok, -⟩ := Timeline.layOut_exchange
  obtain ⟨l', hl', hmasters, -⟩ := masters_canonical Timeline.rearranges_exchange hok
  exact ⟨Timeline.rearranges_exchange, _, l', hok, hl', hmasters⟩

end Pattern

end Juggling
