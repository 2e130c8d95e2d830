import Juggling.Proofs.Bounds
import Juggling.Proofs.Translation

namespace Juggling

variable {α : Type}

namespace Touch

variable {moments : List (Moment α)} {p : ℕ} {a b : Touch α}

theorem head?_ofPath (h : (ofPath moments p).head? = some b) :
    (b.moment.event.transitions.filter (·.path == p)).head? = some b.transition := by
  induction moments with
  | nil => cases h
  | cons m moments ih =>
    rw [ofPath, List.flatMap_cons] at h
    cases hts : m.event.transitions.filter (·.path == p) with
    | nil =>
      rw [hts, List.map_nil, List.nil_append] at h
      exact ih h
    | cons t ts =>
      rw [hts] at h
      obtain rfl := Option.some.inj h
      rw [hts]
      rfl

/-- A step from one moment to another leads from the last touch of the one to the first of the
other. -/
theorem step_across (hab : (a, b) ∈ steps (ofPath moments p)) (hne : a.moment ≠ b.moment) :
    (a.moment.event.transitions.filter (·.path == p)).getLast? = some a.transition ∧
      (b.moment.event.transitions.filter (·.path == p)).head? = some b.transition := by
  induction moments with
  | nil => cases hab
  | cons m moments ih =>
    obtain ⟨pre, post, heq⟩ := exists_append_of_mem_steps hab
    rw [ofPath, List.flatMap_cons, ← ofPath] at heq
    rcases List.append_eq_append_iff.mp heq with ⟨c, -, hc⟩ | ⟨c, hm, hc⟩
    · exact ih (hc ▸ mem_steps_append c post a b)
    · -- The step stays among the later moments, or it leads there from this one, or stays here.
      cases c with
      | nil =>
        rw [List.nil_append] at hc
        exact ih (hc ▸ mem_steps_append [] post a b)
      | cons c cs =>
        cases cs with
        | nil =>
          simp only [List.cons_append, List.nil_append, List.cons.injEq] at hc
          obtain ⟨rfl, hb⟩ := hc
          have hlast := congrArg List.getLast? hm
          rw [List.getLast?_map, List.getLast?_concat, Option.map_eq_some_iff] at hlast
          obtain ⟨t, ht, rfl⟩ := hlast
          exact ⟨ht, head?_ofPath (by rw [← hb]; rfl)⟩
        | cons c' cs =>
          simp only [List.cons_append, List.cons.injEq] at hc
          obtain ⟨rfl, rfl, -⟩ := hc
          have hmoment {x : Touch α} (hx : x ∈ pre ++ a :: b :: cs) : x.moment = m := by
            rw [← hm] at hx
            obtain ⟨t, -, rfl⟩ := List.mem_map.mp hx
            rfl
          exact absurd ((hmoment (by simp)).trans (hmoment (by simp)).symm) hne

end Touch

variable [Exact α]

theorem Track.placement_add_period {j n : ℕ} {positions : List (Position α)} {loop : Window α}
    {k : Track α} (hok : build j n positions loop = .ok k) (hpos : 0 < loop.high - loop.low)
    (t : α) : k.placement (t + (loop.high - loop.low)) = k.placement t := by
  unfold build at hok
  split at hok
  · cases hok
    rfl
  · cases hok
    rfl
  · obtain ⟨knots, -, hok⟩ := bind_eq_ok.mp hok
    obtain ⟨place, -, hok⟩ := bind_eq_ok.mp hok
    obtain ⟨turns, -, hok⟩ := bind_eq_ok.mp hok
    cases Except.ok.inj hok
    have hwrap (start : α) : wrap start (loop.high - loop.low) (t + (loop.high - loop.low)) =
        wrap start (loop.high - loop.low) t := by
      unfold wrap
      have := Scalar.remainder_add (t - start) hpos
      rw [sub_add_eq_add_sub] at this
      exact congrArg (start + ·) this
    simp only [placement, Track.place, Track.angle]
    rw [hwrap]

/-- The way a prop gets from touch to touch some time later. -/
def Passage.later (x : Passage α) (s : α) : Passage α :=
  match x with
  | .held juggler hand => .held juggler hand
  | .thrown kind modifier f => .thrown kind modifier (f.later s)

variable [Numeral α]

/-- Between touches some time later a prop does what it does between them. -/
theorem PathLink.passage?_later {place : Event α → Coordinate α} {s : α} {r : ℕ → ℕ} {p p' : ℕ}
    {a b a' b' : Touch α} {x : Passage α} (hplace : ∀ e, place (e.later s r) = place e)
    (ha : a'.moment.event = a.moment.event.later s r)
    (hb : b'.moment.event = b.moment.event.later s r)
    (ha' : a'.transition = { a.transition with path := r a.transition.path })
    (hb' : b'.transition = { b.transition with path := r b.transition.path })
    (hok : passage? place p a b = .ok x) : passage? place p' a' b' = .ok (x.later s) := by
  have hknot {c c' : Touch α} (hc : c'.moment.event = c.moment.event.later s r) :
      knot place c' = (knot place c).later s := by
    rw [knot, hc, hplace, Touch.time, Moment.time, hc]
    rfl
  have hjuggler : a'.moment.event.juggler = a.moment.event.juggler := by
    rw [ha, Event.juggler_later]
  have hhand : a'.moment.event.hand = a.moment.event.hand := by rw [ha, Event.hand_later]
  have hhas (j : ℕ) (hand : Hand) :
      b'.moment.event.hasHand j hand = b.moment.event.hasHand j hand := by
    rw [hb]
    rfl
  unfold passage? at hok ⊢
  simp only [ha', hb', hjuggler, hhand, hhas] at hok ⊢
  split_ifs at hok ⊢
  · simp only [lift_eq_ok, map_eq_ok] at hok ⊢
    obtain ⟨f, hf, rfl⟩ := hok
    rw [hknot ha, hknot hb]
    exact ⟨_, Flight.build_later hf s, rfl⟩
  · cases hok
    rfl

variable {d : Declarations α} {l : Layout α}

namespace Layout

variable (h : IsBuilt d l)
  (hperms : ∀ s ∈ d.symmetries, s.jugglers.Rearranges ∧ s.paths.Rearranges)

include h hperms

/-- What happens a period later happens in the same place. -/
theorem IsBuilt.globalPlace_later (e : Event α) (r : ℕ → ℕ) :
    globalPlace l.tracks (e.later l.group.period r) = globalPlace l.tracks e := by
  have hpos := (h.isGroupOf hperms).period_pos
  have hperiod : l.loop.high - l.loop.low = l.group.period := by rw [h.low, h.high, sub_zero]
  obtain ⟨tracks, htracks, heq⟩ := bind_eq_ok.mp h.tracks
  unfold globalPlace
  rw [Event.juggler_later]
  cases hget : l.tracks.get? e.juggler with
  | none => rfl
  | some k =>
    have hmem : k ∈ tracks := by
      rw [← pure_eq_ok.mp heq] at hget
      cases hj : e.juggler with
      | zero => simp [hj, Numbered.get?] at hget
      | succ i =>
        rw [hj, Numbered.get?_ofList] at hget
        exact List.mem_of_getElem? hget
    obtain ⟨j, -, hk⟩ := exists_of_forall₂ (mapM_eq_ok.mp htracks) hmem
    have := Track.placement_add_period hk (hperiod.symm ▸ hpos) e.time
    rw [hperiod] at this
    simp only [Event.time_later, Event.place_later, this]

/-- What happens any number of periods later, or earlier, happens in the same place. -/
theorem IsBuilt.globalPlace_periods (q : ℤ) (r : ℕ → ℕ) (e : Event α) :
    globalPlace l.tracks (e.later (q * l.group.period) r) = globalPlace l.tracks e := by
  have hsucc (q : ℤ) : globalPlace l.tracks (e.later ((q + 1 : ℤ) * l.group.period) r) =
      globalPlace l.tracks (e.later (q * l.group.period) r) := by
    rw [← h.globalPlace_later hperms (e.later (q * l.group.period) r) id, Event.later_later]
    congr 2
    push_cast
    ring
  induction q with
  | zero =>
    simp only [globalPlace, Event.juggler_later, Event.time_later, Event.place_later,
      Int.cast_zero, zero_mul, add_zero]
  | succ q ih => rw [← ih, ← hsucc q]
  | pred q ih => rw [← ih, ← hsucc (-q - 1), sub_add_cancel]

namespace Filled

variable (f : l.Filled d.jugglers d.paths)

include f

/-- Nothing is left out after a moment. -/
theorem low_lt_image {m n : Moment α} (hm : m ∈ l.timeline.moments) (hn : n ∈ l.timeline.moments)
    {q : ℤ} (hlt : n.time < m.time + q * l.group.period) :
    f.run.low m.seed < m.image + q * l.group.size := by
  have hg := h.isGroupOf hperms
  obtain ⟨e, he, htime⟩ := f.expansion.exists_imageTime hm
  rw [htime, ← hg.imageTime_add_size] at hlt
  exact f.expansion.low_lt_of_lt hg (by rw [h.loop_high]; linarith [hg.period_pos]) he hn hlt

theorem image_lt_high_of_lt {m n : Moment α} (hm : m ∈ l.timeline.moments)
    (hn : n ∈ l.timeline.moments) {q : ℤ} (hlt : m.time + q * l.group.period < n.time) :
    m.image + q * l.group.size < f.run.high m.seed := by
  have hg := h.isGroupOf hperms
  obtain ⟨e, he, htime⟩ := f.expansion.exists_imageTime hm
  rw [htime, ← hg.imageTime_add_size] at hlt
  exact f.expansion.lt_high_of_lt hg he hn hlt

/-- What happens at a moment happens again whole periods away, between any two moments. -/
theorem exists_between {m n n' : Moment α} (hm : m ∈ l.timeline.moments)
    (hn : n ∈ l.timeline.moments) (hn' : n' ∈ l.timeline.moments) {q : ℤ}
    (hlow : n.time < m.time + q * l.group.period) (hhigh : m.time + q * l.group.period < n'.time) :
    ∃ o ∈ l.timeline.moments,
      o.event = m.event.later (q * l.group.period) (l.group.rename q) := by
  obtain ⟨o, ho, -, -, hevent⟩ := f.expansion.exists_later (h.isGroupOf hperms) hm
    (f.low_lt_image h hperms hm hn hlow) (f.image_lt_high_of_lt h hperms hm hn' hhigh)
  exact ⟨o, ho, hevent⟩

theorem exists_next {m n : Moment α} (hm : m ∈ l.timeline.moments) (hn : n ∈ l.timeline.moments)
    (hlt : m.time + l.group.period < n.time) : ∃ o ∈ l.timeline.moments,
      o.event = m.event.later l.group.period (l.group.rename 1) := by
  have := (h.isGroupOf hperms).period_pos
  have h1 : (1 : ℤ) * l.group.period = l.group.period := by rw [Int.cast_one, one_mul]
  obtain ⟨o, ho, hevent⟩ := f.exists_between h hperms hm hm hn (q := 1)
    (by rw [h1]; linarith) (by rwa [h1])
  exact ⟨o, ho, by rwa [h1] at hevent⟩

theorem exists_previous {m n : Moment α} (hm : m ∈ l.timeline.moments)
    (hn : n ∈ l.timeline.moments) (hlt : n.time < m.time - l.group.period) :
    ∃ o ∈ l.timeline.moments, m.event = o.event.later l.group.period (l.group.rename 1) := by
  have hg := h.isGroupOf hperms
  have := hg.period_pos
  have h1 : ((-1 : ℤ) : α) * l.group.period = -l.group.period := by push_cast; ring
  obtain ⟨o, ho, hevent⟩ := f.exists_between h hperms hm hn hm (q := -1)
    (by rw [h1]; linarith) (by rw [h1]; linarith)
  refine ⟨o, ho, ?_⟩
  rw [hevent, Event.later_later, Event.later_eq_self (by rw [h1, neg_add_cancel])]
  intro t ht
  exact hg.rename_neg (-1) ((h.placed hperms hm).path t ht)

omit f in
theorem mem_ofPath_later {m m' : Moment α} (hm : m ∈ l.timeline.moments)
    (hm' : m' ∈ l.timeline.moments)
    (hevent : m'.event = m.event.later l.group.period (l.group.rename 1)) {p : ℕ}
    (hp : 1 ≤ p ∧ p ≤ d.paths) :
    (∃ a ∈ Touch.ofPath l.timeline.moments p, a.moment = m) ↔
      ∃ a ∈ Touch.ofPath l.timeline.moments (l.group.rename 1 p), a.moment = m' := by
  have key (n : Moment α) (hn : n ∈ l.timeline.moments) (q : ℕ) :
      (∃ a ∈ Touch.ofPath l.timeline.moments q, a.moment = n) ↔
        n.event.transitions.filter (·.path == q) ≠ [] := by
    constructor
    · rintro ⟨a, ha, rfl⟩
      obtain ⟨-, ht, hq⟩ := Touch.mem_ofPath.mp ha
      exact List.ne_nil_of_mem (List.mem_filter.mpr ⟨ht, by simpa using hq⟩)
    · intro hne
      obtain ⟨t, ht⟩ := List.exists_mem_of_ne_nil _ hne
      obtain ⟨ht, hq⟩ := List.mem_filter.mp ht
      exact ⟨⟨n, t⟩, Touch.mem_ofPath.mpr ⟨hn, ht, by simpa using hq⟩, rfl⟩
  rw [key m hm, key m' hm', hevent, (h.isGroupOf hperms).filter_later (h.placed hperms hm) 1 hp]
  simp

end Filled

end Layout

end Juggling
