import Mathlib.Data.List.Sort
import Juggling.Proofs.Recurrence

namespace Juggling

section Lists

variable {β : Type} {x : β} {xs A B C : List β}

theorem exists_of_steps_append {B C : List (β × β)} (h : steps (x :: xs) = B ++ C) :
    ∃ Y Z, xs = Y ++ Z ∧ steps (x :: Y) = B := by
  induction B generalizing x xs with
  | nil => exact ⟨[], xs, rfl, rfl⟩
  | cons p B ih =>
    match xs, h with
    | y :: xs, h =>
      obtain ⟨rfl, htail⟩ := List.cons.inj h
      obtain ⟨Y, Z, rfl, rfl⟩ := ih htail
      exact ⟨y :: Y, Z, rfl, rfl⟩

/-- Steps of a list that follow each other are the steps of a part of it. -/
theorem exists_of_steps_eq {A B C : List (β × β)} (h : steps xs = A ++ B ++ C) (hB : B ≠ []) :
    ∃ X Y Z, xs = X ++ Y ++ Z ∧ steps Y = B := by
  induction A generalizing xs with
  | nil =>
    cases xs with
    | nil => exact absurd (List.append_eq_nil_iff.mp h.symm).1 hB
    | cons x xs =>
      obtain ⟨Y, Z, rfl, hY⟩ := exists_of_steps_append h
      exact ⟨[], x :: Y, Z, rfl, hY⟩
  | cons p A ih =>
    match xs, h with
    | x :: y :: xs, h =>
      obtain ⟨-, htail⟩ := List.cons.inj h
      obtain ⟨X, Y, Z, hxs, hY⟩ := ih htail
      exact ⟨x :: X, Y, Z, by rw [hxs]; rfl, hY⟩

theorem head?_of_steps {xs : List β} {p : β × β} (h : (steps xs).head? = some p) :
    xs.head? = some p.1 := by
  match xs, h with
  | x :: y :: xs, h =>
    obtain rfl := Option.some.inj h
    rfl

theorem getLast?_of_steps {xs : List β} {p : β × β} (h : (steps xs).getLast? = some p) :
    xs.getLast? = some p.2 := by
  induction xs with
  | nil => cases h
  | cons x xs ih =>
    match xs, h with
    | [y], h =>
      obtain rfl := Option.some.inj h
      rfl
    | y :: z :: xs, h => exact List.getLast?_cons_cons.trans (ih h)

/-- Of a list in order of time a stretch consists of what lies between its ends. -/
theorem filter_stretch {α : Type} [Exact α] {time : β → α} {a b : β}
    (hsorted : (A ++ B ++ C).Pairwise fun x y ↦ time x < time y) (ha : B.head? = some a)
    (hb : B.getLast? = some b) :
    (A ++ B ++ C).filter (fun x ↦ decide (time a ≤ time x ∧ time x ≤ time b)) = B := by
  obtain ⟨hAB, -, hC⟩ := List.pairwise_append.mp hsorted
  obtain ⟨-, hB, hA⟩ := List.pairwise_append.mp hAB
  have hle : B.Pairwise fun x y ↦ time x ≤ time y := hB.imp fun h ↦ h.le
  rw [List.filter_append, List.filter_append, List.filter_eq_nil_iff.mpr, List.filter_eq_self.mpr,
    List.filter_eq_nil_iff.mpr, List.nil_append, List.append_nil]
  · intro x hx
    simpa using fun _ ↦ hC b (List.mem_append_right _ (List.mem_of_getLast? hb)) x hx
  · intro x hx
    simp only [decide_eq_true_eq]
    exact ⟨head_rel (R := fun x y ↦ time x ≤ time y) hle (fun x ↦ le_refl (time x)) hx ha,
      rel_getLast (R := fun x y ↦ time x ≤ time y) hle (fun x ↦ le_refl (time x)) hx hb⟩
  · intro x hx
    simpa using fun h ↦ absurd h (not_le.mpr (hA x hx a (List.mem_of_head? ha)))

end Lists

variable {α : Type}

theorem Chain.stops_between {j : ℕ} {hand : Hand} {ss : List (Moment α × Option VelocityRef)}
    (h : steps ss ≠ []) : stops ((steps ss).map (HandLink.between j hand)) = ss.map Prod.fst := by
  induction ss with
  | nil => exact absurd rfl h
  | cons s ss ih =>
    match ss with
    | [] => exact absurd rfl h
    | [s'] => rfl
    | s' :: s'' :: ss =>
      have := ih (List.cons_ne_nil _ _)
      simp only [stops, steps_cons_cons, List.map_cons, List.cons_append,
        List.getLast?_cons_cons] at this ⊢
      rw [this]
      rfl

variable [Exact α] {l : Layout α}

namespace Layout

def stretch (l : Layout α) (j : ℕ) (hand : Hand) (a b : α) : List (Moment α) :=
  (Moment.ofHand l.timeline.moments j hand).filter fun m ↦ decide (a ≤ m.time ∧ m.time ≤ b)

variable {j : ℕ} {hand : Hand} {a b : α}

theorem mem_stretch {m : Moment α} : m ∈ l.stretch j hand a b ↔
    m ∈ Moment.ofHand l.timeline.moments j hand ∧ a ≤ m.time ∧ m.time ≤ b := by
  simp [stretch]

/-- A curve that takes a hand from one time to another through all its moments between them, with
the velocities asked for at its ends. -/
structure Strand (l : Layout α) (j : ℕ) (hand : Hand) (a b : α) (v w : Option (Coordinate α))
    (s : Spline α) : Prop where
  knots : Knots.ofLists ((l.stretch j hand a b).map fun m ↦ globalPlace l.tracks m.event)
    ((l.stretch j hand a b).map (·.time)) v w = .ok s.knots
  solved : Spline.ofKnots s.knots = .ok s
  range : s.knots.range = ⟨a, b⟩

namespace Strand

variable {v w : Option (Coordinate α)} {s : Spline α} (hs : l.Strand j hand a b v w s)

include hs

theorem spec : (∀ m ∈ Moment.ofHand l.timeline.moments j hand, a ≤ m.time → m.time ≤ b →
      s.position m.time = globalPlace l.tracks m.event) ∧
    (∀ x y, v = some x → w = some y → s.velocity a = x ∧ s.velocity b = y) ∧
    (v = none → w = none → s.velocity a = s.velocity b) ∧
    ∀ t, Steady (fun s' x y ↦ x = s.position s' ∧ y = s.velocity s') t (s.position t)
      (s.velocity t) := by
  obtain ⟨htimes, hplaces, hsorted, hv, hw⟩ := Knots.ofLists_ok hs.knots
  obtain ⟨hpass, hclamped, hclosed, hsteady⟩ := Spline.ofKnots_ok hs.solved (htimes ▸ hsorted)
  rw [hs.range, hv, hw] at hclamped hclosed
  refine ⟨fun m hm ha hb ↦ ?_, hclamped, hclosed, hsteady⟩
  obtain ⟨i, hi, hm⟩ := List.getElem_of_mem (mem_stretch.mpr ⟨hm, ha, hb⟩)
  have hlen : i < s.knots.toList.length := by
    have := congrArg List.length htimes
    simp only [List.length_map] at this
    omega
  have htime := congrArg (·[i]?) htimes
  have hplace := congrArg (·[i]?) hplaces
  simp only [List.getElem?_map, List.getElem?_eq_getElem hlen, List.getElem?_eq_getElem hi, hm,
    Option.map_some, Option.some.injEq] at htime hplace
  rw [← htime, ← hplace]
  exact hpass _ (List.getElem_mem hlen)

theorem exists_start : ∃ m ∈ Moment.ofHand l.timeline.moments j hand, m.time = a := by
  have hlow := s.knots.low_range
  rw [(Knots.ofLists_ok hs.knots).1, hs.range] at hlow
  obtain ⟨m, hm, htime⟩ := List.mem_map.mp (List.mem_of_head? hlow)
  exact ⟨m, (mem_stretch.mp hm).1, htime⟩

theorem exists_stop : ∃ m ∈ Moment.ofHand l.timeline.moments j hand, m.time = b := by
  have hhigh := s.knots.high_range
  rw [(Knots.ofLists_ok hs.knots).1, hs.range] at hhigh
  obtain ⟨m, hm, htime⟩ := List.mem_map.mp (List.mem_of_getLast? hhigh)
  exact ⟨m, (mem_stretch.mp hm).1, htime⟩

end Strand

variable [Numeral α] {d : Declarations α}

namespace IsBuilt

variable (h : IsBuilt d l)
  (hperms : ∀ s ∈ d.symmetries, s.jugglers.Rearranges ∧ s.paths.Rearranges)

include h hperms

theorem eq_of_time_eq {m n : Moment α} (hm : m ∈ Moment.ofHand l.timeline.moments j hand)
    (hn : n ∈ Moment.ofHand l.timeline.moments j hand) (htime : m.time = n.time) : m = n := by
  obtain ⟨hm, hj, hhand⟩ := mem_ofHand.mp hm
  obtain ⟨hn, hj', hhand'⟩ := mem_ofHand.mp hn
  exact h.moment_unique hperms hm hn ⟨hj.trans hj'.symm, hhand.trans hhand'.symm⟩ htime

theorem strict_ofHand (j : ℕ) (hand : Hand) :
    (Moment.ofHand l.timeline.moments j hand).Pairwise fun m n ↦ m.time < n.time :=
  (h.traced hperms).strict_ofHand j hand

end IsBuilt

namespace Filled

variable (f : l.Filled d.jugglers d.paths) (h : IsBuilt d l)
  (hperms : ∀ s ∈ d.symmetries, s.jugglers.Rearranges ∧ s.paths.Rearranges)

include f h hperms

theorem exists_hand_next {m n : Moment α} (hm : m ∈ Moment.ofHand l.timeline.moments j hand)
    (hn : n ∈ l.timeline.moments) (hlt : m.time + l.group.period < n.time) :
    ∃ o ∈ Moment.ofHand l.timeline.moments j hand, o.time = m.time + l.group.period ∧
      o.event = m.event.later l.group.period (l.group.rename 1) := by
  obtain ⟨hm, hj, hhand⟩ := mem_ofHand.mp hm
  obtain ⟨o, ho, hevent⟩ := f.exists_next h hperms hm hn hlt
  refine ⟨o, mem_ofHand.mpr ⟨ho, ?_, ?_⟩, by rw [Moment.time, hevent]; rfl, hevent⟩
  · rw [hevent, Event.juggler_later, hj]
  · rw [hevent, Event.hand_later, hhand]

theorem exists_hand_previous {m n : Moment α}
    (hm : m ∈ Moment.ofHand l.timeline.moments j hand) (hn : n ∈ l.timeline.moments)
    (hlt : n.time < m.time - l.group.period) :
    ∃ o ∈ Moment.ofHand l.timeline.moments j hand, m.time = o.time + l.group.period ∧
      m.event = o.event.later l.group.period (l.group.rename 1) := by
  obtain ⟨hm, hj, hhand⟩ := mem_ofHand.mp hm
  obtain ⟨o, ho, hevent⟩ := f.exists_previous h hperms hm hn hlt
  refine ⟨o, mem_ofHand.mpr ⟨ho, ?_, ?_⟩, by rw [Moment.time, hevent]; rfl, hevent⟩
  · rw [← hj, hevent, Event.juggler_later]
  · rw [← hhand, hevent, Event.hand_later]

/-- Of one hand, what happens a period later is the same, if anything happens around it. -/
theorem event_later {m n : Moment α} (hm : m ∈ Moment.ofHand l.timeline.moments j hand)
    (hn : n ∈ Moment.ofHand l.timeline.moments j hand) (htime : n.time = m.time + l.group.period)
    (haround : ∃ o ∈ l.timeline.moments, o.time < m.time ∨ n.time < o.time) :
    n.event = m.event.later l.group.period (l.group.rename 1) := by
  obtain ⟨o, ho, hlt | hlt⟩ := haround
  · obtain ⟨m', hm', htime', hevent⟩ := f.exists_hand_previous h hperms hn ho (by linarith)
    rwa [h.eq_of_time_eq hperms hm hm' (by linarith)]
  · obtain ⟨n', hn', htime', hevent⟩ := f.exists_hand_next h hperms hm ho (by linarith)
    rwa [h.eq_of_time_eq hperms hn hn' (htime.trans htime'.symm)]

/-- What happens from a moment on happens again a period later, up to another moment. -/
theorem stretch_later {m n : Moment α} (hm : m ∈ Moment.ofHand l.timeline.moments j hand)
    (hn : n ∈ Moment.ofHand l.timeline.moments j hand) (ha : m.time = a)
    (hb : n.time = b + l.group.period) (hab : a < b) :
    (l.stretch j hand (a + l.group.period) (b + l.group.period)).map (·.event) =
      (l.stretch j hand a b).map fun x ↦ x.event.later l.group.period (l.group.rename 1) := by
  have hsorted (c e : α) : (l.stretch j hand c e).Pairwise fun x y ↦ x.time < y.time :=
    (h.strict_ofHand hperms j hand).sublist List.filter_sublist
  have hirrefl : Std.Irrefl fun e e' : Event α ↦ e.time < e'.time := ⟨fun _ ↦ lt_irrefl _⟩
  have hantisymm : Std.Antisymm fun e e' : Event α ↦ e.time < e'.time :=
    ⟨fun _ _ hlt hgt ↦ absurd hgt hlt.asymm⟩
  -- Both lists are in strict order of time, so they only have to hold the same.
  refine List.Pairwise.eq_of_mem_iff (r := fun e e' : Event α ↦ e.time < e'.time)
    (List.pairwise_map.mpr (hsorted _ _))
    (List.pairwise_map.mpr ((hsorted _ _).imp fun hxy ↦ add_lt_add_left hxy _)) fun e ↦ ?_
  simp only [List.mem_map, mem_stretch]
  constructor
  · rintro ⟨y, ⟨hy, hlow, hhigh⟩, rfl⟩
    obtain ⟨x, hx, htime, hevent⟩ : ∃ x ∈ Moment.ofHand l.timeline.moments j hand,
        y.time = x.time + l.group.period ∧
        y.event = x.event.later l.group.period (l.group.rename 1) := by
      rcases hlow.lt_or_eq with hlow | heq
      · exact f.exists_hand_previous h hperms hy (mem_ofHand.mp hm).1 (by linarith)
      · exact ⟨m, hm, by rw [← heq, ha], f.event_later h hperms hm hy (by rw [← heq, ha])
          ⟨n, (mem_ofHand.mp hn).1, .inr (by linarith)⟩⟩
    exact ⟨x, ⟨hx, by linarith, by linarith⟩, hevent.symm⟩
  · rintro ⟨x, ⟨hx, hlow, hhigh⟩, rfl⟩
    obtain ⟨y, hy, htime, hevent⟩ : ∃ y ∈ Moment.ofHand l.timeline.moments j hand,
        y.time = x.time + l.group.period ∧
        y.event = x.event.later l.group.period (l.group.rename 1) := by
      rcases hhigh.lt_or_eq with hhigh | heq
      · exact f.exists_hand_next h hperms hx (mem_ofHand.mp hn).1 (by linarith)
      · exact ⟨n, hn, by rw [heq, hb], f.event_later h hperms hx hn (by rw [heq, hb])
          ⟨m, (mem_ofHand.mp hm).1, .inl (by linarith)⟩⟩
    exact ⟨y, ⟨hy, by linarith, by linarith⟩, hevent⟩

/-- Curves through what happens a period apart, with the same velocities at their ends, are one and
the same but for that period. -/
theorem strand_later {v w : Option (Coordinate α)} {s s' : Spline α} (hab : a < b)
    (hs : l.Strand j hand a b v w s)
    (hs' : l.Strand j hand (a + l.group.period) (b + l.group.period) v w s') :
    s' = s.later l.group.period := by
  obtain ⟨m, hm, ha⟩ := hs.exists_start
  obtain ⟨n, hn, hb⟩ := hs'.exists_stop
  have hevents := f.stretch_later h hperms hm hn ha hb hab
  have htimes : (l.stretch j hand (a + l.group.period) (b + l.group.period)).map (·.time) =
      ((l.stretch j hand a b).map (·.time)).map (· + l.group.period) := by
    have := congrArg (List.map Event.time) hevents
    simp only [List.map_map] at this ⊢
    exact this
  have hplaces : ((l.stretch j hand (a + l.group.period) (b + l.group.period)).map fun m ↦
        globalPlace l.tracks m.event) =
      (l.stretch j hand a b).map fun m ↦ globalPlace l.tracks m.event := by
    have := congrArg (List.map (globalPlace l.tracks)) hevents
    simp only [List.map_map, Function.comp_def, h.globalPlace_later hperms] at this ⊢
    exact this
  have hk : s'.knots = s.knots.later l.group.period := by
    have hlater := Knots.ofLists_later hs.knots l.group.period
    rw [← htimes, ← hplaces, hs'.knots] at hlater
    exact Except.ok.inj hlater
  have hsolved := Spline.ofKnots_later s.knots l.group.period
  rw [← hk, hs'.solved, hs.solved] at hsolved
  exact Except.ok.inj hsolved

end Filled

end Layout

end Juggling
