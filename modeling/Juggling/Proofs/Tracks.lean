import Juggling.Proofs.Chaining
import Juggling.Proofs.Recurrence
import Juggling.Proofs.Turning

namespace Juggling

section Lists

variable {β γ δ : Type} {xs : List β} {ys : List γ} {R S : β → γ → Prop}

theorem forall₂_map_eq {f : β → δ} {g : γ → δ} :
    List.Forall₂ (fun x y ↦ f x = g y) xs ys ↔ xs.map f = ys.map g := by
  rw [← List.forall₂_map_right_iff (R := fun x z ↦ f x = z), ← List.forall₂_map_left_iff,
    List.forall₂_eq_eq_eq]

theorem forall₂_and (h : List.Forall₂ R xs ys) (h' : List.Forall₂ S xs ys) :
    List.Forall₂ (fun x y ↦ R x y ∧ S x y) xs ys := by
  induction h with
  | nil => exact .nil
  | cons hxy _ ih =>
    cases h' with
    | cons hxy' h' => exact .cons ⟨hxy, hxy'⟩ (ih h')

end Lists

namespace Track

section Building

variable {α : Type} [Exact α] {loop : Window α} {ps us : List (Position α)}

/-- The positions of a list that count: in the order of their declaration those within the loop,
from a little before its start to a little before its end, except those that are as near in time
to an earlier one that counts. -/
inductive Selects (loop : Window α) : List (Position α) → List (Position α) → Prop
  | nil : Selects loop [] []
  | keep {ps us : List (Position α)} {p : Position α} (h : Selects loop ps us)
    (hlow : loop.low - 1 / 10 ^ 9 ≤ p.time) (hhigh : p.time < loop.high - 1 / 10 ^ 9)
    (hnew : ∀ u ∈ us, 1 / 10 ^ 9 ≤ |u.time - p.time|) : Selects loop (ps ++ [p]) (us ++ [p])
  | outside {ps us : List (Position α)} {p : Position α} (h : Selects loop ps us)
    (hout : p.time < loop.low - 1 / 10 ^ 9 ∨ loop.high - 1 / 10 ^ 9 ≤ p.time) :
    Selects loop (ps ++ [p]) us
  | repeated {ps us : List (Position α)} {p : Position α} (h : Selects loop ps us)
    (hnear : ∃ u ∈ us, |u.time - p.time| < 1 / 10 ^ 9) : Selects loop (ps ++ [p]) us

theorem used_concat (ps : List (Position α)) (p : Position α) : used loop (ps ++ [p]) =
    if p.time < loop.low - 1 / 10 ^ 9 ∨ loop.high - 1 / 10 ^ 9 ≤ p.time ∨
      ∃ u ∈ used loop ps, |u.time - p.time| < 1 / 10 ^ 9
    then used loop ps else used loop ps ++ [p] := by
  unfold used
  rw [List.foldl_append]
  simp [timeTolerance_eq, or_assoc]

theorem selects_used (ps : List (Position α)) : Selects loop ps (used loop ps) := by
  induction ps using List.reverseRecOn with
  | nil => exact .nil
  | append_singleton ps p ih =>
    rw [used_concat]
    split_ifs with h
    · rcases h with h | h | h
      · exact .outside ih (.inl h)
      · exact .outside ih (.inr h)
      · exact .repeated ih h
    · push Not at h
      exact .keep ih h.1 h.2.1 h.2.2

theorem Selects.eq_used (h : Selects loop ps us) : us = used loop ps := by
  induction h with
  | nil => rfl
  | @keep ps us p _ hlow hhigh hnew ih =>
    rw [used_concat, ← ih, if_neg]
    push Not
    exact ⟨hlow, hhigh, hnew⟩
  | outside _ hout ih => rw [used_concat, ← ih, if_pos (or_assoc.mp (.inl hout))]
  | repeated _ hnear ih => rw [used_concat, ← ih, if_pos (.inr (.inr hnear))]

theorem Selects.time_mem (h : Selects loop ps us) : ∀ u ∈ us,
    loop.low - 1 / 10 ^ 9 ≤ u.time ∧ u.time < loop.high - 1 / 10 ^ 9 := by
  induction h with
  | nil => simp
  | keep _ hlow hhigh _ ih =>
    exact List.forall_mem_append.mpr ⟨ih, List.forall_mem_singleton.mpr ⟨hlow, hhigh⟩⟩
  | outside _ _ ih => exact ih
  | repeated _ _ ih => exact ih

theorem Selects.pairwise_ne (h : Selects loop ps us) :
    us.Pairwise fun u v ↦ u.time ≠ v.time := by
  induction h with
  | nil => exact .nil
  | @keep ps us p _ _ _ hnew ih =>
    refine List.pairwise_append.mpr ⟨ih, List.pairwise_singleton _ _, fun u hu v hv heq ↦ ?_⟩
    obtain rfl := List.mem_singleton.mp hv
    have hfar := hnew u hu
    rw [heq, sub_self, abs_zero] at hfar
    exact absurd hfar (not_le.mpr (by positivity))
  | outside _ _ ih => exact ih
  | repeated _ _ ih => exact ih

theorem Selects.pairwise_sorted (h : Selects loop ps us) :
    (sorted us).Pairwise fun u v ↦ u.time < v.time := by
  have hle : (sorted us).Pairwise fun u v ↦ u.time ≤ v.time := by
    have hsorted : (sorted us).Pairwise fun u v ↦ Scalar.precedes u.time v.time = true :=
      List.pairwise_mergeSort (fun p q r ↦ by simpa using le_trans)
        (fun p q ↦ by simpa using le_total _ _) us
    simpa only [Scalar.precedes_iff] using hsorted
  have hperm : us.Perm (sorted us) := (List.mergeSort_perm us _).symm
  have hne := h.pairwise_ne.perm hperm fun h ↦ h.symm
  exact (hle.and hne).imp fun h ↦ lt_of_le_of_ne h.1 h.2

/-- A round of positions: some in order, and the first of them again after a period. -/
def lap (period : α) (first : Position α) (rest : List (Position α)) : List (Position α) :=
  first :: rest ++ [{ first with time := first.time + period }]

/-- All positions of a round but the last lie within one period. -/
theorem time_mem_lap {period : α} {first : Position α} {rest : List (Position α)}
    (hsorted : ((lap period first rest).map (·.time)).Pairwise (· < ·)) {u : Position α}
    (hu : u ∈ first :: rest) :
    first.time ≤ u.time ∧ u.time < first.time + period := by
  rw [lap, List.map_append, List.map_singleton, List.map_cons] at hsorted
  obtain ⟨hround, -, hend⟩ := List.pairwise_append.mp hsorted
  refine ⟨?_, hend _ (List.mem_map_of_mem hu) _ (List.mem_singleton_self _)⟩
  rcases List.mem_cons.mp hu with rfl | hu
  · exact le_rfl
  · exact ((List.pairwise_cons.mp hround).1 _ (List.mem_map_of_mem hu)).le

theorem le_of_mem_lap {period : α} (hpos : 0 < period) {first : Position α}
    {rest : List (Position α)}
    (hsorted : ((lap period first rest).map (·.time)).Pairwise (· < ·)) {t : α}
    (ht : t ∈ (lap period first rest).map (·.time)) :
    first.time ≤ t ∧ t ≤ first.time + period := by
  obtain ⟨u, hu, rfl⟩ := List.mem_map.mp ht
  rcases List.mem_append.mp hu with hu | hu
  · obtain ⟨hlow, hhigh⟩ := time_mem_lap hsorted hu
    exact ⟨hlow, hhigh.le⟩
  · obtain rfl := List.mem_singleton.mp hu
    exact ⟨le_add_of_nonneg_right hpos.le, le_rfl⟩

/-- A way through a round of positions. -/
structure Laid (round : List (Position α)) (place : Spline α) (turns : Knots α) : Prop where
  solved : Spline.ofKnots place.knots = .ok place
  free : place.knots.startVelocity = none ∧ place.knots.endVelocity = none
  places : List.Forall₂ (fun q u ↦ q.time = u.time ∧ q.position = u.place) place.knots.toList round
  angles : List.Forall₂ (fun q u ↦ q.time = u.time ∧ Faces q.position.x u.angle) turns.toList round
  short : turns.toList.IsChain fun p q ↦ |q.position.x - p.position.x| ≤ 180

section Through

variable {period : α} {first second : Position α} {rest : List (Position α)} {k : Track α}

theorem times_lap : (lap period first (second :: rest)).map (·.time) =
    first.time :: second.time :: rest.map (·.time) ++ [first.time + period] := by
  simp [lap]

theorem map_lap {β : Type} (f : Position α → β)
    (hf : f { first with time := first.time + period } = f first) :
    (lap period first (second :: rest)).map f = f first :: (second :: rest ++ [first]).map f := by
  simp [lap, hf]

/-- Through positions at increasing times within a period there is a way. -/
theorem exists_through
    (hsorted : ((lap period first (second :: rest)).map (·.time)).Pairwise (· < ·)) :
    ∃ k, through period first second rest = .ok k := by
  rw [times_lap] at hsorted
  have hknots (ps : List (Coordinate α)) (hlen : ps.length = rest.length + 3) :=
    Knots.exists_ofLists_of_increasing (by simpa using hlen) (by simp) hsorted.isChain none none
  obtain ⟨knots, hplaces⟩ := hknots ((lap period first (second :: rest)).map (·.place))
    (by simp [lap])
  obtain ⟨place, hplace⟩ := Spline.exists_ofKnots knots
  obtain ⟨turns, hturns⟩ := hknots ((first.angle :: unwrap first.angle
    ((second :: rest ++ [first]).map (·.angle))).map fun a ↦ ⟨a, 0, 0⟩)
    (by simp [(unwrap_spec _ _).2.length_eq])
  rw [map_lap (·.place) rfl] at hplaces
  refine ⟨.moving first.time period place ⟨turns⟩, ?_⟩
  simp only [through, Scalar.ofNat_eq, Nat.cast_zero, bind_eq_ok]
  exact ⟨knots, hplaces, place, hplace, turns, hturns, rfl⟩

theorem laid_of_through (hok : through period first second rest = .ok k) : ∃ place turns,
    k = .moving first.time period place ⟨turns⟩ ∧
      Laid (lap period first (second :: rest)) place turns := by
  obtain ⟨knots, hknots, hok⟩ := bind_eq_ok.mp hok
  obtain ⟨place, hplace, hok⟩ := bind_eq_ok.mp hok
  obtain ⟨turns, hturns, hk⟩ := bind_eq_ok.mp hok
  obtain rfl := Spline.knots_ofKnots hplace
  obtain ⟨htimes, hplaces, -, hfree⟩ := Knots.ofLists_ok hknots
  obtain ⟨htimes', hangles, -⟩ := Knots.ofLists_ok hturns
  obtain ⟨hshort, hfaces⟩ := unwrap_spec first.angle ((second :: rest ++ [first]).map (·.angle))
  have hturned : turns.toList.map (·.position.x) =
      first.angle :: unwrap first.angle ((second :: rest ++ [first]).map (·.angle)) := by
    have := congrArg (List.map Coordinate.x) hangles
    rw [List.map_map, List.map_map] at this
    exact this.trans (List.map_id' _)
  refine ⟨place, turns, (Except.ok.inj hk).symm, hplace, hfree, ?_, ?_, ?_⟩
  · exact forall₂_and (forall₂_map_eq.mpr (htimes.trans times_lap.symm))
      (forall₂_map_eq.mpr (hplaces.trans (map_lap (·.place) rfl).symm))
  · refine forall₂_and (forall₂_map_eq.mpr (htimes'.trans times_lap.symm)) ?_
    rw [← List.forall₂_map_right_iff, ← List.forall₂_map_left_iff, hturned, map_lap (·.angle) rfl]
    exact .cons (Faces.refl _) hfaces
  · rwa [← List.isChain_map (R := fun a b ↦ |b - a| ≤ 180) (f := fun q : Knot α ↦ q.position.x),
      hturned]

end Through

namespace Laid

variable {period : α} {first : Position α} {rest : List (Position α)} {place : Spline α}
  {turns : Knots α} (h : Laid (lap period first rest) place turns)
  (hsorted : ((lap period first rest).map (·.time)).Pairwise (· < ·))

include h

theorem times_place :
    place.knots.toList.map Knot.time = (lap period first rest).map (·.time) :=
  forall₂_map_eq.mp (h.places.imp fun _ _ h ↦ h.1)

theorem times_turns : turns.toList.map Knot.time = (lap period first rest).map (·.time) :=
  forall₂_map_eq.mp (h.angles.imp fun _ _ h ↦ h.1)

theorem range_place : place.knots.range = ⟨first.time, first.time + period⟩ := by
  have hlow := place.knots.low_range
  have hhigh := place.knots.high_range
  rw [h.times_place] at hlow hhigh
  rw [lap, List.map_append, List.map_singleton, List.getLast?_concat, Option.some.injEq] at hhigh
  exact (congrArg₂ Window.mk (Option.some.inj hlow) hhigh).symm

include hsorted

/-- A way passes all positions, is smooth and ends as it begins. -/
theorem place_spec : (∀ u ∈ lap period first rest, place.position u.time = u.place) ∧
    place.velocity first.time = place.velocity (first.time + period) ∧
    ∀ t, Steady (fun s x y ↦ x = place.position s ∧ y = place.velocity s) t (place.position t)
      (place.velocity t) := by
  obtain ⟨hpass, -, hclosed, hsteady⟩ := Spline.ofKnots_ok h.solved (h.times_place ▸ hsorted)
  refine ⟨fun u hu ↦ ?_, ?_, hsteady⟩
  · obtain ⟨q, hq, htime, hplace⟩ := exists_of_forall₂ h.places hu
    rw [← htime, ← hplace, hpass q hq]
  · have := hclosed h.free.1 h.free.2
    rwa [h.range_place] at this

theorem angle_spec : (∀ q ∈ turns.toList, Line.position ⟨turns⟩ q.time = q.position) ∧
    ∀ u ∈ lap period first rest, Faces (Line.position ⟨turns⟩ u.time).x u.angle := by
  have hpass := (Leg.pieceAt_spec (h.times_turns ▸ hsorted)).1
  refine ⟨hpass, fun u hu ↦ ?_⟩
  obtain ⟨q, hq, htime, hfaces⟩ := exists_of_forall₂ h.angles hu
  have hat : Line.position ⟨turns⟩ q.time = q.position := hpass q hq
  rwa [← htime, hat]

end Laid

end Building

theorem angle_moving {start period s t : ℝ} {place : Spline ℝ} {turns : Line ℝ} {m : ℤ}
    (hlow : start ≤ s) (hhigh : s < start + period) (ht : t = s + m * period) :
    (moving start period place turns).angle t = (turns.position s).x := by
  rw [angle, wrap_of_mem hlow hhigh ht]

/-- The times at which one is at some positions again and again, once in every period. -/
def Visits (period : ℝ) (us : List (Position ℝ)) (t : ℝ) : Prop :=
  ∃ u ∈ us, ∃ m : ℤ, t = u.time + m * period

/-- What it is to follow some positions with a period. -/
structure Follows (k : Track ℝ) (period : ℝ) (us : List (Position ℝ)) : Prop where
  periodic : ∀ t, k.placement (t + period) = k.placement t
  smooth : ∀ i, ContDiff ℝ 1 fun t ↦ (k.place t).along i
  passes : ∀ u ∈ us, k.place u.time = u.place
  faces : ∀ u ∈ us, Faces (k.angle u.time) u.angle
  /-- From one visit to the next it is a uniform turn by at most half a turn. -/
  turns : ∀ a b, Visits period us a → Visits period us b → a < b →
    (∀ c, Visits period us c → c ≤ a ∨ b ≤ c) →
    ∃ d, |d| ≤ 180 ∧ Faces (k.angle b) (k.angle a + d) ∧
      ∀ t, a ≤ t → t < b → k.angle t = k.angle a + (t - a) / (b - a) * d
  /-- There is no jump but one by whole turns, at the visits to the earliest position. -/
  unwinds : ∃ first ∈ us, (∀ u ∈ us, first.time ≤ u.time) ∧ ∃ n : ℤ,
    Continuous fun t ↦ k.angle t + 360 * n * ⌊(t - first.time) / period⌋
  carries : ∀ v i, Continuous fun t ↦ ((k.placement t).toGlobal v).along i

namespace Laid

variable {period : ℝ} {first : Position ℝ} {rest : List (Position ℝ)} {place : Spline ℝ}
  {turns : Knots ℝ} (hpos : 0 < period) (h : Laid (lap period first rest) place turns)
  (hsorted : ((lap period first rest).map (·.time)).Pairwise (· < ·))

include hpos h hsorted

theorem smooth_place (i : Axis) :
    ContDiff ℝ 1 fun t ↦ ((moving first.time period place ⟨turns⟩).place t).along i := by
  obtain ⟨hpass, hclosed, hsteady⟩ := h.place_spec hsorted
  have hstart := hpass first (by simp [lap])
  have hend := hpass { first with time := first.time + period } (by simp [lap])
  exact contDiff_of_steady (steady_wrap hpos hsteady (hstart.trans hend.symm) hclosed) i

omit hpos in
/-- How many whole turns a round takes. -/
theorem exists_gain : ∃ n : ℤ, (Line.position ⟨turns⟩ (first.time + period)).x =
    (Line.position ⟨turns⟩ first.time).x + 360 * n := by
  obtain ⟨-, hfaces⟩ := h.angle_spec hsorted
  have hstart := hfaces first (by simp [lap])
  have hend := hfaces { first with time := first.time + period } (by simp [lap])
  exact hend.trans hstart.symm

theorem unwinds_angle : ∃ n : ℤ, Continuous fun t ↦
    (moving first.time period place ⟨turns⟩).angle t +
      360 * n * ⌊(t - first.time) / period⌋ := by
  obtain ⟨n, hn⟩ := h.exists_gain hsorted
  exact ⟨n, continuous_wrap_add hpos (f := fun t ↦ (Line.position ⟨turns⟩ t).x)
    (Line.continuous_position (h.times_turns ▸ hsorted) .x) hn⟩

theorem carries (v : Coordinate ℝ) (i : Axis) : Continuous fun t ↦
    (((moving first.time period place ⟨turns⟩).placement t).toGlobal v).along i := by
  obtain ⟨n, hn⟩ := h.unwinds_angle hpos hsorted
  refine Placement.continuous_toGlobal (fun i ↦ (h.smooth_place hpos hsorted i).continuous) hn
    (fun t ↦ ⟨-n * ⌊(t - first.time) / period⌋, ?_⟩) v i
  push_cast
  simp only [placement]
  ring

variable {us : List (Position ℝ)} (hus : ∀ u, u ∈ us ↔ u ∈ first :: rest)

include hus

/-- Two visits with none between them are at two knots with none between them. -/
theorem exists_step {a b : ℝ} (ha : Visits period us a) (hb : Visits period us b) (hab : a < b)
    (hnone : ∀ c, Visits period us c → c ≤ a ∨ b ≤ c) : ∃ (m : ℤ) (p q : Knot ℝ),
      (p, q) ∈ steps turns.toList ∧ a = p.time + m * period ∧ b = q.time + m * period := by
  have htimes := h.times_turns
  have hknots : turns.toList.Pairwise fun p q ↦ p.time < q.time :=
    List.pairwise_map.mp (htimes ▸ hsorted)
  have hknot {u : Position ℝ} (hu : u ∈ lap period first rest) :
      ∃ p ∈ turns.toList, p.time = u.time :=
    List.mem_map.mp (htimes ▸ List.mem_map_of_mem hu)
  obtain ⟨u, hu, m, rfl⟩ := ha
  rw [hus] at hu
  obtain ⟨hlow, hhigh⟩ := time_mem_lap hsorted hu
  obtain ⟨p, hp, hpu⟩ := hknot (List.mem_append_left _ hu)
  obtain ⟨z, hz, hzend⟩ := hknot (List.mem_append_right _ (List.mem_singleton_self _))
  simp only at hzend
  obtain ⟨q, hpq⟩ := exists_step_from hknots hp hz (by rintro rfl; linarith) (by linarith)
  have hlt := steps_of_pairwise hknots hpq
  -- The next knot is one of the positions, or the first one again.
  have hq : q.time ∈ (lap period first rest).map (·.time) :=
    htimes ▸ List.mem_map_of_mem (mem_steps hpq).2
  have hqend := (le_of_mem_lap hpos hsorted hq).2
  obtain ⟨w, hw, hwq⟩ := List.mem_map.mp hq
  have hvisit : Visits period us (q.time + m * period) := by
    rcases List.mem_append.mp hw with hw | hw
    · exact ⟨w, (hus w).mpr hw, m, by rw [hwq]⟩
    · obtain rfl := List.mem_singleton.mp hw
      refine ⟨first, (hus _).mpr List.mem_cons_self, m + 1, ?_⟩
      push_cast
      linarith
  refine ⟨m, p, q, hpq, by rw [hpu], le_antisymm ?_ ?_⟩
  · exact (hnone _ hvisit).resolve_left (by linarith)
  · by_contra hlt'
    obtain ⟨v, hv, n, rfl⟩ := hb
    rw [hus] at hv
    obtain ⟨hvlow, hvhigh⟩ := time_mem_lap hsorted hv
    have heq := (wrap_of_mem (t := v.time + n * period) hvlow hvhigh rfl).symm.trans
      (wrap_of_mem (s := v.time + n * period - m * period) (q := m) (by linarith) (by linarith)
        (by ring))
    obtain ⟨x, hx, hxv⟩ := hknot (List.mem_append_left _ hv)
    rcases rel_of_step (hknots.imp le_of_lt) (fun _ ↦ le_rfl) hpq hx with hle | hle <;> linarith

theorem turns_between {a b : ℝ} (ha : Visits period us a) (hb : Visits period us b) (hab : a < b)
    (hnone : ∀ c, Visits period us c → c ≤ a ∨ b ≤ c) :
    let k : Track ℝ := moving first.time period place ⟨turns⟩
    ∃ d, |d| ≤ 180 ∧ Faces (k.angle b) (k.angle a + d) ∧
      ∀ t, a ≤ t → t < b → k.angle t = k.angle a + (t - a) / (b - a) * d := by
  intro k
  obtain ⟨m, p, q, hpq, rfl, rfl⟩ := h.exists_step hpos hsorted hus ha hb hab hnone
  have hknots := h.times_turns ▸ hsorted
  obtain ⟨hpass, -⟩ := h.angle_spec hsorted
  obtain ⟨hp, hq⟩ := mem_steps hpq
  have hlow := (le_of_mem_lap hpos hsorted (h.times_turns ▸ List.mem_map_of_mem hp)).1
  have hhigh := (le_of_mem_lap hpos hsorted (h.times_turns ▸ List.mem_map_of_mem hq)).2
  have hlt : p.time < q.time := by linarith
  have hstart : k.angle (p.time + m * period) = p.position.x := by
    rw [angle_moving hlow (hlt.trans_le hhigh) rfl, hpass p hp]
  refine ⟨q.position.x - p.position.x, ?_, ?_, fun t hpt htq ↦ ?_⟩
  · obtain ⟨pre, post, hsplit⟩ := exists_append_of_mem_steps hpq
    have hstep : [p, q].IsChain fun p q ↦ |q.position.x - p.position.x| ≤ 180 :=
      h.short.infix ⟨pre, post, by simp [hsplit]⟩
    exact (List.isChain_cons_cons.mp hstep).1
  · rw [hstart, add_sub_cancel]
    rcases hhigh.lt_or_eq with hbefore | hend
    · rw [angle_moving (hlow.trans hlt.le) hbefore rfl, hpass q hq]
      exact Faces.refl _
    · -- The last knot is a visit to the first position.
      obtain ⟨n, hn⟩ := h.exists_gain hsorted
      rw [angle_moving (s := first.time) (m := m + 1) le_rfl (by linarith)
        (by push_cast; linarith), ← hpass q hq, hend]
      exact Faces.symm ⟨n, hn⟩
  · rw [hstart, angle_moving (s := t - m * period) (m := m) (by linarith) (by linarith) (by ring)]
    have hstraight := Line.position_of_step hknots hpq (t := t - m * period) (by linarith)
      (by linarith) .x
    rw [sub_right_comm, sub_sub] at hstraight
    rw [add_sub_add_right_eq_sub]
    exact hstraight

end Laid

variable {loop : Window ℝ} {positions us : List (Position ℝ)}

theorem exists_follows (j n : ℕ) (hloop : loop.low < loop.high)
    (hus : Selects loop positions us) (htwo : 2 ≤ us.length) :
    ∃ k, build j n positions loop = .ok k ∧ k.Follows (loop.high - loop.low) us := by
  have hpos : 0 < loop.high - loop.low := sub_pos.mpr hloop
  have hperm : (sorted us).Perm us := List.mergeSort_perm us _
  have hlt := hus.pairwise_sorted
  obtain ⟨first, second, rest, hsort⟩ :
      ∃ first second rest, sorted us = first :: second :: rest := by
    match hsort : sorted us, hperm.length_eq.symm ▸ htwo with
    | first :: second :: rest, _ => exact ⟨first, second, rest, rfl⟩
  rw [hsort] at hperm hlt
  have hmem (u : Position ℝ) : u ∈ us ↔ u ∈ first :: second :: rest := hperm.mem_iff.symm
  -- Everything is over in time for the first position of the next round.
  have hsorted : ((lap (loop.high - loop.low) first (second :: rest)).map (·.time)).Pairwise
      (· < ·) := by
    refine List.pairwise_map.mpr (List.pairwise_append.mpr
      ⟨hlt, List.pairwise_singleton _ _, fun u hu v hv ↦ ?_⟩)
    obtain rfl := List.mem_singleton.mp hv
    have hfirst := (hus.time_mem first ((hmem _).mpr List.mem_cons_self)).1
    have hlast := (hus.time_mem u ((hmem u).mpr hu)).2
    show u.time < first.time + (loop.high - loop.low)
    linarith
  obtain ⟨k, hk⟩ := exists_through hsorted
  have hok : build j n positions loop = .ok k := by
    rw [build, ← hus.eq_used, hsort]
    exact hk
  obtain ⟨place, turns, rfl, hlaid⟩ := laid_of_through hk
  refine ⟨_, hok, ?_⟩
  exact {
    periodic := placement_add_period hok hpos
    smooth := hlaid.smooth_place hpos hsorted
    passes := fun u hu ↦ by
      obtain ⟨hlow, hhigh⟩ := time_mem_lap hsorted ((hmem u).mp hu)
      rw [Track.place, wrap_of_mem (q := 0) hlow hhigh (by simp)]
      exact (hlaid.place_spec hsorted).1 u (List.mem_append_left _ ((hmem u).mp hu))
    faces := fun u hu ↦ by
      obtain ⟨hlow, hhigh⟩ := time_mem_lap hsorted ((hmem u).mp hu)
      rw [angle_moving (m := 0) hlow hhigh (by simp)]
      exact (hlaid.angle_spec hsorted).2 u (List.mem_append_left _ ((hmem u).mp hu))
    turns := fun a b ↦ hlaid.turns_between hpos hsorted hmem
    unwinds := ⟨first, (hmem _).mpr List.mem_cons_self,
      fun u hu ↦ (time_mem_lap hsorted ((hmem u).mp hu)).1, hlaid.unwinds_angle hpos hsorted⟩
    carries := hlaid.carries hpos hsorted }

/-- Every juggler has a track, whatever positions are declared for him: of those that count, none
leave him at his default place and one where it says; several he follows. -/
theorem build_follows (j n : ℕ) (positions : List (Position ℝ)) (hloop : loop.low < loop.high) :
    ∃ us k, (∀ vs, Selects loop positions vs ↔ vs = us) ∧ build j n positions loop = .ok k ∧
      (us = [] → ∀ t, k.placement t = Placement.default j n) ∧
      (∀ u, us = [u] → ∀ t, k.placement t = ⟨u.place, u.angle⟩) ∧
      (2 ≤ us.length → k.Follows (loop.high - loop.low) us) := by
  have hselects (vs : List (Position ℝ)) : Selects loop positions vs ↔ vs = used loop positions :=
    ⟨Selects.eq_used, fun h ↦ h ▸ selects_used positions⟩
  match hused : used loop positions, hselects with
  | [], hselects =>
    refine ⟨[], .standing (.default j n), hselects, ?_, fun _ _ ↦ rfl, by simp, by simp⟩
    simp [build, hused, sorted]
  | [u], hselects =>
    refine ⟨[u], .standing ⟨u.place, u.angle⟩, hselects, ?_, by simp, fun v hv _ ↦ ?_, by simp⟩
    · simp [build, hused, sorted]
    · obtain rfl := List.singleton_inj.mp hv
      rfl
  | u :: v :: us, hselects =>
    obtain ⟨k, hok, hfollows⟩ := exists_follows j n hloop ((hselects _).mpr rfl) (by simp)
    exact ⟨_, k, hselects, hok, by simp, by simp, fun _ ↦ hfollows⟩

/-- Two places a second apart; what is declared for a time already taken, or for one after the
loop, does not count. -/
def pacing : List (Position ℝ) :=
  [⟨-1, ⟨0, 0, 1⟩, 0, 1⟩, ⟨0, ⟨1, 0, 1⟩, -1, 1⟩, ⟨0, ⟨0, 0, 0⟩, 1, 1⟩, ⟨1, ⟨0, 1, 1⟩, 0, 1⟩]

theorem build_follows_pacing : (-1 : ℝ) < 1 ∧ ∃ k, build 1 1 pacing ⟨-1, 1⟩ = .ok k ∧
    k.place 0 = ⟨1, 0, 1⟩ ∧ Faces (k.angle 0) (-1) ∧ k.placement 1 = k.placement (-1) := by
  have hloop : (⟨-1, 1⟩ : Window ℝ).low < (⟨-1, 1⟩ : Window ℝ).high := by norm_num
  obtain ⟨us, k, hselects, hok, -, -, hfollows⟩ := build_follows 1 1 pacing hloop
  have hus : Selects ⟨-1, 1⟩ pacing [⟨-1, ⟨0, 0, 1⟩, 0, 1⟩, ⟨0, ⟨1, 0, 1⟩, -1, 1⟩] := by
    refine .outside (.repeated (.keep (.keep .nil ?_ ?_ ?_) ?_ ?_ ?_) ?_) ?_ <;> norm_num
  rw [hselects] at hus
  subst hus
  have hk := hfollows le_rfl
  have hperiod := hk.periodic (-1)
  rw [show (-1 : ℝ) + (1 - -1) = 1 by norm_num] at hperiod
  exact ⟨hloop, k, hok, hk.passes _ (List.mem_cons_of_mem _ List.mem_cons_self),
    hk.faces _ (List.mem_cons_of_mem _ List.mem_cons_self), hperiod⟩

end Track

end Juggling
