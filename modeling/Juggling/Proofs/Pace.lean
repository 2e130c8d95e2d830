import Juggling.Proofs.Filled
import Juggling.Proofs.Stretch

namespace Juggling

variable {α : Type} [Exact α]

/-- Equal, or far enough apart for all tolerances. -/
def Discerned (x y : α) : Prop := x = y ∨ HandCurve.periodTolerance ≤ |x - y|

namespace Discerned

variable {x y δ : α} (h : Discerned x y) (hδ : 0 < δ)
include h hδ

theorem sub_lt (hle : δ ≤ HandCurve.periodTolerance) : x - y < δ ↔ x ≤ y := by
  constructor
  · intro hlt
    rcases h with rfl | hfar
    · exact le_rfl
    · by_contra hxy
      rw [abs_of_pos (sub_pos.mpr (not_le.mp hxy))] at hfar
      linarith
  · intro hxy
    linarith

theorem lt_sub (hlt : δ < HandCurve.periodTolerance) : x < y - δ ↔ x < y := by
  constructor
  · intro hxy
    linarith
  · intro hxy
    have hfar := h.resolve_left hxy.ne
    rw [abs_of_neg (sub_neg.mpr hxy)] at hfar
    linarith

theorem abs_lt (hle : δ ≤ HandCurve.periodTolerance) : |x - y| < δ ↔ x = y := by
  constructor
  · intro hlt
    exact h.resolve_right fun hfar ↦ by linarith
  · rintro rfl
    simpa using hδ

end Discerned

theorem Discerned.of_sub_eq {x y z w : α} (h : Discerned x y) (heq : x - y = z - w) :
    Discerned z w := by
  rw [Discerned, ← sub_eq_zero, ← heq, sub_eq_zero]
  exact h

/-- Times that no tolerance confuses, neither as they are nor multiplied by a factor. -/
structure Pace (f : α) (T : Set α) : Prop where
  pos : 0 < f
  discerned : ∀ x ∈ T, ∀ y ∈ T, Discerned x y
  discerned_mul : ∀ x ∈ T, ∀ y ∈ T, Discerned (x * f) (y * f)

namespace Pace

variable {f δ : α} {T : Set α} (h : Pace f T)
include h

theorem mono {S : Set α} (hS : S ⊆ T) : Pace f S :=
  ⟨h.pos, fun x hx y hy ↦ h.discerned x (hS hx) y (hS hy),
    fun x hx y hy ↦ h.discerned_mul x (hS hx) y (hS hy)⟩

theorem mul_le {x y : α} : x * f ≤ y * f ↔ x ≤ y := mul_le_mul_iff_left₀ h.pos

theorem mul_lt {x y : α} : x * f < y * f ↔ x < y := mul_lt_mul_iff_left₀ h.pos

theorem mul_eq {x y : α} : x * f = y * f ↔ x = y := mul_left_inj' h.pos.ne'

variable {x y : α} (hx : x ∈ T) (hy : y ∈ T)
include hx hy

theorem abs_lt (hδ : 0 < δ) (hle : δ ≤ HandCurve.periodTolerance) :
    |x * f - y * f| < δ ↔ |x - y| < δ := by
  rw [(h.discerned_mul x hx y hy).abs_lt hδ hle, (h.discerned x hx y hy).abs_lt hδ hle, h.mul_eq]

theorem sub_lt : x * f - y * f < timeTolerance ↔ x - y < timeTolerance := by
  have hle := (SymmetryGroup.timeTolerance_lt (α := α)).le
  rw [(h.discerned_mul x hx y hy).sub_lt timeTolerance_pos hle,
    (h.discerned x hx y hy).sub_lt timeTolerance_pos hle, h.mul_le]

theorem lt_sub : x * f < y * f - timeTolerance ↔ x < y - timeTolerance := by
  have hlt := SymmetryGroup.timeTolerance_lt (α := α)
  rw [(h.discerned_mul x hx y hy).lt_sub timeTolerance_pos hlt,
    (h.discerned x hx y hy).lt_sub timeTolerance_pos hlt, h.mul_lt]

theorem sub_le : x * f - timeTolerance ≤ y * f ↔ x - timeTolerance ≤ y := by
  rw [← not_lt, h.lt_sub hy hx, not_lt]

theorem add_lt : x * f + timeTolerance < y * f ↔ x + timeTolerance < y := by
  rw [← lt_sub_iff_add_lt, h.lt_sub hx hy, lt_sub_iff_add_lt]

theorem le_add : x * f ≤ y * f + timeTolerance ↔ x ≤ y + timeTolerance := by
  rw [← not_lt, h.add_lt hy hx, not_lt]

end Pace

theorem Scalar.remainder_mul {f : α} (hf : 0 < f) (x y : α) :
    Scalar.remainder (x * f) (y * f) = Scalar.remainder x y * f := by
  simp only [remainder_eq, abs_mul, abs_of_pos hf, mul_div_mul_right _ _ hf.ne']
  ring

def Window.stretch (f : α) (w : Window α) : Window α := ⟨w.low * f, w.high * f⟩

def Position.stretch (f : α) (p : Position α) : Position α := { p with time := p.time * f }

namespace Line

def stretch (f : α) (c : Line α) : Line α := ⟨c.knots.stretch f⟩

theorem position_stretch {f : α} (hf : 0 < f) (c : Line α) (t : α) :
    (c.stretch f).position (t * f) = c.position t := by
  have hlegs (p : Knot α) (ks : List (Knot α)) : Leg.ofKnots (p.stretch f) (ks.map (·.stretch f)) =
      (Leg.ofKnots p ks).map fun l ↦ ⟨l.start.stretch f, l.stop.stretch f⟩ := by
    induction ks generalizing p with
    | nil => rfl
    | cons k ks ih => rw [List.map_cons, Leg.ofKnots, Leg.ofKnots, List.map_cons, ih]
  have hleg (l : Leg α) :
      Leg.position ⟨l.start.stretch f, l.stop.stretch f⟩ (t * f) = l.position t := by
    simp only [Leg.position, Knot.stretch, ← sub_mul, mul_div_mul_right _ _ hf.ne']
  simp only [position, stretch, Knots.stretch, hlegs]
  have hpiece := @pieceAt_map α _ (Leg α) (Leg α) (·.start.time) (·.start.time)
    (fun l ↦ ⟨l.start.stretch f, l.stop.stretch f⟩) t (t * f) (fun _ ↦ mul_le_mul_iff_left₀ hf)
    ⟨c.knots.first, c.knots.second⟩ (Leg.ofKnots c.knots.second c.knots.rest)
  rw [hpiece, hleg]

end Line

namespace Track

def stretch (f : α) : Track α → Track α
  | standing p => standing p
  | moving start period place angle =>
    moving (start * f) (period * f) (place.stretch f) (angle.stretch f)

theorem placement_stretch {f : α} (hf : 0 < f) (k : Track α) (t : α) :
    (k.stretch f).placement (t * f) = k.placement t := by
  cases k with
  | standing p => rfl
  | moving start period place angle =>
    have hwrap : wrap (start * f) (period * f) (t * f) = wrap start period t * f := by
      rw [wrap, ← sub_mul, Scalar.remainder_mul hf, ← add_mul, wrap]
    simp only [placement, stretch, Track.place, Track.angle, hwrap, Spline.position_stretch hf,
      Line.position_stretch hf]

theorem through_stretch {f : α} (hf : 0 < f) {period : α} {first second : Position α}
    {rest : List (Position α)} {k : Track α} (hok : through period first second rest = .ok k) :
    through (period * f) (first.stretch f) (second.stretch f) (rest.map (·.stretch f)) =
      .ok (k.stretch f) := by
  have hplaces : ((first.stretch f).place :: ((second.stretch f) :: rest.map (·.stretch f) ++
      [first.stretch f]).map (·.place)) =
      first.place :: (second :: rest ++ [first]).map (·.place) := by
    simp [Position.stretch]
  have hangles : ((second.stretch f) :: rest.map (·.stretch f) ++ [first.stretch f]).map
      (·.angle) = (second :: rest ++ [first]).map (·.angle) := by
    simp [Position.stretch]
  have htimes : ((first.stretch f).time :: (second.stretch f).time ::
      (rest.map (·.stretch f)).map (·.time) ++ [(first.stretch f).time + period * f]) =
      (first.time :: second.time :: rest.map (·.time) ++ [first.time + period]).map (· * f) := by
    simp [Position.stretch, add_mul]
  unfold through at hok ⊢
  simp only [bind_eq_ok, hplaces, hangles, htimes] at hok ⊢
  obtain ⟨knots, hknots, place, hplace, turns, hturns, hok⟩ := hok
  obtain ⟨-, -, -, hstart, hend⟩ := Knots.ofLists_ok hknots
  refine ⟨_, Knots.ofLists_stretch hf hknots, _, Spline.ofKnots_stretch hf hstart hend hplace, _,
    Knots.ofLists_stretch hf hturns, ?_⟩
  obtain rfl := Except.ok.inj hok
  rfl

section Build

/-- One step of the choice of the positions that count. -/
def keep (loop : Window α) (kept : List (Position α)) (p : Position α) : List (Position α) :=
  if p.time < loop.low - timeTolerance || loop.high - timeTolerance ≤ p.time
      || kept.any fun k ↦ Scalar.abs (k.time - p.time) < timeTolerance
  then kept else kept ++ [p]

theorem mem_keep {loop : Window α} {kept : List (Position α)} {p q : Position α}
    (hq : q ∈ keep loop kept p) : q ∈ kept ∨ q = p := by
  unfold keep at hq
  split_ifs at hq
  · exact .inl hq
  · simpa using hq

variable {f : α} {T : Set α} (h : Pace f T) {loop : Window α} (hlow : loop.low ∈ T)
  (hhigh : loop.high ∈ T)
include h hlow hhigh

theorem keep_stretch {kept : List (Position α)} (hkept : ∀ q ∈ kept, q.time ∈ T) {p : Position α}
    (hp : p.time ∈ T) : keep (loop.stretch f) (kept.map (·.stretch f)) (p.stretch f) =
      (keep loop kept p).map (·.stretch f) := by
  have hnear : ((kept.map (·.stretch f)).any fun k ↦
      decide (Scalar.abs (k.time - (p.stretch f).time) < timeTolerance)) =
      kept.any fun k ↦ decide (Scalar.abs (k.time - p.time) < timeTolerance) := by
    rw [List.any_map, Bool.eq_iff_iff, List.any_eq_true, List.any_eq_true]
    refine exists_congr fun q ↦ and_congr_right fun hq ↦ ?_
    simpa [Position.stretch] using
      h.abs_lt (hkept q hq) hp timeTolerance_pos SymmetryGroup.timeTolerance_lt.le
  have hearly : (p.stretch f).time < (loop.stretch f).low - timeTolerance ↔
      p.time < loop.low - timeTolerance := h.lt_sub hp hlow
  have hlate : (loop.stretch f).high - timeTolerance ≤ (p.stretch f).time ↔
      loop.high - timeTolerance ≤ p.time := h.sub_le hhigh hp
  simp only [keep, hnear, hearly, hlate]
  split_ifs <;> simp

theorem used_stretch {positions : List (Position α)} (hpositions : ∀ p ∈ positions, p.time ∈ T) :
    used (loop.stretch f) (positions.map (·.stretch f)) =
      (used loop positions).map (·.stretch f) := by
  suffices hfold : ∀ kept : List (Position α), (∀ q ∈ kept, q.time ∈ T) →
      (positions.map (·.stretch f)).foldl (keep (loop.stretch f)) (kept.map (·.stretch f)) =
        (positions.foldl (keep loop) kept).map (·.stretch f) from hfold [] (by simp)
  induction positions with
  | nil => exact fun _ _ ↦ rfl
  | cons p ps ih =>
    intro kept hkept
    have hp := hpositions p List.mem_cons_self
    rw [List.map_cons, List.foldl_cons, List.foldl_cons, keep_stretch h hlow hhigh hkept hp]
    refine ih (fun q hq ↦ hpositions q (List.mem_cons_of_mem _ hq)) _ fun q hq ↦ ?_
    rcases mem_keep hq with hq | rfl
    · exact hkept q hq
    · exact hp

theorem build_stretch {positions : List (Position α)} (hpositions : ∀ p ∈ positions, p.time ∈ T)
    {j J : ℕ} {k : Track α} (hok : build j J positions loop = .ok k) :
    build j J (positions.map (·.stretch f)) (loop.stretch f) = .ok (k.stretch f) := by
  have hsorted : sorted ((used loop positions).map (·.stretch f)) =
      (sorted (used loop positions)).map (·.stretch f) := by
    refine (List.map_mergeSort fun p _ q _ ↦ ?_).symm
    rw [Bool.eq_iff_iff, Scalar.precedes_iff, Scalar.precedes_iff]
    exact h.mul_le.symm
  unfold build at hok ⊢
  rw [used_stretch h hlow hhigh hpositions, hsorted]
  match hstops : sorted (used loop positions) with
  | [] =>
    rw [hstops] at hok
    obtain rfl := Except.ok.inj hok
    rfl
  | [p] =>
    rw [hstops] at hok
    obtain rfl := Except.ok.inj hok
    rfl
  | first :: second :: rest =>
    rw [hstops] at hok
    have hperiod : loop.high * f - loop.low * f = (loop.high - loop.low) * f := (sub_mul _ _ _).symm
    simp only [List.map_cons, Window.stretch, hperiod]
    exact through_stretch h.pos hok

end Build

end Track

end Juggling
