import Juggling.Proofs.Extremes
import Juggling.Proofs.Landings
import Juggling.Proofs.Stretch

namespace Juggling

section

variable {α : Type} [Exact α]

namespace Leg

theorem along_position (leg : Leg α) (t : α) (i : Axis) : (leg.position t).along i =
    leg.start.position.along i + (leg.stop.position.along i - leg.start.position.along i) /
      (leg.stop.time - leg.start.time) * (t - leg.start.time) := by
  simp only [position, Coordinate.lerp, Coordinate.along_add, Coordinate.along_smul,
    Coordinate.along_sub]
  ring

theorem position_start (leg : Leg α) : leg.position leg.start.time = leg.start.position := by
  refine Coordinate.ext_along fun i ↦ ?_
  rw [along_position, sub_self, mul_zero, add_zero]

theorem position_stop {leg : Leg α} (h : leg.start.time < leg.stop.time) :
    leg.position leg.stop.time = leg.stop.position := by
  refine Coordinate.ext_along fun i ↦ ?_
  rw [along_position, div_mul_cancel₀ _ (sub_pos.mpr h).ne', add_sub_cancel]

theorem tame (leg : Leg α) (i : Axis) (turns : List α) (w : Window α) :
    Tame (fun t ↦ (leg.position t).along i) turns w :=
  (Tame.straight _ _ _).congr fun t _ ↦ leg.along_position t i

/-- Legs from knot to knot pass all knots, and turn only there. -/
theorem pieceAt_spec {p q : Knot α} {ks : List (Knot α)}
    (hsorted : ((p :: q :: ks).map Knot.time).Pairwise (· < ·)) :
    let at' (t : α) := pieceAt (fun leg : Leg α ↦ leg.start.time) t ⟨p, q⟩ (ofKnots q ks)
    (∀ k ∈ p :: q :: ks, (at' k.time).position k.time = k.position) ∧
    ∀ i low high, Tame (fun t ↦ ((at' t).position t).along i) ((p :: q :: ks).map Knot.time)
      ⟨low, high⟩ := by
  intro at'
  obtain ⟨hp, hrest⟩ := List.pairwise_cons.mp hsorted
  have hpq : p.time < q.time := hp _ List.mem_cons_self
  have hstop : (⟨p, q⟩ : Leg α).position q.time = q.position := position_stop hpq
  induction ks generalizing p q with
  | nil =>
    refine ⟨fun k hk ↦ ?_, fun i low high ↦ tame ⟨p, q⟩ i _ _⟩
    rcases List.mem_pair.mp hk with rfl | rfl
    · exact position_start _
    · exact hstop
  | cons r ks ih =>
    obtain ⟨hq, hrs⟩ := List.pairwise_cons.mp hrest
    have hqr : q.time < r.time := hq _ List.mem_cons_self
    obtain ⟨hpass, htame⟩ := ih hrest hq hrs hqr (position_stop hqr)
    have hlow (t : α) (ht : t < q.time) : at' t = ⟨p, q⟩ := if_neg (not_le.mpr ht)
    have hhigh (t : α) (ht : q.time ≤ t) : at' t =
        pieceAt (fun leg : Leg α ↦ leg.start.time) t ⟨q, r⟩ (ofKnots r ks) := if_pos ht
    refine ⟨fun k hk ↦ ?_, fun i low high ↦ ?_⟩
    · rcases List.mem_cons.mp hk with rfl | hk
      · rw [hlow _ hpq]
        exact position_start _
      · have hle : q.time ≤ k.time := by
          rcases List.mem_cons.mp hk with rfl | hk
          · exact le_rfl
          · exact (hq _ (List.mem_map_of_mem hk)).le
        rw [hhigh _ hle]
        exact hpass k hk
    · refine Tame.switch (u := q.time) (by simp) (tame ⟨p, q⟩ i _ _)
        ((htame i q.time high).mono fun s hs _ _ ↦ List.mem_cons_of_mem _ hs) ?_
        (fun t ht ↦ by rw [hlow t ht]) (fun t ht ↦ by rw [hhigh t ht])
      rw [hstop, hpass q List.mem_cons_self]

end Leg

theorem Line.tight {k : Knots α} (hsorted : (k.toList.map Knot.time).Pairwise (· < ·)) :
    Tight (Line.position ⟨k⟩) k.range (Line.extreme ⟨k⟩) := by
  obtain ⟨hpass, htame⟩ := Leg.pieceAt_spec hsorted
  have hinner (w : Window α) :
      ((k.toList.map Knot.time).filter w.inside).map (Line.position ⟨k⟩) =
        (k.toList.filter fun p ↦ w.inside p.time).map Knot.position := by
    rw [List.filter_map, List.map_map]
    exact List.map_congr_left fun p hp ↦ hpass p (List.mem_of_mem_filter hp)
  have hdecides (w : Window α) (hle : w.low ≤ w.high) : Decides (Line.position ⟨k⟩) w
      (Line.position ⟨k⟩ w.low :: Line.position ⟨k⟩ w.high ::
        (k.toList.filter fun p ↦ w.inside p.time).map Knot.position) := by
    rw [← hinner]
    exact Decides.of_turns hle fun i ↦ htame i w.low w.high
  exact Tight.of_decides fun w _ hle _ ↦ hdecides w hle

namespace Cubic

theorem negligible_eq : (negligible : α) = 1 / 10 ^ 12 := by
  unfold negligible
  simp only [OfScientific.ofScientific, Scalar.ofDecimal]
  simp

theorem negligible_pos : (0 : α) < negligible := by
  rw [negligible_eq]
  positivity

theorem quadraticRoots_eq (a b c : α) : quadraticRoots a b c =
    if |a| < negligible then if |b| < negligible then [] else [-c / b]
    else if b * b - 4 * a * c < 0 then []
    else [(-b + Scalar.sqrt (b * b - 4 * a * c)) / (2 * a),
      (-b - Scalar.sqrt (b * b - 4 * a * c)) / (2 * a)] := by
  simp only [quadraticRoots, Scalar.abs_eq, Scalar.ofNat_eq]
  push_cast
  rfl

/-- Zero, or large enough not to be taken for it. -/
def Distinct (x : α) : Prop := x = 0 ∨ negligible ≤ |x|

instance (x : α) : Decidable (Distinct x) := inferInstanceAs (Decidable (_ ∨ _))

theorem keepsSign_quadratic {a b c o : α} {turns : List α} (ha : Distinct a) (hb : Distinct b)
    (hroot : 0 ≤ b * b - 4 * a * c → Scalar.sqrt (b * b - 4 * a * c) *
      Scalar.sqrt (b * b - 4 * a * c) = b * b - 4 * a * c)
    (hturns : ∀ r ∈ quadraticRoots a b c, o + r ∈ turns) :
    KeepsSign (fun t ↦ c + (t - o) * (b + (t - o) * a)) turns := by
  have hpos : (0 : α) < negligible := negligible_pos
  rw [quadraticRoots_eq] at hturns
  rcases ha with rfl | ha
  · rw [if_pos (by simpa using hpos)] at hturns
    rcases hb with rfl | hb
    · exact (KeepsSign.const c).congr fun t ↦ by ring
    · have hne : b ≠ 0 := abs_pos.mp (hpos.trans_le hb)
      rw [if_neg (not_lt.mpr hb)] at hturns
      refine ((KeepsSign.const b).mul (.root (hturns _ List.mem_cons_self))).congr fun t ↦ ?_
      field_simp
      ring
  · have hne : a ≠ 0 := abs_pos.mp (hpos.trans_le ha)
    rw [if_neg (not_lt.mpr ha)] at hturns
    by_cases hdisc : b * b - 4 * a * c < 0
    · -- Without roots the square that it is completed to decides.
      have hsquare (t : α) : c + (t - o) * (b + (t - o) * a) = 1 / (4 * a) *
          ((2 * a * (t - o) + b) ^ 2 - (b * b - 4 * a * c)) := by
        field_simp
        ring
      have hrest (t : α) : 0 ≤ (2 * a * (t - o) + b) ^ 2 - (b * b - 4 * a * c) :=
        sub_nonneg.mpr (hdisc.le.trans (sq_nonneg _))
      exact ((KeepsSign.const (1 / (4 * a))).mul fun _ _ _ ↦ .inl fun t _ _ ↦ hrest t).congr hsquare
    · rw [if_neg hdisc] at hturns
      have hsq := hroot (not_lt.mp hdisc)
      generalize Scalar.sqrt (b * b - 4 * a * c) = x at hturns hsq
      refine ((KeepsSign.const a).mul ((KeepsSign.root (hturns _ List.mem_cons_self)).mul
        (.root (hturns _ (List.mem_cons_of_mem _ List.mem_cons_self))))).congr fun t ↦ ?_
      field_simp
      linear_combination hsq

variable (p : Cubic α)

/-- The coefficient of the squared time in the velocity along an axis. -/
def squareRate {α : Type} [Scalar α] (p : Cubic α) (i : Axis) : α := 3 * p.d.along i

/-- The coefficient of the time in the velocity along an axis. -/
def linearRate {α : Type} [Scalar α] (p : Cubic α) (i : Axis) : α := 2 * p.c.along i

theorem squareRate_eq (i : Axis) : p.squareRate i = 3 * p.d.along i := by simp [squareRate]

theorem linearRate_eq (i : Axis) : p.linearRate i = 2 * p.c.along i := by simp [linearRate]

/-- No coefficient of a velocity is taken for zero unless it is zero. -/
def Sharp : Prop := ∀ i, Distinct (p.squareRate i) ∧ Distinct (p.linearRate i)

instance : Decidable p.Sharp := inferInstanceAs (Decidable (∀ _, _))

/-- What decides whether and where a component stands still. -/
def discriminant {α : Type} [Scalar α] (p : Cubic α) (i : Axis) : α :=
  p.linearRate i * p.linearRate i - 4 * p.squareRate i * p.b.along i

theorem discriminant_eq (i : Axis) : p.discriminant i =
    2 * p.c.along i * (2 * p.c.along i) - 4 * (3 * p.d.along i) * p.b.along i := by
  simp [discriminant, squareRate_eq, linearRate_eq]

/-- The roots that are needed to find where a component stands still are exact. -/
def Rooted : Prop := ∀ i, 0 ≤ p.discriminant i →
  Scalar.sqrt (p.discriminant i) * Scalar.sqrt (p.discriminant i) = p.discriminant i

instance : Decidable p.Rooted := inferInstanceAs (Decidable (∀ _, _ → _))

theorem mem_stationaryTimes {w : Window α} {t : α} : t ∈ p.stationaryTimes w ↔
    (∃ i, ∃ r ∈ quadraticRoots (3 * p.d.along i) (2 * p.c.along i) (p.b.along i),
      p.start + r = t) ∧ w.low < t ∧ t < w.high := by
  have haxis : (∃ i, ∃ r ∈ quadraticRoots (3 * p.d.along i) (2 * p.c.along i) (p.b.along i),
      p.start + r = t) ↔
      ((∃ r ∈ quadraticRoots (3 * p.d.x) (2 * p.c.x) p.b.x, p.start + r = t) ∨
        ∃ r ∈ quadraticRoots (3 * p.d.y) (2 * p.c.y) p.b.y, p.start + r = t) ∨
          ∃ r ∈ quadraticRoots (3 * p.d.z) (2 * p.c.z) p.b.z, p.start + r = t := by
    constructor
    · rintro ⟨i, h⟩
      cases i
      · exact .inl (.inl h)
      · exact .inl (.inr h)
      · exact .inr h
    · rintro ((h | h) | h)
      exacts [⟨.x, h⟩, ⟨.y, h⟩, ⟨.z, h⟩]
  rw [haxis]
  simp only [stationaryTimes, List.mem_filter, List.mem_append, List.mem_map, Window.inside_iff,
    Scalar.ofNat_eq, Nat.cast_ofNat]

/-- The part of a window that a piece takes. -/
def shared (w : Window α) : Window α := ⟨max p.start w.low, min p.stop w.high⟩

theorem mem_candidates {w : Window α} {q : Coordinate α} : q ∈ p.candidates w ↔
    (p.shared w).low ≤ (p.shared w).high ∧
      ∃ t ∈ (p.shared w).low :: (p.shared w).high :: p.stationaryTimes (p.shared w),
        p.position t = q := by
  rw [← List.mem_map]
  simp only [candidates, Scalar.larger_eq, Scalar.smaller_eq]
  split_ifs with h
  · exact iff_of_false List.not_mem_nil fun hle ↦ absurd hle.1 (not_le.mpr h)
  · exact ⟨fun hq ↦ ⟨not_lt.mp h, hq⟩, fun hq ↦ hq.2⟩

variable {p}

/-- A candidate is a place of the piece at a time of both the piece and the window. -/
theorem exists_of_mem_candidates {w : Window α} {q : Coordinate α} (hq : q ∈ p.candidates w) :
    ∃ t, (p.start ≤ t ∧ t ≤ p.stop) ∧ (w.low ≤ t ∧ t ≤ w.high) ∧ p.position t = q := by
  obtain ⟨hle, t, ht, rfl⟩ := p.mem_candidates.mp hq
  have hbounds : (p.shared w).low ≤ t ∧ t ≤ (p.shared w).high := by
    rcases List.mem_cons.mp ht with rfl | ht
    · exact ⟨le_rfl, hle⟩
    rcases List.mem_cons.mp ht with rfl | ht
    · exact ⟨hle, le_rfl⟩
    · obtain ⟨-, hlt, hlt'⟩ := p.mem_stationaryTimes.mp ht
      exact ⟨hlt.le, hlt'.le⟩
  obtain ⟨hstart, hlow⟩ := max_le_iff.mp hbounds.1
  obtain ⟨hstop, hhigh⟩ := le_min_iff.mp hbounds.2
  exact ⟨t, ⟨hstart, hstop⟩, ⟨hlow, hhigh⟩, rfl⟩

/-- Where a piece begins or stands still inside a window, its place is a candidate. -/
theorem mem_candidates_of_turn {w : Window α} {t : α} (hp : p.start < p.stop)
    (ht : t ∈ p.start :: p.stationaryTimes ⟨p.start, p.stop⟩) (hlow : w.low < t)
    (hhigh : t < w.high) : (p.start ≤ t ∧ t ≤ p.stop) ∧ p.position t ∈ p.candidates w := by
  rcases List.mem_cons.mp ht with rfl | ht
  · have hstart : (p.shared w).low = p.start := max_eq_left hlow.le
    refine ⟨⟨le_rfl, hp.le⟩, p.mem_candidates.mpr ⟨?_, p.start, ?_, rfl⟩⟩
    · exact hstart ▸ le_min hp.le hhigh.le
    · rw [hstart]
      exact List.mem_cons_self
  · obtain ⟨hroot, hstart, hstop⟩ := p.mem_stationaryTimes.mp ht
    have hlow' := max_lt hstart hlow
    have hhigh' := lt_min hstop hhigh
    refine ⟨⟨hstart.le, hstop.le⟩, p.mem_candidates.mpr ⟨(hlow'.trans hhigh').le, t, ?_, rfl⟩⟩
    exact List.mem_cons_of_mem _ (List.mem_cons_of_mem _
      (p.mem_stationaryTimes.mpr ⟨hroot, hlow', hhigh'⟩))

/-- Within its own time a piece turns only where a component stands still. -/
theorem tame (hsharp : p.Sharp) (hrooted : p.Rooted) (i : Axis) :
    Tame (fun t ↦ (p.position t).along i) (p.stationaryTimes ⟨p.start, p.stop⟩)
      ⟨p.start, p.stop⟩ := by
  obtain ⟨hd, hc⟩ := hsharp i
  rw [squareRate_eq] at hd
  rw [linearRate_eq] at hc
  have hroot := hrooted i
  rw [discriminant_eq] at hroot
  have hroots : ∀ r ∈ quadraticRoots (3 * p.d.along i) (2 * p.c.along i) (p.b.along i),
      p.start + r ∈ (quadraticRoots (3 * p.d.along i) (2 * p.c.along i) (p.b.along i)).map
        (p.start + ·) := fun r hr ↦ List.mem_map_of_mem hr
  have hrate := keepsSign_quadratic hd hc hroot hroots
  have htame : Tame (fun t ↦ (p.position t).along i)
      ((quadraticRoots (3 * p.d.along i) (2 * p.c.along i) (p.b.along i)).map (p.start + ·))
      ⟨p.start, p.stop⟩ :=
    (Tame.cubic (hrate.congr fun t ↦ by ring)).congr fun t _ ↦ p.along_position t i
  refine htame.mono fun s hs hlow hhigh ↦ ?_
  obtain ⟨r, hr, rfl⟩ := List.mem_map.mp hs
  exact p.mem_stationaryTimes.mpr ⟨⟨i, r, hr, rfl⟩, hlow, hhigh⟩

end Cubic

namespace Spline

section Pieces

variable {a b : Knot α × Coordinate α} {ns : List (Knot α × Coordinate α)} {high : α}
  (hsorted : (a :: b :: ns).Pairwise fun n n' ↦ n.1.time < n'.1.time)
  (hhigh : ((a :: b :: ns).map fun n ↦ n.1.time).getLast? = some high)
include hsorted hhigh

/-- While its time lasts a piece is the whole curve. -/
theorem pieces_place : ∀ p ∈ Cubic.hermite a.1 b.1 a.2 b.2 :: pieces (b :: ns),
    a.1.time ≤ p.start ∧ p.start < p.stop ∧ p.stop ≤ high ∧ ∀ t, p.start ≤ t → t ≤ p.stop →
      (Juggling.pieceAt Cubic.start t (Cubic.hermite a.1 b.1 a.2 b.2)
        (pieces (b :: ns))).position t = p.position t := by
  obtain ⟨ha, hrest⟩ := List.pairwise_cons.mp hsorted
  have hab := ha b List.mem_cons_self
  induction ns generalizing a b with
  | nil =>
    intro p hp
    obtain rfl := List.mem_singleton.mp hp
    exact ⟨le_rfl, hab, (Option.some.inj hhigh).le, fun t _ _ ↦ rfl⟩
  | cons c ns ih =>
    obtain ⟨hb, -⟩ := List.pairwise_cons.mp hrest
    have hplace := ih hrest hhigh hb (List.pairwise_cons.mp hrest).2 (hb c List.mem_cons_self)
    obtain ⟨hstart, hstop, hle, -⟩ := hplace _ List.mem_cons_self
    refine List.forall_mem_cons.mpr ⟨⟨le_rfl, hab, hstart.trans (hstop.le.trans hle),
      fun t _ ht ↦ ?_⟩, fun p hp ↦ ?_⟩
    · rcases ht.lt_or_eq with hlt | rfl
      · exact congrArg (Cubic.position · t) (if_neg (not_le.mpr hlt))
      · exact ((pieces_spec hsorted).1 b (by simp)).1.trans (Cubic.hermite_stop a.2 b.2 hab).1.symm
    · obtain ⟨hlow, hlt, hle, hat⟩ := hplace p hp
      refine ⟨hab.le.trans hlow, hlt, hle, fun t ht ht' ↦ ?_⟩
      rw [← hat t ht ht']
      exact congrArg (Cubic.position · t) (if_pos (hlow.trans ht))

/-- A curve turns only where one piece follows another, or where a component of a piece stands
still within the time of the piece. -/
theorem pieces_tame {turns : List α}
    (hsharp : ∀ p ∈ Cubic.hermite a.1 b.1 a.2 b.2 :: pieces (b :: ns), p.Sharp ∧ p.Rooted)
    (hturns : ∀ p ∈ Cubic.hermite a.1 b.1 a.2 b.2 :: pieces (b :: ns),
      ∀ s ∈ p.start :: p.stationaryTimes ⟨p.start, p.stop⟩, s ∈ turns) (i : Axis) :
    Tame (fun t ↦ ((Juggling.pieceAt Cubic.start t (Cubic.hermite a.1 b.1 a.2 b.2)
      (pieces (b :: ns))).position t).along i) turns ⟨a.1.time, high⟩ := by
  obtain ⟨ha, hrest⟩ := List.pairwise_cons.mp hsorted
  have hab := ha b List.mem_cons_self
  have hfirst : Tame (fun t ↦ ((Cubic.hermite a.1 b.1 a.2 b.2).position t).along i) turns
      ⟨a.1.time, b.1.time⟩ := by
    obtain ⟨hsharp, hrooted⟩ := hsharp _ List.mem_cons_self
    exact (Cubic.tame hsharp hrooted i).mono fun s hs _ _ ↦
      hturns _ List.mem_cons_self s (List.mem_cons_of_mem _ hs)
  induction ns generalizing a b with
  | nil =>
    obtain rfl := Option.some.inj hhigh
    exact hfirst
  | cons c ns ih =>
    obtain ⟨hb, hns⟩ := List.pairwise_cons.mp hrest
    have hbc := hb c List.mem_cons_self
    have hsharp' := (List.forall_mem_cons.mp hsharp).2
    have hturns' := (List.forall_mem_cons.mp hturns).2
    refine Tame.switch (u := b.1.time) (hturns' _ List.mem_cons_self _ List.mem_cons_self) hfirst
      (ih hrest hhigh hsharp' hturns' hb hns hbc ?_) ?_
      (fun t ht ↦ congrArg (fun p ↦ (Cubic.position p t).along i) (if_neg (not_le.mpr ht)))
      (fun t ht ↦ congrArg (fun p ↦ (Cubic.position p t).along i) (if_pos ht))
    · obtain ⟨hsharp, hrooted⟩ := hsharp' _ List.mem_cons_self
      exact (Cubic.tame hsharp hrooted i).mono fun s hs _ _ ↦
        hturns' _ List.mem_cons_self s (List.mem_cons_of_mem _ hs)
    · rw [(Cubic.hermite_stop a.2 b.2 hab).1, ((pieces_spec hrest).1 b List.mem_cons_self).1]

end Pieces

def turns (c : Spline α) : List α :=
  (c.first :: c.rest).flatMap fun p ↦ p.start :: p.stationaryTimes ⟨p.start, p.stop⟩

variable {k : Knots α} {c : Spline α} (hok : ofKnots k = .ok c)
  (hsorted : (k.toList.map Knot.time).Pairwise (· < ·))
include hok hsorted

/-- The candidates of the pieces are places of the curve, and its turns are among them. -/
theorem decides (hsharp : ∀ p ∈ c.first :: c.rest, p.Sharp ∧ p.Rooted) {w : Window α}
    (hlow : k.range.low ≤ w.low) (hw : w.low ≤ w.high) (hhigh : w.high ≤ k.range.high) :
    Decides c.position w (c.position w.low :: c.position w.high ::
      (c.first :: c.rest).flatMap (·.candidates w)) := by
  obtain ⟨a, b, ns, hknots, -, rfl⟩ := exists_pieces hok
  obtain ⟨hpairs, hfirst, hlast⟩ := times_nodes hknots hsorted
  have hplace := pieces_place hpairs hlast
  set c : Spline α := ⟨k, Cubic.hermite a.1 b.1 a.2 b.2, pieces (b :: ns)⟩ with hc
  have htame (i : Axis) : Tame (fun t ↦ (c.position t).along i) c.turns w := by
    refine (pieces_tame hpairs hlast hsharp (fun p hp s hs ↦ ?_) i).within (hfirst ▸ hlow) hhigh
    exact List.mem_flatMap.mpr ⟨p, hp, hs⟩
  refine .of_tame htame (fun q hq ↦ ?_) fun t ht ↦ ?_
  · rcases List.mem_cons.mp hq with rfl | hq
    · exact ⟨w.low, ⟨le_rfl, hw⟩, rfl⟩
    rcases List.mem_cons.mp hq with rfl | hq
    · exact ⟨w.high, ⟨hw, le_rfl⟩, rfl⟩
    obtain ⟨p, hp, hq⟩ := List.mem_flatMap.mp hq
    obtain ⟨t, ⟨hstart, hstop⟩, hin, rfl⟩ := Cubic.exists_of_mem_candidates hq
    exact ⟨t, hin, (hplace p hp).2.2.2 t hstart hstop⟩
  · rcases List.mem_cons.mp ht with rfl | ht
    · exact List.mem_cons_self
    rcases List.mem_cons.mp ht with rfl | ht
    · exact List.mem_cons_of_mem _ List.mem_cons_self
    obtain ⟨ht, hin⟩ := List.mem_filter.mp ht
    obtain ⟨hlow, hhigh⟩ := Window.inside_iff.mp hin
    obtain ⟨p, hp, ht⟩ := List.mem_flatMap.mp ht
    obtain ⟨-, hlt, -, hat⟩ := hplace p hp
    obtain ⟨⟨hstart, hstop⟩, hcandidate⟩ := Cubic.mem_candidates_of_turn hlt ht hlow hhigh
    have hsame : c.position t = p.position t := hat t hstart hstop
    rw [hsame]
    exact List.mem_cons_of_mem _ (List.mem_cons_of_mem _ (List.mem_flatMap.mpr ⟨p, hp, hcandidate⟩))

theorem tight (hsharp : ∀ p ∈ c.first :: c.rest, p.Sharp ∧ p.Rooted) :
    Tight c.position k.range c.extreme := by
  obtain rfl := knots_ofKnots hok
  exact Tight.of_decides fun w hlow hle hhigh ↦ decides hok hsorted hsharp hlow hle hhigh

end Spline

/-- A height under constant pull turns at most once. -/
theorem Tame.thrown {a b g o : α} {turns : List α} {w : Window α} (hg : g ≠ 0)
    (hturn : o + b / g ∈ turns) :
    Tame (fun t ↦ a + b * (t - o) - g / 2 * (t - o) * (t - o)) turns w := by
  have hrate : KeepsSign (fun t ↦ b + 2 * (-(g / 2)) * (t - o)) turns := by
    refine ((KeepsSign.const (-g)).mul (.root hturn)).congr fun t ↦ ?_
    field_simp
    ring
  exact (Tame.quadratic (a := a) hrate).congr fun t _ ↦ by ring

namespace Toss

variable (f : Toss α)

theorem along_position (t : α) (i : Axis) : (f.position t).along i = match i with
    | .x => f.launch.start.position.x + f.velocity.x * (t - f.launch.start.time)
    | .y => f.launch.start.position.y + f.velocity.y * (t - f.launch.start.time)
    | .z => f.launch.start.position.z + f.velocity.z * (t - f.launch.start.time) -
        f.g / 2 * (t - f.launch.start.time) * (t - f.launch.start.time) := by
  cases i with
  | x => rfl
  | y => rfl
  | z =>
    simp only [position, Coordinate.along, OfScientific.ofScientific, Scalar.ofDecimal, if_true]
    push_cast
    ring

theorem turnTime?_eq : f.turnTime? =
    if f.g = 0 then none else some (f.launch.start.time + f.velocity.z / f.g) := by
  simp [turnTime?]

theorem tame (w : Window α) (i : Axis) :
    Tame (fun t ↦ (f.position t).along i) f.turnTime?.toList w := by
  simp only [along_position]
  cases i with
  | x => exact Tame.straight _ _ _
  | y => exact Tame.straight _ _ _
  | z =>
    rw [turnTime?_eq]
    split_ifs with hg
    · exact (Tame.straight f.launch.start.position.z f.velocity.z f.launch.start.time).congr
        fun t _ ↦ by rw [hg, zero_div, zero_mul, zero_mul, sub_zero]
    · exact Tame.thrown hg (by simp)

theorem tight : Tight f.position f.launch.range f.extreme :=
  Tight.of_decides fun w _ hle _ ↦ Decides.of_turns hle (f.tame w)

end Toss

namespace Arc

theorem tame {a : Arc α} {c : Court α} (hg : 0 < c.g) {turns : List α}
    (hturn : a.apex c.g ∈ turns) (w : Window α) : Tame (a.heightAt c.g) turns w :=
  (Tame.thrown hg.ne' hturn).congr fun t _ ↦ a.heightAt_eq c.g t

/-- The same arc some time later. -/
def later (a : Arc α) (s : α) : Arc α := { a with time := a.time + s }

theorem contact_later (a : Arc α) (c : Court α) (s : α) :
    (a.later s).contact c = a.contact c + s := by
  simp only [contact, later]
  ring

theorem rebound_later (a : Arc α) (c : Court α) (s hit : α) :
    (a.later s).rebound c (hit + s) = (a.rebound c hit).later s := by
  simp [rebound, later]

end Arc

namespace Court

variable {c : Court α}

theorem Rebounds.later {a : Arc α} {bs : List (Arc α)} (h : c.Rebounds a bs) (s : α) :
    c.Rebounds (a.later s) (bs.map (·.later s)) := by
  induction bs generalizing a with
  | nil => trivial
  | cons b bs ih =>
    obtain ⟨rfl, hbs⟩ := h
    refine ⟨?_, ih hbs⟩
    rw [Arc.contact_later, Arc.rebound_later]

variable (hg : 0 < c.g) (hk : 0 < c.kept)
include hg hk

/-- The height of a prop turns only at the tops of arcs and at contacts. -/
theorem tame_heightAt {a : Arc α} {bs : List (Arc α)} (hbs : c.Rebounds a bs) (ha : a.Flies c)
    {turns : List α} (hturns : ∀ b ∈ a :: bs, b.time ∈ turns ∧ b.apex c.g ∈ turns)
    (low high : α) :
    Tame (fun t ↦ max ((pieceAt Arc.time t a bs).heightAt c.g t) c.floor) turns ⟨low, high⟩ := by
  have hfirst (w : Window α) := (Arc.tame hg (hturns a List.mem_cons_self).2 w).max_const c.floor
  induction bs generalizing a low with
  | nil => exact hfirst _
  | cons b bs ih =>
    obtain ⟨rfl, hrest⟩ := hbs
    have hb := Arc.flies_rebound hg hk ha
    have hturns' := (List.forall_mem_cons.mp hturns).2
    have htime : (a.rebound c (a.contact c)).time = a.contact c := rfl
    refine Tame.switch (u := a.contact c) (hturns' _ List.mem_cons_self).1 (hfirst _)
      (ih hrest hb hturns' _ fun w ↦
        (Arc.tame hg (hturns' _ List.mem_cons_self).2 w).max_const c.floor) ?_
      (fun t ht ↦ by rw [pieceAt, htime, if_neg (not_le.mpr ht)])
      (fun t ht ↦ by rw [pieceAt, htime, if_pos ht])
    -- At a contact the prop is on the floor, from both sides.
    have hpiece : pieceAt Arc.time (a.contact c) (a.rebound c (a.contact c)) bs =
        a.rebound c (a.contact c) := pieceAt_time hg hrest hb
    rw [max_eq_right (Arc.heightAt_contact_le hg), hpiece, Arc.heightAt_eq]
    simp [Arc.rebound]

end Court

namespace Bounce

variable [Numeral α] {m : Modifier} {l : Launch α} {f : Bounce α} (hok : build m l = .ok f)
include hok

theorem exists_course : 0 < f.court.g ∧ 0 < f.court.kept ∧
    f.court.Rebounds f.course.first f.course.rebounds ∧ f.course.first.Flies f.court := by
  obtain ⟨aim, speed, course, hg, hkept, hstart, -, -, -, -, -, hcourse, rfl⟩ := build_ok hok
  obtain ⟨bs, hbs, rfl⟩ := Option.map_eq_some_iff.mp hcourse
  exact ⟨hg, hkept, (Court.rebounds_ok hbs).1.later _, .inl hstart⟩

theorem tame (w : Window α) (i : Axis) : Tame (fun t ↦ (f.position t).along i) f.turns w := by
  obtain ⟨hg, hk, hbs, ha⟩ := exists_course hok
  simp only [along_position]
  cases i with
  | x => exact Tame.straight _ _ _
  | y => exact Tame.straight _ _ _
  | z =>
    refine Court.tame_heightAt hg hk hbs ha (fun b hb ↦ ?_) w.low w.high
    constructor <;> exact List.mem_flatMap.mpr ⟨b, hb, by simp⟩

theorem tight : Tight f.position f.launch.range f.extreme :=
  Tight.of_decides fun w _ hle _ ↦ Decides.of_turns hle (tame hok w)

end Bounce

theorem Flight.tight [Numeral α] {kind : ThrowKind} {modifier : String} {l : Launch α}
    {f : Flight α} (hok : build kind modifier l = .ok f) : Tight f.position f.range f.extreme := by
  obtain ⟨-, ⟨g, rfl⟩ | ⟨b, rfl, hb⟩⟩ := build_cases hok
  · exact (Toss.ofLaunch g l).tight
  · exact Bounce.tight hb

/-- A motion over its range with its answers for windows, in one of the ways to make one. -/
inductive Made : (α → Coordinate α) → Window α →
    (Extreme → Window α → Option (Coordinate α)) → Prop
  | line {positions : List (Coordinate α)} {times : List α} {v w : Option (Coordinate α)}
      {k : Knots α} {c : Line α} (hk : Knots.ofLists positions times v w = .ok k)
      (hc : Curve.ofKnots k = .ok c) : Made (Curve.position c) k.range (Curve.extreme c)
  | spline {positions : List (Coordinate α)} {times : List α} {v w : Option (Coordinate α)}
      {k : Knots α} {c : Spline α} (hk : Knots.ofLists positions times v w = .ok k)
      (hc : Curve.ofKnots k = .ok c) (hsharp : ∀ p ∈ c.first :: c.rest, p.Sharp) :
      Made (Curve.position c) k.range (Curve.extreme c)
  | flight [Numeral α] {kind : ThrowKind} {modifier : String} {l : Launch α} {f : Flight α}
      (hf : Flight.build kind modifier l = .ok f) : Made f.position f.range f.extreme

end

theorem Cubic.rooted_real (p : Cubic ℝ) : p.Rooted := fun _ h ↦ Real.mul_self_sqrt h

/-- However a motion of real numbers is made, its answers for windows are its extremes there. -/
theorem Made.answers_tight {position : ℝ → Coordinate ℝ} {range : Window ℝ}
    {extreme : Extreme → Window ℝ → Option (Coordinate ℝ)} (h : Made position range extreme) :
    Tight position range extreme := by
  cases h with
  | line hk hc =>
    obtain rfl := Except.ok.inj hc
    obtain ⟨htimes, -, hsorted, -⟩ := Knots.ofLists_ok hk
    exact Line.tight (htimes ▸ hsorted)
  | spline hk hc hsharp =>
    obtain ⟨htimes, -, hsorted, -⟩ := Knots.ofLists_ok hk
    exact Spline.tight hc (htimes ▸ hsorted) fun p hp ↦ ⟨hsharp p hp, p.rooted_real⟩
  | flight hf => exact Flight.tight hf

/-- Up, down below the start, and up to it again. -/
noncomputable def Knots.wave : Knots ℝ where
  first := ⟨0, ⟨0, 0, 0⟩⟩
  second := ⟨1, ⟨0, 0, 0⟩⟩
  rest := []
  startVelocity := some ⟨0, 0, 1⟩
  endVelocity := some ⟨0, 0, 1⟩

theorem Made.answers_tight_wave : ∃ c : Spline ℝ,
    Made (Curve.position c) Knots.wave.range (Curve.extreme c) ∧
      Tight c.position ⟨0, 1⟩ c.extreme := by
  have hk : Knots.ofLists [⟨0, 0, 0⟩, ⟨0, 0, 0⟩] [0, 1] (some ⟨0, 0, 1⟩) (some ⟨0, 0, 1⟩) =
      .ok Knots.wave := by
    simp [Knots.ofLists, Knots.firstDecrease?, Knots.wave]
  obtain ⟨c, hc⟩ := Spline.exists_ofKnots Knots.wave
  have hsharp : ∀ p ∈ c.first :: c.rest, p.Sharp := by
    obtain ⟨a, b, ns, hknots, hvelocities, rfl⟩ := Spline.exists_pieces hc
    obtain ⟨hhead, hlast⟩ := (Spline.ends_velocities Knots.wave).1 _ _ rfl rfl
    simp only [Knots.toList, Knots.wave, List.map_cons, List.cons.injEq, List.map_eq_nil_iff]
      at hknots
    obtain ⟨ha, hb, rfl⟩ := hknots
    rw [← hvelocities] at hhead hlast
    obtain hv : a.2 = _ := Option.some.inj hhead
    obtain hw : b.2 = _ := Option.some.inj hlast
    intro p hp i
    obtain rfl := List.mem_singleton.mp hp
    rw [ha, hb, hv, hw]
    simp only [Cubic.Distinct, Cubic.squareRate_eq, Cubic.linearRate_eq, Cubic.hermite,
      Coordinate.along_smul, Coordinate.along_add, Coordinate.along_sub, Scalar.ofNat_eq,
      Cubic.negligible_eq]
    cases i <;> norm_num [Coordinate.along]
  have hmade : Made (Curve.position c) Knots.wave.range (Curve.extreme c) :=
    .spline hk hc hsharp
  exact ⟨c, hmade, answers_tight hmade⟩

end Juggling
