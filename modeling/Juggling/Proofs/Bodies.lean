import Juggling.Pattern.Query
import Juggling.Proofs.Boxes

namespace Juggling

variable {α : Type} [Exact α]

namespace Placement

/-- Whether a turn by the angle carries nothing further away along any axis. -/
def Turns (p : Placement α) : Prop :=
  |Scalar.cos (Scalar.radians p.angle)| ≤ 1 ∧ |Scalar.sin (Scalar.radians p.angle)| ≤ 1

theorem turns_real (p : Placement ℝ) : p.Turns := ⟨Real.abs_cos_le_one _, Real.abs_sin_le_one _⟩

variable {p : Placement α} (hturns : p.Turns) (hand : Hand)
include hturns

/-- A turn about the vertical axis keeps the height of a point at one side, and does not carry it
further away from the axis. -/
theorem rotate_landmark {halfWidth : α} (hw : 0 ≤ halfWidth) (height : α) :
    |(rotate (Pose.landmark hand halfWidth height) p.angle).x| ≤ halfWidth ∧
      |(rotate (Pose.landmark hand halfWidth height) p.angle).y| ≤ halfWidth ∧
      (rotate (Pose.landmark hand halfWidth height) p.angle).z = height := by
  obtain ⟨hcos, hsin⟩ := hturns
  have hbound {k : α} (hk : |k| ≤ 1) : |k| * halfWidth ≤ halfWidth :=
    mul_le_of_le_one_left hw hk
  simp only [rotate, Rotation.ofDegrees, Rotation.apply]
  split_ifs with h
  · cases hand <;>
      simp [Rotation.identity, Coordinate.dot, Pose.landmark, abs_of_nonneg hw, hw]
  · cases hand <;>
      simp [Coordinate.dot, Pose.landmark, abs_mul, abs_of_nonneg hw, hbound hcos, hbound hsin]

end Placement

namespace Pose

theorem bodyExtent_eq : (bodyExtent : Coordinate α × Coordinate α) =
    (⟨-23, -23, -5⟩, ⟨23, 23, 71⟩) := by
  have hmax : max (23 : α) 17 = 23 := max_eq_left (by norm_num)
  have htop : (40 : α) + 5 + 26 = 71 := by norm_num
  simp only [bodyExtent, shoulderHalfWidth, waistHalfWidth, shoulderHeight, neckHeight,
    headHeight, waistHeight, Scalar.larger_eq, Scalar.ofNat_eq]
  push_cast
  rw [hmax, htop]

/-- How far from the axis of a body, and how high, its landmarks are. -/
def marks : List (α × α) :=
  [(shoulderHalfWidth, shoulderHeight), (waistHalfWidth, waistHeight),
    (headHalfWidth, shoulderHeight + neckHeight),
    (headHalfWidth, shoulderHeight + neckHeight + headHeight)]

theorem marks_within {w h : α} (hmem : (w, h) ∈ marks) : 0 ≤ w ∧ w ≤ 23 ∧ -5 ≤ h ∧ h ≤ 71 := by
  simp only [marks, List.mem_cons, Prod.mk.injEq, List.not_mem_nil, or_false, shoulderHalfWidth,
    shoulderHeight, waistHalfWidth, waistHeight, headHalfWidth, neckHeight, headHeight,
    Scalar.ofNat_eq] at hmem
  push_cast at hmem
  rcases hmem with ⟨rfl, rfl⟩ | ⟨rfl, rfl⟩ | ⟨rfl, rfl⟩ | ⟨rfl, rfl⟩ <;> norm_num

/-- The shoulders, the waist and the head. -/
def landmarks (p : Pose α) : List (Coordinate α) :=
  [⟨p.arms.left.shoulder, p.arms.right.shoulder⟩, p.waist, p.headBottom, p.headTop].flatMap
    fun sides : Hands (Coordinate α) ↦ [sides.left, sides.right]

theorem mem_landmarks {j : ℕ} {p : Placement α} {hands : Hands (Coordinate α)} {x : Pose α}
    (hok : solve j p hands = .ok x) {c : Coordinate α} (hc : c ∈ x.landmarks) :
    ∃ hand w h, (w, h) ∈ marks ∧ c = p.locate (landmark hand w h) := by
  unfold solve at hok
  simp only at hok
  split_ifs at hok
  · cases hok
  obtain ⟨left, hleft, hok⟩ := bind_eq_ok.mp hok
  obtain ⟨right, hright, hok⟩ := bind_eq_ok.mp hok
  obtain rfl := pure_eq_ok.mp hok
  split at hleft <;> cases hleft
  split at hright <;> cases hright
  simp only [landmarks, List.flatMap_cons, List.flatMap_nil, List.append_nil, List.cons_append,
    List.nil_append, List.mem_cons, List.not_mem_nil, or_false] at hc
  rcases hc with rfl | rfl | rfl | rfl | rfl | rfl | rfl | rfl <;>
    exact ⟨_, _, _, by simp [marks], rfl⟩

end Pose

namespace Extreme

/-- The corner of the box around the bodies at some places, given that of the box around the
places. -/
def around (e : Extreme) (corner : Coordinate α) : Coordinate α :=
  match e with
  | .highest => corner + Pose.bodyExtent.2
  | .lowest => corner + Pose.bodyExtent.1

theorem Within.add {e : Extreme} {b b' c c' : Coordinate α} (h : e.Within b c)
    (h' : e.Within b' c') : e.Within (b + b') (c + c') := by
  cases e <;>
  · intro i
    rw [Coordinate.along_add, Coordinate.along_add]
    exact add_le_add (h i) (h' i)

theorem within_around {e : Extreme} {b : Coordinate α} {p : Placement α} (hturns : p.Turns)
    (hb : e.Within b p.place) (hand : Hand) {w h : α} (hmem : (w, h) ∈ Pose.marks) :
    e.Within (e.around b) (p.locate (Pose.landmark hand w h)) := by
  obtain ⟨hw, hw', hh, hh'⟩ := Pose.marks_within hmem
  obtain ⟨hx, hy, hz⟩ := Placement.rotate_landmark hturns hand hw h
  rw [abs_le] at hx hy
  cases e with
  | highest =>
    refine Within.add hb fun i ↦ ?_
    rw [Pose.bodyExtent_eq]
    cases i with
    | x => exact hx.2.trans hw'
    | y => exact hy.2.trans hw'
    | z => exact hz.trans_le hh'
  | lowest =>
    refine Within.add hb fun i ↦ ?_
    rw [Pose.bodyExtent_eq]
    cases i with
    | x => exact (neg_le_neg hw').trans hx.1
    | y => exact (neg_le_neg hw').trans hy.1
    | z => exact hh.trans_eq hz.symm

end Extreme

theorem Numbered.get?_eq_none {β : Type} {v : Numbered β} {i : ℕ} (h : ¬(1 ≤ i ∧ i ≤ v.size)) :
    v.get? i = none := by
  cases i with
  | zero => rfl
  | succ i =>
    rw [not_and, not_le] at h
    exact Array.getElem?_eq_none (Nat.lt_succ_iff.mp (h (Nat.succ_pos i)))

namespace Track

variable {j n : ℕ} {positions : List (Position α)} {loop : Window α} {k : Track α}

/-- A juggler stands, or follows a solved curve that takes one loop. -/
theorem build_cases (hok : build j n positions loop = .ok k) : (∃ p, k = .standing p) ∨
    ∃ start s angle, k = .moving start (loop.high - loop.low) s angle ∧
      Spline.ofKnots s.knots = .ok s ∧ (s.knots.toList.map Knot.time).Pairwise (· < ·) ∧
      s.knots.range = ⟨start, start + (loop.high - loop.low)⟩ := by
  unfold build at hok
  split at hok
  · exact .inl ⟨_, (Except.ok.inj hok).symm⟩
  · exact .inl ⟨_, (Except.ok.inj hok).symm⟩
  · rename_i first second rest _
    obtain ⟨knots, hknots, hok⟩ := bind_eq_ok.mp hok
    obtain ⟨s, hs, hok⟩ := bind_eq_ok.mp hok
    obtain ⟨turns, -, hk⟩ := bind_eq_ok.mp hok
    obtain rfl := Spline.knots_ofKnots hs
    obtain ⟨htimes, -, hsorted, -⟩ := Knots.ofLists_ok hknots
    have hlow := s.knots.low_range
    have hhigh := s.knots.high_range
    rw [htimes] at hlow hhigh
    rw [List.getLast?_concat, Option.some.injEq] at hhigh
    refine .inr ⟨first.time, s, ⟨turns⟩, (Except.ok.inj hk).symm, hs, htimes ▸ hsorted, ?_⟩
    rw [hhigh]
    exact congrArg (Window.mk · _) (Option.some.inj hlow).symm

/-- The box around a way contains all places on it. -/
theorem within_bound (hok : build j n positions loop = .ok k) (hpos : 0 < loop.high - loop.low)
    (hcurve : ∀ start period s angle, k = .moving start period s angle →
      ∀ q ∈ s.first :: s.rest, q.Sharp ∧ q.Rooted)
    {e : Extreme} {b : Coordinate α} (hb : k.bound? e = some b) (t : α) :
    e.Within b (k.place t) := by
  obtain ⟨p, rfl⟩ | ⟨start, s, angle, rfl, hs, hsorted, hrange⟩ := build_cases hok
  · obtain rfl := Option.some.inj hb
    exact (Extreme.IsOf.singleton p.place).within rfl
  · refine Extreme.IsOf.within ((Spline.tight hs hsorted (hcurve _ _ s _ rfl) e _).2 b hb)
      ⟨_, ?_, rfl⟩
    rw [Set.inter_self, hrange]
    exact ⟨le_add_of_nonneg_right (Scalar.remainder_nonneg _ hpos),
      add_le_add_right (Scalar.remainder_lt _ hpos).le _⟩

end Track

namespace Layout

variable [Numeral α] {d : Declarations α} {l : Layout α}

/-- What holds of the numbers of any layout when they are real: those under roots are the squares
of the roots, and no sine or cosine exceeds one. -/
structure Genuine (l : Layout α) : Prop where
  rooted : ∀ s, l.HasCurve s → ∀ q ∈ s.first :: s.rest, q.Rooted
  turns : ∀ j t, (l.placement j t).Turns

theorem genuine_real (l : Layout ℝ) : l.Genuine :=
  ⟨fun _ _ q _ ↦ q.rooted_real, fun _ _ ↦ Placement.turns_real _⟩

/-- Without declared positions everyone stands at his default place. -/
theorem IsBuilt.track_of_nil (h : IsBuilt d l) (hnil : d.positions = []) (j : ℕ) :
    l.track j = .standing (.default j d.jugglers) := by
  obtain ⟨tracks, htracks, heq⟩ := bind_eq_ok.mp h.tracks
  by_cases hj : 1 ≤ j ∧ j ≤ d.jugglers
  · obtain ⟨k, hget, hk⟩ := Numbered.get?_of_mapM htracks hj
    rw [pure_eq_ok.mp heq] at hget
    simp only [hnil, List.filter_nil, Track.build, Track.used, Track.sorted, List.foldl_nil,
      List.mergeSort_nil] at hk
    exact (Numbered.getD_of_get? hget).trans (Except.ok.inj hk).symm
  · have hsize : l.tracks.size = d.jugglers := by
      have hlength := (mapM_eq_ok.mp htracks).length_eq
      rw [List.length_range'] at hlength
      rw [← pure_eq_ok.mp heq, hlength]
      rfl
    rw [track, Numbered.getD, Numbered.get?_eq_none (hsize ▸ hj), hsize]
    rfl

/-- The box around all places where a juggler stands contains each of them. -/
theorem IsBuilt.within_track (h : IsBuilt d l)
    (hperms : ∀ s ∈ d.symmetries, s.jugglers.Rearranges ∧ s.paths.Rearranges)
    (hcurves : ∀ s, l.HasCurve s → ∀ q ∈ s.first :: s.rest, q.Sharp ∧ q.Rooted) {j : ℕ}
    (hj : 1 ≤ j ∧ j ≤ d.jugglers) {e : Extreme} {b : Coordinate α}
    (hb : l.bodyExtreme e j = .ok b) (t : α) : e.Within b (l.placement j t).place := by
  have hpos : 0 < l.loop.high - l.loop.low := sub_pos.mpr (h.low_lt_high hperms)
  obtain ⟨tracks, htracks, heq⟩ := bind_eq_ok.mp h.tracks
  obtain ⟨k, hget, hk⟩ := Numbered.get?_of_mapM htracks hj
  rw [pure_eq_ok.mp heq] at hget
  obtain rfl : l.track j = k := Numbered.getD_of_get? hget
  refine Track.within_bound hk hpos (fun start period s angle hway ↦ hcurves s (.way hway)) ?_ _
  unfold bodyExtreme at hb
  split at hb
  · rename_i c hc
    exact hc.trans (congrArg some (Except.ok.inj hb))
  · cases hb

end Layout

end Juggling
