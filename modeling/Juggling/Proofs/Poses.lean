import Juggling.Proofs.Arms

namespace Juggling

/-- A direction turned about the vertical axis by an angle in degrees, from `x` towards `y`. -/
noncomputable def Coordinate.turned (v : Coordinate ℝ) (angle : ℝ) : Coordinate ℝ :=
  let a := angle * (Real.pi / 180)
  ⟨v.x * Real.cos a - v.y * Real.sin a, v.x * Real.sin a + v.y * Real.cos a, v.z⟩

section Values

variable {α : Type} [Exact α]

/-- How far along `x` something at the side of a hand is. -/
def Hand.side (hand : Hand) (distance : α) : α :=
  match hand with
  | .left => -distance
  | .right => distance

theorem Rotation.apply_ofDegrees (v : Coordinate α) (angle : α) :
    (ofDegrees angle).apply v = if angle * (Scalar.pi / 180) = 0 then v else
      ⟨v.x * Scalar.cos (angle * (Scalar.pi / 180)) - v.y * Scalar.sin (angle * (Scalar.pi / 180)),
        v.x * Scalar.sin (angle * (Scalar.pi / 180)) +
          v.y * Scalar.cos (angle * (Scalar.pi / 180)), v.z⟩ := by
  have hradians : Scalar.radians angle = angle * (Scalar.pi / 180) := by
    simp only [Scalar.radians, Scalar.ofNat_eq]
    norm_num
  simp only [ofDegrees, hradians, Scalar.beq_iff, Scalar.ofNat_eq, Nat.cast_zero, Nat.cast_one]
  split_ifs with h
  · simp [apply, identity, Coordinate.dot]
  · simp only [apply, Coordinate.dot, Coordinate.mk.injEq]
    refine ⟨by ring, by ring, by ring⟩

theorem Pose.landmark_eq (hand : Hand) (distance height : α) :
    landmark hand distance height = ⟨hand.side distance, 0, height⟩ := by
  cases hand <;> simp [landmark, Hand.side]

/-- The sizes of a body. -/
theorem Pose.sizes : (shoulderHalfWidth : α) = 23 ∧ (shoulderHeight : α) = 40 ∧
    (waistHalfWidth : α) = 17 ∧ (waistHeight : α) = -5 ∧ (headHalfWidth : α) = 10 ∧
    (shoulderHeight : α) + neckHeight = 45 ∧
    (shoulderHeight : α) + neckHeight + headHeight = 71 := by
  simp only [shoulderHalfWidth, shoulderHeight, waistHalfWidth, waistHeight, headHalfWidth,
    neckHeight, headHeight, Scalar.ofNat_eq]
  norm_num

namespace Pose

/-- The arm at one side, or how far its hand is out of reach. -/
def armAt (juggler : ℕ) (p : Placement α) (hands : Hands (Coordinate α)) (hand : Hand) :
    Except (InternalError α) (Arm α) :=
  let shoulder := p.locate (landmark hand shoulderHalfWidth shoulderHeight)
  match elbow? shoulder (hands.get hand) (Placement.rotate (landmark hand 1 0) p.angle) with
  | some elbow => .ok ⟨shoulder, elbow, hands.get hand⟩
  | none => .error (.unreachableHand juggler hand (shoulder.distance (hands.get hand)))

/-- A pose with given arms. -/
def withArms (p : Placement α) (left right : Arm α) : Pose α where
  arms := ⟨left, right⟩
  waist := .ofFn fun hand ↦ p.locate (landmark hand waistHalfWidth waistHeight)
  headBottom := .ofFn fun hand ↦
    p.locate (landmark hand headHalfWidth (shoulderHeight + neckHeight))
  headTop := .ofFn fun hand ↦
    p.locate (landmark hand headHalfWidth (shoulderHeight + neckHeight + headHeight))

theorem solve_eq (juggler : ℕ) (p : Placement α) (hands : Hands (Coordinate α)) :
    solve juggler p hands = (do
      let left ← armAt juggler p hands .left
      let right ← armAt juggler p hands .right
      return withArms p left right) := by
  have hone : @OfNat.ofNat α 1 (Scalar.instOfNat 1) = 1 := by simp
  have hzero : @OfNat.ofNat α 0 (Scalar.instOfNat 0) = 0 := by simp
  unfold solve
  simp only [Coordinate.isFinite, Scalar.isFinite_eq, hone, hzero, Bool.and_self, Bool.not_true,
    Bool.or_self, Bool.false_eq_true, if_false]
  rfl

end Pose

end Values

namespace Placement

variable (p : Placement ℝ)

/-- A point of a body so far to one side and so high, in space. -/
noncomputable def point (hand : Hand) (distance height : ℝ) : Coordinate ℝ :=
  p.place + Coordinate.turned ⟨hand.side distance, 0, height⟩ p.angle

theorem rotate_eq (v : Coordinate ℝ) (angle : ℝ) : rotate v angle = v.turned angle := by
  have hpi : (Scalar.pi : ℝ) = Real.pi := rfl
  rw [rotate, Rotation.apply_ofDegrees, hpi]
  split_ifs with h
  · simp only [Coordinate.turned, h, Real.cos_zero, Real.sin_zero, mul_one, mul_zero, sub_zero,
      zero_add]
  · rfl

theorem locate_landmark (hand : Hand) (distance height : ℝ) :
    p.locate (Pose.landmark hand distance height) = p.point hand distance height := by
  rw [locate, rotate_eq, Pose.landmark_eq, point]

theorem locate_shoulder (hand : Hand) :
    p.locate (Pose.landmark hand Pose.shoulderHalfWidth Pose.shoulderHeight) =
      p.point hand 23 40 := by
  obtain ⟨hwidth, hheight, -⟩ := Pose.sizes (α := ℝ)
  rw [locate_landmark, hwidth, hheight]

/-- Whether a hand is neither too far from its shoulder nor too near to it. -/
def Reaches (hands : Hands (Coordinate ℝ)) (hand : Hand) : Prop :=
  Pose.upperLength - Pose.lowerLength ≤ (p.point hand 23 40).distance (hands.get hand) ∧
    (p.point hand 23 40).distance (hands.get hand) ≤ Pose.upperLength + Pose.lowerLength

end Placement

namespace Pose

/-- Whether a pose has the body where a juggler stands, turned as he faces, and arms with links of
full length from the shoulders to the hands. -/
structure Solves (p : Placement ℝ) (hands : Hands (Coordinate ℝ)) (pose : Pose ℝ) : Prop where
  shoulder : ∀ hand, (pose.arms.get hand).shoulder = p.point hand 23 40
  upper : ∀ hand, (pose.arms.get hand).shoulder.distance (pose.arms.get hand).elbow = upperLength
  lower : ∀ hand, (pose.arms.get hand).elbow.distance (pose.arms.get hand).hand = lowerLength
  hand : ∀ hand, (pose.arms.get hand).hand = hands.get hand
  waist : ∀ hand, pose.waist.get hand = p.point hand 17 (-5)
  headBottom : ∀ hand, pose.headBottom.get hand = p.point hand 10 45
  headTop : ∀ hand, pose.headTop.get hand = p.point hand 10 71

theorem reaches_iff {p : Placement ℝ} {hands : Hands (Coordinate ℝ)} {hand : Hand} :
    p.Reaches hands hand ↔ 1 ≤ (p.point hand 23 40).distance (hands.get hand) ∧
      (p.point hand 23 40).distance (hands.get hand) ≤ 81 := by
  rw [Placement.Reaches, upperLength_eq, lowerLength_eq]
  norm_num

/-- Directions to the side keep their length and stay level when a body turns. -/
theorem rotate_side (hand : Hand) (angle : ℝ) :
    let outward := Placement.rotate (landmark hand (1 : ℝ) 0) angle
    outward.dot outward = 1 ∧ outward.z = 0 := by
  intro outward
  have hturn := Real.sin_sq_add_cos_sq (angle * (Real.pi / 180))
  have houtward : outward = Coordinate.turned ⟨hand.side 1, 0, 0⟩ angle := by
    simp only [outward, Placement.rotate_eq, landmark_eq]
  rw [houtward]
  refine ⟨?_, rfl⟩
  cases hand <;> simp only [Coordinate.turned, Coordinate.dot, Hand.side] <;>
    linear_combination hturn

theorem armAt_of_reaches (juggler : ℕ) {p : Placement ℝ} {hands : Hands (Coordinate ℝ)}
    {hand : Hand} (h : p.Reaches hands hand) : ∃ arm, armAt juggler p hands hand = .ok arm ∧
      arm.shoulder = p.point hand 23 40 ∧ arm.hand = hands.get hand ∧
      arm.shoulder.distance arm.elbow = upperLength ∧
      arm.elbow.distance arm.hand = lowerLength := by
  obtain ⟨hlow, hhigh⟩ := reaches_iff.mp h
  obtain ⟨hout, hlevel⟩ := rotate_side hand p.angle
  obtain ⟨elbow, hfound, hupper, hlower⟩ := elbow?_of_reach hout hlevel hlow hhigh
  refine ⟨⟨p.point hand 23 40, elbow, hands.get hand⟩, ?_, rfl, rfl, ?_, ?_⟩
  · simp only [armAt, Placement.locate_shoulder, hfound]
  · rw [upperLength_eq, hupper]
  · rw [lowerLength_eq, hlower]

theorem armAt_of_not_reaches (juggler : ℕ) {p : Placement ℝ} {hands : Hands (Coordinate ℝ)}
    {hand : Hand} (h : ¬p.Reaches hands hand) : armAt juggler p hands hand =
      .error (.unreachableHand juggler hand ((p.point hand 23 40).distance (hands.get hand))) := by
  rw [reaches_iff, not_and_or, not_le, not_le, Coordinate.distance_comm] at h
  simp only [armAt, Placement.locate_shoulder, elbow?_eq_none h]

theorem withArms_solves {p : Placement ℝ} {hands : Hands (Coordinate ℝ)} (arms : Hands (Arm ℝ))
    (h : ∀ hand, (arms.get hand).shoulder = p.point hand 23 40 ∧
      (arms.get hand).hand = hands.get hand ∧
      (arms.get hand).shoulder.distance (arms.get hand).elbow = upperLength ∧
      (arms.get hand).elbow.distance (arms.get hand).hand = lowerLength) :
    Solves p hands (withArms p arms.left arms.right) := by
  obtain ⟨-, -, hwaist, hlow, hhead, hbottom, htop⟩ := sizes (α := ℝ)
  have hmark {width height w z : ℝ} (hw : width = w) (hz : height = z) (hand : Hand) :
      (Hands.ofFn fun hand ↦ p.locate (landmark hand width height)).get hand =
        p.point hand w z := by
    subst hw hz
    cases hand <;> exact p.locate_landmark _ _ _
  exact {
    shoulder := fun hand ↦ (h hand).1
    upper := fun hand ↦ (h hand).2.2.1
    lower := fun hand ↦ (h hand).2.2.2
    hand := fun hand ↦ (h hand).2.1
    waist := hmark hwaist hlow
    headBottom := hmark hhead hbottom
    headTop := hmark hhead htop }

/-- A pose is found just when both hands are within reach, and it is right then. Otherwise a hand
out of reach is reported, the left one first, with its distance from the shoulder. -/
theorem solve_exact (juggler : ℕ) (p : Placement ℝ) (hands : Hands (Coordinate ℝ)) :
    ((∃ pose, solve juggler p hands = .ok pose) ↔ ∀ hand, p.Reaches hands hand) ∧
    (∀ pose, solve juggler p hands = .ok pose → Solves p hands pose) ∧
    (¬p.Reaches hands .left → solve juggler p hands =
      .error (.unreachableHand juggler .left ((p.point .left 23 40).distance hands.left))) ∧
    (p.Reaches hands .left → ¬p.Reaches hands .right → solve juggler p hands =
      .error (.unreachableHand juggler .right ((p.point .right 23 40).distance hands.right))) := by
  have hleft (h : ¬p.Reaches hands .left) : solve juggler p hands =
      .error (.unreachableHand juggler .left ((p.point .left 23 40).distance hands.left)) := by
    rw [solve_eq, armAt_of_not_reaches juggler h]
    rfl
  have hright (h : p.Reaches hands .left) (h' : ¬p.Reaches hands .right) :
      solve juggler p hands =
        .error (.unreachableHand juggler .right ((p.point .right 23 40).distance hands.right)) := by
    obtain ⟨left, hok, -⟩ := armAt_of_reaches juggler h
    rw [solve_eq, hok, armAt_of_not_reaches juggler h']
    rfl
  have hboth (h : ∀ hand, p.Reaches hands hand) :
      ∃ pose, solve juggler p hands = .ok pose ∧ Solves p hands pose := by
    obtain ⟨left, hok, hleft⟩ := armAt_of_reaches juggler (h .left)
    obtain ⟨right, hok', hright⟩ := armAt_of_reaches juggler (h .right)
    refine ⟨withArms p left right, ?_,
      withArms_solves ⟨left, right⟩ fun hand ↦ by cases hand <;> assumption⟩
    rw [solve_eq, hok, hok']
    rfl
  have hreach {pose : Pose ℝ} (hok : solve juggler p hands = .ok pose) :
      ∀ hand, p.Reaches hands hand := by
    by_contra hnot
    by_cases h : p.Reaches hands .left
    · have h' : ¬p.Reaches hands .right := fun h' ↦ hnot fun hand ↦ by cases hand <;> assumption
      rw [hright h h'] at hok
      cases hok
    · rw [hleft h] at hok
      cases hok
  refine ⟨⟨fun ⟨pose, hok⟩ ↦ hreach hok, fun h ↦ ?_⟩, fun pose hok ↦ ?_, hleft, hright⟩
  · obtain ⟨pose, hok, -⟩ := hboth h
    exact ⟨pose, hok⟩
  · obtain ⟨pose', hok', hsolves⟩ := hboth (hreach hok)
    rw [hok, Except.ok.injEq] at hok'
    rwa [hok']

/-- In the middle, at the height where jugglers stand, and facing along `y`. -/
noncomputable def standing : Placement ℝ := ⟨⟨0, 0, 100⟩, 0⟩

theorem distance_standing (hand : Hand) (x y z : ℝ) :
    (standing.point hand 23 40).distance ⟨x, y, z⟩ =
      √((hand.side 23 - x) * (hand.side 23 - x) + y * y + (140 - z) * (140 - z)) := by
  have hturned : Coordinate.turned ⟨hand.side 23, 0, 40⟩ 0 = ⟨hand.side 23, 0, 40⟩ := by
    simp only [Coordinate.turned, zero_mul, Real.cos_zero, Real.sin_zero, mul_one, mul_zero,
      sub_zero, add_zero]
  rw [Placement.point, show standing.angle = 0 from rfl, hturned, Coordinate.distance,
    Coordinate.length_eq]
  refine congrArg Real.sqrt ?_
  show (0 + hand.side 23 - x) * (0 + hand.side 23 - x) + (0 + 0 - y) * (0 + 0 - y) +
    (100 + 40 - z) * (100 + 40 - z) = _
  ring

theorem solve_exact_standing :
    (∃ pose, solve 1 standing ⟨⟨-25, 30, 100⟩, ⟨25, 30, 100⟩⟩ = .ok pose) ∧
    solve 1 standing ⟨⟨-25, 30, 100⟩, ⟨300, 0, 100⟩⟩ =
      .error (.unreachableHand 1 .right
        ((standing.point .right 23 40).distance ⟨300, 0, 100⟩)) := by
  have hnear (hand : Hand) (x : ℝ) (hx : (hand.side 23 - x) * (hand.side 23 - x) = 4) :
      1 ≤ (standing.point hand 23 40).distance ⟨x, 30, 100⟩ ∧
        (standing.point hand 23 40).distance ⟨x, 30, 100⟩ ≤ 81 := by
    rw [distance_standing, hx]
    exact ⟨Real.le_sqrt_of_sq_le (by norm_num), Real.sqrt_le_iff.mpr (by norm_num)⟩
  have hleft := hnear .left (-25) (by norm_num [Hand.side])
  have hright := hnear .right 25 (by norm_num [Hand.side])
  have hfar : 81 < (standing.point .right 23 40).distance ⟨300, 0, 100⟩ := by
    rw [distance_standing]
    exact Real.lt_sqrt_of_sq_lt (by norm_num [Hand.side])
  refine ⟨(solve_exact 1 standing _).1.mpr fun hand ↦ ?_,
    (solve_exact 1 standing _).2.2.2 (reaches_iff.mpr hleft) fun h ↦ ?_⟩
  · cases hand
    · exact reaches_iff.mpr hleft
    · exact reaches_iff.mpr hright
  · exact absurd (reaches_iff.mp h).2 (not_le.mpr hfar)

end Pose

end Juggling
