import Juggling.Pose
import Juggling.Proofs.Outcome
import Juggling.Proofs.Smooth

namespace Juggling

namespace Coordinate

section Dot

variable {α : Type} [Exact α] (a b c : Coordinate α) (k : α)

theorem dot_comm : a.dot b = b.dot a := by
  simp only [dot]
  ring

theorem dot_add : a.dot (b + c) = a.dot b + a.dot c := by
  show a.x * (b.x + c.x) + a.y * (b.y + c.y) + a.z * (b.z + c.z) = _
  simp only [dot]
  ring

theorem dot_sub : a.dot (b - c) = a.dot b - a.dot c := by
  show a.x * (b.x - c.x) + a.y * (b.y - c.y) + a.z * (b.z - c.z) = _
  simp only [dot]
  ring

theorem dot_smul : a.dot (k • b) = k * a.dot b := by
  show a.x * (k * b.x) + a.y * (k * b.y) + a.z * (k * b.z) = _
  simp only [dot]
  ring

theorem dot_self_nonneg : 0 ≤ a.dot a := by
  simp only [dot]
  exact add_nonneg (add_nonneg (mul_self_nonneg _) (mul_self_nonneg _)) (mul_self_nonneg _)

end Dot

variable (a b : Coordinate ℝ)

theorem length_eq : a.length = √(a.dot a) := rfl

theorem length_nonneg : 0 ≤ a.length := Real.sqrt_nonneg _

theorem length_mul_self : a.length * a.length = a.dot a := Real.mul_self_sqrt a.dot_self_nonneg

theorem distance_comm : a.distance b = b.distance a := by
  simp only [distance, length_eq, dot_sub, dot_comm (a - b), dot_comm (b - a)]
  congr 1
  ring

variable {a} in
theorem length_of_dot_self {r : ℝ} (hr : 0 ≤ r) (h : a.dot a = r * r) : a.length = r := by
  rw [length_eq, h, Real.sqrt_mul_self hr]

end Coordinate

namespace Pose

section Values

variable {α : Type} [Exact α]

theorem shortest_eq : (shortest : α) = 1 / 10 ^ 9 := by
  unfold shortest
  simp only [OfScientific.ofScientific, Scalar.ofDecimal]
  simp

theorem upperLength_eq : (upperLength : α) = 41 := by simp [upperLength]

theorem lowerLength_eq : (lowerLength : α) = 40 := by simp [lowerLength]

theorem divide_dot (v w : Coordinate α) (k : α) : (divide v k).dot w = v.dot w / k := by
  simp only [divide, Coordinate.map, Coordinate.dot]
  ring

theorem clamp_of_mem {low high x : α} (hlow : low ≤ x) (hhigh : x ≤ high) :
    Scalar.clamp low high x = x := by
  rw [Scalar.clamp, if_neg (not_lt.mpr hlow), if_neg (not_lt.mpr hhigh)]

section Reach

variable {shoulder hand outward : Coordinate α}

theorem elbow?_eq_none (h : (hand - shoulder).length < 1 ∨ 81 < (hand - shoulder).length) :
    elbow? shoulder hand outward = none := by
  have hsum : (41 : α) + 40 = 81 := by norm_num
  have hdiff : |(41 : α) - 40| = 1 := by norm_num
  simp only [elbow?, upperLength_eq, lowerLength_eq, Scalar.abs_eq, Scalar.isFinite_eq, hsum, hdiff]
  rcases h with h | h <;> simp [h]

/-- The cosine of the angle at the shoulder when the hand is so far away. -/
def cosine (d : α) : α := (81 + d * d) / (82 * d)

/-- Within reach the cosine is not out of range. -/
theorem cosine_mem {d : α} (hlow : 1 ≤ d) (hhigh : d ≤ 81) : -1 ≤ cosine d ∧ cosine d ≤ 1 := by
  have hpos : 0 < 82 * d := by linarith
  rw [cosine, le_div_iff₀ hpos, div_le_iff₀ hpos]
  constructor <;> nlinarith

theorem elbow?_eq_map (hlow : 1 ≤ (hand - shoulder).length)
    (hhigh : (hand - shoulder).length ≤ 81) :
    let d := (hand - shoulder).length
    let u := divide (hand - shoulder) d
    elbow? shoulder hand outward =
      (([outward + ⟨0, 0, -1⟩, ⟨0, 0, -1⟩, outward].map (square u)).find? fun w ↦
        shortest < w.length).map fun bend ↦ shoulder + (41 : α) • (cosine d • u +
          Scalar.sqrt (1 - cosine d * cosine d) • divide bend bend.length) := by
  intro d u
  have hsum : (41 : α) + 40 = 81 := by norm_num
  have hdiff : |(41 : α) - 40| = 1 := by norm_num
  have hcosine : Scalar.clamp (-1) 1 ((41 * 41 + d * d - 40 * 40) / (2 * 41 * d)) = cosine d := by
    have heq : (41 * 41 + d * d - 40 * 40) / (2 * 41 * d) = cosine d := by
      rw [cosine]
      ring_nf
    rw [heq]
    exact clamp_of_mem (cosine_mem hlow hhigh).1 (cosine_mem hlow hhigh).2
  have hdown : -(⟨0, 0, 1⟩ : Coordinate α) = ⟨0, 0, -1⟩ := by
    show (⟨-0, -0, -1⟩ : Coordinate α) = _
    rw [neg_zero]
  unfold elbow?
  simp only [upperLength_eq, lowerLength_eq, Scalar.abs_eq, Scalar.isFinite_eq, hsum, hdiff,
    Scalar.ofNat_eq, Nat.cast_zero, Nat.cast_one, Nat.cast_ofNat, hdown, Coordinate.isFinite]
  rw [hcosine, if_neg (by simpa using ⟨hhigh, hlow⟩), Option.map_eq_bind]
  rfl

end Reach

end Values

variable {u outward : Coordinate ℝ}

section Bend

variable (hu : u.dot u = 1)

include hu

theorem square_dot (hint : Coordinate ℝ) : (square u hint).dot u = 0 := by
  rw [square, Coordinate.dot_comm, Coordinate.dot_sub, Coordinate.dot_smul, hu,
    Coordinate.dot_comm u hint, mul_one, sub_self]

theorem square_dot_self (hint : Coordinate ℝ) :
    (square u hint).dot (square u hint) = hint.dot hint - hint.dot u * hint.dot u := by
  have hcross := square_dot hu hint
  conv_lhs => rw [square, Coordinate.dot_sub, Coordinate.dot_smul]
  rw [show hint - hint.dot u • u = square u hint from rfl, hcross, mul_zero, sub_zero, square,
    Coordinate.dot_comm, Coordinate.dot_sub, Coordinate.dot_smul]

end Bend

theorem divide_length_dot {v : Coordinate ℝ} (hv : 0 < v.length) :
    (divide v v.length).dot (divide v v.length) = 1 := by
  rw [divide_dot, Coordinate.dot_comm, divide_dot, ← v.length_mul_self]
  field_simp

/-- One of the hints leaves a direction to bend to: where an arm hangs straight down or up, any
level one does. -/
theorem exists_bend (hu : u.dot u = 1) (hout : outward.dot outward = 1) (hlevel : outward.z = 0) :
    ∃ bend, (([outward + ⟨0, 0, -1⟩, ⟨0, 0, -1⟩, outward].map (square u)).find? fun w ↦
      shortest < w.length) = some bend ∧ 0 < bend.length ∧ bend.dot u = 0 := by
  cases hfind : ([outward + ⟨0, 0, -1⟩, ⟨0, 0, -1⟩, outward].map (square u)).find? fun w ↦
      shortest < w.length with
  | some bend =>
    have hlong : shortest < bend.length := by simpa using List.find?_some hfind
    obtain ⟨hint, -, rfl⟩ := List.mem_map.mp (List.mem_of_find?_eq_some hfind)
    refine ⟨_, rfl, lt_trans ?_ hlong, square_dot hu hint⟩
    rw [shortest_eq]
    positivity
  | none =>
    have hshort (hint : Coordinate ℝ) (hmem : hint ∈ [outward + ⟨0, 0, -1⟩, ⟨0, 0, -1⟩, outward]) :
        hint.dot hint - hint.dot u * hint.dot u ≤ (1 / 10 ^ 9) * (1 / 10 ^ 9) := by
      have hle : (square u hint).length ≤ shortest := by
        simpa using List.find?_eq_none.mp hfind _ (List.mem_map_of_mem hmem)
      rw [shortest_eq] at hle
      rw [← square_dot_self hu, ← Coordinate.length_mul_self]
      exact mul_self_le_mul_self (Coordinate.length_nonneg _) hle
    have hdown := hshort ⟨0, 0, -1⟩ (by simp)
    have hboth := hshort (outward + ⟨0, 0, -1⟩) (by simp)
    rw [Coordinate.dot_comm _ u, Coordinate.dot_add, Coordinate.dot_add,
      Coordinate.dot_comm _ outward, Coordinate.dot_comm _ ⟨0, 0, -1⟩, Coordinate.dot_add,
      Coordinate.dot_add] at hboth
    simp only [Coordinate.dot, hlevel] at hu hout hdown hboth
    -- The arm is nearly upright, so the level hint is nearly square to it.
    have hcross := sq_nonneg (outward.x * u.y - outward.y * u.x)
    have hsum := sq_nonneg (2 * (u.x * outward.x + u.y * outward.y) + u.z)
    nlinarith

/-- Two links of 41 and 40 that meet at the angle which the law of cosines gives. -/
theorem elbow_distances {shoulder hand e : Coordinate ℝ} {d c s : ℝ} (hu : u.dot u = 1)
    (he : e.dot e = 1) (hue : e.dot u = 0) (hcs : c * c + s * s = 1)
    (hc : 82 * d * c = 81 + d * d) (hhand : ∀ i, hand.along i = shoulder.along i + d * u.along i) :
    shoulder.distance (shoulder + (41 : ℝ) • (c • u + s • e)) = 41 ∧
      (shoulder + (41 : ℝ) • (c • u + s • e)).distance hand = 40 := by
  simp only [Coordinate.dot] at hu he hue
  obtain ⟨hx, hy, hz⟩ := And.intro (hhand .x) (And.intro (hhand .y) (hhand .z))
  simp only [Coordinate.along] at hx hy hz
  constructor
  · refine Coordinate.length_of_dot_self (by norm_num) ?_
    show (shoulder.x - (shoulder.x + 41 * (c * u.x + s * e.x))) *
        (shoulder.x - (shoulder.x + 41 * (c * u.x + s * e.x))) +
        (shoulder.y - (shoulder.y + 41 * (c * u.y + s * e.y))) *
        (shoulder.y - (shoulder.y + 41 * (c * u.y + s * e.y))) +
        (shoulder.z - (shoulder.z + 41 * (c * u.z + s * e.z))) *
        (shoulder.z - (shoulder.z + 41 * (c * u.z + s * e.z))) = 41 * 41
    linear_combination 1681 * (c * c * hu + 2 * c * s * hue + s * s * he + hcs)
  · refine Coordinate.length_of_dot_self (by norm_num) ?_
    show (shoulder.x + 41 * (c * u.x + s * e.x) - hand.x) *
        (shoulder.x + 41 * (c * u.x + s * e.x) - hand.x) +
        (shoulder.y + 41 * (c * u.y + s * e.y) - hand.y) *
        (shoulder.y + 41 * (c * u.y + s * e.y) - hand.y) +
        (shoulder.z + 41 * (c * u.z + s * e.z) - hand.z) *
        (shoulder.z + 41 * (c * u.z + s * e.z) - hand.z) = 40 * 40
    rw [hx, hy, hz]
    linear_combination (41 * c - d) * (41 * c - d) * hu + 82 * (41 * c - d) * s * hue +
      1681 * s * s * he + 1681 * hcs - hc

/-- An arm reaches what is neither too far from the shoulder nor too near, and with links of full
length. -/
theorem elbow?_of_reach {shoulder hand : Coordinate ℝ} (hout : outward.dot outward = 1)
    (hlevel : outward.z = 0) (hlow : 1 ≤ shoulder.distance hand)
    (hhigh : shoulder.distance hand ≤ 81) :
    ∃ elbow, elbow? shoulder hand outward = some elbow ∧ shoulder.distance elbow = 41 ∧
      elbow.distance hand = 40 := by
  rw [Coordinate.distance_comm, Coordinate.distance] at hlow hhigh
  have hpos : 0 < (hand - shoulder).length := one_pos.trans_le hlow
  have hu := divide_length_dot hpos
  obtain ⟨bend, hfind, hbend, hsquare⟩ := exists_bend hu hout hlevel
  have hmap : elbow? shoulder hand outward = _ := elbow?_eq_map hlow hhigh
  simp only [hfind, Option.map_some] at hmap
  refine ⟨_, hmap, ?_⟩
  obtain ⟨hcosine, hcosine'⟩ := cosine_mem hlow hhigh
  refine elbow_distances (d := (hand - shoulder).length) hu (divide_length_dot hbend) ?_ ?_ ?_
    fun i ↦ ?_
  · rw [divide_dot, hsquare, zero_div]
  · have hsine : 0 ≤ 1 - cosine (hand - shoulder).length * cosine (hand - shoulder).length := by
      nlinarith [hcosine, hcosine']
    exact add_eq_of_eq_sub' (Real.mul_self_sqrt hsine)
  · rw [cosine]
    field_simp
  · have hi : (hand - shoulder).along i =
        (hand - shoulder).length * (divide (hand - shoulder) (hand - shoulder).length).along i := by
      cases i <;> exact (mul_div_cancel₀ _ hpos.ne').symm
    rw [← hi, Coordinate.along_sub, add_sub_cancel]

end Pose

end Juggling
