import Juggling.Proofs.Translation

namespace Juggling

namespace Row

section Cyclic

variable {α β : Type} [Scalar α]

/-- The system that gives the answer to the corners alone. -/
def corners (gamma alpha : α) (plain : List (Row α β)) : List (Row α α) :=
  plain.mapIdx fun i r ↦
    { r with rhs := if i = 0 then gamma else if i + 1 = plain.length then alpha else 0 }

variable [Sub β] [SMul α β] [Add β]

/-- The answer without the corners, corrected by a multiple of the answer to them. -/
def correct (beta gamma : α) (x : List β) (z : List α) : List β :=
  match x.head?, x.getLast?, z.head?, z.getLast? with
  | some x₀, some x₁, some z₀, some z₁ =>
    let fact := (1 / (1 + z₀ + beta * z₁ / gamma)) • (x₀ + (beta / gamma) • x₁)
    x.zipWith (fun x z ↦ x - z • fact) z
  | _, _, _, _ => []

theorem solveCyclic_eq (first : Row α β) (middle : List (Row α β)) (last : Row α β) :
    solveCyclic first middle last =
      let plain := withoutCorners (-first.diag) (last.sup * first.sub / -first.diag)
        (first :: middle ++ [last])
      correct first.sub (-first.diag) (solve plain)
        (solve (corners (-first.diag) last.sup plain)) := by
  rfl

end Cyclic

variable {α β : Type} [Exact α]

/-- What elimination takes for granted about multiples of right-hand sides. -/
structure Vectors (α β : Type) [Exact α] [Sub β] [SMul α β] : Prop where
  smul_sub : ∀ (k : α) (a b : β), k • (a - b) = k • a - k • b
  mul_smul : ∀ (k m : α) (a : β), k • m • a = (k * m) • a

/-- A multiple of an equation, the answers to which are multiples as well. -/
def scale [SMul α β] (k m : α) (r : Row α β) : Row α β :=
  ⟨k * r.sub, k * r.diag, k * r.sup, (k * m) • r.rhs⟩

theorem vectors_coordinate : Vectors α (Coordinate α) where
  smul_sub k a b := Coordinate.ext_along fun i ↦ by simp [mul_sub]
  mul_smul k m a := Coordinate.ext_along fun i ↦ by simp [mul_assoc]

theorem vectors_scalar : Vectors α α where
  smul_sub := mul_sub
  mul_smul k m a := (mul_assoc k m a).symm

section Solve

variable [Sub β] [SMul α β] (hβ : Vectors α β) {k : α} (hk : k ≠ 0) (m : α)
include hβ

theorem substitute_smul (c : α) (d : β) (xs : List β) :
    substitute c (m • d) (xs.map (m • ·)) = (substitute c d xs).map (m • ·) := by
  cases xs with
  | nil => rfl
  | cons x xs =>
    simp only [substitute, List.map_cons]
    rw [hβ.smul_sub, hβ.mul_smul, hβ.mul_smul, mul_comm]

include hk

theorem eliminate_scale (c : α) (d : β) (rows : List (Row α β)) :
    eliminate c (m • d) (rows.map (scale k m)) = (eliminate c d rows).map (m • ·) := by
  induction rows generalizing c d with
  | nil => rfl
  | cons r rows ih =>
    have hpivot : k * r.diag - k * r.sub * c = k * (r.diag - r.sub * c) := by ring
    have hsup : k * r.sup / (k * (r.diag - r.sub * c)) = r.sup / (r.diag - r.sub * c) :=
      mul_div_mul_left _ _ hk
    have hrhs : (1 / (k * (r.diag - r.sub * c))) • ((k * m) • r.rhs - (k * r.sub) • m • d) =
        m • (1 / (r.diag - r.sub * c)) • (r.rhs - r.sub • d) := by
      simp only [hβ.smul_sub, hβ.mul_smul]
      congr 2 <;> field_simp
    simp only [List.map_cons, eliminate_cons, Scalar.ofNat_eq, Nat.cast_one]
    simp only [scale, hpivot, hsup, hrhs]
    rw [ih, substitute_smul hβ]

theorem solve_scale (rows : List (Row α β)) :
    solve (rows.map (scale k m)) = (solve rows).map (m • ·) := by
  cases rows with
  | nil => rfl
  | cons r rows =>
    have hsup : k * r.sup / (k * r.diag) = r.sup / r.diag := mul_div_mul_left _ _ hk
    have hrhs : (1 / (k * r.diag)) • (k * m) • r.rhs = m • (1 / r.diag) • r.rhs := by
      simp only [hβ.mul_smul]
      congr 1
      field_simp
    simp only [List.map_cons, solve_cons, Scalar.ofNat_eq, Nat.cast_one]
    simp only [scale, hsup, hrhs]
    rw [eliminate_scale hβ hk, substitute_smul hβ]

end Solve

theorem withoutCorners_scale [SMul α β] (k m gamma corner : α) (rows : List (Row α β)) :
    withoutCorners (k * gamma) (k * corner) (rows.map (scale k m)) =
      (withoutCorners gamma corner rows).map (scale k m) := by
  have key (i : ℕ) (x : α) (rows : List (Row α β)) :
      (rows.map (scale k m)).modify i (fun r ↦ { r with diag := r.diag - k * x }) =
        (rows.modify i fun r ↦ { r with diag := r.diag - x }).map (scale k m) := by
    refine List.ext_getElem? fun n ↦ ?_
    simp only [List.getElem?_modify, List.getElem?_map]
    split_ifs <;> cases rows[n]? <;> simp [scale, mul_sub]
  simp only [withoutCorners, List.length_map, key]

theorem corners_scale [SMul α β] (k m gamma alpha : α) (plain : List (Row α β)) :
    corners (k * gamma) (k * alpha) (plain.map (scale k m)) =
      (corners gamma alpha plain).map (scale k 1) := by
  refine List.ext_getElem? fun n ↦ ?_
  simp only [corners, List.getElem?_mapIdx, List.getElem?_map, List.length_map]
  cases plain[n]? with
  | none => rfl
  | some r => simp [scale, mul_ite]

section Cyclic

variable [Sub β] [SMul α β] [Add β] (hβ : Vectors α β)
  (hadd : ∀ (k : α) (a b : β), k • (a + b) = k • a + k • b) {k : α}
  (hk : k ≠ 0) (m : α)
include hβ hadd hk

theorem correct_scale (beta gamma : α) (x : List β) (z : List α) :
    correct (k * beta) (k * gamma) (x.map (m • ·)) z = (correct beta gamma x z).map (m • ·) := by
  have hratio : k * beta / (k * gamma) = beta / gamma := mul_div_mul_left _ _ hk
  have hpart (z₁ : α) : k * beta * z₁ / (k * gamma) = beta * z₁ / gamma := by
    rw [mul_assoc, mul_div_mul_left _ _ hk]
  unfold correct
  rw [List.head?_map, List.getLast?_map]
  cases x.head? with
  | none => rfl
  | some x₀ =>
    cases x.getLast? with
    | none => rfl
    | some x₁ =>
      cases z.head? with
      | none => rfl
      | some z₀ =>
        cases z.getLast? with
        | none => rfl
        | some z₁ =>
          simp only [Option.map_some, hratio, hpart, List.zipWith_map_left, List.map_zipWith]
          congr 1
          funext x z
          simp only [hβ.smul_sub, hβ.mul_smul, hadd]
          congr 3 <;> ring

theorem solveCyclic_scale (first : Row α β) (middle : List (Row α β)) (last : Row α β) :
    solveCyclic (first.scale k m) (middle.map (scale k m)) (last.scale k m) =
      (solveCyclic first middle last).map (m • ·) := by
  have hgamma : -(k * first.diag) = k * -first.diag := (mul_neg _ _).symm
  have hcorner : k * last.sup * (k * first.sub) / (k * -first.diag) =
      k * (last.sup * first.sub / -first.diag) := by field_simp
  have hrows : first.scale k m :: middle.map (scale k m) ++ [last.scale k m] =
      (first :: middle ++ [last]).map (scale k m) := by simp
  have hone (z : List α) : z.map ((1 : α) • ·) = z := by simp
  simp only [solveCyclic_eq, hrows]
  simp only [scale, hgamma, hcorner, withoutCorners_scale, corners_scale]
  rw [solve_scale hβ hk, solve_scale vectors_scalar hk, correct_scale hβ hadd hk, hone]

end Cyclic

end Row

variable {α : Type} [Exact α] {f : α}

def Knot.stretch (f : α) (p : Knot α) : Knot α := { p with time := p.time * f }

def Knots.stretch (f : α) (k : Knots α) : Knots α :=
  { k with
    first := k.first.stretch f
    second := k.second.stretch f
    rest := k.rest.map (·.stretch f) }

namespace Knots

theorem firstDecrease?_stretch (hf : 0 < f) (i : ℕ) (t : α) (ts : List α) :
    firstDecrease? i (t * f) (ts.map (· * f)) =
      (firstDecrease? i t ts).map fun p ↦ (p.1, p.2 * f) := by
  induction ts generalizing i t with
  | nil => rfl
  | cons u ts ih =>
    simp only [List.map_cons, firstDecrease?, ih, mul_lt_mul_iff_left₀ hf]
    split_ifs <;> rfl

theorem ofLists_stretch (hf : 0 < f) {positions : List (Coordinate α)} {times : List α}
    {v w : Option (Coordinate α)} {k : Knots α} (hok : ofLists positions times v w = .ok k) :
    ofLists positions (times.map (· * f)) v w = .ok (k.stretch f) := by
  have hzip : (times.map (· * f)).zipWith Knot.mk positions =
      (times.zipWith Knot.mk positions).map (·.stretch f) := by
    rw [List.zipWith_map_left, List.map_zipWith]
    rfl
  unfold ofLists at hok ⊢
  rw [List.length_map, hzip]
  split_ifs at hok ⊢
  split at hok
  · rename_i first second rest heq
    have hdecrease := firstDecrease?_stretch hf 1 first.time (second.time :: rest.map Knot.time)
    rw [List.map_cons, List.map_map] at hdecrease
    split at hok
    · cases hok
    · rename_i hnone
      obtain rfl := Except.ok.inj hok
      rw [hnone, Option.map_none] at hdecrease
      simp only [heq, List.map_cons, List.map_map]
      rw [show firstDecrease? 1 (first.stretch f).time ((second.stretch f).time ::
        rest.map (Knot.time ∘ (·.stretch f))) = none from hdecrease]
      rfl
  · cases hok

end Knots

namespace Span

def stretch (f : α) (s : Span α) : Span α := ⟨s.duration * f, f⁻¹ • s.slope⟩

theorem between_stretch (p q : Knot α) :
    between (p.stretch f) (q.stretch f) = (between p q).stretch f := by
  simp only [between, Knot.stretch, stretch, ← sub_mul]
  congr 1
  refine Coordinate.ext_along fun i ↦ ?_
  simp
  ring

theorem ofKnots_stretch (p : Knot α) (ks : List (Knot α)) :
    ofKnots (p.stretch f) (ks.map (·.stretch f)) = (ofKnots p ks).map (·.stretch f) := by
  induction ks generalizing p with
  | nil => rfl
  | cons k ks ih => rw [List.map_cons, ofKnots, ofKnots, List.map_cons, between_stretch, ih]

theorem joint_stretch (s t : Span α) :
    joint (s.stretch f) (t.stretch f) = (joint s t).scale f⁻¹ f⁻¹ := by
  simp only [joint, Row.scale, stretch, Row.mk.injEq]
  refine ⟨?_, ?_, ?_, Coordinate.ext_along fun i ↦ ?_⟩ <;> simp <;> ring

theorem joints_stretch (s : Span α) (spans : List (Span α)) :
    joints (s.stretch f) (spans.map (·.stretch f)) =
      (joints s spans).map (Row.scale f⁻¹ f⁻¹) := by
  induction spans generalizing s with
  | nil => rfl
  | cons t spans ih => rw [List.map_cons, joints, joints, List.map_cons, joint_stretch, ih]

/-- Over longer spans a closed curve is slower everywhere. -/
theorem cyclicVelocities_stretch (hf : 0 < f) (first : Span α) (rest : List (Span α)) :
    cyclicVelocities (first.stretch f) (rest.map (·.stretch f)) =
      (cyclicVelocities first rest).map (f⁻¹ • ·) := by
  have hf' : f⁻¹ ≠ 0 := inv_ne_zero hf.ne'
  have hlast : (rest.map (·.stretch f)).getLast?.getD (first.stretch f) =
      (rest.getLast?.getD first).stretch f := by
    rw [List.getLast?_map]
    cases rest.getLast? <;> rfl
  unfold cyclicVelocities
  simp only [hlast, joint_stretch, joints_stretch]
  generalize joint (rest.getLast?.getD first) first = r
  match joints first rest with
  | [] =>
    simp only [List.map_nil, List.map_cons, List.cons.injEq, and_true]
    refine Coordinate.ext_along fun i ↦ ?_
    simp [Row.scale]
    field_simp
  | [s] =>
    simp only [List.map_nil, List.map_cons, List.cons.injEq, and_true]
    refine ⟨Coordinate.ext_along fun i ↦ ?_, Coordinate.ext_along fun i ↦ ?_⟩ <;>
      simp [Row.scale] <;> field_simp
  | s :: t :: rows =>
    have hrows : (s :: t :: rows).map (Row.scale f⁻¹ f⁻¹) =
        s.scale f⁻¹ f⁻¹ :: t.scale f⁻¹ f⁻¹ :: rows.map (Row.scale f⁻¹ f⁻¹) := rfl
    have hlast : ((s :: t :: rows).map (Row.scale f⁻¹ f⁻¹)).getLast?.getD (r.scale f⁻¹ f⁻¹) =
        ((s :: t :: rows).getLast?.getD r).scale f⁻¹ f⁻¹ := by
      rw [List.getLast?_map, Option.getD_map]
    rw [hrows]
    simp only
    rw [← hrows, hlast, ← List.map_dropLast, Row.solveCyclic_scale Row.vectors_coordinate
      (fun k a b ↦ Coordinate.ext_along fun i ↦ by simp [mul_add]) hf']

theorem closedVelocities_stretch (hf : 0 < f) (first : Span α) (rest : List (Span α)) :
    closedVelocities (first.stretch f) (rest.map (·.stretch f)) =
      (closedVelocities first rest).map (f⁻¹ • ·) := by
  simp only [closedVelocities, cyclicVelocities_stretch hf, List.head?_map]
  cases (cyclicVelocities first rest).head? <;> simp

end Span

namespace Cubic

def stretch (f : α) (p : Cubic α) : Cubic α :=
  { start := p.start * f, stop := p.stop * f, a := p.a, b := f⁻¹ • p.b
    c := (f⁻¹ * f⁻¹) • p.c, d := (f⁻¹ * f⁻¹ * f⁻¹) • p.d }

theorem hermite_stretch (hf : 0 < f) (p q : Knot α) (v w : Coordinate α) :
    hermite (p.stretch f) (q.stretch f) (f⁻¹ • v) (f⁻¹ • w) = (hermite p q v w).stretch f := by
  have hf' := hf.ne'
  simp only [hermite, stretch, Knot.stretch, ← sub_mul, Cubic.mk.injEq, true_and]
  refine ⟨Coordinate.ext_along fun i ↦ ?_, Coordinate.ext_along fun i ↦ ?_⟩ <;> simp <;> field_simp

theorem position_stretch (hf : 0 < f) (p : Cubic α) (t : α) :
    (p.stretch f).position (t * f) = p.position t := by
  have hf' := hf.ne'
  refine Coordinate.ext_along fun i ↦ ?_
  simp only [position, stretch, ← sub_mul, Coordinate.along_add, Coordinate.along_smul]
  field_simp

end Cubic

namespace Spline

def stretch (f : α) (c : Spline α) : Spline α :=
  ⟨c.knots.stretch f, c.first.stretch f, c.rest.map (·.stretch f)⟩

theorem pieces_stretch (hf : 0 < f) (ns : List (Knot α × Coordinate α)) :
    pieces (ns.map fun n ↦ (n.1.stretch f, f⁻¹ • n.2)) = (pieces ns).map (·.stretch f) := by
  induction ns with
  | nil => rfl
  | cons a ns ih =>
    cases ns with
    | nil => rfl
    | cons b ns =>
      simp only [List.map_cons, pieces, Cubic.hermite_stretch hf] at ih ⊢
      rw [ih]

theorem all_finite (vs : List (Coordinate α)) : vs.any (!·.isFinite) = false := by
  simp [Coordinate.isFinite]

/-- Exact numbers leave no reason for a curve to fail. -/
theorem exists_ofKnots (k : Knots α) : ∃ c, ofKnots k = .ok c := by
  have hlen := length_velocities k
  simp only [ofKnots, all_finite, Bool.false_eq_true, if_false]
  generalize velocities k = vs at hlen
  cases vs with
  | nil => simp [Knots.toList] at hlen
  | cons v vs =>
    cases vs with
    | nil => simp [Knots.toList] at hlen
    | cons w vs => exact ⟨_, rfl⟩

/-- Knots that are passed at another pace give the same closed curve at that pace. -/
theorem ofKnots_stretch (hf : 0 < f) {k : Knots α} {c : Spline α} (hstart : k.startVelocity = none)
    (hend : k.endVelocity = none) (hok : ofKnots k = .ok c) :
    ofKnots (k.stretch f) = .ok (c.stretch f) := by
  have hvelocities : velocities (k.stretch f) = (velocities k).map (f⁻¹ • ·) := by
    simp only [velocities, Knots.stretch, hstart, hend, Span.between_stretch,
      Span.ofKnots_stretch, Span.closedVelocities_stretch hf]
  have hnodes : (k.stretch f).toList.zip (velocities (k.stretch f)) =
      (k.toList.zip (velocities k)).map fun n ↦ (n.1.stretch f, f⁻¹ • n.2) := by
    rw [hvelocities, show (k.stretch f).toList = k.toList.map (·.stretch f) from rfl, List.zip_map]
    rfl
  simp only [ofKnots, all_finite, Bool.false_eq_true, if_false, hnodes, pieces_stretch hf] at hok ⊢
  cases hpieces : pieces (k.toList.zip (velocities k)) with
  | nil =>
    rw [hpieces] at hok
    cases hok
  | cons first rest =>
    rw [hpieces] at hok
    obtain rfl := Except.ok.inj hok
    rfl

theorem position_stretch (hf : 0 < f) (c : Spline α) (t : α) :
    (c.stretch f).position (t * f) = c.position t := by
  have hpiece : (c.stretch f).pieceAt (t * f) = (c.pieceAt t).stretch f :=
    pieceAt_map (f := fun p : Cubic α ↦ p.stretch f) (fun _ ↦ mul_le_mul_iff_left₀ hf) c.first
      c.rest
  rw [position, hpiece, Cubic.position_stretch hf, position]

end Spline

end Juggling
