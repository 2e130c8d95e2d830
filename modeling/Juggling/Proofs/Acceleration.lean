import Juggling.Proofs.Checked
import Juggling.Proofs.Tridiagonal

namespace Juggling

theorem nil_singleton_or_concat {β : Type} (xs : List β) :
    xs = [] ∨ (∃ x, xs = [x]) ∨ ∃ ys x, ys ≠ [] ∧ xs = ys ++ [x] := by
  rcases List.eq_nil_or_concat' xs with rfl | ⟨ys, x, rfl⟩
  · exact .inl rfl
  · cases ys with
    | nil => exact .inr (.inl ⟨x, rfl⟩)
    | cons y ys => exact .inr (.inr ⟨y :: ys, x, List.cons_ne_nil y ys, rfl⟩)

namespace Span

section Velocities

variable {α : Type} [Scalar α]

/-- The equation for the velocity at the start of an open curve. -/
def startRow (v : Option (Coordinate α)) (s : Span α) : Row α (Coordinate α) :=
  match v with
  | some v => clamped v
  | none => freeStart s

def stopRow (w : Option (Coordinate α)) (s : Span α) : Row α (Coordinate α) :=
  match w with
  | some w => clamped w
  | none => freeEnd s

theorem openVelocities_eq (v w : Option (Coordinate α)) (first : Span α) (rest : List (Span α)) :
    openVelocities v w first rest = Row.solve
      (startRow v first :: joints first rest ++ [stopRow w (rest.getLast?.getD first)]) := by
  cases v <;> cases w <;> rfl

variable {first : Span α} {rest : List (Span α)} {r : Row α (Coordinate α)}
  (hr : joint (rest.getLast?.getD first) first = r)
include hr

theorem cyclicVelocities_of_nil (h : joints first rest = []) :
    cyclicVelocities first rest = [(1 / (r.diag + r.sub + r.sup)) • r.rhs] := by
  simp only [cyclicVelocities, h, hr]

theorem cyclicVelocities_of_singleton {s : Row α (Coordinate α)} (h : joints first rest = [s]) :
    cyclicVelocities first rest =
      [(1 / (r.diag * s.diag - (r.sub + r.sup) * (s.sub + s.sup))) •
          (s.diag • r.rhs - (r.sub + r.sup) • s.rhs),
        (1 / (r.diag * s.diag - (r.sub + r.sup) * (s.sub + s.sup))) •
          (r.diag • s.rhs - (s.sub + s.sup) • r.rhs)] := by
  simp only [cyclicVelocities, h, hr]

theorem cyclicVelocities_of_concat {middle : List (Row α (Coordinate α))}
    {last : Row α (Coordinate α)} (h : joints first rest = middle ++ [last]) (hne : middle ≠ []) :
    cyclicVelocities first rest = Row.solveCyclic r middle last := by
  obtain ⟨s, middle, rfl⟩ := List.exists_cons_of_ne_nil hne
  obtain ⟨t, rows, hrows⟩ := List.exists_cons_of_ne_nil (List.concat_ne_nil last middle)
  rw [List.cons_append, hrows] at h
  simp only [cyclicVelocities, h, hr]
  rw [← hrows, ← List.cons_append, List.dropLast_concat, List.getLast?_concat, Option.getD_some]

end Velocities

end Span

variable {α : Type} [Exact α]

namespace Row

/-- An equation for the components along one axis. -/
def along (i : Axis) (r : Row α (Coordinate α)) : Row α α := r.map id (·.along i)

theorem follows_id : Follows (id : α → α) := by
  constructor <;> intros <;> rfl

theorem carries_along (i : Axis) : Carries (id : α → α) (fun a : Coordinate α ↦ a.along i) :=
  ⟨fun a b ↦ a.along_add b i, fun a b ↦ a.along_sub b i, fun k a ↦ a.along_smul k i⟩

theorem solve_along (i : Axis) {rows : List (Row α (Coordinate α))} (h : Solvable rows) :
    (solve rows).map (·.along i) = solve (rows.map (along i)) :=
  (solve_map follows_id (carries_along i) h).symm

theorem solveCyclic_along (i : Axis) {first last : Row α (Coordinate α)}
    {middle : List (Row α (Coordinate α))} (h : SolvableCyclic first middle last) :
    (solveCyclic first middle last).map (·.along i) =
      solveCyclic (first.along i) (middle.map (along i)) (last.along i) :=
  (solveCyclic_map follows_id (carries_along i) h).symm

theorem Regular.along {c : α} {rows : List (Row α (Coordinate α))} (h : Regular c rows)
    (i : Axis) : Regular c (rows.map (along i)) := by
  induction rows generalizing c with
  | nil => trivial
  | cons r rows ih => exact ⟨h.1, ih h.2⟩

theorem Solvable.along {rows : List (Row α (Coordinate α))} (h : Solvable rows) (i : Axis) :
    Solvable (rows.map (along i)) := by
  cases rows with
  | nil => trivial
  | cons r rows => exact ⟨h.1, h.2.along i⟩

theorem Dominant.sum_ne_zero {β : Type} {r : Row α β} (h : r.Dominant) :
    r.diag + r.sub + r.sup ≠ 0 := by
  intro hzero
  have hdiag : r.diag = -(r.sub + r.sup) := by linear_combination hzero
  have := abs_add_le r.sub r.sup
  rw [Dominant, hdiag, abs_neg] at h
  linarith

theorem Dominant.det_ne_zero {β : Type} {r s : Row α β} (hr : r.Dominant) (hs : s.Dominant) :
    r.diag * s.diag - (r.sub + r.sup) * (s.sub + s.sup) ≠ 0 := by
  refine sub_ne_zero.mpr fun heq ↦ ?_
  have hr' := (abs_add_le r.sub r.sup).trans_lt hr
  have hs' := (abs_add_le s.sub s.sup).trans_lt hs
  have habs := congrArg abs heq
  rw [abs_mul, abs_mul] at habs
  exact (mul_lt_mul'' hr' hs' (abs_nonneg _) (abs_nonneg _)).ne' habs

theorem Dominant.along {r : Row α (Coordinate α)} (h : r.Dominant) (i : Axis) :
    (r.along i).Dominant := h

end Row

namespace Span

theorem dominant_joint {s t : Span α} (hs : 0 < s.duration) (ht : 0 < t.duration) :
    (joint s t).Dominant := by
  have hs' := one_div_pos.mpr hs
  have ht' := one_div_pos.mpr ht
  simp only [joint, Row.Dominant, Scalar.ofNat_eq, Nat.cast_one, Nat.cast_ofNat]
  rw [abs_of_pos hs', abs_of_pos ht', abs_of_pos (by linarith)]
  linarith

theorem dominant_joints {first : Span α} {rest : List (Span α)}
    (hpos : ∀ s ∈ first :: rest, 0 < s.duration) : ∀ r ∈ joints first rest, r.Dominant := by
  induction rest generalizing first with
  | nil => simp [joints]
  | cons s rest ih =>
    obtain ⟨hfirst, hrest⟩ := List.forall_mem_cons.mp hpos
    refine List.forall_mem_cons.mpr ⟨dominant_joint hfirst ?_, ih hrest⟩
    exact hrest s List.mem_cons_self

section Velocities

variable {first : Span α} {rest : List (Span α)} (hpos : ∀ s ∈ first :: rest, 0 < s.duration)
include hpos

theorem last_pos : 0 < (rest.getLast?.getD first).duration := by
  cases hlast : rest.getLast? with
  | none => exact hpos first List.mem_cons_self
  | some s => exact hpos s (List.mem_cons_of_mem _ (List.mem_of_getLast? hlast))

theorem solvable_open (v w : Option (Coordinate α)) : Row.Solvable
    (startRow v first :: joints first rest ++ [stopRow w (rest.getLast?.getD first)]) := by
  refine Row.solvable_of_dominant ?_ (dominant_joints hpos) ?_
  · cases v <;> simp [startRow, clamped, freeStart]
  · cases w <;> simp [stopRow, clamped, freeEnd]

theorem solves_openVelocities (v w : Option (Coordinate α)) (i : Axis) : Row.Solves 0 0
    ((startRow v first).along i :: (joints first rest).map (Row.along i) ++
      [(stopRow w (rest.getLast?.getD first)).along i])
    ((openVelocities v w first rest).map (·.along i)) := by
  have hsolvable := solvable_open hpos v w
  have hrows : (startRow v first).along i :: (joints first rest).map (Row.along i) ++
      [(stopRow w (rest.getLast?.getD first)).along i] =
      (startRow v first :: joints first rest ++ [stopRow w (rest.getLast?.getD first)]).map
        (Row.along i) := by simp
  rw [openVelocities_eq, Row.solve_along i hsolvable, hrows]
  exact Row.solves_solve (hsolvable.along i)

/-- The velocities of a closed curve solve the equations at all its joints, the one between its
last span and its first included. -/
theorem solves_cyclicVelocities (i : Axis) : Row.Solves
    (((cyclicVelocities first rest).map (·.along i)).getLast?.getD 0)
    (((cyclicVelocities first rest).map (·.along i)).head?.getD 0)
    ((joint (rest.getLast?.getD first) first).along i :: (joints first rest).map (Row.along i))
    ((cyclicVelocities first rest).map (·.along i)) := by
  generalize hr : joint (rest.getLast?.getD first) first = r
  have hdominant := dominant_joints hpos
  have hr' : r.Dominant := hr ▸ dominant_joint (last_pos hpos) (hpos first List.mem_cons_self)
  rcases nil_singleton_or_concat (joints first rest) with hjoints | ⟨s, hjoints⟩ |
    ⟨middle, last, hne, hjoints⟩
  · have hsum := hr'.sum_ne_zero
    rw [cyclicVelocities_of_nil hr hjoints, hjoints]
    refine ⟨?_, trivial⟩
    simp only [Row.along, Row.map, id_eq, Coordinate.along_smul, List.map_cons, List.map_nil,
      List.getLast?_singleton, List.head?_cons, List.head?_nil, Option.getD_some, Option.getD_none,
      Scalar.ofNat_eq, Nat.cast_one]
    field_simp
    ring
  · rw [hjoints] at hdominant
    have hdet := hr'.det_ne_zero (hdominant s (List.mem_singleton_self s))
    rw [cyclicVelocities_of_singleton hr hjoints, hjoints]
    refine ⟨?_, ?_, trivial⟩ <;>
      simp only [Row.along, Row.map, id_eq, Coordinate.along_smul, Coordinate.along_sub,
        List.map_cons, List.map_nil, List.getLast?_cons_cons, List.getLast?_singleton,
        List.head?_cons, List.head?_nil, Option.getD_some, Option.getD_none, Scalar.ofNat_eq,
        Nat.cast_one] <;>
      field_simp <;> ring
  · rw [hjoints] at hdominant
    obtain ⟨hmiddle, hlast⟩ := List.forall_mem_append.mp hdominant
    have hlast := hlast last (List.mem_singleton_self last)
    rw [cyclicVelocities_of_concat hr hjoints hne,
      Row.solveCyclic_along i (Row.solvableCyclic_of_dominant hr' hmiddle hlast), hjoints,
      List.map_append, List.map_cons, List.map_nil, ← List.cons_append]
    refine Row.solves_solveCyclic (hr'.along i) ?_ (hlast.along i)
    intro q hq
    obtain ⟨q', hq', rfl⟩ := List.mem_map.mp hq
    exact (hmiddle q' hq').along i

/-- The velocities of an open curve make its ends what is asked for, and leave no jump at its
joints. -/
theorem exists_openVelocities (v w : Option (Coordinate α)) : ∃ v₀ vs w₀,
    openVelocities v w first rest = v₀ :: vs ++ [w₀] ∧ ∀ i,
      (startRow v first).diag * v₀.along i +
        (startRow v first).sup * (vs.map (·.along i)).head?.getD (w₀.along i) =
          (startRow v first).rhs.along i ∧
      Row.Solves (v₀.along i) (w₀.along i) ((joints first rest).map (Row.along i))
        (vs.map (·.along i)) ∧
      (stopRow w (rest.getLast?.getD first)).sub *
          (vs.map (·.along i)).getLast?.getD (v₀.along i) +
        (stopRow w (rest.getLast?.getD first)).diag * w₀.along i =
          (stopRow w (rest.getLast?.getD first)).rhs.along i := by
  have hsolves := solves_openVelocities hpos v w
  have hlen := length_openVelocities first rest v w
  generalize openVelocities v w first rest = us at hsolves hlen
  cases us with
  | nil => simp at hlen
  | cons v₀ us =>
    obtain ⟨vs, w₀, rfl⟩ := (List.eq_nil_or_concat' us).resolve_left fun hnil ↦ by
      simp [hnil] at hlen
    refine ⟨v₀, vs, w₀, rfl, fun i ↦ ?_⟩
    rw [← List.cons_append] at hsolves
    have := hsolves i
    rw [List.map_append, List.map_cons, List.map_singleton, Row.solves_ends, mul_zero, zero_add,
      mul_zero, add_zero] at this
    exact this

theorem exists_closedVelocities : ∃ v₀ vs, closedVelocities first rest = v₀ :: vs ++ [v₀] ∧ ∀ i,
    (joint (rest.getLast?.getD first) first).sub *
        (vs.map (·.along i)).getLast?.getD (v₀.along i) +
      (joint (rest.getLast?.getD first) first).diag * v₀.along i +
        (joint (rest.getLast?.getD first) first).sup *
          (vs.map (·.along i)).head?.getD (v₀.along i) =
        (joint (rest.getLast?.getD first) first).rhs.along i ∧
    Row.Solves (v₀.along i) (v₀.along i) ((joints first rest).map (Row.along i))
      (vs.map (·.along i)) := by
  have hsolves := solves_cyclicVelocities hpos
  have hlen := length_cyclicVelocities first rest
  unfold closedVelocities
  generalize cyclicVelocities first rest = us at hsolves hlen
  cases us with
  | nil => simp at hlen
  | cons v₀ vs =>
    refine ⟨v₀, vs, rfl, fun i ↦ ?_⟩
    have := hsolves i
    rw [List.map_cons, List.getLast?_cons, List.head?_cons, Option.getD_some,
      Option.getD_some] at this
    exact this

end Velocities

theorem pos_ofKnots {p q : Knot α} {ks : List (Knot α)}
    (hsorted : ((p :: q :: ks).map Knot.time).Pairwise (· < ·)) :
    ∀ s ∈ between p q :: ofKnots q ks, 0 < s.duration := by
  induction ks generalizing p q with
  | nil =>
    simp only [ofKnots, List.mem_singleton, forall_eq]
    simpa [between] using hsorted
  | cons k ks ih =>
    obtain ⟨hp, hrest⟩ := List.pairwise_cons.mp hsorted
    refine List.forall_mem_cons.mpr ⟨?_, ih hrest⟩
    exact sub_pos.mpr (hp q.time (by simp))

end Span

namespace Cubic

/-- How fast the velocity changes. -/
def acceleration {α : Type} [Scalar α] (p : Cubic α) (t : α) : Coordinate α :=
  (2 : α) • p.c + (6 * (t - p.start)) • p.d

theorem along_acceleration (p : Cubic α) (t : α) (i : Axis) :
    (p.acceleration t).along i = 2 * p.c.along i + 6 * (t - p.start) * p.d.along i := by
  simp [acceleration]

theorem steady_velocity (p : Cubic α) (t : α) :
    Steady (fun s a b ↦ a = p.velocity s ∧ b = p.acceleration s) t (p.velocity t)
      (p.acceleration t) := by
  obtain ⟨m, -, hm⟩ := Axis.exists_bound fun i ↦ 6 * |p.d.along i|
  refine ⟨m, 1, one_pos, fun s _ a b ⟨ha, hb⟩ i ↦ ?_⟩
  subst ha hb
  have hvelocity : (p.velocity s).along i - (p.velocity t).along i -
      (s - t) * (p.acceleration t).along i = 3 * p.d.along i * (s - t) ^ 2 := by
    rw [along_velocity, along_velocity, along_acceleration]
    ring
  have hacceleration : (p.acceleration s).along i - (p.acceleration t).along i =
      6 * p.d.along i * (s - t) := by
    rw [along_acceleration, along_acceleration]
    ring
  have hd := abs_nonneg (p.d.along i)
  have hthree : |3 * p.d.along i| ≤ m := by
    rw [abs_mul, abs_of_pos (by norm_num : (0 : α) < 3)]
    linarith [hm i]
  have hsix : |6 * p.d.along i| ≤ m := by
    rw [abs_mul, abs_of_pos (by norm_num : (0 : α) < 6)]
    exact hm i
  rw [hvelocity, hacceleration, abs_mul (3 * _), abs_mul (6 * _), abs_of_nonneg (sq_nonneg (s - t))]
  exact ⟨mul_le_mul_of_nonneg_right hthree (sq_nonneg _),
    mul_le_mul_of_nonneg_right hsix (abs_nonneg _)⟩

variable {p q : Knot α} (v w : Coordinate α)

theorem acceleration_start (i : Axis) : ((hermite p q v w).acceleration p.time).along i =
    2 * (1 / (Span.between p q).duration) *
      (3 * (Span.between p q).slope.along i - 2 * v.along i - w.along i) := by
  rw [along_acceleration]
  simp only [hermite, Span.between, Coordinate.along_smul, Coordinate.along_sub, Scalar.ofNat_eq]
  push_cast
  ring

theorem acceleration_stop (h : p.time < q.time) (i : Axis) :
    ((hermite p q v w).acceleration q.time).along i = 2 * (1 / (Span.between p q).duration) *
      (v.along i + 2 * w.along i - 3 * (Span.between p q).slope.along i) := by
  have hne : q.time - p.time ≠ 0 := (sub_pos.mpr h).ne'
  rw [along_acceleration]
  simp only [hermite, Span.between, Coordinate.along_smul, Coordinate.along_sub,
    Coordinate.along_add, Scalar.ofNat_eq]
  push_cast
  field_simp
  ring

end Cubic

namespace Spline

/-- No jump of acceleration where one piece between nodes meets the next. -/
def Joined : List (Knot α × Coordinate α) → Prop
  | a :: b :: c :: ns => (Cubic.hermite a.1 b.1 a.2 b.2).acceleration b.1.time =
      (Cubic.hermite b.1 c.1 b.2 c.2).acceleration b.1.time ∧ Joined (b :: c :: ns)
  | _ => True

variable {a b : Knot α × Coordinate α} {ns : List (Knot α × Coordinate α)}

theorem joined_of_solves (hsorted : (a :: b :: ns).Pairwise fun n n' ↦ n.1.time < n'.1.time)
    {vs : List (Coordinate α)} {w : Coordinate α} (hvs : (b :: ns).map Prod.snd = vs ++ [w])
    (h : ∀ i, Row.Solves (a.2.along i) (w.along i) ((Span.joints (Span.between a.1 b.1)
      (Span.ofKnots b.1 (ns.map Prod.fst))).map (Row.along i)) (vs.map (·.along i))) :
    Joined (a :: b :: ns) := by
  induction ns generalizing a b vs with
  | nil => trivial
  | cons c ns ih =>
    obtain ⟨ha, hrest⟩ := List.pairwise_cons.mp hsorted
    have hab := ha b List.mem_cons_self
    cases vs with
    | nil => simp at hvs
    | cons v vs =>
      obtain ⟨rfl, hvs'⟩ := List.cons.inj hvs
      refine ⟨Coordinate.ext_along fun i ↦ ?_, ih hrest hvs' fun i ↦ (h i).2⟩
      have hnext : (vs.map (·.along i)).head?.getD (w.along i) = c.2.along i := by
        have hhead := congrArg List.head? hvs'
        cases vs <;> simp at hhead ⊢ <;> rw [hhead]
      have hjoint := (h i).1
      rw [hnext] at hjoint
      rw [Cubic.acceleration_stop _ _ hab, Cubic.acceleration_start]
      simp only [Span.joint, Row.along, Row.map, id_eq, Coordinate.along_smul, Coordinate.along_add,
        Scalar.ofNat_eq] at hjoint
      push_cast at hjoint
      linear_combination 2 * hjoint

theorem pieceAt_first (hsorted : (a :: b :: ns).Pairwise fun n n' ↦ n.1.time < n'.1.time) :
    Juggling.pieceAt Cubic.start a.1.time (Cubic.hermite a.1 b.1 a.2 b.2) (pieces (b :: ns)) =
      Cubic.hermite a.1 b.1 a.2 b.2 := by
  cases ns with
  | nil => rfl
  | cons c ns => exact if_neg (not_le.mpr ((List.pairwise_cons.mp hsorted).1 b List.mem_cons_self))

/-- The last two nodes belong to the last span, and their piece goes on to the end. -/
theorem exists_last (hsorted : (a :: b :: ns).Pairwise fun n n' ↦ n.1.time < n'.1.time) :
    ∃ l m n, a :: b :: ns = l ++ [m, n] ∧ m.1.time < n.1.time ∧
      (Span.ofKnots b.1 (ns.map Prod.fst)).getLast?.getD (Span.between a.1 b.1) =
        Span.between m.1 n.1 ∧
      Juggling.pieceAt Cubic.start n.1.time (Cubic.hermite a.1 b.1 a.2 b.2) (pieces (b :: ns)) =
        Cubic.hermite m.1 n.1 m.2 n.2 := by
  obtain ⟨ha, hrest⟩ := List.pairwise_cons.mp hsorted
  induction ns generalizing a b with
  | nil => exact ⟨[], a, b, rfl, ha b List.mem_cons_self, rfl, rfl⟩
  | cons c ns ih =>
    obtain ⟨hb, hns⟩ := List.pairwise_cons.mp hrest
    obtain ⟨l, m, n, hlast, hmn, hspan, hpiece⟩ := ih hrest hb hns
    have hn : n ∈ c :: ns := by
      have : n ∈ (b :: c :: ns).tail := by
        rw [hlast]
        cases l <;> simp
      exact this
    refine ⟨a :: l, m, n, by rw [hlast]; rfl, hmn, ?_, ?_⟩
    · rw [← hspan, List.map_cons, Span.ofKnots, List.getLast?_cons, Option.getD_some]
    · rw [← hpiece]
      exact if_pos (hb n hn).le

/-- Pieces that meet without a jump of acceleration move steadily in velocity as well. -/
theorem steady_acceleration (hsorted : (a :: b :: ns).Pairwise fun n n' ↦ n.1.time < n'.1.time)
    (hjoined : Joined (a :: b :: ns)) :
    let at' (t : α) := Juggling.pieceAt Cubic.start t (Cubic.hermite a.1 b.1 a.2 b.2)
      (pieces (b :: ns))
    ∀ t, Steady (fun s x y ↦ x = (at' s).velocity s ∧ y = (at' s).acceleration s) t
      ((at' t).velocity t) ((at' t).acceleration t) := by
  intro at'
  obtain ⟨ha, hrest⟩ := List.pairwise_cons.mp hsorted
  have hab := ha b List.mem_cons_self
  induction ns generalizing a b with
  | nil => exact fun t ↦ Cubic.steady_velocity _ t
  | cons c ns ih =>
    obtain ⟨hb, hns⟩ := List.pairwise_cons.mp hrest
    obtain ⟨hmeet, hjoined⟩ := hjoined
    -- Up to the second knot it is the first piece, and from then on one of the others.
    have hlow (t : α) (ht : t < b.1.time) : at' t = Cubic.hermite a.1 b.1 a.2 b.2 :=
      if_neg (not_le.mpr ht)
    have hhigh (t : α) (ht : b.1.time ≤ t) : at' t = Juggling.pieceAt Cubic.start t
        (Cubic.hermite b.1 c.1 b.2 c.2) (pieces (c :: ns)) := if_pos ht
    refine Cubic.steady_switch (Cubic.steady_velocity _)
      (ih hrest hjoined hb hns (hb c List.mem_cons_self)) ⟨?_, ?_⟩ hlow hhigh
    · rw [pieceAt_first hrest, (Cubic.hermite_stop a.2 b.2 hab).2, (Cubic.hermite_start b.2 c.2).2]
    · rw [pieceAt_first hrest, hmeet]

end Spline

end Juggling
