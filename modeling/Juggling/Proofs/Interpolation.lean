import Juggling.Proofs.Acceleration

namespace Juggling

variable {α : Type} [Exact α]

theorem Coordinate.along_zero (i : Axis) : (0 : Coordinate α).along i = 0 := by
  cases i <;> exact Int.cast_zero

namespace Spline

def acceleration (c : Spline α) (t : α) : Coordinate α := (c.pieceAt t).acceleration t

/-- An end with a velocity of its own takes that, and one without is free of acceleration. -/
def HasEnd (c : Spline α) (t : α) : Option (Coordinate α) → Prop
  | some v => c.velocity t = v
  | none => c.acceleration t = 0

/-- What a curve does at its two ends; if none has a velocity of its own, the curve closes up. -/
def HasEnds (c : Spline α) (w : Window α) : Option (Coordinate α) → Option (Coordinate α) → Prop
  | none, none => c.velocity w.low = c.velocity w.high ∧
      c.acceleration w.low = c.acceleration w.high
  | u, v => c.HasEnd w.low u ∧ c.HasEnd w.high v

omit [Exact α] in
/-- The velocities next to the ends are those at the second node and at the one before the last. -/
theorem ends_of_nodes {v₀ w₀ : Coordinate α} {vs : List (Coordinate α)}
    {a b m n : Knot α × Coordinate α} {l ns : List (Knot α × Coordinate α)}
    (hlast : a :: b :: ns = l ++ [m, n])
    (hvs : (a :: b :: ns).map Prod.snd = v₀ :: vs ++ [w₀]) :
    a.2 = v₀ ∧ n.2 = w₀ ∧ (∀ i, (vs.map (·.along i)).head?.getD (w₀.along i) = b.2.along i) ∧
      ∀ i, (vs.map (·.along i)).getLast?.getD (v₀.along i) = m.2.along i := by
  obtain ⟨ha, hbs⟩ := List.cons.inj hvs
  have hbefore : l.map Prod.snd ++ [m.2] = v₀ :: vs ∧ [n.2] = [w₀] := by
    rw [hlast] at hvs
    refine List.append_inj' ?_ rfl
    simpa using hvs
  refine ⟨ha, List.singleton_inj.mp hbefore.2, fun i ↦ ?_, fun i ↦ ?_⟩
  · have hhead := congrArg List.head? hbs
    cases vs <;> simp at hhead ⊢ <;> rw [hhead]
  · have hlast := congrArg List.getLast? hbefore.1
    rw [List.getLast?_concat, List.getLast?_cons] at hlast
    rw [List.getLast?_map, Option.getD_map, Option.some.inj hlast]

section Nodes

variable {k : Knots α} {c : Spline α} (hok : ofKnots k = .ok c)
  (hsorted : (k.toList.map Knot.time).Pairwise (· < ·))
include hok hsorted

/-- Velocities without a jump at the joints make a curve smooth, and those next to its ends give
the accelerations there. -/
theorem smooth_of_velocities {v₀ w₀ : Coordinate α} {vs : List (Coordinate α)}
    (hvs : velocities k = v₀ :: vs ++ [w₀])
    (hjoints : ∀ i, Row.Solves (v₀.along i) (w₀.along i)
      ((Span.joints (Span.between k.first k.second) (Span.ofKnots k.second k.rest)).map
        (Row.along i)) (vs.map (·.along i))) :
    let s := Span.between k.first k.second
    let s' := (Span.ofKnots k.second k.rest).getLast?.getD s
    (∀ t, Steady (fun s x y ↦ x = c.velocity s ∧ y = c.acceleration s) t (c.velocity t)
      (c.acceleration t)) ∧
    c.velocity k.range.low = v₀ ∧ c.velocity k.range.high = w₀ ∧ ∀ i,
      (c.acceleration k.range.low).along i = 2 * (1 / s.duration) *
        (3 * s.slope.along i - 2 * v₀.along i - (vs.map (·.along i)).head?.getD (w₀.along i)) ∧
      (c.acceleration k.range.high).along i = 2 * (1 / s'.duration) *
        ((vs.map (·.along i)).getLast?.getD (v₀.along i) + 2 * w₀.along i -
          3 * s'.slope.along i) := by
  intro s s'
  obtain ⟨a, b, ns, hknots, hvelocities, hpieces⟩ := exists_nodes hok
  obtain ⟨hpairs, htime, hhigh⟩ := times_nodes hknots hsorted
  obtain ⟨l, m, n, hlast, hmn, hspan, hpiece⟩ := exists_last hpairs
  replace hhigh : k.range.high = n.1.time := by
    rw [hlast, List.getLast?_map] at hhigh
    simpa using hhigh.symm
  simp only [Knots.toList, List.map_cons, List.cons.injEq] at hknots
  obtain ⟨hfirst, hsecond, hrest⟩ := hknots
  rw [← hfirst, ← hsecond, ← hrest] at hjoints
  obtain ⟨rfl, rfl, hnext, hprev⟩ := ends_of_nodes hlast (hvelocities.trans hvs)
  have hbs : (b :: ns).map Prod.snd = vs ++ [n.2] := List.tail_eq_of_cons_eq (hvelocities.trans hvs)
  have hlow : c.pieceAt k.range.low = Cubic.hermite a.1 b.1 a.2 b.2 := by
    rw [hpieces, htime, pieceAt_first hpairs]
  have hstop : c.pieceAt k.range.high = Cubic.hermite m.1 n.1 m.2 n.2 := by
    rw [hpieces, hhigh, hpiece]
  have hs : s = Span.between a.1 b.1 := by rw [hfirst, hsecond]
  have hs' : s' = Span.between m.1 n.1 := by
    rw [← hspan, hsecond, hfirst, hrest]
  have hsteady := steady_acceleration hpairs (joined_of_solves hpairs hbs hjoints)
  simp only [← hpieces] at hsteady
  refine ⟨hsteady, ?_, ?_, fun i ↦ ⟨?_, ?_⟩⟩
  · rw [velocity, hlow, htime, (Cubic.hermite_start _ _).2]
  · rw [velocity, hstop, hhigh, (Cubic.hermite_stop _ _ hmn).2]
  · rw [acceleration, hlow, htime, Cubic.acceleration_start, hnext, hs]
  · rw [acceleration, hstop, hhigh, Cubic.acceleration_stop _ _ hmn, hprev, hs']

theorem smooth_closed (hstart : k.startVelocity = none) (hend : k.endVelocity = none) :
    (∀ t, Steady (fun s x y ↦ x = c.velocity s ∧ y = c.acceleration s) t (c.velocity t)
      (c.acceleration t)) ∧ c.velocity k.range.low = c.velocity k.range.high ∧
        c.acceleration k.range.low = c.acceleration k.range.high := by
  have hpos : ∀ s ∈ Span.between k.first k.second :: Span.ofKnots k.second k.rest,
      0 < s.duration := Span.pos_ofKnots hsorted
  obtain ⟨v₀, vs, hvs, hall⟩ := Span.exists_closedVelocities hpos
  have hvelocities : velocities k = v₀ :: vs ++ [v₀] := by
    simp only [velocities, hstart, hend]
    exact hvs
  obtain ⟨hsteady, hlow, hhigh, hends⟩ := smooth_of_velocities hok hsorted hvelocities
    fun i ↦ (hall i).2
  refine ⟨hsteady, hlow.trans hhigh.symm, Coordinate.ext_along fun i ↦ ?_⟩
  have hjoint := (hall i).1
  rw [(hends i).1, (hends i).2]
  simp only [Span.joint, Coordinate.along_smul, Coordinate.along_add, Scalar.ofNat_eq] at hjoint
  push_cast at hjoint
  linear_combination -2 * hjoint

theorem smooth_open {v w : Option (Coordinate α)} (hvs : velocities k = Span.openVelocities v w
      (Span.between k.first k.second) (Span.ofKnots k.second k.rest)) :
    (∀ t, Steady (fun s x y ↦ x = c.velocity s ∧ y = c.acceleration s) t (c.velocity t)
      (c.acceleration t)) ∧ c.HasEnd k.range.low v ∧ c.HasEnd k.range.high w := by
  have hpos : ∀ s ∈ Span.between k.first k.second :: Span.ofKnots k.second k.rest,
      0 < s.duration := Span.pos_ofKnots hsorted
  obtain ⟨v₀, vs, w₀, hopen, hall⟩ := Span.exists_openVelocities hpos v w
  obtain ⟨hsteady, hlow, hhigh, hends⟩ := smooth_of_velocities hok hsorted (hvs.trans hopen)
    fun i ↦ (hall i).2.1
  refine ⟨hsteady, ?_, ?_⟩
  · cases v with
    | some v =>
      refine hlow.trans (Coordinate.ext_along fun i ↦ ?_)
      simpa [Span.startRow, Span.clamped] using (hall i).1
    | none =>
      refine Coordinate.ext_along fun i ↦ ?_
      have hfree := (hall i).1
      simp only [Span.startRow, Span.freeStart, Coordinate.along_smul, Scalar.ofNat_eq] at hfree
      push_cast at hfree
      rw [(hends i).1, Coordinate.along_zero]
      linear_combination -2 * (1 / (Span.between k.first k.second).duration) * hfree
  · cases w with
    | some w =>
      refine hhigh.trans (Coordinate.ext_along fun i ↦ ?_)
      simpa [Span.stopRow, Span.clamped] using (hall i).2.2
    | none =>
      refine Coordinate.ext_along fun i ↦ ?_
      have hfree := (hall i).2.2
      simp only [Span.stopRow, Span.freeEnd, Coordinate.along_smul, Scalar.ofNat_eq] at hfree
      push_cast at hfree
      rw [(hends i).2, Coordinate.along_zero]
      linear_combination 2 * (1 / ((Span.ofKnots k.second k.rest).getLast?.getD
        (Span.between k.first k.second)).duration) * hfree

/-- A curve is smooth in velocity and acceleration and has the ends that it is asked to have. -/
theorem smooth_ends :
    (∀ t, Steady (fun s x y ↦ x = c.velocity s ∧ y = c.acceleration s) t (c.velocity t)
      (c.acceleration t)) ∧ c.HasEnds k.range k.startVelocity k.endVelocity := by
  cases hstart : k.startVelocity with
  | none =>
    cases hend : k.endVelocity with
    | none => exact smooth_closed hok hsorted hstart hend
    | some w =>
      exact smooth_open hok hsorted (by simp only [velocities, hstart, hend])
  | some v =>
    exact smooth_open hok hsorted (by simp only [velocities, hstart])

end Nodes

end Spline

open Checked

namespace Span

omit [Exact α] in
theorem last_checked (first : Span α) (rest : List (Span α)) :
    (rest.map checked).getLast?.getD first.checked = (rest.getLast?.getD first).checked := by
  rw [List.getLast?_map, Option.getD_map]

theorem startRow_checked (v : Option (Coordinate α)) (s : Span α) :
    startRow (v.map Coordinate.checked) s.checked = row (startRow v s) := by
  cases v <;> rfl

theorem stopRow_checked (w : Option (Coordinate α)) (s : Span α) :
    stopRow (w.map Coordinate.checked) s.checked = row (stopRow w s) := by
  cases w <;> rfl

variable {first : Span α} {rest : List (Span α)} (hpos : ∀ s ∈ first :: rest, 0 < s.duration)
include hpos

theorem openVelocities_checked (v w : Option (Coordinate α)) :
    openVelocities (v.map Coordinate.checked) (w.map Coordinate.checked) first.checked
      (rest.map checked) = (openVelocities v w first rest).map Coordinate.checked := by
  have hsolve := Row.solve_map follows_defined carries_checked (solvable_open hpos v w)
  rw [List.map_append, List.map_cons, List.map_singleton] at hsolve
  rw [openVelocities_eq, openVelocities_eq, last_checked, joints_checked hpos, startRow_checked,
    stopRow_checked, ← hsolve]
  rfl

theorem cyclicVelocities_checked : cyclicVelocities first.checked (rest.map checked) =
    (cyclicVelocities first rest).map Coordinate.checked := by
  have hfirst := hpos first List.mem_cons_self
  have hlast := last_pos hpos
  have hr := joint_checked hlast hfirst
  rw [← last_checked] at hr
  have hr' : (joint (rest.getLast?.getD first) first).Dominant := dominant_joint hlast hfirst
  have hjoints := joints_checked hpos
  have hdominant := dominant_joints hpos
  rcases nil_singleton_or_concat (joints first rest) with hrows | ⟨s, hrows⟩ |
    ⟨middle, last, hne, hrows⟩ <;> rw [hrows] at hjoints hdominant
  · rw [cyclicVelocities_of_nil hr hjoints, cyclicVelocities_of_nil rfl hrows]
    generalize joint (rest.getLast?.getD first) first = r at hr'
    have hsum : r.diag + r.sub + r.sup ≠ @OfNat.ofNat α 0 (Scalar.instOfNat 0) := by
      simpa using hr'.sum_ne_zero
    simp only [row, Row.map, List.map_cons, List.map_nil, ← follows_defined.number,
      ← follows_defined.add, carries_checked.smul]
    rw [follows_defined.div _ _ hsum]
  · rw [cyclicVelocities_of_singleton hr hjoints, cyclicVelocities_of_singleton rfl hrows]
    generalize joint (rest.getLast?.getD first) first = r at hr'
    have hdet : r.diag * s.diag - (r.sub + r.sup) * (s.sub + s.sup) ≠
        @OfNat.ofNat α 0 (Scalar.instOfNat 0) := by
      simpa using hr'.det_ne_zero (hdominant s (List.mem_singleton_self s))
    simp only [row, Row.map, List.map_cons, List.map_nil, ← follows_defined.number,
      ← follows_defined.add, ← follows_defined.mul, ← follows_defined.sub, carries_checked.smul,
      carries_checked.sub]
    rw [follows_defined.div _ _ hdet]
  · obtain ⟨hmiddle, hlast⟩ := List.forall_mem_append.mp hdominant
    rw [List.map_append] at hjoints
    rw [cyclicVelocities_of_concat hr hjoints (by simpa using hne),
      cyclicVelocities_of_concat rfl hrows hne]
    exact Row.solveCyclic_map follows_defined carries_checked
      (Row.solvableCyclic_of_dominant hr' hmiddle (hlast last (List.mem_singleton_self last)))

theorem closedVelocities_checked : closedVelocities first.checked (rest.map checked) =
    (closedVelocities first rest).map Coordinate.checked := by
  rw [closedVelocities, closedVelocities, cyclicVelocities_checked hpos]
  simp only [List.head?_map, List.map_append]
  cases (cyclicVelocities first rest).head? <;> rfl

end Span

namespace Spline

theorem velocities_checked {k : Knots α}
    (hsorted : (k.toList.map Knot.time).Pairwise (· < ·)) :
    velocities k.checked = (velocities k).map Coordinate.checked := by
  have hpos : ∀ s ∈ Span.between k.first k.second :: Span.ofKnots k.second k.rest,
      0 < s.duration := Span.pos_ofKnots hsorted
  obtain ⟨hfirst, hrest⟩ := List.pairwise_cons.mp hsorted
  have hbetween := Span.between_checked (hfirst k.second.time (by simp))
  have hspans := Span.ofKnots_checked hrest
  cases hstart : k.startVelocity with
  | none =>
    cases hend : k.endVelocity with
    | none =>
      simp only [velocities, Knots.checked, hstart, hend, hbetween, hspans]
      exact Span.closedVelocities_checked hpos
    | some w =>
      simp only [velocities, Knots.checked, hstart, hend, hbetween, hspans]
      exact Span.openVelocities_checked hpos none (some w)
  | some v =>
    simp only [velocities, Knots.checked, hstart, hbetween, hspans]
    exact Span.openVelocities_checked hpos (some v) k.endVelocity

theorem pieces_checked {ns : List (Knot α × Coordinate α)}
    (hsorted : ns.Pairwise fun n n' ↦ n.1.time < n'.1.time) :
    pieces (ns.map fun n ↦ (n.1.checked, n.2.checked)) = (pieces ns).map Cubic.checked := by
  induction ns with
  | nil => rfl
  | cons a ns ih =>
    cases ns with
    | nil => rfl
    | cons b ns =>
      obtain ⟨ha, hrest⟩ := List.pairwise_cons.mp hsorted
      have := ih hrest
      simp only [List.map_cons, pieces] at this ⊢
      rw [this, Cubic.hermite_checked _ _ (ha b List.mem_cons_self)]

/-- Through knots in order of time there is a curve, and its calculation divides nothing by
zero. -/
theorem exists_ofKnots_checked {k : Knots α}
    (hsorted : (k.toList.map Knot.time).Pairwise (· < ·)) :
    ∃ c, ofKnots k = .ok c ∧ ofKnots k.checked = .ok c.checked := by
  have hlen := length_velocities k
  have hnodes : k.checked.toList.zip ((velocities k).map Coordinate.checked) =
      (k.toList.zip (velocities k)).map fun n ↦ (n.1.checked, n.2.checked) := by
    rw [show k.checked.toList = k.toList.map Knot.checked from rfl, List.zip_map]
    rfl
  have hpairs : (k.toList.zip (velocities k)).Pairwise fun n n' ↦ n.1.time < n'.1.time := by
    rwa [← List.map_fst_zip hlen.ge, List.map_map, List.pairwise_map] at hsorted
  have hfinite : ((velocities k).map Coordinate.checked).any (!·.isFinite) = false := by
    simp [Coordinate.isFinite_checked]
  obtain ⟨c, hc⟩ := exists_ofKnots k
  refine ⟨c, hc, ?_⟩
  simp only [ofKnots, velocities_checked hsorted, hfinite, hnodes, pieces_checked hpairs,
    Bool.false_eq_true, if_false]
  simp only [ofKnots, all_finite, Bool.false_eq_true, if_false] at hc
  cases hpieces : pieces (k.toList.zip (velocities k)) with
  | nil =>
    rw [hpieces] at hc
    cases hc
  | cons first rest =>
    rw [hpieces] at hc
    obtain rfl := Except.ok.inj hc
    rfl

/-- Through knots in order of time there is a curve: nothing is divided by zero to find it, it
passes all knots, it is smooth in velocity and acceleration, and it has the ends that it is asked
to have. -/
theorem exists_smooth {k : Knots α} (hsorted : (k.toList.map Knot.time).Pairwise (· < ·)) :
    ∃ c, ofKnots k = .ok c ∧ ofKnots k.checked = .ok c.checked ∧
      (∀ p ∈ k.toList, c.position p.time = p.position) ∧
      (∀ t, Steady (fun s x v ↦ x = c.position s ∧ v = c.velocity s) t (c.position t)
          (c.velocity t) ∧
        Steady (fun s v a ↦ v = c.velocity s ∧ a = c.acceleration s) t (c.velocity t)
          (c.acceleration t)) ∧
      c.HasEnds k.range k.startVelocity k.endVelocity := by
  obtain ⟨c, hok, hchecked⟩ := exists_ofKnots_checked hsorted
  obtain ⟨hpass, -, -, hsteady⟩ := ofKnots_ok hok hsorted
  obtain ⟨hsmooth, hends⟩ := smooth_ends hok hsorted
  exact ⟨c, hok, hchecked, hpass, fun t ↦ ⟨hsteady t, hsmooth t⟩, hends⟩

end Spline

/-- A way that ends where it began. -/
def Knots.lap : Knots ℚ where
  first := ⟨0, ⟨0, 0, 0⟩⟩
  second := ⟨1, ⟨2, 0, 1⟩⟩
  rest := [⟨2, ⟨2, 3, 0⟩⟩, ⟨4, ⟨0, 0, 0⟩⟩]
  startVelocity := none
  endVelocity := none

theorem Spline.exists_smooth_lap : (Knots.lap.toList.map Knot.time).Pairwise (· < ·) ∧
    ∃ c, ofKnots Knots.lap = .ok c ∧ ofKnots Knots.lap.checked = .ok c.checked ∧
      c.position 1 = ⟨2, 0, 1⟩ ∧ c.velocity 0 = c.velocity 4 ∧
        c.acceleration 0 = c.acceleration 4 := by
  have hsorted : (Knots.lap.toList.map Knot.time).Pairwise (· < ·) := by decide +kernel
  obtain ⟨c, hok, hchecked, hpass, -, hends⟩ := exists_smooth hsorted
  have hsecond : Knots.lap.second ∈ Knots.lap.toList :=
    List.mem_cons_of_mem _ List.mem_cons_self
  exact ⟨hsorted, c, hok, hchecked, hpass _ hsecond, hends⟩

end Juggling
