import Juggling.Proofs.Knots
import Juggling.Proofs.Smooth

namespace Juggling

variable {α : Type}

namespace Row

section Solve

variable {β : Type} [Sub β] [SMul α β]

/-- The unknown before those that are known, from its equation `x + c * x' = d`. -/
def substitute (c : α) (d : β) : List β → List β
  | [] => [d]
  | x :: xs => (d - c • x) :: x :: xs

@[simp] theorem length_substitute (c : α) (d : β) (xs : List β) :
    (substitute c d xs).length = xs.length + 1 := by
  cases xs <;> rfl

theorem getLast?_substitute (c : α) (d : β) {xs : List β} (h : xs ≠ []) :
    (substitute c d xs).getLast? = xs.getLast? := by
  cases xs with
  | nil => exact absurd rfl h
  | cons x xs => exact List.getLast?_cons_cons

variable [Scalar α]

theorem eliminate_cons (c : α) (d : β) (r : Row α β) (rows : List (Row α β)) :
    eliminate c d (r :: rows) =
      substitute (r.sup / (r.diag - r.sub * c)) ((1 / (r.diag - r.sub * c)) • (r.rhs - r.sub • d))
        (eliminate (r.sup / (r.diag - r.sub * c))
          ((1 / (r.diag - r.sub * c)) • (r.rhs - r.sub • d)) rows) := by
  conv_lhs => unfold eliminate
  simp only
  split <;> simp_all [substitute]

theorem solve_cons (r : Row α β) (rows : List (Row α β)) : solve (r :: rows) =
    substitute (r.sup / r.diag) ((1 / r.diag) • r.rhs)
      (eliminate (r.sup / r.diag) ((1 / r.diag) • r.rhs) rows) := by
  simp only [solve]
  split <;> simp_all [substitute]

@[simp] theorem length_eliminate (c : α) (d : β) (rows : List (Row α β)) :
    (eliminate c d rows).length = rows.length := by
  induction rows generalizing c d with
  | nil => rfl
  | cons r rows ih => rw [eliminate_cons, length_substitute, ih, List.length_cons]

@[simp] theorem length_solve (rows : List (Row α β)) : (solve rows).length = rows.length := by
  cases rows with
  | nil => rfl
  | cons r rows => rw [solve_cons, length_substitute, length_eliminate, List.length_cons]

theorem length_solveCyclic [Add β] (first : Row α β) (middle : List (Row α β)) (last : Row α β) :
    (solveCyclic first middle last).length = middle.length + 2 := by
  unfold solveCyclic
  simp only
  split
  · simp [withoutCorners]
  · rename_i hnone
    refine (hnone _ _ _ _ (List.head?_eq_some_head ?_) (List.getLast?_eq_some_getLast ?_)
      (List.head?_eq_some_head ?_) (List.getLast?_eq_some_getLast ?_)).elim <;>
    exact List.ne_nil_of_length_pos (by simp [withoutCorners])

end Solve

end Row

namespace Span

section Lengths

variable [Scalar α] (first : Span α) (rest : List (Span α))

@[simp] theorem length_ofKnots (before : Knot α) (ks : List (Knot α)) :
    (ofKnots before ks).length = ks.length := by
  induction ks generalizing before with
  | nil => rfl
  | cons k ks ih => simp [ofKnots, ih]

@[simp] theorem length_joints : (joints first rest).length = rest.length := by
  induction rest generalizing first with
  | nil => rfl
  | cons s rest ih => simp [joints, ih]

theorem length_openVelocities (v w : Option (Coordinate α)) :
    (openVelocities v w first rest).length = rest.length + 2 := by
  simp [openVelocities]

theorem length_cyclicVelocities : (cyclicVelocities first rest).length = rest.length + 1 := by
  have hlen := length_joints first rest
  unfold cyclicVelocities
  simp only
  split
  · rename_i heq
    simp [← hlen, heq]
  · rename_i heq
    simp [← hlen, heq]
  · rename_i hnil hsingle
    rw [Row.length_solveCyclic, List.length_dropLast, hlen]
    -- There are at least two joints left.
    have : 2 ≤ rest.length := by
      rw [← hlen]
      match h : joints first rest with
      | [] => exact absurd h hnil
      | [s] => exact absurd h (hsingle s)
      | _ :: _ :: _ => simp
    omega

theorem length_closedVelocities : (closedVelocities first rest).length = rest.length + 2 := by
  have hlen := length_cyclicVelocities first rest
  unfold closedVelocities
  cases h : cyclicVelocities first rest with
  | nil => simp [h] at hlen
  | cons v vs =>
    rw [h] at hlen
    simp at hlen ⊢
    omega

theorem head?_closedVelocities :
    (closedVelocities first rest).head? = (closedVelocities first rest).getLast? := by
  have hlen := length_cyclicVelocities first rest
  unfold closedVelocities
  cases h : cyclicVelocities first rest with
  | nil => simp [h] at hlen
  | cons v vs => simp [List.getLast?_cons]

end Lengths

variable [Exact α] (first : Span α) (rest : List (Span α)) (v w : Coordinate α)

theorem head?_openVelocities :
    (openVelocities (some v) (some w) first rest).head? = some v := by
  simp only [openVelocities, clamped, List.cons_append, Row.solve_cons]
  have key {c : α} {d : Coordinate α} (hc : c = 0) (hd : d = v) (xs : List (Coordinate α)) :
      (Row.substitute c d xs).head? = some v := by
    subst hc hd
    cases xs with
    | nil => rfl
    | cons x xs => exact congrArg some (Coordinate.ext_along fun i ↦ by simp)
  exact key (by simp) (Coordinate.ext_along fun i ↦ by simp) _

theorem getLast?_eliminate (c : α) (d : Coordinate α) (rows : List (Row α (Coordinate α))) :
    (Row.eliminate c d (rows ++ [clamped w])).getLast? = some w := by
  induction rows generalizing c d with
  | nil =>
    refine congrArg some (Coordinate.ext_along fun i ↦ ?_)
    simp [clamped]
  | cons r rows ih =>
    rw [List.cons_append, Row.eliminate_cons,
      Row.getLast?_substitute _ _ (List.ne_nil_of_length_pos (by simp)), ih]

theorem getLast?_openVelocities :
    (openVelocities (some v) (some w) first rest).getLast? = some w := by
  simp only [openVelocities, List.cons_append, Row.solve_cons]
  rw [Row.getLast?_substitute _ _ (List.ne_nil_of_length_pos (by simp)), getLast?_eliminate]

end Span

namespace Spline

theorem length_velocities [Scalar α] (k : Knots α) :
    (velocities k).length = k.toList.length := by
  unfold velocities
  simp only
  split
  · simp [Span.length_closedVelocities, Knots.toList]
  · simp [Span.length_openVelocities, Knots.toList]

variable [Exact α]

/-- Pieces from knot to knot pass all knots with the velocities there, without a jump between
them. -/
theorem pieces_spec {a b : Knot α × Coordinate α} {ns : List (Knot α × Coordinate α)}
    (hsorted : (a :: b :: ns).Pairwise fun n n' ↦ n.1.time < n'.1.time) :
    let at' (t : α) := Juggling.pieceAt Cubic.start t (Cubic.hermite a.1 b.1 a.2 b.2)
      (pieces (b :: ns))
    (∀ n ∈ a :: b :: ns, (at' n.1.time).position n.1.time = n.1.position ∧
      (at' n.1.time).velocity n.1.time = n.2) ∧
    ∀ t, Steady (fun s x y ↦ x = (at' s).position s ∧ y = (at' s).velocity s) t
      ((at' t).position t) ((at' t).velocity t) := by
  intro at'
  obtain ⟨ha, hrest⟩ := List.pairwise_cons.mp hsorted
  have hab := ha b List.mem_cons_self
  have hstart := Cubic.hermite_start (p := a.1) (q := b.1) a.2 b.2
  have hstop := Cubic.hermite_stop a.2 b.2 hab
  induction ns generalizing a b with
  | nil =>
    refine ⟨fun n hn ↦ ?_, fun t ↦ Cubic.steady _ t⟩
    rcases List.mem_pair.mp hn with rfl | rfl
    · exact hstart
    · exact hstop
  | cons c ns ih =>
    obtain ⟨hb, hns⟩ := List.pairwise_cons.mp hrest
    have hbc := hb c List.mem_cons_self
    obtain ⟨hpass, hsteady⟩ := ih hrest hb hns hbc (Cubic.hermite_start b.2 c.2)
      (Cubic.hermite_stop b.2 c.2 hbc)
    -- Up to the second knot it is the first piece, and from then on one of the others.
    have hlow (t : α) (ht : t < b.1.time) : at' t = Cubic.hermite a.1 b.1 a.2 b.2 :=
      if_neg (not_le.mpr ht)
    have hhigh (t : α) (ht : b.1.time ≤ t) : at' t = Juggling.pieceAt Cubic.start t
        (Cubic.hermite b.1 c.1 b.2 c.2) (pieces (c :: ns)) := if_pos ht
    obtain ⟨hplace, hvelocity⟩ := hpass b List.mem_cons_self
    refine ⟨fun n hn ↦ ?_, Cubic.steady_switch (Cubic.steady _) hsteady
      ⟨hstop.1.trans hplace.symm, hstop.2.trans hvelocity.symm⟩ hlow hhigh⟩
    rcases List.mem_cons.mp hn with rfl | hn
    · rw [hlow _ hab]
      exact hstart
    · have hle : b.1.time ≤ n.1.time := by
        rcases List.mem_cons.mp hn with rfl | hn
        · exact le_rfl
        · exact (hb n hn).le
      rw [hhigh _ hle]
      exact hpass n hn

theorem ends_velocities (k : Knots α) :
    (∀ v w, k.startVelocity = some v → k.endVelocity = some w →
      (velocities k).head? = some v ∧ (velocities k).getLast? = some w) ∧
    (k.startVelocity = none → k.endVelocity = none →
      (velocities k).head? = (velocities k).getLast?) := by
  refine ⟨fun v w hv hw ↦ ?_, fun hv hw ↦ ?_⟩ <;> simp only [velocities, hv, hw]
  · exact ⟨Span.head?_openVelocities _ _ v w, Span.getLast?_openVelocities _ _ v w⟩
  · exact Span.head?_closedVelocities _ _

theorem exists_pieces {k : Knots α} {c : Spline α} (hok : ofKnots k = .ok c) :
    ∃ a b ns, (a :: b :: ns).map Prod.fst = k.toList ∧
      (a :: b :: ns).map Prod.snd = velocities k ∧
      c = ⟨k, Cubic.hermite a.1 b.1 a.2 b.2, pieces (b :: ns)⟩ := by
  have hlen := length_velocities k
  unfold ofKnots at hok
  simp only at hok
  split_ifs at hok
  generalize velocities k = vs at hok hlen
  match vs, hlen with
  | v₀ :: v₁ :: vs, hlen =>
    simp only [Knots.toList, List.length_cons, Nat.add_right_cancel_iff] at hlen
    simp only [Knots.toList, List.zip_cons_cons, pieces] at hok
    refine ⟨(k.first, v₀), (k.second, v₁), k.rest.zip vs, ?_, ?_, (Except.ok.inj hok).symm⟩
    · rw [List.map_cons, List.map_cons, List.map_fst_zip hlen.ge]
      rfl
    · rw [List.map_cons, List.map_cons, List.map_snd_zip hlen.le]

/-- A solved curve consists of pieces between knots with velocities. -/
theorem exists_nodes {k : Knots α} {c : Spline α} (hok : ofKnots k = .ok c) :
    ∃ a b ns, (a :: b :: ns).map Prod.fst = k.toList ∧
      (a :: b :: ns).map Prod.snd = velocities k ∧ ∀ t, c.pieceAt t =
        Juggling.pieceAt Cubic.start t (Cubic.hermite a.1 b.1 a.2 b.2) (pieces (b :: ns)) := by
  obtain ⟨a, b, ns, hknots, hvelocities, rfl⟩ := exists_pieces hok
  exact ⟨a, b, ns, hknots, hvelocities, fun t ↦ rfl⟩

/-- The nodes of a curve follow one another in time over the range of its knots. -/
theorem times_nodes {k : Knots α} {a b : Knot α × Coordinate α} {ns : List (Knot α × Coordinate α)}
    (hknots : (a :: b :: ns).map Prod.fst = k.toList)
    (hsorted : (k.toList.map Knot.time).Pairwise (· < ·)) :
    (a :: b :: ns).Pairwise (fun n n' ↦ n.1.time < n'.1.time) ∧ k.range.low = a.1.time ∧
      ((a :: b :: ns).map fun n ↦ n.1.time).getLast? = some k.range.high := by
  have hlow := k.low_range
  have hhigh := k.high_range
  rw [← hknots, List.map_map] at hsorted hlow hhigh
  exact ⟨List.pairwise_map.mp hsorted, (Option.some.inj hlow).symm, hhigh⟩

/-- A curve through knots, with the velocities asked for at its ends, or else with the same one at
both. -/
theorem ofKnots_ok {k : Knots α} {c : Spline α} (hok : ofKnots k = .ok c)
    (hsorted : (k.toList.map Knot.time).Pairwise (· < ·)) :
    (∀ p ∈ k.toList, c.position p.time = p.position) ∧
    (∀ v w, k.startVelocity = some v → k.endVelocity = some w →
      c.velocity k.range.low = v ∧ c.velocity k.range.high = w) ∧
    (k.startVelocity = none → k.endVelocity = none →
      c.velocity k.range.low = c.velocity k.range.high) ∧
    ∀ t, Steady (fun s x y ↦ x = c.position s ∧ y = c.velocity s) t (c.position t)
      (c.velocity t) := by
  obtain ⟨a, b, ns, hknots, hvelocities, hpieces⟩ := exists_nodes hok
  obtain ⟨hpairs, hstart, hstop⟩ := times_nodes hknots hsorted
  obtain ⟨hpass, hsteady⟩ := pieces_spec hpairs
  simp only [← hpieces] at hpass hsteady
  -- The velocities at the ends are those at the first and the last knot.
  have hlow : (velocities k).head? = some (c.velocity k.range.low) := by
    rw [← hvelocities, hstart]
    exact congrArg some (hpass a List.mem_cons_self).2.symm
  have hhigh : (velocities k).getLast? = some (c.velocity k.range.high) := by
    obtain ⟨n, hn⟩ : ∃ n, (a :: b :: ns).getLast? = some n :=
      ⟨_, List.getLast?_eq_some_getLast (List.cons_ne_nil _ _)⟩
    rw [List.getLast?_map, hn] at hstop
    rw [← hvelocities, List.getLast?_map, hn, ← Option.some.inj hstop]
    exact congrArg some (hpass n (List.mem_of_getLast? hn)).2.symm
  obtain ⟨hclamped, hclosed⟩ := ends_velocities k
  refine ⟨fun p hp ↦ ?_, fun v w hv hw ↦ ?_, fun hv hw ↦ ?_, hsteady⟩
  · rw [← hknots] at hp
    obtain ⟨m, hm, rfl⟩ := List.mem_map.mp hp
    exact (hpass m hm).1
  · obtain ⟨hfirst, hlast⟩ := hclamped v w hv hw
    exact ⟨Option.some.inj (hlow.symm.trans hfirst), Option.some.inj (hhigh.symm.trans hlast)⟩
  · exact Option.some.inj (hlow.symm.trans ((hclosed hv hw).trans hhigh))

end Spline

end Juggling
