import Mathlib.Data.List.Forall2
import Juggling.Proofs.Exact

namespace Juggling.Knots

variable {α : Type}

theorem map_zipWith_mk {times : List α} {positions : List (Coordinate α)}
    (h : positions.length = times.length) :
    (times.zipWith Knot.mk positions).map Knot.time = times ∧
      (times.zipWith Knot.mk positions).map Knot.position = positions := by
  induction times generalizing positions with
  | nil =>
    cases positions with
    | nil => exact ⟨rfl, rfl⟩
    | cons p ps => cases h
  | cons t ts ih =>
    cases positions with
    | nil => cases h
    | cons p ps =>
      obtain ⟨ht, hp⟩ := ih (Nat.succ.inj h)
      exact ⟨congrArg (t :: ·) ht, congrArg (p :: ·) hp⟩

theorem low_range (k : Knots α) : (k.toList.map Knot.time).head? = some k.range.low := rfl

theorem high_range (k : Knots α) : (k.toList.map Knot.time).getLast? = some k.range.high := by
  simp only [toList, range, endTime]
  cases h : k.rest.getLast? with
  | none => simp [List.getLast?_eq_none_iff.mp h]
  | some q =>
    obtain ⟨ks, hks⟩ := List.getLast?_eq_some_iff.mp h
    simp [hks, List.getLast?_cons]

variable [Exact α] {positions : List (Coordinate α)} {times : List α}
  {v w : Option (Coordinate α)} {k : Knots α}

theorem firstDecrease?_none {i : ℕ} {t : α} {ts : List α} (h : firstDecrease? i t ts = none) :
    (t :: ts).Pairwise (· < ·) := by
  induction ts generalizing i t with
  | nil => exact List.pairwise_singleton _ _
  | cons t' ts ih =>
    unfold firstDecrease? at h
    split_ifs at h with hlt
    have hts := ih h
    refine List.pairwise_cons.mpr ⟨fun x hx ↦ ?_, hts⟩
    rcases List.mem_cons.mp hx with rfl | hx
    · exact hlt
    · exact hlt.trans ((List.pairwise_cons.mp hts).1 x hx)

/-- Knots are at the places and the increasing times that they were made from. -/
theorem ofLists_ok (hok : ofLists positions times v w = .ok k) :
    k.toList.map Knot.time = times ∧ k.toList.map Knot.position = positions ∧
      times.Pairwise (· < ·) ∧ k.startVelocity = v ∧ k.endVelocity = w := by
  unfold ofLists at hok
  split_ifs at hok with hlen
  obtain ⟨htimes, hpositions⟩ := map_zipWith_mk (not_not.mp hlen)
  split at hok
  · rename_i first second rest heq
    split at hok
    · cases hok
    · rename_i hnone
      obtain rfl := Except.ok.inj hok
      rw [heq] at htimes hpositions
      refine ⟨htimes, hpositions, ?_, rfl, rfl⟩
      rw [← htimes]
      exact firstDecrease?_none hnone
  · cases hok

end Juggling.Knots

namespace Juggling

theorem Spline.knots_ofKnots {α : Type} [Exact α] {k : Knots α} {s : Spline α}
    (hok : ofKnots k = .ok s) : s.knots = k := by
  unfold ofKnots at hok
  simp only at hok
  split_ifs at hok
  split at hok
  · cases hok
    rfl
  · cases hok

end Juggling
