import Juggling.Proofs.Flights
import Juggling.Proofs.Splines

namespace Juggling

variable {α : Type} [Exact α]

theorem pieceAt_map {β γ : Type} {start : β → α} {start' : γ → α} {f : β → γ} {t t' : α}
    (h : ∀ c, start' (f c) ≤ t' ↔ start c ≤ t) (c : β) (cs : List β) :
    pieceAt start' t' (f c) (cs.map f) = f (pieceAt start t c cs) := by
  induction cs generalizing c with
  | nil => rfl
  | cons d cs ih =>
    simp only [List.map_cons, pieceAt, h]
    split_ifs
    · exact ih d
    · rfl

def Knot.later (p : Knot α) (s : α) : Knot α := { p with time := p.time + s }

def Knots.later (k : Knots α) (s : α) : Knots α :=
  { k with
    first := k.first.later s
    second := k.second.later s
    rest := k.rest.map (·.later s) }

namespace Knots

theorem firstDecrease?_later (i : ℕ) (t s : α) (ts : List α) :
    firstDecrease? i (t + s) (ts.map (· + s)) =
      (firstDecrease? i t ts).map fun p ↦ (p.1, p.2 + s) := by
  induction ts generalizing i t with
  | nil => rfl
  | cons u ts ih =>
    simp only [List.map_cons, firstDecrease?, ih]
    split_ifs <;> simp_all

theorem ofLists_later {positions : List (Coordinate α)} {times : List α}
    {v w : Option (Coordinate α)} {k : Knots α} (hok : ofLists positions times v w = .ok k)
    (s : α) : ofLists positions (times.map (· + s)) v w = .ok (k.later s) := by
  have hzip : (times.map (· + s)).zipWith Knot.mk positions =
      (times.zipWith Knot.mk positions).map (·.later s) := by
    rw [List.zipWith_map_left, List.map_zipWith]
    rfl
  unfold ofLists at hok ⊢
  rw [List.length_map, hzip]
  split_ifs at hok ⊢
  split at hok
  · rename_i first second rest heq
    have hdecrease := firstDecrease?_later 1 first.time s (second.time :: rest.map Knot.time)
    rw [List.map_cons, List.map_map] at hdecrease
    split at hok
    · cases hok
    · rename_i hnone
      obtain rfl := Except.ok.inj hok
      rw [hnone, Option.map_none] at hdecrease
      simp only [heq, List.map_cons, List.map_map]
      rw [show firstDecrease? 1 (first.later s).time ((second.later s).time ::
        rest.map (Knot.time ∘ (·.later s))) = none from hdecrease]
      rfl
  · cases hok

end Knots

theorem Span.between_later (p q : Knot α) (s : α) :
    between (p.later s) (q.later s) = between p q := by
  simp [between, Knot.later]

theorem Span.ofKnots_later (p : Knot α) (ks : List (Knot α)) (s : α) :
    ofKnots (p.later s) (ks.map (·.later s)) = ofKnots p ks := by
  induction ks generalizing p with
  | nil => rfl
  | cons k ks ih => rw [List.map_cons, ofKnots, ofKnots, between_later, ih]

namespace Cubic

def later (p : Cubic α) (s : α) : Cubic α := { p with start := p.start + s, stop := p.stop + s }

theorem hermite_later (p q : Knot α) (v w : Coordinate α) (s : α) :
    hermite (p.later s) (q.later s) v w = (hermite p q v w).later s := by
  simp [hermite, later, Knot.later]

theorem position_later (p : Cubic α) (s t : α) : (p.later s).position (t + s) = p.position t := by
  simp [position, later]

theorem velocity_later (p : Cubic α) (s t : α) : (p.later s).velocity (t + s) = p.velocity t := by
  simp [velocity, later]

end Cubic

namespace Spline

def later (c : Spline α) (s : α) : Spline α :=
  ⟨c.knots.later s, c.first.later s, c.rest.map (·.later s)⟩

theorem pieces_later (ns : List (Knot α × Coordinate α)) (s : α) :
    pieces (ns.map fun n ↦ (n.1.later s, n.2)) = (pieces ns).map (·.later s) := by
  induction ns with
  | nil => rfl
  | cons a ns ih =>
    cases ns with
    | nil => rfl
    | cons b ns =>
      simp only [List.map_cons, pieces, Cubic.hermite_later] at ih ⊢
      rw [ih]

theorem velocities_later (k : Knots α) (s : α) : velocities (k.later s) = velocities k := by
  simp only [velocities, Knots.later, Span.between_later, Span.ofKnots_later]

/-- Knots that are passed some time later give the same curve some time later. -/
theorem ofKnots_later (k : Knots α) (s : α) :
    ofKnots (k.later s) = (ofKnots k).map (·.later s) := by
  have hnodes : (k.later s).toList.zip (velocities k) =
      (k.toList.zip (velocities k)).map fun n ↦ (n.1.later s, n.2) := by
    rw [show (k.later s).toList = k.toList.map (·.later s) from rfl, List.zip_map_left]
    rfl
  simp only [ofKnots, velocities_later, hnodes, pieces_later]
  split_ifs
  · rfl
  · cases pieces (k.toList.zip (velocities k)) <;> rfl

theorem pieceAt_later (c : Spline α) (s t : α) :
    (c.later s).pieceAt (t + s) = (c.pieceAt t).later s :=
  pieceAt_map (f := fun p : Cubic α ↦ p.later s) (fun _ ↦ add_le_add_iff_right s) c.first c.rest

theorem position_later (c : Spline α) (s t : α) :
    (c.later s).position (t + s) = c.position t := by
  rw [position, pieceAt_later, Cubic.position_later, position]

theorem velocity_later (c : Spline α) (s t : α) :
    (c.later s).velocity (t + s) = c.velocity t := by
  rw [velocity, pieceAt_later, Cubic.velocity_later, velocity]

theorem later_at (c : Spline α) (s : α) :
    (c.later s).position s = c.position 0 ∧ (c.later s).velocity s = c.velocity 0 := by
  have hplace := c.position_later s 0
  have hvelocity := c.velocity_later s 0
  rw [zero_add] at hplace hvelocity
  exact ⟨hplace, hvelocity⟩

end Spline

def Launch.later (l : Launch α) (s : α) : Launch α := ⟨l.start.later s, l.stop.later s⟩

theorem Launch.duration_later (l : Launch α) (s : α) : (l.later s).duration = l.duration := by
  simp [duration, later, Knot.later]

namespace Toss

def later (f : Toss α) (s : α) : Toss α := { f with launch := f.launch.later s }

theorem ofLaunch_later (g : α) (l : Launch α) (s : α) :
    ofLaunch g (l.later s) = (ofLaunch g l).later s := by
  simp only [ofLaunch, later, Launch.duration_later]
  rfl

theorem position_later (f : Toss α) (s t : α) : (f.later s).position (t + s) = f.position t := by
  simp [position, later, Launch.later, Knot.later]

end Toss

namespace Bounce

def later (f : Bounce α) (s : α) : Bounce α :=
  { f with launch := f.launch.later s, course := f.course.later s }

theorem heightAt_later (f : Bounce α) (s t : α) :
    (f.later s).heightAt (t + s) = f.heightAt t := by
  have hpiece : pieceAt Arc.time (t + s) (f.later s).course.first (f.later s).course.rebounds =
      { pieceAt Arc.time t f.course.first f.course.rebounds with
        time := (pieceAt Arc.time t f.course.first f.course.rebounds).time + s } :=
    pieceAt_map (f := fun a : Arc α ↦ { a with time := a.time + s })
      (fun _ ↦ add_le_add_iff_right s) f.course.first f.course.rebounds
  unfold heightAt
  rw [hpiece]
  simp [Arc.heightAt, later]

theorem position_later (f : Bounce α) (s t : α) :
    (f.later s).position (t + s) = f.position t := by
  simp only [position, heightAt_later]
  simp [later, Launch.later, Knot.later]

variable [Numeral α] {m : Modifier} {l : Launch α} {f : Bounce α}

theorem build_later (hok : build m l = .ok f) (s : α) :
    build m (l.later s) = .ok (f.later s) := by
  unfold build at hok ⊢
  simp only [bind_eq_ok] at hok ⊢
  obtain ⟨_, hunknown, _, hbounces, hok⟩ := hok
  refine ⟨_, hunknown, _, hbounces, ?_⟩
  split_ifs at hok ⊢ with hwhole
  · simp at hok
  obtain ⟨_, hkept, hok⟩ := bind_eq_ok.mp hok
  refine bind_eq_ok.mpr ⟨_, hkept, ?_⟩
  split_ifs at hok ⊢ with hpart
  · simp at hok
  obtain ⟨_, hg, hok⟩ := bind_eq_ok.mp hok
  refine bind_eq_ok.mpr ⟨_, hg, ?_⟩
  split_ifs at hok ⊢ with hpull
  · simp at hok
  simp only [bind_eq_ok] at hok ⊢
  obtain ⟨_, hfloor, _, hforced, _, hhyper, hok⟩ := hok
  refine ⟨_, hfloor, _, hforced, _, hhyper, ?_⟩
  split_ifs at hok with habove
  · simp at hok
  rw [if_neg (show ¬(decide ((l.later s).start.position.z ≤ _) ||
    decide ((l.later s).stop.position.z ≤ _)) = true from habove)]
  obtain ⟨speed, hspeed, hok⟩ := bind_eq_ok.mp hok
  refine bind_eq_ok.mpr ⟨speed, by rw [Launch.duration_later]; exact hspeed, ?_⟩
  simp only [Launch.duration_later]
  split at hok
  · simp at hok
  · rename_i course hcourse
    obtain rfl := pure_eq_ok.mp hok
    rw [show (l.later s).start.position.z = l.start.position.z from rfl, hcourse]
    simp [later, Course.later, Launch.later, Knot.later, add_assoc]

end Bounce

namespace Flight

def later (f : Flight α) (s : α) : Flight α :=
  match f with
  | toss f => toss (f.later s)
  | bounce f => bounce (f.later s)

theorem position_later (f : Flight α) (s t : α) : (f.later s).position (t + s) = f.position t := by
  cases f with
  | toss f => exact f.position_later s t
  | bounce f => exact f.position_later s t

theorem startVelocity_later (f : Flight α) (s : α) :
    (f.later s).startVelocity = f.startVelocity := by
  cases f <;> rfl

theorem endVelocity_later (f : Flight α) (s : α) : (f.later s).endVelocity = f.endVelocity := by
  cases f with
  | toss f => simp [later, endVelocity, Toss.endVelocity, Toss.later, Launch.duration_later]
  | bounce f => rfl

variable [Numeral α]

/-- A throw that is made some time later flies as it would have before. -/
theorem build_later {kind : ThrowKind} {modifier : String} {l : Launch α} {f : Flight α}
    (hok : build kind modifier l = .ok f) (s : α) :
    build kind modifier (l.later s) = .ok (f.later s) := by
  unfold build at hok ⊢
  split_ifs at hok with hlt
  rw [if_pos (show (l.later s).start.time < (l.later s).stop.time from add_lt_add_left hlt s)]
  cases kind with
  | toss =>
    obtain ⟨f, hf, rfl⟩ := map_eq_ok.mp hok
    refine map_eq_ok.mpr ⟨f.later s, ?_, rfl⟩
    obtain ⟨_, hunknown, hf⟩ := bind_eq_ok.mp hf
    obtain ⟨g, hg, hf⟩ := bind_eq_ok.mp hf
    obtain rfl := Except.ok.inj hf
    exact bind_eq_ok.mpr
      ⟨_, hunknown, bind_eq_ok.mpr ⟨g, hg, congrArg _ (Toss.ofLaunch_later g l s)⟩⟩
  | bounce =>
    obtain ⟨f, hf, rfl⟩ := map_eq_ok.mp hok
    exact map_eq_ok.mpr ⟨f.later s, Bounce.build_later hf s, rfl⟩

end Flight

end Juggling
