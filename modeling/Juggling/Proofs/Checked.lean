import Juggling.Proofs.Tridiagonal

namespace Juggling

/-- Numbers that remember a division by zero: what it gives is undefined, and so is all that is
calculated from it. -/
inductive Checked (α : Type) where
  | defined (x : α)
  | undefined

namespace Checked

variable {α : Type}

def bind₂ (f : α → α → Checked α) : Checked α → Checked α → Checked α
  | defined x, defined y => f x y
  | _, _ => undefined

def bind (f : α → Checked α) : Checked α → Checked α
  | defined x => f x
  | undefined => undefined

/-- A relation that holds for nothing undefined. -/
def Both (r : α → α → Prop) : Checked α → Checked α → Prop
  | defined x, defined y => r x y
  | _, _ => False

instance (r : α → α → Prop) [DecidableRel r] : DecidableRel (Both r)
  | defined x, defined y => inferInstanceAs (Decidable (r x y))
  | defined _, undefined => inferInstanceAs (Decidable False)
  | undefined, _ => inferInstanceAs (Decidable False)

variable [Exact α]

instance : Scalar (Checked α) where
  add := bind₂ fun x y ↦ defined (x + y)
  sub := bind₂ fun x y ↦ defined (x - y)
  mul := bind₂ fun x y ↦ defined (x * y)
  div := bind₂ fun x y ↦ if y = 0 then undefined else defined (x / y)
  neg := bind fun x ↦ defined (-x)
  lt := Both (· < ·)
  le := Both (· ≤ ·)
  beq x y := decide (Both (· = ·) x y)
  ofInt n := defined (Scalar.ofInt n)
  ofDecimal m below e := defined (Scalar.ofDecimal m below e)
  decLt := inferInstance
  decLe := inferInstance
  precedes x y := decide (Both (· ≤ ·) x y)
  floorInt
    | defined x => Scalar.floorInt x
    | undefined => 0
  remainder := bind₂ fun x y ↦ if y = 0 then undefined else defined (Scalar.remainder x y)
  sqrt := bind fun x ↦ if x < 0 then undefined else defined (Scalar.sqrt x)
  sin := bind fun x ↦ defined (Scalar.sin x)
  cos := bind fun x ↦ defined (Scalar.cos x)
  pi := defined Scalar.pi

end Checked

namespace Coordinate

variable {α : Type}

def checked (a : Coordinate α) : Coordinate (Checked α) :=
  ⟨.defined a.x, .defined a.y, .defined a.z⟩

theorem isFinite_checked [Exact α] (a : Coordinate α) : a.checked.isFinite = true := by
  have key (x : α) : Scalar.isFinite (Checked.defined x) = true := by
    refine decide_eq_true ?_
    show x - x = Scalar.ofInt 0
    simp
  simp only [isFinite, checked, key, Bool.and_self]

end Coordinate

section Curves

variable {α : Type}

def Knot.checked (k : Knot α) : Knot (Checked α) := ⟨.defined k.time, k.position.checked⟩

def Knots.checked (k : Knots α) : Knots (Checked α) where
  first := k.first.checked
  second := k.second.checked
  rest := k.rest.map Knot.checked
  startVelocity := k.startVelocity.map Coordinate.checked
  endVelocity := k.endVelocity.map Coordinate.checked

def Span.checked (s : Span α) : Span (Checked α) := ⟨.defined s.duration, s.slope.checked⟩

def Cubic.checked (p : Cubic α) : Cubic (Checked α) :=
  ⟨.defined p.start, .defined p.stop, p.a.checked, p.b.checked, p.c.checked, p.d.checked⟩

def Spline.checked (c : Spline α) : Spline (Checked α) :=
  ⟨c.knots.checked, c.first.checked, c.rest.map Cubic.checked⟩

end Curves

variable {α : Type} [Exact α]

namespace Checked

theorem follows_defined : Row.Follows (defined : α → Checked α) where
  number _ := rfl
  add _ _ := rfl
  sub _ _ := rfl
  mul _ _ := rfl
  neg _ := rfl
  div x y hy := (if_neg (by simpa using hy)).symm

theorem carries_checked :
    Row.Carries (defined : α → Checked α) (Coordinate.checked : _ → Coordinate (Checked α)) where
  add _ _ := rfl
  sub _ _ := rfl
  smul _ _ := rfl

end Checked

namespace Checked

/-- An equation as it is when its numbers are checked. -/
def row (r : Row α (Coordinate α)) : Row (Checked α) (Coordinate (Checked α)) :=
  r.map defined Coordinate.checked

end Checked

open Checked

namespace Span

theorem between_checked {p q : Knot α} (h : p.time < q.time) :
    between p.checked q.checked = (between p q).checked := by
  have hne : q.time - p.time ≠ @OfNat.ofNat α 0 (Scalar.instOfNat 0) := by
    simpa using (sub_pos.mpr h).ne'
  simp only [between, Knot.checked, checked, ← follows_defined.sub]
  rw [← follows_defined.number, ← follows_defined.div _ _ hne, ← carries_checked.sub,
    ← carries_checked.smul]

theorem ofKnots_checked {p : Knot α} {ks : List (Knot α)}
    (hsorted : ((p :: ks).map Knot.time).Pairwise (· < ·)) :
    ofKnots p.checked (ks.map Knot.checked) = (ofKnots p ks).map checked := by
  induction ks generalizing p with
  | nil => rfl
  | cons k ks ih =>
    obtain ⟨hp, hrest⟩ := List.pairwise_cons.mp hsorted
    rw [List.map_cons, ofKnots, ofKnots, List.map_cons, ih hrest,
      between_checked (hp k.time List.mem_cons_self)]

theorem joint_checked {s t : Span α} (hs : 0 < s.duration) (ht : 0 < t.duration) :
    joint s.checked t.checked = row (joint s t) := by
  have hs' : s.duration ≠ @OfNat.ofNat α 0 (Scalar.instOfNat 0) := by simpa using hs.ne'
  have ht' : t.duration ≠ @OfNat.ofNat α 0 (Scalar.instOfNat 0) := by simpa using ht.ne'
  simp only [joint, checked, row, Row.map, ← follows_defined.number, ← follows_defined.div _ _ hs',
    ← follows_defined.div _ _ ht', ← follows_defined.add, ← follows_defined.mul,
    ← carries_checked.smul, ← carries_checked.add]

theorem joints_checked {first : Span α} {rest : List (Span α)}
    (hpos : ∀ s ∈ first :: rest, 0 < s.duration) :
    joints first.checked (rest.map checked) = (joints first rest).map row := by
  induction rest generalizing first with
  | nil => rfl
  | cons s rest ih =>
    obtain ⟨hfirst, hrest⟩ := List.forall_mem_cons.mp hpos
    rw [List.map_cons, joints, joints, List.map_cons, ih hrest,
      joint_checked hfirst (hrest s List.mem_cons_self)]

end Span

namespace Cubic

theorem hermite_checked {p q : Knot α} (v w : Coordinate α) (h : p.time < q.time) :
    hermite p.checked q.checked v.checked w.checked = (hermite p q v w).checked := by
  have hpos := sub_pos.mpr h
  have hne : q.time - p.time ≠ @OfNat.ofNat α 0 (Scalar.instOfNat 0) := by
    simpa using hpos.ne'
  have hne' : (q.time - p.time) * (q.time - p.time) ≠ @OfNat.ofNat α 0 (Scalar.instOfNat 0) := by
    simpa using hpos.ne'
  simp only [hermite, Knot.checked, checked, ← follows_defined.number, ← follows_defined.sub,
    ← follows_defined.mul, ← carries_checked.sub, ← carries_checked.add, ← carries_checked.smul]
  rw [← follows_defined.div _ _ hne, ← follows_defined.div _ _ hne']
  simp only [← carries_checked.smul, ← carries_checked.sub]

end Cubic

end Juggling
