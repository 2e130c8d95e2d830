import Juggling.Proofs.Launches
import Juggling.Proofs.Smooth
import Juggling.Proofs.Translation

namespace Juggling

variable {α : Type} [Exact α]

/-- Near a time a quantity changes by no more than in proportion to the time. -/
def LipschitzAt (f : α → α) (t : α) : Prop :=
  ∃ m δ : α, 0 < δ ∧ ∀ s, |s - t| < δ → |f s - f t| ≤ m * |s - t|

namespace LipschitzAt

variable {f g h : α → α} {t : α}

theorem congr (hg : LipschitzAt g t) {δ : α} (hδ : 0 < δ)
    (heq : ∀ s, |s - t| < δ → f s = g s) : LipschitzAt f t := by
  obtain ⟨m, δ', hδ', hg⟩ := hg
  refine ⟨m, min δ δ', lt_min hδ hδ', fun s hs ↦ ?_⟩
  rw [heq s (hs.trans_le (min_le_left _ _)), heq t (by rwa [sub_self, abs_zero])]
  exact hg s (hs.trans_le (min_le_right _ _))

theorem glue (hg : LipschitzAt g t) (hh : LipschitzAt h t) (heq : g t = h t)
    (hbefore : ∀ s < t, f s = g s) (hafter : ∀ s, t ≤ s → f s = h s) : LipschitzAt f t := by
  obtain ⟨m, δ, hδ, hg⟩ := hg
  obtain ⟨m', δ', hδ', hh⟩ := hh
  refine ⟨max m m', min δ δ', lt_min hδ hδ', fun s hs ↦ ?_⟩
  rw [hafter t le_rfl]
  rcases lt_or_ge s t with hlt | hge
  · rw [hbefore s hlt, ← heq]
    exact (hg s (hs.trans_le (min_le_left _ _))).trans
      (mul_le_mul_of_nonneg_right (le_max_left _ _) (abs_nonneg _))
  · rw [hafter s hge]
    exact (hh s (hs.trans_le (min_le_right _ _))).trans
      (mul_le_mul_of_nonneg_right (le_max_right _ _) (abs_nonneg _))

theorem max_const (hf : LipschitzAt f t) (k : α) : LipschitzAt (fun s ↦ max (f s) k) t := by
  obtain ⟨m, δ, hδ, hf⟩ := hf
  refine ⟨m, δ, hδ, fun s hs ↦ (abs_max_sub_max_le_abs _ _ _).trans (hf s hs)⟩

theorem quadratic (a b c u : α) :
    LipschitzAt (fun s ↦ a + b * (s - u) - c * (s - u) * (s - u)) t := by
  refine ⟨|b| + |c| * (2 * |t - u| + 1), 1, one_pos, fun s hs ↦ ?_⟩
  have hfactor : a + b * (s - u) - c * (s - u) * (s - u) -
      (a + b * (t - u) - c * (t - u) * (t - u)) =
      (b - c * (2 * (t - u) + (s - t))) * (s - t) := by ring
  rw [hfactor, abs_mul]
  refine mul_le_mul_of_nonneg_right ((abs_sub _ _).trans (add_le_add_right ?_ _)) (abs_nonneg _)
  rw [abs_mul]
  refine mul_le_mul_of_nonneg_left ((abs_add_le _ _).trans (add_le_add ?_ hs.le)) (abs_nonneg _)
  rw [abs_mul, abs_of_pos (by norm_num : (0 : α) < 2)]

end LipschitzAt

theorem Tends.of_lipschitzAt {f : α → Coordinate α} {t : α}
    (h : ∀ i : Axis, LipschitzAt (fun s ↦ (f s).along i) t) :
    Tends (fun s a ↦ a = f s) t (f t) := by
  choose m δ hδ h using h
  obtain ⟨k, -, hk⟩ := Axis.exists_bound m
  have hmin : 0 < min (δ .x) (min (δ .y) (δ .z)) := lt_min (hδ _) (lt_min (hδ _) (hδ _))
  refine Tends.of_lipschitz (m := k) hmin fun s hs a ha i ↦ ?_
  subst ha
  have hs' : |s - t| < δ i := by
    refine hs.trans_le ?_
    cases i
    · exact min_le_left _ _
    · exact (min_le_right _ _).trans (min_le_left _ _)
    · exact (min_le_right _ _).trans (min_le_right _ _)
  exact (h i s hs').trans (mul_le_mul_of_nonneg_right (hk i) (abs_nonneg _))

namespace Arc

variable (a : Arc α) (c : Court α)

theorem heightAt_eq (g t : α) : a.heightAt g t =
    a.height + a.speed * (t - a.time) - g / 2 * (t - a.time) * (t - a.time) := by
  simp only [heightAt, OfScientific.ofScientific, Scalar.ofDecimal, if_true]
  push_cast
  ring

theorem lipschitz (g t : α) : LipschitzAt (a.heightAt g) t := by
  refine (LipschitzAt.quadratic a.height a.speed (g / 2) a.time).congr one_pos fun s _ ↦ ?_
  rw [heightAt_eq]

/-- Above the floor, or on the way up from it. -/
def Flies : Prop := c.floor < a.height ∨ a.height = c.floor ∧ 0 < a.speed

/-- What a contact depends on is a root that is not too low. -/
theorem contact_spec : ∃ r, a.contact c = a.time + (a.speed + r) / c.g ∧
    a.speed * a.speed + 2 * c.g * (a.height - c.floor) ≤ r * r ∧
    ∀ x, x * x < a.speed * a.speed + 2 * c.g * (a.height - c.floor) → x < r := by
  refine ⟨_, rfl, ?_, fun x hx ↦ ?_⟩
  · simp only [Scalar.larger_eq, Scalar.ofNat_eq]
    push_cast
    by_contra! hlt
    exact lt_irrefl _ (Exact.lt_root (hlt.trans_le (le_max_left _ _)))
  · simp only [Scalar.larger_eq, Scalar.ofNat_eq]
    push_cast
    exact Exact.lt_root (hx.trans_le (le_max_left _ _))

variable {a c} (hg : 0 < c.g)

include hg

/-- At a contact the prop has come down to the floor. -/
theorem heightAt_contact_le : a.heightAt c.g (a.contact c) ≤ c.floor := by
  obtain ⟨r, hcontact, hr, -⟩ := a.contact_spec c
  rw [heightAt_eq, hcontact, add_sub_cancel_left]
  have hsplit : a.height + a.speed * ((a.speed + r) / c.g) -
      c.g / 2 * ((a.speed + r) / c.g) * ((a.speed + r) / c.g) =
      a.height + (a.speed * a.speed - r * r) / (2 * c.g) := by
    field_simp
    ring
  have : (a.speed * a.speed - r * r) / (2 * c.g) ≤ c.floor - a.height := by
    rw [div_le_iff₀ (by positivity)]
    linarith
  rw [hsplit]
  linarith

theorem exists_root (ha : a.Flies c) :
    ∃ r, a.contact c = a.time + (a.speed + r) / c.g ∧ 0 < r ∧ 0 < a.speed + r := by
  obtain ⟨r, hcontact, -, hr⟩ := a.contact_spec c
  rcases ha with hlt | ⟨heq, hpos⟩
  · have hup : 0 < 2 * c.g * (a.height - c.floor) := by
      have := sub_pos.mpr hlt
      positivity
    refine ⟨r, hcontact, hr 0 ?_, ?_⟩
    · nlinarith [mul_self_nonneg a.speed]
    · linarith [hr (-a.speed) (by linarith)]
  · have hzero := hr 0 (by
      rw [heq, sub_self, mul_zero, mul_zero, add_zero]
      exact mul_pos hpos hpos)
    exact ⟨r, hcontact, hzero, add_pos hpos hzero⟩

theorem time_lt_contact (ha : a.Flies c) : a.time < a.contact c := by
  obtain ⟨r, hcontact, -, hsum⟩ := exists_root hg ha
  rw [hcontact]
  exact lt_add_of_pos_right _ (div_pos hsum hg)

theorem flies_rebound (hk : 0 < c.kept) (ha : a.Flies c) :
    (a.rebound c (a.contact c)).Flies c := by
  obtain ⟨r, hcontact, hpos, -⟩ := exists_root hg ha
  refine .inr ⟨rfl, ?_⟩
  have himpact : a.speed - c.g * (a.contact c - a.time) = -r := by
    rw [hcontact, add_sub_cancel_left]
    field_simp
    ring
  simp only [rebound, himpact, neg_neg]
  exact mul_pos hpos hk

end Arc

namespace Court

/-- Arcs each of which starts where the one before it comes down. -/
def Rebounds (c : Court α) : Arc α → List (Arc α) → Prop
  | _, [] => True
  | a, b :: bs => b = a.rebound c (a.contact c) ∧ c.Rebounds b bs

variable {c : Court α}

theorem rebounds_ok {duration : α} {n : ℕ} {a : Arc α} {bs : List (Arc α)}
    (h : c.rebounds? duration n a = some bs) : c.Rebounds a bs ∧ ∀ b ∈ bs, b.time < duration := by
  induction n generalizing a bs with
  | zero =>
    unfold rebounds? at h
    split_ifs at h
    obtain rfl := Option.some.inj h
    exact ⟨trivial, by simp⟩
  | succ n ih =>
    unfold rebounds? at h
    split_ifs at h with hlt
    obtain ⟨bs, hbs, rfl⟩ := Option.map_eq_some_iff.mp h
    obtain ⟨hrebounds, htimes⟩ := ih hbs
    exact ⟨⟨rfl, hrebounds⟩, List.forall_mem_cons.mpr ⟨not_le.mp hlt, htimes⟩⟩

/-- An arc lasts for some time. -/
theorem pieceAt_time (hg : 0 < c.g) {a : Arc α} {bs : List (Arc α)} (hbs : c.Rebounds a bs)
    (ha : a.Flies c) : pieceAt Arc.time a.time a bs = a := by
  cases bs with
  | nil => rfl
  | cons b bs =>
    obtain ⟨rfl, -⟩ := hbs
    have hlt : a.time < (a.rebound c (a.contact c)).time := Arc.time_lt_contact hg ha
    rw [pieceAt, if_neg (not_le.mpr hlt)]

section Fly

variable (hg : 0 < c.g) (hk : 0 < c.kept)

include hg hk

/-- A prop that bounces does not jump at contacts, where it is on the floor. -/
theorem lipschitz_heightAt {a : Arc α} {bs : List (Arc α)} (hbs : c.Rebounds a bs)
    (ha : a.Flies c) (t : α) :
    LipschitzAt (fun s ↦ max ((pieceAt Arc.time s a bs).heightAt c.g s) c.floor) t := by
  induction bs generalizing a with
  | nil => exact (a.lipschitz c.g t).max_const c.floor
  | cons b bs ih =>
    obtain ⟨rfl, hrest⟩ := hbs
    have hb := Arc.flies_rebound hg hk ha
    have hlow {s : α} (hs : s < a.contact c) : pieceAt Arc.time s a
        (a.rebound c (a.contact c) :: bs) = a := by
      rw [pieceAt, if_neg (not_le.mpr (show s < (a.rebound c (a.contact c)).time from hs))]
    have hhigh {s : α} (hs : a.contact c ≤ s) : pieceAt Arc.time s a
        (a.rebound c (a.contact c) :: bs) = pieceAt Arc.time s (a.rebound c (a.contact c)) bs := by
      rw [pieceAt, if_pos (show (a.rebound c (a.contact c)).time ≤ s from hs)]
    rcases lt_trichotomy t (a.contact c) with hlt | rfl | hgt
    · refine ((a.lipschitz c.g t).max_const c.floor).congr (sub_pos.mpr hlt) fun s hs ↦ ?_
      rw [hlow (by linarith [(abs_lt.mp hs).2])]
    · refine ((a.lipschitz c.g _).max_const c.floor).glue (ih hrest hb) ?_
        (fun s hs ↦ by rw [hlow hs]) (fun s hs ↦ by rw [hhigh hs])
      have hfirst : pieceAt Arc.time (a.contact c) (a.rebound c (a.contact c)) bs =
          a.rebound c (a.contact c) := pieceAt_time hg hrest hb
      rw [max_eq_right (Arc.heightAt_contact_le hg), hfirst, Arc.heightAt_eq]
      simp [Arc.rebound]
    · refine (ih hrest hb).congr (sub_pos.mpr hgt) fun s hs ↦ ?_
      rw [hhigh (by linarith [(abs_lt.mp hs).1])]

end Fly

end Court

theorem pieceAt_last {β : Type} {start : β → α} {t : α} {bs : List β}
    (h : ∀ b ∈ bs, start b ≤ t) (a : β) : pieceAt start t a bs = bs.getLast?.getD a := by
  induction bs generalizing a with
  | nil => rfl
  | cons b bs ih =>
    obtain ⟨hb, hbs⟩ := List.forall_mem_cons.mp h
    rw [pieceAt, if_pos hb, ih hbs, List.getLast?_cons, Option.getD_some]

/-- A launch ends near the catch. -/
theorem Aim.launchSpeed_ok {aim : Aim α} {speed : α} (h : aim.launchSpeed = .ok speed)
    {course : Course α}
    (hcourse : aim.court.course? aim.bounces aim.startHeight aim.duration speed = some course) :
    |course.last.heightAt aim.court.g aim.duration - aim.endHeight| < tolerance := by
  obtain ⟨i, -, hroot⟩ := exists_rootAfter h
  obtain ⟨-, -, -, -, -, -, hhits⟩ := rootAfter?_eq_some.mp hroot
  obtain ⟨p, hp, hlands, -⟩ := hits_iff.mp hhits
  rw [miss?, hcourse, Option.map_some] at hp
  obtain rfl := Option.some.inj hp
  rw [tolerance_eq]
  exact hlands

namespace Toss

variable (g : α) (l : Launch α)

theorem position_start : (ofLaunch g l).position l.start.time = l.start.position := by
  simp [position, ofLaunch]

theorem position_stop (hlt : l.start.time < l.stop.time) :
    (ofLaunch g l).position l.stop.time = l.stop.position := by
  have hne : l.stop.time - l.start.time ≠ 0 := (sub_pos.mpr hlt).ne'
  refine Coordinate.ext_along fun i ↦ ?_
  cases i <;> simp only [position, ofLaunch, Launch.duration, Coordinate.along]
  · rw [div_mul_cancel₀ _ hne]
    exact add_sub_cancel _ _
  · rw [div_mul_cancel₀ _ hne]
    exact add_sub_cancel _ _
  · rw [div_mul_cancel₀ _ hne,
      show (l.stop.position - l.start.position).z = l.stop.position.z - l.start.position.z from rfl]
    ring

theorem tends (t : α) : Tends (fun s a ↦ a = (ofLaunch g l).position s) t
    ((ofLaunch g l).position t) := by
  let f := ofLaunch g l
  refine .of_lipschitzAt fun i ↦ ?_
  have hquadratic (a b c : α) (h : ∀ s, ((ofLaunch g l).position s).along i =
      a + b * (s - l.start.time) - c * (s - l.start.time) * (s - l.start.time)) :
      LipschitzAt (fun s ↦ ((ofLaunch g l).position s).along i) t :=
    (LipschitzAt.quadratic a b c l.start.time).congr one_pos fun s _ ↦ h s
  cases i with
  | x =>
    refine hquadratic l.start.position.x f.velocity.x 0 fun s ↦ ?_
    simp [position, Coordinate.along, f, ofLaunch]
  | y =>
    refine hquadratic l.start.position.y f.velocity.y 0 fun s ↦ ?_
    simp [position, Coordinate.along, f, ofLaunch]
  | z => exact hquadratic l.start.position.z f.velocity.z _ fun s ↦ rfl

end Toss

namespace Bounce

theorem along_position (f : Bounce α) (t : α) (i : Axis) : (f.position t).along i = match i with
    | .x => f.launch.start.position.x + f.sideways.1 * (t - f.launch.start.time)
    | .y => f.launch.start.position.y + f.sideways.2 * (t - f.launch.start.time)
    | .z => max (f.heightAt t) f.court.floor := by
  cases i <;> simp [position, Coordinate.along]

variable [Numeral α] {m : Modifier} {l : Launch α} {f : Bounce α}

/-- The height of a bounce is that of arcs from one contact to the next, of which the last ends
near the catch. -/
theorem exists_arcs (hok : build m l = .ok f) : ∃ a bs, 0 < f.court.g ∧ 0 < f.court.kept ∧
    f.court.Rebounds a bs ∧ a.Flies f.court ∧ a.time = 0 ∧ a.height = l.start.position.z ∧
    f.court.floor < l.start.position.z ∧ f.court.floor < l.stop.position.z ∧
    (∀ b ∈ bs, b.time < l.duration) ∧
    |(bs.getLast?.getD a).heightAt f.court.g l.duration - l.stop.position.z| < Aim.tolerance ∧
    f.launch = l ∧ f.sideways = ((l.stop.position.x - l.start.position.x) / l.duration,
      (l.stop.position.y - l.start.position.y) / l.duration) ∧
    ∀ s, f.heightAt (s + l.start.time) = (pieceAt Arc.time s a bs).heightAt f.court.g s := by
  obtain ⟨aim, speed, course, hg, hkept, hstart, hstop, hstart', hstop', hduration, hspeed,
    hcourse, rfl⟩ := build_ok hok
  -- The course was followed from time zero, and the launch was aimed at the catch.
  have hlands := Aim.launchSpeed_ok hspeed hcourse
  obtain ⟨bs, hbs, rfl⟩ := Option.map_eq_some_iff.mp hcourse
  obtain ⟨hrebounds, htimes⟩ := Court.rebounds_ok hbs
  rw [hstart'] at hstart hrebounds
  rw [hstop'] at hstop hlands
  rw [hduration] at htimes hlands
  refine ⟨_, bs, hg, hkept, hrebounds, .inl hstart, by simp, rfl, hstart, hstop, htimes, ?_, rfl,
    rfl, fun s ↦ ?_⟩
  · rw [← hstart']
    exact hlands
  · rw [← hstart']
    exact heightAt_later ⟨l, aim.court, (0, 0), ⟨_, bs, 0⟩⟩ l.start.time s

theorem position_start (hok : build m l = .ok f) : f.position l.start.time = l.start.position := by
  obtain ⟨a, bs, hg, -, hbs, ha, hzero, hheight, hfloor, -, -, -, hlaunch, -, hat⟩ :=
    exists_arcs hok
  refine Coordinate.ext_along fun i ↦ ?_
  rw [along_position, hlaunch]
  cases i with
  | x => simp [Coordinate.along]
  | y => simp [Coordinate.along]
  | z =>
    have hstart := hat 0
    rw [zero_add, ← hzero, Court.pieceAt_time hg hbs ha, Arc.heightAt_eq, hheight] at hstart
    simp only [hstart, Coordinate.along]
    simp [hfloor.le]

theorem position_stop (hok : build m l = .ok f) (hlt : l.start.time < l.stop.time) :
    (f.position l.stop.time).x = l.stop.position.x ∧
      (f.position l.stop.time).y = l.stop.position.y ∧
      |(f.position l.stop.time).z - l.stop.position.z| ≤ Aim.tolerance := by
  obtain ⟨a, bs, -, -, -, -, -, -, -, hfloor, htimes, hlands, hlaunch, hsideways, hat⟩ :=
    exists_arcs hok
  have hne : l.stop.time - l.start.time ≠ 0 := (sub_pos.mpr hlt).ne'
  have hx := f.along_position l.stop.time .x
  have hy := f.along_position l.stop.time .y
  have hz := f.along_position l.stop.time .z
  simp only [Coordinate.along, hlaunch, hsideways, Launch.duration] at hx hy hz
  refine ⟨?_, ?_, ?_⟩
  · rw [hx, div_mul_cancel₀ _ hne]
    exact add_sub_cancel _ _
  · rw [hy, div_mul_cancel₀ _ hne]
    exact add_sub_cancel _ _
  · have hstop := hat l.duration
    rw [pieceAt_last fun b hb ↦ (htimes b hb).le, Launch.duration, sub_add_cancel] at hstop
    rw [Launch.duration, ← hstop] at hlands
    rw [hz]
    calc |max (f.heightAt l.stop.time) f.court.floor - l.stop.position.z|
        = |max (f.heightAt l.stop.time) f.court.floor - max l.stop.position.z f.court.floor| := by
          rw [max_eq_left hfloor.le]
      _ ≤ |f.heightAt l.stop.time - l.stop.position.z| := abs_max_sub_max_le_abs _ _ _
      _ ≤ Aim.tolerance := hlands.le

theorem tends (hok : build m l = .ok f) (t : α) :
    Tends (fun s a ↦ a = f.position s) t (f.position t) := by
  obtain ⟨a, bs, hg, hk, hbs, ha, -, -, -, -, -, -, -, -, hat⟩ := exists_arcs hok
  refine .of_lipschitzAt fun i ↦ ?_
  simp only [along_position]
  cases i with
  | x =>
    refine (LipschitzAt.quadratic f.launch.start.position.x f.sideways.1 0
      f.launch.start.time).congr one_pos fun s _ ↦ by ring
  | y =>
    refine (LipschitzAt.quadratic f.launch.start.position.y f.sideways.2 0
      f.launch.start.time).congr one_pos fun s _ ↦ by ring
  | z =>
    obtain ⟨k, δ, hδ, hlipschitz⟩ :=
      Court.lipschitz_heightAt hg hk hbs ha (t - l.start.time)
    refine ⟨k, δ, hδ, fun s hs ↦ ?_⟩
    have hle := hlipschitz (s - l.start.time) (by rwa [sub_sub_sub_cancel_right])
    simp only [← hat, sub_add_cancel, sub_sub_sub_cancel_right] at hle
    exact hle

end Bounce

namespace Flight

/-- How far from the catch a flight may end: a bounce is aimed no better. -/
def slack (f : Flight α) (i : Axis) : α :=
  match f with
  | toss _ => 0
  | bounce _ => if i = .z then Aim.tolerance else 0

theorem slack_nonneg (f : Flight α) (i : Axis) : 0 ≤ f.slack i := by
  cases f with
  | toss f => exact le_rfl
  | bounce f =>
    have : (0 : α) ≤ Aim.tolerance := by
      rw [Aim.tolerance_eq]
      positivity
    unfold slack
    split_ifs
    · exact this
    · exact le_rfl

variable [Numeral α] {kind : ThrowKind} {modifier : String} {l : Launch α} {f : Flight α}

theorem build_cases (hok : build kind modifier l = .ok f) : l.start.time < l.stop.time ∧
    ((∃ g, f = toss (Toss.ofLaunch g l)) ∨
      ∃ b, f = bounce b ∧ Bounce.build (Modifier.parse modifier) l = .ok b) := by
  unfold build at hok
  split_ifs at hok with hlt
  refine ⟨hlt, ?_⟩
  cases kind with
  | toss =>
    obtain ⟨f, hf, rfl⟩ := map_eq_ok.mp hok
    obtain ⟨g, rfl⟩ := Toss.build_ok hf
    exact .inl ⟨g, rfl⟩
  | bounce =>
    obtain ⟨f, hf, rfl⟩ := map_eq_ok.mp hok
    exact .inr ⟨f, rfl, hf⟩

/-- A flight starts where it should, and ends there or near it. -/
theorem ends (hok : build kind modifier l = .ok f) :
    f.position l.start.time = l.start.position ∧
      ∀ i, |(f.position l.stop.time).along i - l.stop.position.along i| ≤ f.slack i := by
  obtain ⟨hlt, ⟨g, rfl⟩ | ⟨b, rfl, hb⟩⟩ := build_cases hok
  · refine ⟨Toss.position_start g l, fun i ↦ ?_⟩
    simp [position, Toss.position_stop g l hlt, slack]
  · obtain ⟨hx, hy, hz⟩ := Bounce.position_stop hb hlt
    refine ⟨Bounce.position_start hb, fun i ↦ ?_⟩
    cases i with
    | x => simp [position, slack, Coordinate.along, hx]
    | y => simp [position, slack, Coordinate.along, hy]
    | z => simpa [position, slack, Coordinate.along] using hz

theorem tends (hok : build kind modifier l = .ok f) (t : α) :
    Tends (fun s a ↦ a = f.position s) t (f.position t) := by
  obtain ⟨-, ⟨g, rfl⟩ | ⟨b, rfl, hb⟩⟩ := build_cases hok
  · exact Toss.tends g l t
  · exact Bounce.tends hb t

end Flight

end Juggling
