import Juggling.Proofs.Fractions
import Juggling.Proofs.Hops

namespace Juggling

open Set Filter Topology

section

variable {α : Type} [Exact α]

/-- The last arc of so many ends at the catch or after it. -/
theorem Court.last_of_rebounds {c : Court α} {duration : α} {n : ℕ} {a : Arc α} {bs : List (Arc α)}
    (h : c.rebounds? duration n a = some bs) :
    bs.length = n ∧ duration ≤ (bs.getLast?.getD a).contact c := by
  induction n generalizing a bs with
  | zero =>
    unfold rebounds? at h
    split_ifs at h with hle
    obtain rfl := Option.some.inj h
    exact ⟨rfl, hle⟩
  | succ n ih =>
    unfold rebounds? at h
    split_ifs at h
    obtain ⟨bs, hbs, rfl⟩ := Option.map_eq_some_iff.mp h
    obtain ⟨hlength, hlast⟩ := ih hbs
    rw [List.getLast?_cons, Option.getD_some]
    exact ⟨congrArg (· + 1) hlength, hlast⟩

theorem Court.course_ok {c : Court α} {n : ℕ} {height duration speed : α} {course : Course α}
    (h : c.course? n height duration speed = some course) :
    course.first = ⟨0, height, speed⟩ ∧ c.Rebounds course.first course.rebounds ∧
      course.rebounds.length = n ∧ (∀ b ∈ course.rebounds, b.time < duration) ∧
      duration ≤ course.last.contact c ∧
      course.endSpeed = course.last.speed - c.g * (duration - course.last.time) := by
  obtain ⟨bs, hbs, rfl⟩ := Option.map_eq_some_iff.mp h
  obtain ⟨hrebounds, hbefore⟩ := rebounds_ok hbs
  obtain ⟨hlength, hlast⟩ := last_of_rebounds hbs
  exact ⟨by simp, hrebounds, hlength, hbefore, hlast, rfl⟩

theorem Course.last_later (c : Course α) (s : α) : (c.later s).last = c.last.later s := by
  simp only [last, later, List.getLast?_map]
  cases c.rebounds.getLast? <;> rfl

theorem Arc.heightAt_later (a : Arc α) (g s t : α) :
    (a.later s).heightAt g t = a.heightAt g (t - s) := by
  simp only [heightAt, later, sub_add_eq_sub_sub, sub_right_comm]

namespace Bounce

/-- A bounce that does what its settings ask of a launch. -/
structure Meets (f : Bounce α) (s : Settings α) (l : Launch α) : Prop where
  launch : f.launch = l
  court : f.court = s.court
  sideways : f.sideways = ((l.stop.position.x - l.start.position.x) / l.duration,
    (l.stop.position.y - l.start.position.y) / l.duration)
  above : s.court.floor < l.start.position.z
  found : ∃ speed, (s.aim l).launchSpeed = .ok speed
  time : f.course.first.time = l.start.time
  height : f.course.first.height = l.start.position.z
  rebounds : f.court.Rebounds f.course.first f.course.rebounds
  length : f.course.rebounds.length = countOf s.bounces
  before : ∀ b ∈ f.course.rebounds, b.time < l.stop.time
  last : l.stop.time ≤ f.course.last.contact f.court
  lands : |f.course.last.heightAt f.court.g l.stop.time - l.stop.position.z| < 1 / 10 ^ 6
  endSpeed : f.course.endSpeed =
    f.course.last.speed - f.court.g * (l.stop.time - f.course.last.time)
  hyper : if s.hyper then f.course.endSpeed < 0 else 0 < f.course.endSpeed
  forced : s.forced → f.course.first.speed ≤ 0

theorem Meets.flies {f : Bounce α} {s : Settings α} {l : Launch α} (h : f.Meets s l) :
    f.course.first.Flies f.court := by
  refine .inl ?_
  rw [h.court, h.height]
  exact h.above

theorem exists_meets [Numeral α] {m : Modifier} {l : Launch α} {f : Bounce α}
    (hlt : l.start.time < l.stop.time) (hok : build m l = .ok f) :
    ∃ s : Settings α, s.ReadFrom m ∧ s.Valid ∧ f.Meets s l := by
  obtain ⟨s, speed, course, hread, hvalid, hstart, hstop, hspeed, hcourse, rfl⟩ :=
    build_ok_iff.mp hok
  refine ⟨s, hread, hvalid, ?_⟩
  have hg : 0 < (s.aim l).court.g := hvalid.g_pos
  have hduration : 0 < (s.aim l).duration := sub_pos.mpr hlt
  obtain ⟨i, hi, hmem, -, -, -, hhits⟩ := Aim.exists_interval hg hduration hspeed
  obtain ⟨_, hmiss, hlands, hhyper⟩ := Aim.hits_iff.mp hhits
  obtain ⟨course', hcourse', rfl⟩ := Option.map_eq_some_iff.mp hmiss
  obtain rfl := Option.some.inj (hcourse'.symm.trans hcourse)
  obtain ⟨hfirst, hrebounds, hlength, hbefore, hlast, hend⟩ := Court.course_ok hcourse
  exact {
    launch := rfl
    court := rfl
    sideways := rfl
    above := hstart
    found := ⟨speed, hspeed⟩
    time := by simp [Course.later, hfirst]
    height := by simp [Course.later, hfirst]
    rebounds := hrebounds.later _
    length := by simpa [Course.later] using hlength
    before := by
      intro b hb
      obtain ⟨b, hb', rfl⟩ := List.mem_map.mp hb
      exact lt_sub_iff_add_lt.mp (hbefore b hb')
    last := by
      rw [Course.last_later, Arc.contact_later]
      exact sub_le_iff_le_add.mp hlast
    lands := by
      rw [Course.last_later, Arc.heightAt_later]
      exact hlands
    endSpeed := by
      rw [Course.last_later]
      refine hend.trans ?_
      simp only [Arc.later, Launch.duration, sub_add_eq_sub_sub, sub_right_comm]
    hyper := hhyper
    forced := by
      intro hforced
      have hle := Aim.scanSpeed_le hg hduration (Nat.succ_le_of_lt hi)
      have hfastest : (s.aim l).fastest = 0 := if_pos hforced
      simpa [Course.later, hfirst] using (hmem.2.trans hle).trans_eq hfastest }

end Bounce

end

theorem hasDerivAt_uniform (p v u t : ℝ) : HasDerivAt (fun s ↦ p + v * (s - u)) v t :=
  ((((hasDerivAt_id' t).sub_const u).const_mul v).const_add p).congr_deriv (mul_one v)

namespace Bounce

theorem hasDerivAt_x (f : Bounce ℝ) (t : ℝ) :
    HasDerivAt (fun t ↦ (f.position t).x) f.sideways.1 t :=
  hasDerivAt_uniform f.launch.start.position.x f.sideways.1 f.launch.start.time t

theorem hasDerivAt_y (f : Bounce ℝ) (t : ℝ) :
    HasDerivAt (fun t ↦ (f.position t).y) f.sideways.2 t :=
  hasDerivAt_uniform f.launch.start.position.y f.sideways.2 f.launch.start.time t

end Bounce

namespace Bounce.Meets

variable {f : Bounce ℝ} {s : Settings ℝ} {l : Launch ℝ} (h : f.Meets s l)

include h

theorem position_x (t : ℝ) : (f.position t).x =
    l.start.position.x + f.sideways.1 * (t - l.start.time) :=
  h.launch ▸ f.along_position t .x

theorem position_y (t : ℝ) : (f.position t).y =
    l.start.position.y + f.sideways.2 * (t - l.start.time) :=
  h.launch ▸ f.along_position t .y

variable (hs : s.Valid) (hlt : l.start.time < l.stop.time)

include hs

include hlt in
/-- All bounces that are asked for are counted: for too many to count there is no flight. -/
theorem countOf_eq : (countOf s.bounces : ℝ) = s.bounces := by
  obtain ⟨speed, hspeed⟩ := h.found
  have hfew : countOf s.bounces < 300 :=
    Aim.bounces_lt hs.g_pos hs.kept_pos hs.kept_le h.above (sub_pos.mpr hlt) hspeed
  have hnonneg : 0 ≤ ⌊s.bounces⌋ := Int.floor_nonneg.mpr (zero_le_one.trans hs.one_le)
  have hcount : countOf s.bounces = ⌊s.bounces⌋.toNat := by
    refine min_eq_left (not_lt.mp fun hmany ↦ ?_)
    rw [countOf, min_eq_right hmany.le] at hfew
    exact absurd hfew (by decide)
  calc (countOf s.bounces : ℝ) = ((⌊s.bounces⌋.toNat : ℤ) : ℝ) := by rw [hcount, Int.cast_natCast]
    _ = s.bounces := by rw [Int.toNat_of_nonneg hnonneg, hs.whole]

theorem hops_heightAt : f.court.Hops (countOf s.bounces) l.range f.heightAt := by
  have hg : 0 < f.court.g := h.court ▸ hs.g_pos
  have hk : 0 < f.court.kept := h.court ▸ hs.kept_pos
  have hhops := Court.hops_of_rebounds hg h.flies hk h.rebounds h.before h.last
  rwa [h.length, h.time] at hhops

/-- Over the time of the flight the floor does not hold the prop. -/
theorem position_z {t : ℝ} (ht : t ∈ Icc l.start.time l.stop.time) :
    (f.position t).z = f.heightAt t := by
  refine (f.along_position t .z).trans (max_eq_left ?_)
  exact (h.hops_heightAt hs).above t ht

theorem hops : f.court.Hops (countOf s.bounces) l.range fun t ↦ (f.position t).z :=
  (h.hops_heightAt hs).congr fun _ ht ↦ h.position_z hs ht

include hlt

theorem hasDerivWithinAt_start : HasDerivWithinAt (fun t ↦ (f.position t).z) f.course.first.speed
    (Ici l.start.time) l.start.time := by
  have hg : 0 < f.court.g := h.court ▸ hs.g_pos
  have hderiv := Court.hasDerivAt_time hg h.flies h.rebounds
  rw [h.time] at hderiv
  exact hderiv.hasDerivWithinAt.congr_of_eventuallyEq
    (eventually_of_mem (Icc_mem_nhdsGE hlt) fun _ ht ↦ h.position_z hs ht)
    (h.position_z hs ⟨le_rfl, hlt.le⟩)

theorem hasDerivWithinAt_stop : HasDerivWithinAt (fun t ↦ (f.position t).z) f.course.endSpeed
    (Iic l.stop.time) l.stop.time := by
  have hderiv := Court.hasDerivAt_last (c := f.court) (a := f.course.first) h.before
  exact (hderiv.congr_deriv h.endSpeed.symm).hasDerivWithinAt.congr_of_eventuallyEq
    (eventually_of_mem (Icc_mem_nhdsLE hlt) fun _ ht ↦ h.position_z hs ht)
    (h.position_z hs ⟨hlt.le, le_rfl⟩)

theorem stop_z : |(f.position l.stop.time).z - l.stop.position.z| < 1 / 10 ^ 6 := by
  have hlast : f.heightAt l.stop.time = f.course.last.heightAt f.court.g l.stop.time := by
    rw [heightAt, pieceAt_last fun b hb ↦ (h.before b hb).le]
    rfl
  rw [h.position_z hs ⟨hlt.le, le_rfl⟩, hlast]
  exact h.lands

end Bounce.Meets

namespace Flight

/-- A flight that bounces as its settings say from a throw to a catch. Its velocities are its
derivatives on the side of the flight, as it may touch the floor just when it ends. -/
structure Physical (f : Flight ℝ) (s : Bounce.Settings ℝ) (n : ℕ) (l : Launch ℝ) : Prop where
  start : f.position l.start.time = l.start.position
  x : ∀ t, (f.position t).x = l.start.position.x + f.startVelocity.x * (t - l.start.time)
  y : ∀ t, (f.position t).y = l.start.position.y + f.startVelocity.y * (t - l.start.time)
  stop_x : (f.position l.stop.time).x = l.stop.position.x
  stop_y : (f.position l.stop.time).y = l.stop.position.y
  stop_z : |(f.position l.stop.time).z - l.stop.position.z| < 1 / 10 ^ 6
  hops : s.court.Hops n l.range fun t ↦ (f.position t).z
  startVelocity : ∀ i : Axis, HasDerivWithinAt (fun t ↦ (f.position t).along i)
    (f.startVelocity.along i) (Ici l.start.time) l.start.time
  endVelocity : ∀ i : Axis, HasDerivWithinAt (fun t ↦ (f.position t).along i)
    (f.endVelocity.along i) (Iic l.stop.time) l.stop.time
  hyper : if s.hyper then f.endVelocity.z < 0 else 0 < f.endVelocity.z
  forced : s.forced → f.startVelocity.z ≤ 0

/-- Every bounce that is built is physically right. -/
theorem bounce_physical [Numeral ℝ] {modifier : String} {l : Launch ℝ} {f : Flight ℝ}
    (hok : build .bounce modifier l = .ok f) : ∃ (s : Bounce.Settings ℝ) (n : ℕ),
      s.ReadFrom (Modifier.parse modifier) ∧ s.Valid ∧ n = s.bounces ∧ f.Physical s n l := by
  unfold build at hok
  split_ifs at hok with hlt
  obtain ⟨f, hf, rfl⟩ := map_eq_ok.mp hok
  obtain ⟨s, hread, hs, h⟩ := Bounce.exists_meets hlt hf
  refine ⟨s, Bounce.countOf s.bounces, hread, hs, h.countOf_eq hs hlt, ?_⟩
  obtain ⟨hx, hy, -⟩ := Bounce.position_stop hf hlt
  exact {
    start := Bounce.position_start hf
    x := h.position_x
    y := h.position_y
    stop_x := hx
    stop_y := hy
    stop_z := h.stop_z hs hlt
    hops := h.court ▸ h.hops hs
    startVelocity := by
      rintro (_ | _ | _)
      · exact (f.hasDerivAt_x _).hasDerivWithinAt
      · exact (f.hasDerivAt_y _).hasDerivWithinAt
      · exact h.hasDerivWithinAt_start hs hlt
    endVelocity := by
      rintro (_ | _ | _)
      · exact (f.hasDerivAt_x _).hasDerivWithinAt
      · exact (f.hasDerivAt_y _).hasDerivWithinAt
      · exact h.hasDerivWithinAt_stop hs hlt
    hyper := h.hyper
    forced := h.forced }

end Flight

/-- A throw that is caught below its start. -/
noncomputable def Launch.drop : Launch ℝ where
  start := ⟨0, ⟨(-20 : ℚ), 0, (490 : ℚ)⟩⟩
  stop := ⟨(12 / 5 : ℚ), ⟨(20 : ℚ), 0, (1372 / 5 : ℚ)⟩⟩

theorem Launch.drop_eq : drop = ⟨⟨0, ⟨-20, 0, 490⟩⟩, ⟨12 / 5, ⟨20, 0, 1372 / 5⟩⟩⟩ := by
  norm_num [drop]

theorem Launch.duration_drop : drop.duration = 12 / 5 := by
  rw [drop_eq]
  exact sub_zero _

namespace Bounce.Settings

noncomputable def drop : Settings ℝ where
  bounces := 1
  court := ⟨0, (9 / 10 : ℚ), (980 : ℚ)⟩
  forced := true
  hyper := true

theorem drop_eq : drop = ⟨1, ⟨0, 9 / 10, 980⟩, true, true⟩ := by
  norm_num [drop]

theorem drop_readFrom : drop.ReadFrom (Modifier.parse "forced;hyper") := by
  have hparse : Modifier.parse "forced;hyper" = ⟨[("forced", "true"), ("hyper", "true")]⟩ := by
    decide +kernel
  rw [hparse, drop_eq]
  constructor <;> rfl

theorem drop_valid : drop.Valid := by
  constructor <;> norm_num [drop]

theorem countOf_one : countOf (1 : ℝ) = 1 := by
  have hone : Scalar.floorInt (1 : ℝ) = 1 := Int.floor_one
  rw [countOf, hone]
  rfl

/-- Launched with little speed downwards the prop ends a little too low, and falls. -/
theorem drop_miss {v : ℝ} (hv : v ∈ Icc (-6) 0) : ∃ p, (drop.aim .drop).miss? v = some p ∧
    p.1 ≤ v / 4 ∧ 3 * v ≤ p.1 ∧ p.2 < 0 := by
  obtain ⟨hlow, hhigh⟩ := hv
  obtain ⟨w, hw, hsq⟩ : ∃ w, 0 ≤ w ∧ w ^ 2 = v ^ 2 + 2 * 980 * (490 - 0) :=
    ⟨_, Real.sqrt_nonneg _, Real.sq_sqrt (by positivity)⟩
  have hw₁ : 980 ≤ w := by nlinarith
  have hw₂ : w ≤ 981 := by nlinarith
  have hslow : 1960 * (w - 980) ≤ v ^ 2 := by nlinarith
  have hback : v ^ 2 ≤ -6 * v := by nlinarith
  have hdown : 0 ≤ -v * (w + v) := mul_nonneg (by linarith) (by linarith)
  have hdown' : -v * (w + v) ≤ -v * 981 := mul_le_mul_of_nonneg_left (by linarith) (by linarith)
  have hmiss : (drop.aim .drop).miss? v = some (0 + (2 * (9 / 10 * w) * (2352 - (v + w)) -
      (2352 - (v + w)) ^ 2) / (2 * 980) - 1372 / 5, 9 / 10 * w - (2352 - (v + w))) := by
    rw [drop_eq, Launch.drop_eq]
    refine Aim.miss?_once countOf_one ?_ ?_ hw hsq ?_ ?_ ?_
    · norm_num [aim]
    · norm_num [aim]
    · norm_num [aim, Launch.duration]
    · linarith
    · norm_num [aim]
      linarith
  refine ⟨_, hmiss, ?_, ?_, by linarith⟩
  · rw [zero_add, sub_le_iff_le_add, div_le_iff₀ (by norm_num)]
    linarith
  · rw [zero_add, le_sub_iff_add_le, le_div_iff₀ (by norm_num)]
    linarith

theorem drop_scanSpeed : (drop.aim .drop).scanSpeed 1999 ∈ Ico (-6) 0 ∧
    (drop.aim .drop).scanSpeed (1999 + 1) = 0 := by
  have hfastest : (drop.aim .drop).fastest = 0 := if_pos rfl
  have hlimit : (drop.aim .drop).speedLimit ∈ Ioc 0 12000 := by
    rw [Aim.speedLimit_eq]
    norm_num [drop, aim, Launch.drop, Launch.duration, abs_of_neg]
  obtain ⟨hpos, hle⟩ := hlimit
  refine ⟨⟨?_, ?_⟩, ?_⟩ <;>
  · rw [Aim.scanSpeed_eq, hfastest]
    push_cast
    linarith

/-- The launch is found between the last two steps of the scan. -/
theorem drop_rootAfter : ((drop.aim .drop).rootAfter? 1999).isSome := by
  obtain ⟨⟨hlow, hneg⟩, hstop⟩ := drop_scanSpeed
  generalize ha : (drop.aim .drop).scanSpeed 1999 = a at hlow hneg
  obtain ⟨p, hp, hmiss, -⟩ := drop_miss ⟨hlow, hneg.le⟩
  obtain ⟨q, hq, -, hmiss', -⟩ := drop_miss ⟨(by norm_num : (-6 : ℝ) ≤ 0), le_rfl⟩
  have hp' : p.1 < 0 := by linarith
  have hbisect : (drop.aim .drop).bisect Aim.bisectSteps a 0 p.1 = 0 - (0 - a) / 2 ^ 81 := by
    refine Aim.bisect_of_neg hneg (fun v hv ↦ ?_) hp' 80
    obtain ⟨r, hr, hmiss, -⟩ := drop_miss ⟨hlow.trans hv.1, hv.2.le⟩
    exact ⟨r, hr, by linarith [hv.2]⟩
  have hnear : 0 - (0 - a) / 2 ^ 81 ∈ Ioc (-1 / 10 ^ 7) 0 := by
    constructor <;> linarith
  obtain ⟨r, hr, hbelow, hclose, hfalls⟩ := drop_miss (v := 0 - (0 - a) / 2 ^ 81)
    ⟨by linarith [hnear.1], hnear.2⟩
  have hhits : (drop.aim .drop).hits (0 - (0 - a) / 2 ^ 81) = true := by
    refine Aim.hits_iff.mpr ⟨r, hr, ?_, by rwa [if_pos (show (drop.aim .drop).hyper from rfl)]⟩
    rw [abs_lt]
    constructor <;> linarith [hnear.1, hnear.2]
  refine Option.isSome_iff_exists.mpr ⟨_, Aim.rootAfter?_eq_some.mpr ⟨p, q, by rw [ha, hp],
    by rw [hstop, hq], .inr (Scalar.sign_ne hp' (by linarith)), rfl, ?_⟩⟩
  rwa [ha, hstop, hbisect]

theorem drop_built : ∃ f, Flight.build .bounce "forced;hyper" Launch.drop = .ok f := by
  have hg : 0 < (drop.aim .drop).court.g := drop_valid.g_pos
  have hduration : 0 < (drop.aim .drop).duration := by
    norm_num [aim, Launch.duration_drop]
  obtain ⟨speed, hspeed⟩ := Aim.exists_launchSpeed (by decide) drop_rootAfter
  obtain ⟨i, -, -, -, -, -, hhits⟩ := Aim.exists_interval hg hduration hspeed
  obtain ⟨p, hp, -⟩ := Aim.hits_iff.mp hhits
  obtain ⟨course, hcourse, -⟩ := Option.map_eq_some_iff.mp hp
  have hbuild := Bounce.build_ok_iff.mpr ⟨drop, speed, course, drop_readFrom, drop_valid,
    by norm_num [drop, Launch.drop], by norm_num [drop, Launch.drop], hspeed, hcourse, rfl⟩
  unfold Flight.build
  rw [if_pos (by norm_num [Launch.drop]), hbuild]
  exact ⟨_, rfl⟩

end Bounce.Settings

theorem Flight.bounce_physical_drop : ∃ f : Flight ℝ,
    Flight.build .bounce "forced;hyper" Launch.drop = .ok f ∧
      ∃ (s : Bounce.Settings ℝ) (n : ℕ), s.ReadFrom (Modifier.parse "forced;hyper") ∧ s.Valid ∧
        n = s.bounces ∧ f.Physical s n Launch.drop := by
  obtain ⟨f, hf⟩ := Bounce.Settings.drop_built
  exact ⟨f, hf, bounce_physical hf⟩

end Juggling
