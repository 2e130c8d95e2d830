import Juggling.Proofs.Exact
import Juggling.Proofs.Outcome

namespace Juggling

variable {α : Type} [Exact α] [Numeral α] {m : Modifier} {l : Launch α}

theorem Toss.build_ok {f : Toss α} (hok : build m l = .ok f) : ∃ g, f = ofLaunch g l := by
  obtain ⟨-, -, hok⟩ := bind_eq_ok.mp hok
  obtain ⟨g, -, hok⟩ := bind_eq_ok.mp hok
  exact ⟨g, (Except.ok.inj hok).symm⟩

namespace Bounce

/-- What is asked of a bounce. -/
structure Settings (α : Type) where
  bounces : α
  court : Court α
  forced : Bool
  hyper : Bool

namespace Settings

/-- As a modifier spells them, with what stands for the ones that it leaves out. -/
structure ReadFrom (s : Settings α) (m : Modifier) : Prop where
  known : m.rejectUnknown (α := α) .bounce knownKeys = .ok ()
  bounces : m.number "bounces" (1 : α) = .ok s.bounces
  kept : m.number "bouncefrac" (9 / 10 : α) = .ok s.court.kept
  g : m.number "g" (980 : α) = .ok s.court.g
  floor : m.number "bounceplane" (0 : α) = .ok s.court.floor
  forced : m.flag (α := α) "forced" = .ok s.forced
  hyper : m.flag (α := α) "hyper" = .ok s.hyper

structure Valid (s : Settings α) : Prop where
  one_le : 1 ≤ s.bounces
  whole : (⌊s.bounces⌋ : α) = s.bounces
  kept_pos : 0 < s.court.kept
  kept_le : s.court.kept ≤ 1
  g_pos : 0 < s.court.g

def aim (s : Settings α) (l : Launch α) : Aim α where
  court := s.court
  bounces := countOf s.bounces
  startHeight := l.start.position.z
  endHeight := l.stop.position.z
  duration := l.duration
  forced := s.forced
  hyper := s.hyper

end Settings

/-- A bounce is built of valid settings, from above the floor to above the floor, by a launch that
was found for them. -/
theorem build_ok_iff {f : Bounce α} : build m l = .ok f ↔
    ∃ (s : Settings α) (speed : α) (course : Course α), s.ReadFrom m ∧ s.Valid ∧
      s.court.floor < l.start.position.z ∧ s.court.floor < l.stop.position.z ∧
      (s.aim l).launchSpeed = .ok speed ∧
      s.court.course? (countOf s.bounces) l.start.position.z l.duration speed = some course ∧
      f = ⟨l, s.court, ((l.stop.position.x - l.start.position.x) / l.duration,
        (l.stop.position.y - l.start.position.y) / l.duration), course.later l.start.time⟩ := by
  -- The numbers that the code spells are those of the field.
  have hone : @OfNat.ofNat α 1 (Scalar.instOfNat 1) = 1 := by simp
  have hzero : @OfNat.ofNat α 0 (Scalar.instOfNat 0) = 0 := by simp
  have hgravity : (Modifier.gravity : α) = 980 := by simp [Modifier.gravity]
  have hkept : @OfScientific.ofScientific α Scalar.instOfScientific 9 true 1 = 9 / 10 := by
    simp [OfScientific.ofScientific, Scalar.ofDecimal]
  have hwhole (x : α) : Scalar.isWhole x = decide ((⌊x⌋ : α) = x) := rfl
  unfold build
  simp only [hone, hzero, hgravity, hkept, hwhole, bind_eq_ok, ite_throw_eq_ok, Bool.or_eq_true,
    Bool.not_eq_true', Bool.and_eq_false_imp, decide_eq_true_eq, decide_eq_false_iff_not, not_or,
    not_forall, not_not, not_lt, not_le, exists_prop]
  constructor
  · rintro ⟨⟨⟩, hknown, bounces, hbounces, ⟨hmin, hwhole⟩, kept, hkept, ⟨hpart, hall⟩, g, hg, hpull,
      floor, hfloor, forced, hforced, hyper, hhyper, ⟨hstart, hstop⟩, speed, hspeed, hok⟩
    split at hok
    · cases hok
    · rename_i course hcourse
      exact ⟨⟨bounces, ⟨floor, kept, g⟩, forced, hyper⟩, speed, course,
        ⟨hknown, hbounces, hkept, hg, hfloor, hforced, hhyper⟩, ⟨hmin, hwhole, hpart, hall, hpull⟩,
        hstart, hstop, hspeed, hcourse, (pure_eq_ok.mp hok).symm⟩
  · rintro ⟨s, speed, course, hread, hvalid, hstart, hstop, hspeed, hcourse, rfl⟩
    refine ⟨(), hread.known, _, hread.bounces, ⟨hvalid.one_le, hvalid.whole⟩, _, hread.kept,
      ⟨hvalid.kept_pos, hvalid.kept_le⟩, _, hread.g, hvalid.g_pos, _, hread.floor, _, hread.forced,
      _, hread.hyper, ⟨hstart, hstop⟩, speed, hspeed, ?_⟩
    simp only [hcourse]
    rfl

/-- What a bounce is made of: a launch above the floor that hits its aim. -/
theorem build_ok {f : Bounce α} (hok : build m l = .ok f) :
    ∃ (aim : Aim α) (speed : α) (course : Course α), 0 < aim.court.g ∧ 0 < aim.court.kept ∧
      aim.court.floor < aim.startHeight ∧ aim.court.floor < aim.endHeight ∧
      aim.startHeight = l.start.position.z ∧ aim.endHeight = l.stop.position.z ∧
      aim.duration = l.duration ∧ aim.launchSpeed = .ok speed ∧
      aim.court.course? aim.bounces aim.startHeight aim.duration speed = some course ∧
      f = ⟨l, aim.court, ((l.stop.position.x - l.start.position.x) / l.duration,
        (l.stop.position.y - l.start.position.y) / l.duration), course.later l.start.time⟩ := by
  obtain ⟨s, speed, course, -, hvalid, hstart, hstop, hspeed, hcourse, rfl⟩ := build_ok_iff.mp hok
  exact ⟨s.aim l, speed, course, hvalid.g_pos, hvalid.kept_pos, hstart, hstop, rfl, rfl, rfl,
    hspeed, hcourse, rfl⟩

end Bounce

end Juggling
