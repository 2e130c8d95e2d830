import Juggling.Proofs.Chains
import Juggling.Proofs.Fractions

namespace Juggling

variable {α : Type}

namespace Touch

/-- A prop that was caught or is held stays with its hand, which goes on holding it or throws it. -/
def Stays (a b : Touch α) : Prop :=
  (a.transition.kind.isCatch = true ∨ a.transition.kind = .holding) ∧
    (b.transition.kind = .throwing ∨ b.transition.kind = .holding) ∧
    Generated.SameHand b.moment.toGenerated a.moment.toGenerated

/-- A hand goes on holding the prop that it has just thrown. -/
def Sticks (a b : Touch α) : Prop :=
  a.transition.kind = .throwing ∧ b.transition.kind = .holding ∧
    Generated.SameHand b.moment.toGenerated a.moment.toGenerated

/-- A flight leads from a throw to a catch. -/
def Flies [Scalar α] [Numeral α] (place : Event α → Coordinate α) (a b : Touch α)
    (f : Flight α) : Prop :=
  a.transition.kind = .throwing ∧ b.transition.kind.isCatch = true ∧
    Flight.build a.transition.throwKind a.transition.modifier
      ⟨PathLink.knot place a, PathLink.knot place b⟩ = .ok f

end Touch

theorem TransitionKind.isCatch_eq_false {k : TransitionKind} :
    k.isCatch = false ↔ k = .throwing ∨ k = .holding := by
  cases k <;> simp [isCatch]

variable [Scalar α] [Numeral α] {place : Event α → Coordinate α}

namespace PathLink

variable {p : ℕ} {a b : Touch α} {x : Passage α}

theorem passage?_eq_ok : passage? place p a b = .ok x ↔
    (∃ f, a.Flies place b f ∧ x = .thrown a.transition.throwKind a.transition.modifier f) ∨
      (a.Stays b ∨ a.Sticks b) ∧ x = .held a.moment.event.juggler a.moment.event.hand := by
  have hhas := Generated.hasHand_iff b.moment.toGenerated a.moment.toGenerated
  cases hb : b.transition.kind.isCatch with
  | true =>
    have hheld : ¬(a.Stays b ∨ a.Sticks b) := by
      rintro (⟨-, hkind, -⟩ | ⟨-, hkind, -⟩)
      · exact absurd (TransitionKind.isCatch_eq_false.mpr hkind) (by simp [hb])
      · exact absurd (TransitionKind.isCatch_eq_false.mpr (.inr hkind)) (by simp [hb])
    unfold passage?
    simp only [hb, if_true, hheld, false_and, or_false, Touch.Flies, true_and]
    by_cases ha : a.transition.kind = .throwing
    · simp only [ha, beq_self_eq_true, if_true, true_and, lift_eq_ok, map_eq_ok]
      exact exists_congr fun f ↦ and_congr_right fun _ ↦ eq_comm
    · simp [ha]
  | false =>
    have hflies : ¬∃ f, a.Flies place b f ∧
        x = .thrown a.transition.throwKind a.transition.modifier f := by
      rintro ⟨f, ⟨-, hcatch, -⟩, -⟩
      exact absurd hcatch (by simp [hb])
    unfold passage?
    simp only [hb, Bool.false_eq_true, if_false, hflies, false_or]
    rw [TransitionKind.isCatch_eq_false] at hb
    by_cases hhand : Generated.SameHand b.moment.toGenerated a.moment.toGenerated
    · rw [hhas.mpr hhand]
      simp only [Touch.Stays, Touch.Sticks, hhand, and_true, if_true, @eq_comm _ x]
      cases ha : a.transition.kind <;> rcases hb with hb | hb <;>
        simp [hb, TransitionKind.isCatch]
    · have hnot : b.moment.event.hasHand a.moment.event.juggler a.moment.event.hand = false := by
        rwa [← Bool.not_eq_true, hhas]
      rw [hnot]
      simp only [Touch.Stays, Touch.Sticks, hhand, and_false, or_self, false_and, iff_false]
      split_ifs <;> simp_all

/-- What a link does, its two touches tell. -/
theorem passage_of_build {l : PathLink α} (hok : build place p a b = .ok l) :
    (l.start, l.stop) = (a, b) ∧ (∀ f, l.flight? = some f ↔ a.Flies place b f) ∧
      (l.isHeld = true ↔ a.Stays b ∨ a.Sticks b) := by
  obtain ⟨x, hx, rfl⟩ := map_eq_ok.mp hok
  refine ⟨rfl, ?_⟩
  rcases passage?_eq_ok.mp hx with ⟨f, hf, rfl⟩ | ⟨hheld, rfl⟩
  · have hnot : ¬(a.Stays b ∨ a.Sticks b) := by
      intro hheld
      have := hx.symm.trans (passage?_eq_ok.mpr (.inr ⟨hheld, rfl⟩))
      cases this
    refine ⟨fun f' ↦ ⟨fun h ↦ ?_, fun h ↦ ?_⟩, by simpa [isHeld] using not_or.mp hnot⟩
    · cases h
      exact hf
    · exact congrArg some (Except.ok.inj (hf.2.2.symm.trans h.2.2))
  · refine ⟨fun f ↦ ⟨fun h ↦ ?_, fun h ↦ ?_⟩, by simpa [isHeld] using hheld⟩
    · cases h
    · have := hx.symm.trans (passage?_eq_ok.mpr (.inl ⟨f, h, rfl⟩))
      cases this

/-- A link is built exactly between two touches that fly, stay or stick. -/
theorem exists_build_iff : (∃ l, build place p a b = .ok l) ↔
    (∃ f, a.Flies place b f) ∨ a.Stays b ∨ a.Sticks b := by
  constructor
  · rintro ⟨l, hl⟩
    obtain ⟨x, hx, -⟩ := map_eq_ok.mp hl
    rcases passage?_eq_ok.mp hx with ⟨f, hf, -⟩ | ⟨hheld, -⟩
    · exact .inl ⟨f, hf⟩
    · exact .inr hheld
  · rintro (⟨f, hf⟩ | hheld)
    · exact ⟨_, map_eq_ok.mpr ⟨_, passage?_eq_ok.mpr (.inl ⟨f, hf, rfl⟩), rfl⟩⟩
    · exact ⟨_, map_eq_ok.mpr ⟨_, passage?_eq_ok.mpr (.inr ⟨hheld, rfl⟩), rfl⟩⟩

/-- A link that holds what was thrown is one over touches that stick. -/
theorem sticks_of_build {l : PathLink α} (hok : build place p a b = .ok l) :
    l.isHeld = true ∧ l.start.transition.kind = .throwing ↔ a.Sticks b := by
  obtain ⟨hends, -, hheld⟩ := passage_of_build hok
  obtain ⟨rfl, rfl⟩ := Prod.mk.inj hends
  rw [hheld]
  constructor
  · rintro ⟨⟨hkind, -, -⟩ | hsticks, hthrow⟩
    · rcases hkind with hkind | hkind <;> simp [hthrow, TransitionKind.isCatch] at hkind
    · exact hsticks
  · exact fun hsticks ↦ ⟨.inr hsticks, hsticks.1⟩

end PathLink

namespace PathHistory

variable {moments : List (Moment α)} {p : ℕ} {h : PathHistory α}

/-- What a history says: its links join each touch to the next, and those in flight and in a hand
are the ones over touches that fly, and over touches that stay or stick. -/
structure Protocol (place : Event α → Coordinate α) (moments : List (Moment α)) (p : ℕ)
    (h : PathHistory α) : Prop where
  touches : h.touches = Touch.ofPath moments p
  links : h.links.map (fun l ↦ (l.start, l.stop)) = steps h.touches
  flights : ∀ l ∈ h.links, ∀ f, l.flight? = some f ↔ l.start.Flies place l.stop f
  held : ∀ l ∈ h.links, l.isHeld = true ↔ l.start.Stays l.stop ∨ l.start.Sticks l.stop
  thrown : ∀ l ∈ h.links, l.isHeld = true ∧ l.start.transition.kind = .throwing ↔
    l.start.Sticks l.stop

theorem exists_build_iff : (∃ h, build place moments p = .ok h) ↔
    ∀ s ∈ steps (Touch.ofPath moments p),
      (∃ f, s.1.Flies place s.2 f) ∨ s.1.Stays s.2 ∨ s.1.Sticks s.2 := by
  constructor
  · rintro ⟨h, hok⟩ s hs
    obtain ⟨links, hlinks, -⟩ := bind_eq_ok.mp hok
    exact PathLink.exists_build_iff.mp (exists_mapM_ok_iff.mp ⟨links, hlinks⟩ s hs)
  · intro hall
    obtain ⟨links, hlinks⟩ :=
      exists_mapM_ok_iff.mpr fun s hs ↦ PathLink.exists_build_iff (p := p).mpr (hall s hs)
    exact ⟨_, bind_eq_ok.mpr ⟨links, hlinks, rfl⟩⟩

theorem protocol_of_build (hok : build place moments p = .ok h) : Protocol place moments p h := by
  obtain ⟨links, hlinks, hh⟩ := bind_eq_ok.mp hok
  obtain rfl := pure_eq_ok.mp hh
  have hsteps := mapM_eq_ok.mp hlinks
  have hbuilt : ∀ l ∈ links, PathLink.build place p l.start l.stop = .ok l := by
    intro l hl
    obtain ⟨s, -, hs⟩ := exists_of_forall₂ hsteps hl
    obtain ⟨hends, -⟩ := PathLink.passage_of_build hs
    obtain ⟨hstart, hstop⟩ := Prod.mk.inj hends
    rw [hstart, hstop]
    exact hs
  refine ⟨rfl, ?_, fun l hl ↦ (PathLink.passage_of_build (hbuilt l hl)).2.1,
    fun l hl ↦ (PathLink.passage_of_build (hbuilt l hl)).2.2,
    fun l hl ↦ PathLink.sticks_of_build (hbuilt l hl)⟩
  change links.map _ = steps (Touch.ofPath moments p)
  generalize steps (Touch.ofPath moments p) = ss at hsteps
  clear hlinks hok hbuilt hh
  induction hsteps with
  | nil => rfl
  | cons hs _ ih => rw [List.map_cons, ih, (PathLink.passage_of_build hs).1]

/-- Histories are built exactly when on every path a prop flies from each touch to the next or
stays in the hand that it is in, be it that the hand has just thrown it. -/
theorem buildAll_iff (place : Event α → Coordinate α) (moments : List (Moment α)) (N : ℕ) :
    ((∃ paths, buildAll place moments N = .ok paths) ↔
      ∀ p, 1 ≤ p ∧ p ≤ N → ∀ s ∈ steps (Touch.ofPath moments p),
        (∃ f, s.1.Flies place s.2 f) ∨ s.1.Stays s.2 ∨ s.1.Sticks s.2) ∧
    ∀ paths, buildAll place moments N = .ok paths → ∀ p, 1 ≤ p ∧ p ≤ N →
      ∃ h, paths.get? p = some h ∧ Protocol place moments p h := by
  constructor
  · have hall : (∃ paths, buildAll place moments N = .ok paths) ↔
        ∃ hs, (List.range' 1 N).mapM (build place moments) = .ok hs := by
      simp only [buildAll, bind_eq_ok, pure_eq_ok]
      constructor
      · rintro ⟨-, hs, hhs, -⟩
        exact ⟨hs, hhs⟩
      · rintro ⟨hs, hhs⟩
        exact ⟨_, hs, hhs, rfl⟩
    rw [hall, exists_mapM_ok_iff]
    refine forall_congr' fun p ↦ ?_
    rw [exists_build_iff, List.mem_range'_1]
    exact ⟨fun h hp ↦ h (by omega), fun h hp ↦ h (by omega)⟩
  · intro paths hok p hp
    obtain ⟨h, hget, hbuild⟩ := get?_of_buildAll hok hp
    exact ⟨h, hget, protocol_of_build hbuild⟩

/-- A hand throws two props and catches one of them, with the other in it all the time. -/
def carried : List (Moment ℚ) :=
  Moment.numbered [⟨0, 0, ⟨0, ⟨20, 0, 0⟩, 1, .right,
      [{ kind := .throwing, path := 1 }, { kind := .throwing, path := 2 }]⟩⟩,
    ⟨1, 0, ⟨9 / 10, ⟨20, 0, 0⟩, 1, .right,
      [{ kind := .catching, path := 1 }, { kind := .holding, path := 2 }]⟩⟩]

theorem thrown_held_carried : ∃ paths, buildAll Event.place carried 2 = .ok paths ∧
    ∃ h, paths.get? 2 = some h ∧ ∃ l ∈ h.links, l.isHeld = true ∧
      l.start.transition.kind = .throwing := by
  have hbuilt : (buildAll Event.place carried 2).toOption.isSome = true := by
    decide +kernel
  obtain ⟨paths, hpaths⟩ := Option.isSome_iff_exists.mp hbuilt
  rw [toOption_eq_some] at hpaths
  obtain ⟨h, hget, hh⟩ := (buildAll_iff Event.place carried 2).2 paths hpaths 2 (by decide)
  obtain ⟨s, hs, hsticks⟩ : ∃ s ∈ h.links.map fun l ↦ (l.start, l.stop), s.1.Sticks s.2 := by
    rw [hh.links, hh.touches]
    exact ⟨_, List.mem_cons_self, rfl, rfl, rfl, rfl⟩
  obtain ⟨l, hl, rfl⟩ := List.mem_map.mp hs
  exact ⟨paths, hpaths, h, hget, l, hl, (hh.thrown l hl).mpr hsticks⟩

end PathHistory

end Juggling
