import Juggling.Proofs.Marks
import Juggling.Proofs.PacedMotion
import Juggling.Proofs.Queries

namespace Juggling.Pattern

variable {α : Type} [Exact α] {f : α} {p q : Pattern α} {l l' : Layout α}

omit [Exact α] in
theorem tosses_of_isBounce (hbounce : p.isBounce = false) : ∀ e ∈ p.events, e.Tosses := by
  intro e he t ht hkind
  have hall := List.any_eq_false.mp (Bool.not_eq_true _ ▸ List.any_eq_false.mp hbounce e he) t ht
  cases hthrow : t.throwKind with
  | toss => rfl
  | bounce => simp [hkind, hthrow] at hall

theorem scaleTime_eq (hf : 0 < f) (p : Pattern α) : p.scaleTime f = .ok { p with
    symmetries := p.symmetries.map (Symmetry.scaleTime f)
    events := p.events.map (·.stretch f)
    positions := p.positions.map (·.stretch f)
    state := .dirty } := by
  unfold scaleTime
  rw [if_neg (by simp [hf])]
  rfl

variable [Numeral α]

/-- A pattern without bounces whose times no tolerance confuses, as they are and at another pace, is
laid out at that pace as before: the same events, later in proportion. At proportional times the
same paths are held, jugglers stand alike, and so do hands are that no throw and no soft catch
drives. -/
theorem layOut_scaleTime (hperms : ∀ s ∈ p.symmetries, s.jugglers.Rearranges ∧ s.paths.Rearranges)
    (hbounce : p.isBounce = false) (hok : p.layOut = (q, .ok ())) (hl : q.layout = some l)
    (hpace : Pace f {t | p.declarations.Mark l.group t}) :
    ∃ r r' l', p.scaleTime f = .ok r ∧ r.layOut = (r', .ok ()) ∧ r'.layout = some l' ∧
      l'.timeline = l.timeline.stretch f ∧
      (∀ m ∈ l.timeline.moments, Layout.globalPlace l'.tracks (m.stretch f).event =
        Layout.globalPlace l.tracks m.event) ∧
      ∀ t, (∀ path, r'.isHeld path (t * f) = q.isHeld path t) ∧
        ∀ j, r'.placement j (t * f) = q.placement j t ∧
          ∀ hand, (∀ m ∈ Moment.ofHand l.timeline.moments j hand,
              m.event.determinesVelocity = false) →
            r'.handPlace j hand (t * f) = q.handPlace j hand t := by
  have hf := hpace.pos
  have hprops := checkProps_of_layOut hok
  obtain ⟨l₀, h, rfl⟩ := layOut_ok hok
  obtain rfl := Option.some.inj hl
  have hg := h.isGroupOf hperms
  have ht := Declarations.times_of_pace hg hpace
  obtain ⟨l', h', hpaced⟩ := h.exists_paced hperms ht (tosses_of_isBounce hbounce)
  -- Nothing follows the start of the loop closely, so that every question is answered.
  have hclear : ∀ m ∈ l₀.timeline.moments, m.time ≤ timeTolerance → m.time ≤ 0 := by
    intro m hm hle
    have hfar := ht.images.discerned _ (ht.moment hg h.timeline m hm) 0 ht.zero
    by_contra hpos
    rw [not_le] at hpos
    rw [Discerned, sub_zero, abs_of_pos hpos] at hfar
    have hlt := SymmetryGroup.timeTolerance_lt (α := α)
    exact hfar.elim hpos.ne' fun hge ↦ by linarith
  have hanswers := h.answersAt_of_reaches hperms
    (h.reaches_of_spaced hperms ht.spaced (.inr hclear))
  refine ⟨_, _, l', scaleTime_eq hf p, layOut_of_isBuilt hprops h', rfl, hpaced.timeline,
    fun m hm ↦ ?_, fun t ↦ ⟨fun path ↦ ?_, fun j ↦ ?_⟩⟩
  · rw [hpaced.tracks]
    exact Layout.globalPlace_stretch hf _ _
  · refine askPath_congr rfl rfl rfl fun hpath ↦ ?_
    obtain ⟨b, hb⟩ := ((hanswers t).1 path hpath).2
    rw [hb, hpaced.isHeld hf hb]
  · refine ⟨askJuggler_congr rfl rfl rfl fun _ ↦ congrArg _ (hpaced.placement hf j t),
      fun hand hfree ↦ askJuggler_congr rfl rfl rfl fun hj ↦ ?_⟩
    obtain ⟨c, hc⟩ := (hanswers t).2 j hj hand
    rw [hc, hpaced.handPlace hf ht h h' hperms hj hfree hc]

/-- The exchange is on a grid of quarters, and can be laid out at half the pace. -/
theorem layOut_scaleTime_exchange :
    (∀ s ∈ Timeline.exchangePattern.symmetries, s.jugglers.Rearranges ∧ s.paths.Rearranges) ∧
    Timeline.exchangePattern.isBounce = false ∧
    ∃ q l, Timeline.exchangePattern.layOut = (q, .ok ()) ∧ q.layout = some l ∧
      Pace 2 {t | Timeline.exchangePattern.declarations.Mark l.group t} ∧
      ∃ r r' l', Timeline.exchangePattern.scaleTime 2 = .ok r ∧ r.layOut = (r', .ok ()) ∧
        r'.layout = some l' ∧ l'.timeline = l.timeline.stretch 2 ∧
        ∀ t, r'.isHeld 1 (t * 2) = q.isHeld 1 t := by
  obtain ⟨l, hbuild, hok, hgroup, -⟩ := Timeline.layOut_exchange
  have hbounce : Timeline.exchangePattern.isBounce = false := by decide
  have hpace : Pace 2 {t | Timeline.exchangePattern.declarations.Mark l.group t} := by
    refine Declarations.pace_of_multiples (u := 1 / 4)
      ((Layout.build_ok hbuild).isGroupOf Timeline.rearranges_exchange) two_pos
      (by decide +kernel) (by decide +kernel) ?_ Timeline.quarters_exchange.2
      fun _ hx ↦ absurd hx List.not_mem_nil
    rw [hgroup]
    exact Timeline.quarters_exchange.1
  obtain ⟨r, r', l', hscale, hlay, hl', htimeline, -, hsame⟩ :=
    layOut_scaleTime Timeline.rearranges_exchange hbounce hok rfl hpace
  exact ⟨Timeline.rearranges_exchange, hbounce, _, l, hok, rfl, hpace, r, r', l', hscale, hlay, hl',
    htimeline, fun t ↦ (hsame t).1 1⟩

end Juggling.Pattern
