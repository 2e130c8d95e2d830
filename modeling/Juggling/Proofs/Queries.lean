import Juggling.Proofs.Answers
import Juggling.Proofs.Exchange

namespace Juggling.Pattern

section Ask

variable {α β : Type} {p q : Pattern α} {l : Layout α} {f : Layout α → Except (InternalError α) β}
  {r : β}

theorem ask_eq_ok (hlaid : q.laidOut = .ok l) : q.ask f = .ok r ↔ f l = .ok r := by
  rw [ask, lift_eq_ok, hlaid]
  rfl

theorem askPath_eq_ok (hlaid : q.laidOut = .ok l) {path : ℕ} (hp : 1 ≤ path ∧ path ≤ q.paths) :
    q.askPath path f = .ok r ↔ f l = .ok r := by
  rw [askPath, Declarations.checkPath_eq_ok.mpr hp]
  exact ask_eq_ok hlaid

theorem mem_of_askPath {path : ℕ} (hok : q.askPath path f = .ok r) :
    1 ≤ path ∧ path ≤ q.paths := by
  obtain ⟨_, hcheck, -⟩ := bind_eq_ok.mp hok
  exact Declarations.checkPath_eq_ok.mp (lift_eq_ok.mp hcheck)

theorem askJuggler_eq_ok (hlaid : q.laidOut = .ok l) {j : ℕ} (hj : 1 ≤ j ∧ j ≤ q.jugglers) :
    q.askJuggler j f = .ok r ↔ f l = .ok r := by
  rw [askJuggler, Declarations.checkJuggler_eq_ok.mpr hj]
  exact ask_eq_ok hlaid

theorem mem_of_askJuggler {j : ℕ} (hok : q.askJuggler j f = .ok r) :
    1 ≤ j ∧ j ≤ q.jugglers := by
  obtain ⟨_, hcheck, -⟩ := bind_eq_ok.mp hok
  exact Declarations.checkJuggler_eq_ok.mp (lift_eq_ok.mp hcheck)

section Congr

variable {l' : Layout α} {f' : Layout α → Except (InternalError α) β} (hlaid : p.laidOut = .ok l)
  (hlaid' : q.laidOut = .ok l')

include hlaid hlaid'

/-- Two layouts answer a question about a path alike if they do so where the path exists. -/
theorem askPath_congr {path : ℕ} (hpaths : q.paths = p.paths)
    (h : 1 ≤ path ∧ path ≤ p.paths → f' l' = f l) : q.askPath path f' = p.askPath path f := by
  have hcheck : q.declarations.checkPath path = p.declarations.checkPath path := by
    rw [Declarations.checkPath, show q.declarations.paths = p.declarations.paths from hpaths]
    rfl
  rw [askPath, askPath, hcheck]
  cases hok : p.declarations.checkPath path with
  | error e => rfl
  | ok u => rw [ask, ask, hlaid, hlaid', Except.bind, Except.bind,
      h (Declarations.checkPath_eq_ok.mp hok)]

theorem askJuggler_congr {j : ℕ} (hjugglers : q.jugglers = p.jugglers)
    (h : 1 ≤ j ∧ j ≤ p.jugglers → f' l' = f l) : q.askJuggler j f' = p.askJuggler j f := by
  have hcheck : q.declarations.checkJuggler j = p.declarations.checkJuggler j := by
    rw [Declarations.checkJuggler,
      show q.declarations.jugglers = p.declarations.jugglers from hjugglers]
    rfl
  rw [askJuggler, askJuggler, hcheck]
  cases hok : p.declarations.checkJuggler j with
  | error e => rfl
  | ok u => rw [ask, ask, hlaid, hlaid', Except.bind, Except.bind,
      h (Declarations.checkJuggler_eq_ok.mp hok)]

end Congr

end Ask

variable {α : Type}

/-- Whether all questions about a time are answered: where each path and each hand is, which paths
are held, and where jugglers stand and face. -/
def AnswersAt [Scalar α] (p : Pattern α) (t : α) : Prop :=
  (∀ path, 1 ≤ path ∧ path ≤ p.paths →
    (∃ c, p.pathPlace path t = .ok c) ∧ ∃ b, p.isHeld path t = .ok b) ∧
  ∀ j, 1 ≤ j ∧ j ≤ p.jugglers →
    (∃ x, p.placement j t = .ok x) ∧ ∀ hand, ∃ c, p.handPlace j hand t = .ok c

/-- Whether it is known in which boxes all paths and all hands stay. -/
def AnswersExtremes [Scalar α] (p : Pattern α) : Prop :=
  ∀ e, (∀ path, 1 ≤ path ∧ path ≤ p.paths → ∃ c, p.pathExtreme e path = .ok (some c)) ∧
    ∀ j, 1 ≤ j ∧ j ≤ p.jugglers → ∀ hand, ∃ c, p.handExtreme e j hand = .ok (some c)

/-- Whether no question about an existing path or juggler is left without an answer. -/
def Answers [Scalar α] (p : Pattern α) : Prop := (∀ t, p.AnswersAt t) ∧ p.AnswersExtremes

variable [Exact α] {p q : Pattern α} {l : Layout α}

section Laid

variable (hlaid : q.laidOut = .ok l)

include hlaid

theorem answersAt_iff (t : α) : q.AnswersAt t ↔ l.AnswersAt q.jugglers q.paths t := by
  refine and_congr (forall₂_congr fun path hp ↦ ?_) (forall₂_congr fun j hj ↦ ?_)
  · simp only [pathPlace, isHeld, askPath_eq_ok hlaid hp]
  · simp only [placement, handPlace, askJuggler_eq_ok hlaid hj, Except.ok.injEq, exists_eq',
      true_and]

theorem answersExtremes_iff : q.AnswersExtremes ↔ l.AnswersExtremes q.jugglers q.paths := by
  refine forall_congr' fun e ↦ and_congr (forall₂_congr fun path hp ↦ ?_)
    (forall₂_congr fun j hj ↦ ?_)
  · simp only [pathExtreme, askPath_eq_ok hlaid hp]
  · simp only [handExtreme, askJuggler_eq_ok hlaid hj]

end Laid

variable [Numeral α]

theorem layOut_ok (hok : p.layOut = (q, .ok ())) : ∃ l, Layout.IsBuilt p.declarations l ∧
    q = { p with events := l.masters, layout := some l, state := .clean } := by
  unfold layOut at hok
  simp only at hok
  split at hok
  · rename_i l hl
    obtain ⟨-, -, hbuild⟩ := bind_eq_ok.mp hl
    cases hok
    exact ⟨l, Layout.build_ok hbuild, rfl⟩
  · cases hok

theorem layOut_of_isBuilt (hprops : p.checkProps = .ok ()) (h : Layout.IsBuilt p.declarations l) :
    p.layOut = ({ p with events := l.masters, layout := some l, state := .clean }, .ok ()) := by
  have hmake : { p with state := .layingOut }.makeLayout = .ok l :=
    bind_eq_ok.mpr ⟨(), lift_eq_ok.mpr hprops, h.build_eq⟩
  unfold layOut
  simp only [hmake]

theorem checkProps_of_layOut (hok : p.layOut = (q, .ok ())) : p.checkProps = .ok () := by
  unfold layOut at hok
  simp only at hok
  split at hok
  · rename_i l hl
    obtain ⟨_, hprops, -⟩ := bind_eq_ok.mp hl
    exact lift_eq_ok.mp hprops
  · cases hok

/-- Every question to a pattern that was laid out is answered exactly when those are that ask for
the start of the loop and for times as near to its end as one likes. Where image times of one event
are spaced, the end is always covered, and the start is if no event follows it within the
tolerance. -/
theorem answers_iff (hperms : ∀ s ∈ p.symmetries, s.jugglers.Rearranges ∧ s.paths.Rearranges)
    (hok : p.layOut = (q, .ok ())) (hl : q.layout = some l) :
    (q.Answers ↔ q.AnswersAt l.loop.low ∧
      ∀ s, s < l.loop.high → ∃ t, s ≤ t ∧ t < l.loop.high ∧ q.AnswersAt t) ∧
    (SymmetryGroup.Spaced l.group.period p.symmetries →
      (q.Answers ↔ q.AnswersAt l.loop.low) ∧
      ((∀ e ∈ q.events, ∀ k,
        ¬(0 < l.group.imageTime e k ∧ l.group.imageTime e k ≤ timeTolerance)) → q.Answers)) := by
  obtain ⟨l', h, rfl⟩ := layOut_ok hok
  obtain rfl := Option.some.inj hl
  have hlaid : ({ p with events := l'.masters, layout := some l', state := .clean } :
      Pattern α).laidOut = .ok l' := rfl
  simp only [Answers, answersExtremes_iff hlaid, answersAt_iff hlaid]
  have hreach (hr : l'.Reaches p.jugglers p.paths) : (∀ t, l'.AnswersAt p.jugglers p.paths t) ∧
      l'.AnswersExtremes p.jugglers p.paths :=
    ⟨h.answersAt_of_reaches hperms hr, h.answersExtremes_of_reaches hperms hr⟩
  refine ⟨⟨fun hall ↦ ⟨hall.1 _, fun s hs ↦ ⟨s, le_rfl, hs, hall.1 s⟩⟩,
    fun hends ↦ hreach (h.reaches_of_ends hperms hends.1 hends.2)⟩, fun hs ↦
      ⟨⟨fun hall ↦ hall.1 _, fun hstart ↦ hreach (h.reaches_of_spaced hperms hs (.inl hstart))⟩,
    fun hclear ↦ hreach (h.reaches_of_spaced hperms hs (.inr fun m hm hle ↦ ?_))⟩⟩
  obtain ⟨f⟩ := h.filled hperms hs.separated
  obtain ⟨e, he, htime⟩ := f.expansion.exists_imageTime hm
  rw [htime] at hle ⊢
  exact not_lt.mp fun hpos ↦ hclear e (List.mem_of_getElem? he) m.image ⟨hpos, hle⟩

/-- The exchange is laid out, and all questions to it are answered. -/
theorem answers_exchange :
    (∀ s ∈ Timeline.exchangePattern.symmetries, s.jugglers.Rearranges ∧ s.paths.Rearranges) ∧
    ∃ q l, Timeline.exchangePattern.layOut = (q, .ok ()) ∧ q.layout = some l ∧
      SymmetryGroup.Spaced l.group.period Timeline.exchangePattern.symmetries ∧
      (∀ e ∈ q.events, ∀ k,
        ¬(0 < l.group.imageTime e k ∧ l.group.imageTime e k ≤ timeTolerance)) ∧ q.Answers := by
  obtain ⟨l, hbuild, hok, hgroup, -⟩ := Timeline.layOut_exchange
  have hg := (Layout.build_ok hbuild).isGroupOf Timeline.rearranges_exchange
  have hspaced : SymmetryGroup.Spaced l.group.period Timeline.exchangePattern.symmetries := by
    rw [hgroup]
    exact Timeline.spaced_exchange
  -- All images are at multiples of a quarter.
  have hquarters : ∀ e ∈ Timeline.exchangePattern.events, ∀ r ∈ l.group.representatives.toList,
      (4 * (e.time + r.shift)).den = 1 := by
    rw [hgroup]
    decide +kernel
  have hclear : ∀ e ∈ Timeline.exchangePattern.events, ∀ k,
      ¬(0 < l.group.imageTime e k ∧ l.group.imageTime e k ≤ timeTolerance) := by
    rintro e he k ⟨hpos, hle⟩
    have hden := hquarters e he _ (Array.mem_toList_iff.mpr (hg.representative_mem k))
    obtain ⟨n, hn⟩ : ∃ n : ℤ, 4 * l.group.imageTime e k = n := by
      refine ⟨(4 * (e.time + (l.group.representative k).shift)).num + 4 * (k / l.group.size), ?_⟩
      have hperiod : l.group.period = 1 := by rw [hgroup]; rfl
      rw [SymmetryGroup.imageTime, hperiod, Scalar.ofInt_eq]
      push_cast
      rw [(Rat.den_eq_one_iff _).mp hden]
      ring
    have hn1 : (1 : ℚ) ≤ n := by
      have : (0 : ℚ) < n := by linarith
      exact_mod_cast this
    rw [timeTolerance_eq] at hle
    linarith
  exact ⟨Timeline.rearranges_exchange, _, l, hok, rfl, hspaced, hclear,
    ((answers_iff Timeline.rearranges_exchange hok rfl).2 hspaced).2 hclear⟩

end Juggling.Pattern
