import Juggling.Proofs.Budget
import Juggling.Proofs.Settling

namespace Juggling

theorem Generated.dropCoincident_ne_limit {α : Type} [Exact α] (kept gs : List (Generated α))
    (k : ℕ) : dropCoincident kept gs ≠ .error (.expansionLimit k) := by
  induction gs generalizing kept with
  | nil => exact fun h ↦ by cases h
  | cons g gs ih =>
    unfold dropCoincident
    split
    · exact ih (g :: kept)
    · split_ifs
      · exact ih kept
      · exact fun h ↦ by cases h

variable {α : Type} [Exact α] {symmetries : List (Symmetry α)} {J N : ℕ}

namespace Expansion

variable (x : Expansion α)

section Limit

variable {x} (hscan : Coverage.scan x.seeds x.group J N = .ok x.coverage)

include hscan

/-- A timeline fails for want of budget when its expansion does, and only then. -/
theorem expand_eq_limit (hne : x.seeds ≠ []) {k : ℕ} :
    Moment.expand x.seeds x.group J N x.loop = .error (.expansionLimit k) ↔
      x.run N = .error (.expansionLimit k) := by
  have hempty : x.seeds.isEmpty = false := by simpa using hne
  unfold Moment.expand
  rw [hempty, hscan]
  cases hrun : x.run N with
  | error err => simp [hrun, bind, Except.bind]
  | ok made =>
    simp only [Bool.false_eq_true, if_false, bind, Except.bind, hrun, pure, Except.pure]
    cases hdrop : Generated.dropCoincident [] (made.mergeSort Generated.notAfter) with
    | error err =>
      simp only [Except.error.injEq, reduceCtorEq, iff_false]
      rintro rfl
      exact Generated.dropCoincident_ne_limit _ _ _ hdrop
    | ok kept => simp

end Limit

variable (hfits : ∀ s ∈ symmetries, (SymmetryGroup.ofShift s (0 : α)).Fits J N)
  (hok : SymmetryGroup.ofSymmetries symmetries J N = .ok x.group)
  (hseeds : ∀ e ∈ x.seeds, Placed J N e)
  (hscan : Coverage.scan x.seeds x.group J N = .ok x.coverage)
  (hloop : x.loop.high = x.loop.low + x.group.period)

include hfits hok hseeds hscan hloop

/-- Both passes of an expansion end because what is needed is there, less than one period after all
props are back on their paths; only those images follow the loop or precede it that are within the
tolerance. Unless that is the longer of the two times, the budget is only exceeded by patterns with
so many images in so many periods. -/
theorem passes_end : ∃ back forth,
    (∀ budget, x.backward budget (.ofCoverage x.coverage)
        (Front.before x.group x.seeds x.loop.high 0) =
      if back.length ≤ budget then .ok back else .error (.expansionLimit limit)) ∧
    (∀ budget, x.forward budget (x.needsAfter N back)
        (Front.before x.group x.seeds x.loop.high 1) =
      if forth.length ≤ budget then .ok forth else .error (.expansionLimit limit)) ∧
    (∀ o ∈ back ++ forth, o.event.time <
        x.loop.high + (x.group.delay.paths.order + 1) * x.group.period ∧
      (x.loop.low - (x.group.delay.paths.order + 1) * x.group.period < o.event.time ∨
        x.loop.low - timeTolerance ≤ o.event.time)) ∧
    (timeTolerance < (x.group.delay.paths.order + 1) * x.group.period →
      ∀ k, Moment.expand x.seeds x.group J N x.loop = .error (.expansionLimit k) →
        limit < x.seeds.length * x.group.size * (2 * x.group.delay.paths.order + 3)) := by
  have hg := SymmetryGroup.ofSymmetries_ok hfits hok
  have hpos := hg.period_pos
  have hrounds : 0 < (x.group.delay.paths.order + 1) * x.group.period := by positivity
  obtain ⟨back, cb, nb, hrunBack, -, hback, htimeBack⟩ :=
    exists_backward hg hseeds hscan hloop
  obtain ⟨forth, cf, nf, hrunForth, hforth, htimeForth⟩ :=
    exists_forward hg hseeds hscan hloop back
  refine ⟨back, forth, hback, hforth, fun o ho ↦ ?_, fun hlong k hexpand ↦ ?_⟩
  · rcases List.mem_append.mp ho with ho | ho
    · exact ⟨by linarith [(htimeBack o ho).1], (htimeBack o ho).2⟩
    · exact ⟨(htimeForth o ho).2, .inl (by linarith [(htimeForth o ho).1])⟩
  · by_cases hne : x.seeds = []
    · rw [hne] at hexpand
      cases hexpand
    rw [expand_eq_limit hscan hne] at hexpand
    have hmany : limit < back.length + forth.length := by
      by_contra! hfew
      have hrun : x.run N = .ok (back ++ forth) := by
        unfold run
        rw [hback, if_pos (by omega)]
        simp only [bind, Except.bind]
        rw [hforth, if_pos (by omega)]
        rfl
      rw [hrun] at hexpand
      cases hexpand
    have hback' := hrunBack.length_le hg (.inr rfl) (B := x.group.delay.paths.order + 2)
      fun a ha b hb ↦ by
        have hlate := (htimeBack a ha).1
        have hearly : x.loop.low - (x.group.delay.paths.order + 1) * x.group.period <
            b.event.time := by
          rcases (htimeBack b hb).2 with h | h <;> linarith
        push_cast
        linarith
    have hforth' := hrunForth.length_le hg (.inl rfl) (B := x.group.delay.paths.order + 1)
      fun a ha b hb ↦ by
        have := htimeForth a ha
        have := htimeForth b hb
        push_cast
        linarith
    calc limit < back.length + forth.length := hmany
      _ ≤ x.seeds.length * (x.group.size * (x.group.delay.paths.order + 2)) +
          x.seeds.length * (x.group.size * (x.group.delay.paths.order + 1)) :=
        Nat.add_le_add hback' hforth'
      _ = x.seeds.length * x.group.size * (2 * x.group.delay.paths.order + 3) := by ring

/-- A loop so short that the tolerance before it holds more images than there is budget for cannot
be expanded. -/
theorem expand_of_crowded (hne : x.seeds ≠ [])
    (hshort : limit * x.group.period ≤ timeTolerance) :
    Moment.expand x.seeds x.group J N x.loop = .error (.expansionLimit limit) := by
  have hg := SymmetryGroup.ofSymmetries_ok hfits hok
  obtain ⟨back, c', n', hrun, hstop, hback, -⟩ := exists_backward hg hseeds hscan hloop
  have hfar := (hstop.resolve_left hne).2
  obtain ⟨e, he⟩ : ∃ e, x.seeds[0]? = some e :=
    ⟨_, List.getElem?_eq_getElem (List.length_pos_iff.mpr hne)⟩
  -- The image as many periods back as the limit says is not yet before the loop.
  have hpast : c' 0 < x.lastInLoop 0 + -(limit : ℤ) * x.group.size := by
    by_contra! hle
    have hmono := hg.imageTime_mono e hle
    rw [hg.imageTime_add_size] at hmono
    have hlast := (lastInLoop_spec hg he).2.trans
      (hg.imageTime_mono e (show x.lastInLoop 0 + 1 ≤ x.lastInLoop 0 + 1 * x.group.size by
        have := hg.size_pos
        omega))
    rw [hg.imageTime_add_size] at hlast
    push_cast at hmono hlast
    linarith [hfar 0 e he]
  have hlimit : limit < back.length := by
    obtain ⟨m, hm, hblock⟩ := hrun.block 0
    have hlen : (back.filter (·.seed == 0)).length = m := by
      simpa using congrArg List.length hblock
    have hle := List.length_filter_le (fun g : Generated α ↦ g.seed == 0) back
    have hsize : (limit : ℤ) * 1 ≤ limit * x.group.size :=
      mul_le_mul_of_nonneg_left (by exact_mod_cast hg.size_pos) (Nat.cast_nonneg _)
    have hmany : (limit : ℤ) < m := by linarith
    omega
  rw [expand_eq_limit hscan hne]
  unfold run
  rw [hback, if_neg (by omega)]
  rfl

end Expansion

namespace Timeline

def exchangeExpansion : Expansion ℚ :=
  ⟨exchange.events, exchangeGroup, exchangeCoverage, ⟨0, exchangeGroup.period⟩⟩

theorem passes_end_exchange :
    (∀ s ∈ exchange.symmetries, (SymmetryGroup.ofShift s (0 : ℚ)).Fits 1 1) ∧
    SymmetryGroup.ofSymmetries exchange.symmetries 1 1 = .ok exchangeExpansion.group ∧
    (∀ e ∈ exchangeExpansion.seeds, Placed 1 1 e) ∧
    Coverage.scan exchangeExpansion.seeds exchangeExpansion.group 1 1 =
      .ok exchangeExpansion.coverage ∧
    exchangeExpansion.loop.high = exchangeExpansion.loop.low + exchangeExpansion.group.period ∧
    ∃ back, ∀ budget, exchangeExpansion.backward budget (.ofCoverage exchangeExpansion.coverage)
        (Front.before exchangeExpansion.group exchangeExpansion.seeds
          exchangeExpansion.loop.high 0) =
      if back.length ≤ budget then .ok back else .error (.expansionLimit Expansion.limit) := by
  have hfits := exchange.fits rearranges_exchange validate_exchange
  have hseeds : ∀ e ∈ exchangeExpansion.seeds, Placed 1 1 e :=
    (exchange.validate_ok validate_exchange).1
  have hloop : exchangeExpansion.loop.high =
      exchangeExpansion.loop.low + exchangeExpansion.group.period :=
    (zero_add _).symm
  obtain ⟨back, -, hback, -⟩ := exchangeExpansion.passes_end hfits ofSymmetries_exchange hseeds
    scan_exchange hloop
  exact ⟨hfits, ofSymmetries_exchange, hseeds, scan_exchange, hloop, back, hback⟩

/-- Two hands that catch and throw at once, over and over in next to no time. -/
def flurry : Declarations ℚ where
  jugglers := 1
  paths := 2
  symmetries := [⟨.delay, ⟨true, #[1]⟩, ⟨true, #[1, 2]⟩, some (1 / 10 ^ 14)⟩]
  events := [
    ⟨0, ⟨10, 0, 0⟩, 1, .right,
      [{ kind := .catching, path := 1 }, { kind := .throwing, path := 1 }]⟩,
    ⟨0, ⟨-10, 0, 0⟩, 1, .left,
      [{ kind := .catching, path := 2 }, { kind := .throwing, path := 2 }]⟩]
  positions := []

def flurryGroup : SymmetryGroup ℚ :=
  ⟨⟨1 / 10 ^ 14, ⟨true, #[1]⟩, ⟨true, #[1, 2]⟩⟩, #[⟨0, ⟨true, #[1]⟩, ⟨true, #[1, 2]⟩⟩]⟩

theorem expand_flurry :
    flurry.validate = .ok () ∧
    SymmetryGroup.ofSymmetries flurry.symmetries 1 2 = .ok flurryGroup ∧
    (∃ c, Coverage.scan flurry.events flurryGroup 1 2 = .ok c) ∧
    Moment.expand flurry.events flurryGroup 1 2 ⟨0, flurryGroup.period⟩ =
      .error (.expansionLimit Expansion.limit) ∧
    flurry.events.length * flurryGroup.size * (2 * flurryGroup.delay.paths.order + 3) ≤
      Expansion.limit := by
  have hvalid : flurry.validate = .ok () := toOption_eq_some.mp (by decide +kernel)
  have hfits := flurry.fits (by decide +kernel) hvalid
  have hok : SymmetryGroup.ofSymmetries flurry.symmetries 1 2 = .ok flurryGroup :=
    SymmetryGroup.ofSymmetries_of_ordered flurry.symmetries 1 2 _ flurryGroup.representatives rfl
      (by decide +kernel) (by decide +kernel) (by decide +kernel) (by decide +kernel)
  have hscan : (Coverage.scan flurry.events flurryGroup 1 2).toOption.isSome = true := by
    decide +kernel
  obtain ⟨c, hc⟩ := Option.isSome_iff_exists.mp hscan
  rw [toOption_eq_some] at hc
  have hshort : (Expansion.limit : ℚ) * flurryGroup.period ≤ timeTolerance := by
    rw [timeTolerance_eq]
    decide +kernel
  exact ⟨hvalid, hok, ⟨c, hc⟩, Expansion.expand_of_crowded
    ⟨flurry.events, flurryGroup, c, ⟨0, flurryGroup.period⟩⟩ hfits hok
    (flurry.validate_ok hvalid).1 hc (zero_add _).symm (List.cons_ne_nil _ _)
    hshort, by decide +kernel⟩

end Timeline

end Juggling
