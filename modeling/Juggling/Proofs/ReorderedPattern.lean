import Juggling.Proofs.Queries
import Juggling.Proofs.Twins

namespace Juggling

variable {α : Type} [Exact α]

namespace Declarations

variable {d : Declarations α} {period : α}

/-- The times of all images of events, and the ends of the loop. -/
def instants (d : Declarations α) (period : α) : Set α :=
  {t | t = 0 ∨ t = period ∨
    ∃ e ∈ d.events, ∃ x ∈ SymmetryGroup.offsets period d.symmetries, t = e.time + x}

theorem instants_perm {es : List (Event α)} (hperm : d.events.Perm es) :
    { d with events := es }.instants period = d.instants period := by
  simp only [instants, hperm.mem_iff]

theorem discrete_of_instants (h : ∀ s ∈ d.instants period, ∀ t ∈ d.instants period,
    s = t ∨ timeTolerance < |s - t|) : SymmetryGroup.Discrete period d.symmetries d.events := by
  have himage {e : Event α} (he : e ∈ d.events) {x : α}
      (hx : x ∈ SymmetryGroup.offsets period d.symmetries) : e.time + x ∈ d.instants period :=
    .inr (.inr ⟨e, he, x, hx, rfl⟩)
  refine ⟨fun e he f hf x hx ↦ ?_, fun e he x hx ↦ ?_⟩
  · exact h _ (himage he hx) _ (.inr (.inr ⟨f, hf, 0, AddSubgroup.zero_mem _, (add_zero _).symm⟩))
  · simpa only [sub_zero] using h _ (himage he hx) 0 (.inl rfl)

/-- The declared times are multiples of a unit. -/
theorem discrete_instants {unit : α} (hunit : timeTolerance < unit)
    (hperiod : period ∈ AddSubgroup.zmultiples unit)
    (hdelays : ∀ s ∈ d.symmetries,
      (SymmetryGroup.declared period s).shift ∈ AddSubgroup.zmultiples unit)
    (hevents : ∀ e ∈ d.events, e.time ∈ AddSubgroup.zmultiples unit) :
    ∀ s ∈ d.instants period, ∀ t ∈ d.instants period, s = t ∨ timeTolerance < |s - t| := by
  have hmem : ∀ t ∈ d.instants period, t ∈ AddSubgroup.zmultiples unit := by
    rintro t (rfl | rfl | ⟨e, he, x, hx, rfl⟩)
    · exact AddSubgroup.zero_mem _
    · exact hperiod
    · exact AddSubgroup.add_mem _ (hevents e he)
        (SymmetryGroup.offsets_le_zmultiples hdelays hx)
  exact fun s hs t ht ↦ (SymmetryGroup.eq_or_le_abs_sub (timeTolerance_pos.trans hunit) (hmem s hs)
    (hmem t ht)).imp_right hunit.trans_le

end Declarations

variable [Numeral α]

theorem Layout.build_error {d : Declarations α} {g : SymmetryGroup α} {err : PatternError α}
    (hvalid : d.validate = .ok ())
    (hgroup : SymmetryGroup.ofSymmetries d.symmetries d.jugglers d.paths = .ok g)
    (herr : Timeline.build d.events g d.jugglers d.paths ⟨0, g.period⟩ = .error err) :
    build d = .error err := by
  simp [build, hvalid, hgroup, herr, lift, bind, Except.bind]

namespace Pattern

variable {p q : Pattern α} {es : List (Event α)}

theorem layOut_error {err : PatternError α} (hprops : p.checkProps = .ok ())
    (hbuild : Layout.build p.declarations = .error err) : p.layOut.2 = .error err := by
  have hmake : { p with state := .layingOut }.makeLayout = .error err := by
    have hprops' : { p with state := .layingOut }.checkProps = .ok () := hprops
    rw [makeLayout, hprops']
    exact hbuild
  unfold layOut
  simp only [hmake]

section Perm

variable (hperms : ∀ s ∈ p.symmetries, s.jugglers.Rearranges ∧ s.paths.Rearranges)
  (hperm : p.events.Perm es)
  (hdiscrete : ∀ g, SymmetryGroup.ofSymmetries p.symmetries p.jugglers p.paths = .ok g →
    ∀ s ∈ p.declarations.instants g.period, ∀ t ∈ p.declarations.instants g.period,
      s = t ∨ timeTolerance < |s - t|)

include hperms hperm hdiscrete

theorem exists_layOut_of_perm (hok : p.layOut = (q, .ok ()))
    (hlimit : { p with events := es }.layOut.2 ≠
      .error (.user (.expansionLimit Expansion.limit))) :
    ∃ q', { p with events := es }.layOut = (q', .ok ()) := by
  have hprops := checkProps_of_layOut hok
  obtain ⟨l, h, rfl⟩ := layOut_ok hok
  have hd := Declarations.discrete_of_instants (hdiscrete l.group h.group)
  obtain ⟨l', h'⟩ : ∃ l', Layout.IsBuilt { p.declarations with events := es } l' := by
    refine h.exists_of_perm hperms hd hperm fun herr ↦ hlimit ?_
    exact layOut_error (p := { p with events := es }) hprops (Layout.build_error
      (Declarations.validate_perm hperm h.valid) h.group (h.loop_eq ▸ herr))
  exact ⟨_, layOut_of_isBuilt (p := { p with events := es }) hprops h'⟩

end Perm

/-- Where no tolerance confuses two times, events may be declared in any order: as long as there are
not too many images, the pattern is laid out in either order or in none, and props and hands move
alike. -/
theorem layOut_perm (hperms : ∀ s ∈ p.symmetries, s.jugglers.Rearranges ∧ s.paths.Rearranges)
    (hperm : p.events.Perm es)
    (hdiscrete : ∀ g, SymmetryGroup.ofSymmetries p.symmetries p.jugglers p.paths = .ok g →
      ∀ s ∈ p.declarations.instants g.period, ∀ t ∈ p.declarations.instants g.period,
        s = t ∨ timeTolerance < |s - t|)
    (hlimit : p.layOut.2 ≠ .error (.user (.expansionLimit Expansion.limit)))
    (hlimit' : { p with events := es }.layOut.2 ≠
      .error (.user (.expansionLimit Expansion.limit))) :
    ((∃ q, p.layOut = (q, .ok ())) ↔ ∃ q', { p with events := es }.layOut = (q', .ok ())) ∧
    ∀ q q', p.layOut = (q, .ok ()) → { p with events := es }.layOut = (q', .ok ()) →
      ∀ t, (∀ path, q'.pathPlace path t = q.pathPlace path t ∧
          q'.isHeld path t = q.isHeld path t) ∧
        ∀ j hand, q'.handPlace j hand t = q.handPlace j hand t := by
  refine ⟨⟨fun ⟨q, hok⟩ ↦ exists_layOut_of_perm hperms hperm hdiscrete hok hlimit',
    fun ⟨q', hok⟩ ↦ ?_⟩, fun q q' hok hok' t ↦ ?_⟩
  · refine exists_layOut_of_perm (p := { p with events := es }) hperms hperm.symm
      (fun g hg ↦ ?_) hok hlimit
    have hspread := hdiscrete g hg
    rwa [← Declarations.instants_perm (d := p.declarations) hperm] at hspread
  · obtain ⟨l, h, rfl⟩ := layOut_ok hok
    obtain ⟨l', h', rfl⟩ := layOut_ok hok'
    have T := h.twins hperms (Declarations.discrete_of_instants (hdiscrete l.group h.group)) hperm
      h'
    exact ⟨fun path ↦ ⟨askPath_congr rfl rfl rfl fun hp ↦ T.pathPlace_eq hp t,
      askPath_congr rfl rfl rfl fun hp ↦ T.isHeld_eq hp t⟩,
      fun j hand ↦ askJuggler_congr rfl rfl rfl fun hj ↦ T.handPlace_eq hj hand t⟩

end Pattern

namespace Timeline

/-- The images that are needed of the exchange with its events in the other order, in order of
time. -/
def reversedOrder : List (Generated ℚ) :=
  exchangeOrder.map fun o ↦ { o with seed := 1 - o.seed }

theorem build_reversed : ∃ t,
    build exchange.events.reverse exchangeGroup 1 1 ⟨0, exchangeGroup.period⟩ = .ok t := by
  let made := (exchangeImages [(1, 1), (0, 1), (1, 0), (0, 0), (1, -1), (0, -1), (0, 2), (1, 2),
    (0, 3), (1, 3)]).map fun o ↦ { o with seed := 1 - o.seed }
  have hperm : made.Perm reversedOrder := by
    decide +kernel
  have hexpand : Moment.expand exchange.events.reverse exchangeGroup 1 1
      ⟨0, exchangeGroup.period⟩ = .ok (Moment.numbered reversedOrder) :=
    Moment.expand_of_ordered (by decide)
      (show (Coverage.scan exchange.events.reverse exchangeGroup 1 1).toOption =
        some exchangeCoverage by decide +kernel)
      (by decide +kernel) hperm (by decide +kernel) (by decide +kernel)
  exact ⟨⟨exchange.events.reverse, Moment.numbered reversedOrder, [3, 2]⟩,
    build_of_masters hexpand (by decide +kernel)⟩

end Timeline

/-- The exchange may be declared in either order. -/
theorem Pattern.layOut_perm_exchange :
    (∀ s ∈ Timeline.exchangePattern.symmetries, s.jugglers.Rearranges ∧ s.paths.Rearranges) ∧
    ∃ q q', Timeline.exchangePattern.layOut = (q, .ok ()) ∧
      { Timeline.exchangePattern with events := Timeline.exchange.events.reverse }.layOut =
        (q', .ok ()) ∧ ∀ t, q'.pathPlace 1 t = q.pathPlace 1 t ∧ q'.isHeld 1 t = q.isHeld 1 t ∧
          ∀ hand, q'.handPlace 1 hand t = q.handPlace 1 hand t := by
  have hperms := Timeline.rearranges_exchange
  have hperm : Timeline.exchangePattern.events.Perm Timeline.exchange.events.reverse :=
    (List.reverse_perm _).symm
  have hgroup (g : SymmetryGroup ℚ)
      (hg : SymmetryGroup.ofSymmetries Timeline.exchange.symmetries 1 1 = .ok g) :
      g = Timeline.exchangeGroup :=
    Except.ok.inj (hg.symm.trans Timeline.ofSymmetries_exchange)
  have hdiscrete : ∀ g, SymmetryGroup.ofSymmetries Timeline.exchange.symmetries 1 1 = .ok g →
      ∀ s ∈ Timeline.exchange.instants g.period, ∀ t ∈ Timeline.exchange.instants g.period,
        s = t ∨ timeTolerance < |s - t| := by
    intro g hg
    rw [hgroup g hg]
    exact Declarations.discrete_instants (show timeTolerance < (1 / 4 : ℚ) by decide +kernel)
      ⟨4, by decide +kernel⟩ Timeline.quarters_exchange.1 Timeline.quarters_exchange.2
  obtain ⟨l, hbuild, hok, hlgroup, -⟩ := Timeline.layOut_exchange
  have h := Layout.build_ok hbuild
  obtain ⟨t, ht⟩ := Timeline.build_reversed
  obtain ⟨l', h'⟩ := h.exists_of_perm hperms
    (Declarations.discrete_of_instants (hdiscrete l.group h.group)) hperm (by
      rw [h.loop_eq, hlgroup]
      exact fun herr ↦ by cases ht.symm.trans herr)
  have hok' := Pattern.layOut_of_isBuilt
    (p := { Timeline.exchangePattern with events := Timeline.exchange.events.reverse })
    (Pattern.checkProps_of_layOut (p := Timeline.exchangePattern) hok) h'
  obtain ⟨-, hsame⟩ := Pattern.layOut_perm hperms hperm hdiscrete (by rw [hok]; exact nofun)
    (by rw [hok']; exact nofun)
  refine ⟨hperms, _, _, hok, hok', fun t ↦ ?_⟩
  obtain ⟨hpath, hhand⟩ := hsame _ _ hok hok' t
  exact ⟨(hpath 1).1, (hpath 1).2, hhand 1⟩

end Juggling
