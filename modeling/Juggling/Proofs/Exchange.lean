import Juggling.Pattern.Document
import Juggling.Proofs.Built
import Juggling.Proofs.Filled
import Juggling.Proofs.Fractions

namespace Juggling

namespace Timeline

/-- The exchange between one period before the loop and one after it. -/
def exchangeTimeline : Timeline ℚ := ⟨exchange.events, Moment.numbered exchangeOrder, [2, 3]⟩

theorem build_exchange :
    build exchange.events exchangeGroup 1 1 ⟨0, exchangeGroup.period⟩ = .ok exchangeTimeline :=
  build_of_masters expand_exchange (by decide +kernel)

theorem spaced_exchange : SymmetryGroup.Spaced exchangeGroup.period exchange.symmetries :=
  fun _ hx hne ↦ le_trans (by decide +kernel)
    (SymmetryGroup.le_abs_of_multiples (by norm_num) multiples_exchange hx hne)

/-- All declared times of the exchange are multiples of a quarter. -/
theorem quarters_exchange :
    (∀ s ∈ exchange.symmetries, (SymmetryGroup.declared exchangeGroup.period s).shift ∈
      AddSubgroup.zmultiples (1 / 4)) ∧
    ∀ e ∈ exchange.events, e.time ∈ AddSubgroup.zmultiples (1 / 4) := by
  refine ⟨fun s hs ↦ ?_, fun e he ↦ ?_⟩
  · obtain ⟨n, hn⟩ := multiples_exchange s hs
    rw [hn]
    refine AddSubgroup.mem_zmultiples_iff.mpr ⟨2 * n, ?_⟩
    rw [zsmul_eq_mul]
    push_cast
    ring
  · rcases List.mem_pair.mp he with rfl | rfl
    · exact ⟨0, by decide +kernel⟩
    · exact ⟨1, by decide +kernel⟩

/-- No event of the exchange follows the start of the loop closely. -/
theorem clear_exchange : ∀ m ∈ exchangeTimeline.moments, m.time ≤ timeTolerance → m.time ≤ 0 := by
  decide +kernel

def exchangePattern : Pattern ℚ where
  jugglers := exchange.jugglers
  paths := exchange.paths
  symmetries := exchange.symmetries
  events := exchange.events

theorem layOut_exchange : ∃ l, Layout.build exchange = .ok l ∧
    exchangePattern.layOut = ({ exchangePattern with layout := some l, state := .clean }, .ok ()) ∧
    l.group = exchangeGroup ∧ l.timeline = exchangeTimeline := by
  obtain ⟨l, hl⟩ : ∃ l, Layout.ofTimeline exchange exchangeGroup ⟨0, exchangeGroup.period⟩
      exchangeTimeline = .ok l := by
    have hsome : (Layout.ofTimeline exchange exchangeGroup ⟨0, exchangeGroup.period⟩
        exchangeTimeline).toOption.isSome = true := by
      decide +kernel
    obtain ⟨l, hl⟩ := Option.isSome_iff_exists.mp hsome
    exact ⟨l, toOption_eq_some.mp hl⟩
  obtain ⟨hbuild, hparts⟩ :=
    Layout.build_of_timeline validate_exchange ofSymmetries_exchange build_exchange hl
  refine ⟨l, hbuild, ?_, hparts⟩
  have hmake : { exchangePattern with state := .layingOut }.makeLayout = .ok l :=
    bind_eq_ok.mpr ⟨(), rfl, hbuild⟩
  unfold Pattern.layOut
  simp only [hmake, Layout.masters, hparts.2]
  rfl

/-- The exchange, thrown from nearer to the body: now fractions have all the roots that are needed
to find where its hands turn. -/
def swing : Declarations ℚ :=
  { exchange with
    events := [⟨0, ⟨10, 0, 0⟩, 1, .right, [{ kind := .throwing, path := 1 }]⟩,
      ⟨1 / 4, ⟨-30, 0, 49 / 8⟩, 1, .left, [{ kind := .catching, path := 1 }]⟩] }

theorem validate_swing : swing.validate = .ok () := toOption_eq_some.mp (by decide +kernel)

def swingImages (images : List (ℕ × ℤ)) : List (Generated ℚ) :=
  images.filterMap fun (i, k) ↦
    swing.events[i]?.map fun e ↦ ⟨i, k, (exchangeGroup.image k).apply e⟩

def swingOrder : List (Generated ℚ) :=
  swingImages [(0, -1), (1, -1), (0, 0), (1, 0), (0, 1), (1, 1), (0, 2), (1, 2), (0, 3), (1, 3)]

def swingTimeline : Timeline ℚ := ⟨swing.events, Moment.numbered swingOrder, [2, 3]⟩

theorem build_swing :
    build swing.events exchangeGroup 1 1 ⟨0, exchangeGroup.period⟩ = .ok swingTimeline := by
  have hscan : (Coverage.scan swing.events exchangeGroup 1 1).toOption = some exchangeCoverage := by
    decide +kernel
  have hrun : (Expansion.run ⟨swing.events, exchangeGroup, exchangeCoverage,
      ⟨0, exchangeGroup.period⟩⟩ 1).toOption = some (swingImages [(1, 1), (0, 1), (1, 0), (0, 0),
        (1, -1), (0, -1), (0, 2), (1, 2), (0, 3), (1, 3)]) := by
    decide +kernel
  have hdrop : (Generated.dropCoincident [] swingOrder).toOption = some swingOrder := by
    decide +kernel
  refine build_of_masters (Moment.expand_of_ordered (by decide) hscan hrun ?_ ?_ hdrop) ?_ <;>
    decide +kernel

def swingPattern : Pattern ℚ := { exchangePattern with events := swing.events }

end Timeline

end Juggling
