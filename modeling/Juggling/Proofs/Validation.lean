import Juggling.Layout.Basic
import Juggling.Proofs.Closure

namespace Juggling

variable {α : Type}

/-- Events that are at jugglers and touch paths that exist. -/
structure Placed (J N : ℕ) (e : Event α) : Prop where
  juggler : 1 ≤ e.juggler ∧ e.juggler ≤ J
  path : ∀ t ∈ e.transitions, 1 ≤ t.path ∧ t.path ≤ N

instance (J N : ℕ) (e : Event α) : Decidable (Placed J N e) :=
  decidable_of_iff ((1 ≤ e.juggler ∧ e.juggler ≤ J) ∧
    ∀ t ∈ e.transitions, 1 ≤ t.path ∧ t.path ≤ N) ⟨fun ⟨hj, hp⟩ ↦ ⟨hj, hp⟩, fun ⟨hj, hp⟩ ↦ ⟨hj, hp⟩⟩

theorem Transform.Fits.placed [Scalar α] {J N : ℕ} {f : Transform α} (hf : f.Fits J N)
    {e : Event α} (he : Placed J N e) : Placed J N (f.apply e) := by
  refine ⟨?_, fun t ht ↦ ?_⟩
  · have := hf.rearranges_jugglers.isElement_apply (i := e.juggler)
      (by simpa [Permutation.IsElement, hf.size_jugglers] using he.juggler)
    rw [Permutation.IsElement, hf.size_jugglers] at this
    simpa only [apply, Permutation.target_eq] using this
  · obtain ⟨t', ht', rfl⟩ := List.mem_map.mp ht
    have := hf.rearranges_paths.isElement_apply (i := t'.path)
      (by simpa [Permutation.IsElement, hf.size_paths] using he.path t' ht')
    rw [Permutation.IsElement, hf.size_paths] at this
    simpa only [Permutation.target_eq] using this

namespace Declarations

variable {d : Declarations α}

theorem checkJuggler_eq_ok {j : ℕ} : d.checkJuggler j = .ok () ↔ 1 ≤ j ∧ j ≤ d.jugglers := by
  unfold checkJuggler
  split_ifs with h <;> simp at h ⊢ <;> omega

theorem checkPath_eq_ok {p : ℕ} : d.checkPath p = .ok () ↔ 1 ≤ p ∧ p ≤ d.paths := by
  unfold checkPath
  split_ifs with h <;> simp at h ⊢ <;> omega

theorem checkEvent_eq_ok {e : Event α} :
    d.checkEvent e = .ok () ↔ Placed d.jugglers d.paths e := by
  rw [checkEvent, bind_eq_ok]
  constructor
  · rintro ⟨⟨⟩, hj, hp⟩
    exact ⟨checkJuggler_eq_ok.mp hj, fun t ht ↦ checkPath_eq_ok.mp (forM_eq_ok.mp hp t ht)⟩
  · intro h
    exact ⟨(), checkJuggler_eq_ok.mpr h.juggler,
      forM_eq_ok.mpr fun t ht ↦ checkPath_eq_ok.mpr (h.path t ht)⟩

theorem checkSymmetry_eq_ok {s : Symmetry α} :
    d.checkSymmetry s = .ok () ↔ s.jugglers.size = d.jugglers ∧ s.paths.size = d.paths := by
  unfold checkSymmetry
  split_ifs with hj hp
  · simp [hj]
  · simp [hp]
  · simpa using ⟨not_not.mp hj, not_not.mp hp⟩

/-- Declarations are accepted that hold an event and name nothing that does not exist. -/
theorem validate_eq_ok : d.validate = .ok () ↔ d.events ≠ [] ∧
    (∀ e ∈ d.events, Placed d.jugglers d.paths e) ∧
      (∀ p ∈ d.positions, 1 ≤ p.juggler ∧ p.juggler ≤ d.jugglers) ∧
      ∀ s ∈ d.symmetries, s.jugglers.size = d.jugglers ∧ s.paths.size = d.paths := by
  unfold validate
  simp only [← checkEvent_eq_ok, ← checkJuggler_eq_ok, ← checkSymmetry_eq_ok, ← forM_eq_ok]
  split_ifs with hempty
  · simp [List.isEmpty_iff.mp hempty]
  · have hne : d.events ≠ [] := fun h ↦ hempty (List.isEmpty_iff.mpr h)
    simp only [bind_eq_ok, hne, ne_eq, not_false_eq_true, true_and]
    constructor
    · rintro ⟨_, he, _, hp, hs⟩
      exact ⟨he, hp, hs⟩
    · rintro ⟨he, hp, hs⟩
      exact ⟨(), he, (), hp, hs⟩

theorem validate_ok (h : d.validate = .ok ()) :
    (∀ e ∈ d.events, Placed d.jugglers d.paths e) ∧
      (∀ p ∈ d.positions, 1 ≤ p.juggler ∧ p.juggler ≤ d.jugglers) ∧
      ∀ s ∈ d.symmetries, s.jugglers.size = d.jugglers ∧ s.paths.size = d.paths :=
  (validate_eq_ok.mp h).2

theorem validate_perm {es : List (Event α)} (hperm : d.events.Perm es)
    (h : d.validate = .ok ()) : { d with events := es }.validate = .ok () := by
  obtain ⟨hne, hevents, hrest⟩ := validate_eq_ok.mp h
  refine validate_eq_ok.mpr ⟨fun hnil ↦ hne ?_, fun e he ↦ hevents e (hperm.mem_iff.mpr he),
    hrest⟩
  obtain rfl : es = [] := hnil
  exact List.perm_nil.mp hperm

section

variable [Exact α] (hperms : ∀ s ∈ d.symmetries, s.jugglers.Rearranges ∧ s.paths.Rearranges)
  (h : d.validate = .ok ())

include hperms h

theorem fits : ∀ s ∈ d.symmetries,
    (SymmetryGroup.ofShift s (0 : α)).Fits d.jugglers d.paths := by
  intro s hs
  obtain ⟨hj, hp⟩ := (validate_ok h).2.2 s hs
  exact ⟨(hperms s hs).1, hj, (hperms s hs).2, hp⟩

theorem isGroupOf {g : SymmetryGroup α}
    (hok : SymmetryGroup.ofSymmetries d.symmetries d.jugglers d.paths = .ok g) :
    g.IsGroupOf d.symmetries d.jugglers d.paths :=
  SymmetryGroup.ofSymmetries_ok (d.fits hperms h) hok

end

end Declarations

end Juggling
