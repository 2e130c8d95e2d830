import Juggling.Proofs.Built

namespace Juggling

variable {α : Type}

namespace Event

variable [Exact α] {e : Event α} {s : α} {r : ℕ → ℕ}

/-- An event some time later that does the same to other paths. -/
def later (e : Event α) (s : α) (r : ℕ → ℕ) : Event α :=
  { e with
    time := e.time + s
    transitions := e.transitions.map fun t ↦ { t with path := r t.path } }

@[simp] theorem time_later : (e.later s r).time = e.time + s := rfl

@[simp] theorem juggler_later : (e.later s r).juggler = e.juggler := rfl

@[simp] theorem hand_later : (e.later s r).hand = e.hand := rfl

@[simp] theorem place_later : (e.later s r).place = e.place := rfl

theorem transitions_later :
    (e.later s r).transitions = e.transitions.map fun t ↦ { t with path := r t.path } := rfl

theorem mem_transitions_later {t : Transition} (ht : t ∈ e.transitions) :
    { t with path := r t.path } ∈ (e.later s r).transitions :=
  List.mem_map_of_mem (f := fun t : Transition ↦ { t with path := r t.path }) ht

theorem later_later {s' : α} {r' : ℕ → ℕ} :
    (e.later s r).later s' r' = e.later (s + s') fun p ↦ r' (r p) := by
  simp only [later, List.map_map, Function.comp_def]
  rw [show e.time + s + s' = e.time + (s + s') from add_assoc _ _ _]

theorem later_congr {s' : α} {r' : ℕ → ℕ} (hs : s = s')
    (hr : ∀ t ∈ e.transitions, r t.path = r' t.path) : e.later s r = e.later s' r' := by
  rw [hs, later, later]
  refine congrArg (fun ts ↦ ({ e with time := e.time + s', transitions := ts } : Event α))
    (List.map_congr_left fun t ht ↦ ?_)
  rw [hr t ht]

theorem later_eq_self (hs : s = 0) (hr : ∀ t ∈ e.transitions, r t.path = t.path) :
    e.later s r = e := by
  have hmap : e.transitions.map (fun t ↦ { t with path := r t.path }) = e.transitions := by
    refine (List.map_congr_left fun t ht ↦ ?_).trans (List.map_id e.transitions)
    rw [hr t ht]
    rfl
  rw [hs, later, hmap, show e.time + 0 = e.time from add_zero _]

theorem moved_eq_later : e.moved s e.juggler r = e.later s r := by
  simp [moved, later]

end Event

theorem Moment.time_of_later [Exact α] {m n : Moment α} {s : α} {r : ℕ → ℕ}
    (h : n.event = m.event.later s r) : n.time = m.time + s :=
  congrArg Event.time h

namespace SymmetryGroup

variable [Exact α] {symmetries : List (Symmetry α)} {J N : ℕ} {g : SymmetryGroup α}

/-- The path that a prop is on so many periods later. -/
def rename (g : SymmetryGroup α) (q : ℤ) (p : ℕ) : ℕ := (g.delay.power q).paths.target p

namespace IsGroupOf

variable (hg : g.IsGroupOf symmetries J N)

include hg

theorem rename_eq (q : ℤ) {p : ℕ} (hp : p ≤ N) :
    g.rename q p = ((g.delay.motion ^ q).paths p).natAbs := by
  rw [rename, Permutation.target_eq, ← (hg.delay_fits.power q).motion_paths hp,
    Transform.motion_power hg.delay_fits]

theorem rename_mem (q : ℤ) {p : ℕ} (hp : 1 ≤ p ∧ p ≤ N) :
    1 ≤ g.rename q p ∧ g.rename q p ≤ N := by
  have hfits := hg.delay_fits.power q
  have := hfits.rearranges_paths.isElement_apply (i := p)
    (by simpa [Permutation.IsElement, hfits.size_paths] using hp)
  rwa [Permutation.IsElement, hfits.size_paths, ← Permutation.target_eq] at this

theorem rename_rename (q q' : ℤ) {p : ℕ} (hp : 1 ≤ p ∧ p ≤ N) :
    g.rename q' (g.rename q p) = g.rename (q + q') p := by
  rw [hg.rename_eq q' (hg.rename_mem q hp).2, hg.rename_eq q hp.2, hg.rename_eq (q + q') hp.2,
    zpow_add, Motion.paths_mul]
  exact Motion.AgreeAt.natAbs_congr (hg.delay_signed q') (Int.natAbs_natCast _)

theorem rename_zero {p : ℕ} (hp : p ≤ N) : g.rename 0 p = p := by
  rw [hg.rename_eq 0 hp, zpow_zero]
  rfl

theorem rename_neg (q : ℤ) {p : ℕ} (hp : 1 ≤ p ∧ p ≤ N) :
    g.rename (-q) (g.rename q p) = p := by
  rw [hg.rename_rename q (-q) hp, add_neg_cancel, hg.rename_zero hp.2]

theorem rename_order (q : ℤ) {p : ℕ} (hp : p ≤ N) : g.rename (g.delay.paths.order * q) p = p := by
  have hone : (g.delay.motion ^ (g.delay.paths.order : ℤ)).paths = 1 := by
    rw [Motion.paths_zpow, zpow_natCast]
    exact hg.delay_fits.rearranges_paths.perm_pow_order
  rw [hg.rename_eq _ hp, zpow_mul, Motion.paths_zpow, hone, one_zpow]
  rfl

/-- Some periods later an event does to renamed paths what it does. -/
theorem filter_later {e : Event α} (he : Placed J N e) {s : α} (q : ℤ) {p : ℕ}
    (hp : 1 ≤ p ∧ p ≤ N) :
    (e.later s (g.rename q)).transitions.filter (·.path == g.rename q p) =
      (e.transitions.filter (·.path == p)).map fun t ↦ { t with path := g.rename q t.path } := by
  rw [Event.transitions_later, List.filter_map]
  refine congrArg _ (List.filter_congr fun t ht ↦ ?_)
  have hback := hg.rename_neg q (he.path t ht)
  rw [Function.comp_apply, Bool.eq_iff_iff, beq_iff_eq, beq_iff_eq]
  refine ⟨fun heq ↦ ?_, fun heq ↦ by rw [heq]⟩
  rw [← hback, show g.rename q t.path = g.rename q p from heq, hg.rename_neg q hp]

theorem power_apply (q : ℤ) {e : Event α} (hj : e.juggler ≤ J) :
    (g.delay.power q).apply e = e.later (q * g.period) (g.rename q) := by
  have hfix : (g.delay.power q).jugglers.apply e.juggler = e.juggler := by
    rw [← (hg.delay_fits.power q).motion_jugglers hj, Transform.motion_power hg.delay_fits,
      hg.jugglers_delay_zpow]
  rw [Transform.apply_eq_moved, hfix, Event.moved_eq_later, Transform.shift_power]
  exact congrArg (fun s ↦ e.later s _) (mul_comm _ _)

/-- Images that are as many numbers apart as there are in some periods are so many periods apart. -/
theorem image_add_size {e : Event α} (he : Placed J N e) (k q : ℤ) :
    (g.image (k + q * g.size)).apply e =
      ((g.image k).apply e).later (q * g.period) (g.rename q) := by
  have hfits := hg.image_fits k
  have hpower := hg.delay_fits.power q
  rw [← hg.power_apply q (hg.placed_image he k).juggler.2, ← Transform.apply_andThen hfits hpower]
  refine Transform.apply_eq_apply (hg.image_fits _) (hfits.andThen hpower) ?_
  rw [hg.motion_image_add_size, Transform.motion_andThen hfits hpower,
    Transform.motion_power hg.delay_fits]

end IsGroupOf

end SymmetryGroup

end Juggling
