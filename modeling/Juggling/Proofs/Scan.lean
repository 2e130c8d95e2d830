import Juggling.Proofs.Needs
import Juggling.Proofs.Periods

namespace Juggling

namespace Event

variable {α : Type}

/-- Two events of one hand that do the same to the same paths. -/
def Alike (e f : Event α) : Prop :=
  e.juggler = f.juggler ∧ e.hand = f.hand ∧ e.transitions = f.transitions

end Event

namespace Coverage

variable {α : Type} {J N : ℕ} {c : Coverage} {e f : Event α}

structure Sized (J N : ℕ) (c : Coverage) : Prop where
  hands : c.hands.size = J
  paths : c.paths.size = N

/-- Everything an event does to its hand and its paths is on record. -/
structure Knows (c : Coverage) (e : Event α) : Prop where
  velocity : e.determinesVelocity = true → (c.hand e.juggler e.hand).determinesVelocity = true
  thrown : ∀ t ∈ e.transitions, t.kind = .throwing → (c.path t.path).thrown = true
  caught : ∀ t ∈ e.transitions, t.kind.isCatch = true → (c.path t.path).caught = true

theorem Knows.congr (h : c.Knows e) (hef : e.Alike f) : c.Knows f := by
  obtain ⟨hj, hh, ht⟩ := hef
  refine ⟨fun hf ↦ ?_, ht ▸ h.thrown, ht ▸ h.caught⟩
  rw [← hj, ← hh]
  refine h.velocity ?_
  rwa [Event.determinesVelocity, ht]

theorem path_record {p : ℕ} (hc : c.Sized J N) (he : Placed J N e) : (c.record e).path p =
    { touched := (c.path p).touched || e.transitions.any (·.path == p)
      thrown := (c.path p).thrown || e.transitions.any fun t ↦ t.path == p && t.kind == .throwing
      caught := (c.path p).caught || e.transitions.any fun t ↦ t.path == p && t.kind.isCatch } := by
  have hpaths := he.path
  have hsize := hc.paths
  simp only [path, record]
  generalize c.paths = v at hsize
  generalize e.transitions = ts at hpaths
  induction ts generalizing v with
  | nil => simp
  | cons t ts ih =>
    obtain ⟨ht, hts⟩ := List.forall_mem_cons.mp hpaths
    rw [List.foldl_cons, ih _ (Numbered.size_modify.trans hsize) hts,
      Numbered.getD_modify (hsize.symm ▸ ht)]
    by_cases htp : t.path = p
    · simp [htp, recordPath, Bool.or_assoc]
    · have hne : (t.path == p) = false := by simpa using htp
      simp [htp, hne]

theorem hand_record {j : ℕ} {h : Hand} (hc : c.Sized J N) (he : Placed J N e) :
    (c.record e).hand j h = if e.juggler = j ∧ e.hand = h then
      recordHand e.determinesVelocity (c.hand j h) else c.hand j h := by
  rw [hand, hand, record, Numbered.getD_modify (hc.hands.symm ▸ he.juggler)]
  by_cases hj : e.juggler = j
  · rw [if_pos hj]
    cases e.hand <;> cases h <;> simp [hj, Hands.set, Hands.get]
  · simp [hj]

theorem Sized.record (hc : c.Sized J N) (e : Event α) : (c.record e).Sized J N := by
  refine ⟨Numbered.size_modify.trans hc.hands, ?_⟩
  refine List.foldlRecOn (motive := fun v : Numbered PathUse ↦ v.size = N) _ _ hc.paths ?_
  intro v hv t _
  rw [Numbered.size_modify, hv]

theorem knows_record (hc : c.Sized J N) (he : Placed J N e) : (c.record e).Knows e := by
  refine ⟨fun h ↦ ?_, fun t ht hthrow ↦ ?_, fun t ht hcatch ↦ ?_⟩
  · rw [hand_record hc he, if_pos ⟨rfl, rfl⟩, recordHand]
    simp [h]
  · rw [path_record hc he, Bool.or_eq_true, List.any_eq_true]
    exact .inr ⟨t, ht, by simp [hthrow]⟩
  · rw [path_record hc he, Bool.or_eq_true, List.any_eq_true]
    exact .inr ⟨t, ht, by simp [hcatch]⟩

theorem Knows.record (hc : c.Sized J N) (he : Placed J N e) (h : c.Knows f) :
    (c.record e).Knows f := by
  refine ⟨fun hf ↦ ?_, fun t ht hthrow ↦ ?_, fun t ht hcatch ↦ ?_⟩
  · rw [hand_record hc he]
    split_ifs
    · simp [recordHand, h.velocity hf]
    · exact h.velocity hf
  · simp [path_record hc he, h.thrown t ht hthrow]
  · simp [path_record hc he, h.caught t ht hcatch]

theorem foldl_record {es : List (Event α)} (hc : c.Sized J N) (hes : ∀ e ∈ es, Placed J N e) :
    (es.foldl record c).Sized J N ∧
      ∀ f, (c.Knows f ∨ f ∈ es) → (es.foldl record c).Knows f := by
  induction es generalizing c with
  | nil => exact ⟨hc, fun f hf ↦ hf.elim id (by simp)⟩
  | cons e es ih =>
    obtain ⟨he, hes⟩ := List.forall_mem_cons.mp hes
    obtain ⟨hsized, hknows⟩ := ih (hc.record e) hes
    refine ⟨hsized, fun f hf ↦ hknows f ?_⟩
    rcases hf with hf | hf
    · exact .inl (hf.record hc he)
    · rcases List.mem_cons.mp hf with rfl | hf
      · exact .inl (knows_record hc he)
      · exact .inr hf

/-- Everything on record is something that an event does. -/
structure Founded (P : Event α → Prop) (c : Coverage) : Prop where
  hand : ∀ j h, (c.hand j h).touched = true → ∃ e, P e ∧ e.juggler = j ∧ e.hand = h
  velocity : ∀ j h, (c.hand j h).determinesVelocity = true →
    ∃ e, P e ∧ e.juggler = j ∧ e.hand = h ∧ e.determinesVelocity = true
  path : ∀ p, (c.path p).touched = true → ∃ e, P e ∧ ∃ t ∈ e.transitions, t.path = p
  thrown : ∀ p, (c.path p).thrown = true →
    ∃ e, P e ∧ ∃ t ∈ e.transitions, t.path = p ∧ t.kind = .throwing
  caught : ∀ p, (c.path p).caught = true →
    ∃ e, P e ∧ ∃ t ∈ e.transitions, t.path = p ∧ t.kind.isCatch = true

theorem founded_empty (P : Event α → Prop) : (empty J N).Founded P := by
  have hhand (j : ℕ) (h : Hand) : (empty J N).hand j h = {} := by
    rw [Coverage.hand, empty, Numbered.getD_replicate]
    cases h <;> rfl
  have hpath (p : ℕ) : (empty J N).path p = {} := Numbered.getD_replicate
  constructor <;> simp [hhand, hpath]

theorem Founded.record {P : Event α → Prop} (hc : c.Sized J N) (he : Placed J N e)
    (h : c.Founded P) (hP : P e) : (c.record e).Founded P := by
  refine ⟨fun j k hk ↦ ?_, fun j k hk ↦ ?_, fun p hp ↦ ?_, fun p hp ↦ ?_, fun p hp ↦ ?_⟩
  · rw [hand_record hc he] at hk
    split_ifs at hk with hhand
    · exact ⟨e, hP, hhand⟩
    · exact h.hand j k hk
  · rw [hand_record hc he] at hk
    split_ifs at hk with hhand
    · rcases Bool.or_eq_true_iff.mp hk with hk | hk
      · exact h.velocity j k hk
      · exact ⟨e, hP, hhand.1, hhand.2, hk⟩
    · exact h.velocity j k hk
  · rw [path_record hc he, Bool.or_eq_true, List.any_eq_true] at hp
    rcases hp with hp | ⟨t, ht, htp⟩
    · exact h.path p hp
    · exact ⟨e, hP, t, ht, by simpa using htp⟩
  · rw [path_record hc he, Bool.or_eq_true, List.any_eq_true] at hp
    rcases hp with hp | ⟨t, ht, htp⟩
    · exact h.thrown p hp
    · exact ⟨e, hP, t, ht, by simpa using htp⟩
  · rw [path_record hc he, Bool.or_eq_true, List.any_eq_true] at hp
    rcases hp with hp | ⟨t, ht, htp⟩
    · exact h.caught p hp
    · exact ⟨e, hP, t, ht, by simpa using htp⟩

theorem Founded.foldl_record {P : Event α → Prop} {es : List (Event α)} (hc : c.Sized J N)
    (hes : ∀ e ∈ es, Placed J N e) (h : c.Founded P) (hP : ∀ e ∈ es, P e) :
    (es.foldl Coverage.record c).Founded P := by
  refine (List.foldlRecOn (motive := fun c : Coverage ↦ c.Sized J N ∧ c.Founded P) es _ ⟨hc, h⟩
    fun c h e he ↦ ?_).2
  exact ⟨h.1.record e, h.2.record h.1 (hes e he) (hP e he)⟩

theorem untouchedHand?_eq_none {c : Coverage} (h : c.untouchedHand? = none) {j : ℕ}
    (hj : 1 ≤ j ∧ j ≤ c.hands.size) (k : Hand) : (c.hand j k).touched = true := by
  have := List.find?_eq_none.mp h (j, k) (List.mem_flatMap.mpr
    ⟨j, List.mem_range'_1.mpr (by omega), List.mem_map_of_mem (by cases k <;> simp [Hand.all])⟩)
  simpa using this

theorem untouchedPath?_eq_none {c : Coverage} (h : c.untouchedPath? = none) {p : ℕ}
    (hp : 1 ≤ p ∧ p ≤ c.paths.size) : (c.path p).touched = true := by
  have := List.find?_eq_none.mp h p (List.mem_range'_1.mpr (by omega))
  simpa using this

end Coverage

variable {α : Type} [Exact α] {symmetries : List (Symmetry α)} {J N : ℕ} {g : SymmetryGroup α}

namespace SymmetryGroup.IsGroupOf

/-- Images as many periods apart as it takes for all paths to be back are alike. -/
theorem alike_image (hg : g.IsGroupOf symmetries J N) {e : Event α} (he : Placed J N e)
    (k q : ℤ) : ((g.image k).apply e).Alike
      ((g.image (k + g.delay.paths.order * q * g.size)).apply e) := by
  rw [hg.image_add_size he]
  refine ⟨rfl, rfl, ?_⟩
  rw [Event.transitions_later]
  refine (List.map_id' _).symm.trans (List.map_congr_left fun t ht ↦ ?_)
  rw [hg.rename_order _ ((hg.placed_image he k).path t ht).2]

/-- Every image is like one that is looked at. -/
theorem exists_orbit (hg : g.IsGroupOf symmetries J N) {e : Event α} (he : Placed J N e) (k : ℤ) :
    ∃ f ∈ g.orbit, (f.apply e).Alike ((g.image k).apply e) := by
  let rounds : ℤ := g.delay.paths.order * g.size
  have hrounds : 0 < rounds := mul_pos (by exact_mod_cast Permutation.order_pos g.delay.paths)
    (by exact_mod_cast hg.size_pos)
  have hlow := Int.emod_nonneg k hrounds.ne'
  have hhigh := Int.emod_lt_of_pos k hrounds
  refine ⟨g.image (k % rounds), ?_, ?_⟩
  · refine List.mem_map.mpr ⟨(k % rounds).toNat, List.mem_range.mpr ?_, ?_⟩
    · rw [Int.toNat_lt hlow]
      push_cast
      exact hhigh.trans_eq (mul_comm _ _)
    · rw [Int.toNat_of_nonneg hlow]
  · have hk : k = k % rounds + g.delay.paths.order * (k / rounds) * g.size := by
      have := Int.emod_add_mul_ediv k rounds
      linear_combination -this
    conv_rhs => rw [hk]
    exact hg.alike_image he _ _

end SymmetryGroup.IsGroupOf

namespace Coverage

variable {seeds : List (Event α)} {c : Coverage}

theorem foldl_orbit (c : Coverage) :
    seeds.foldl (fun c e ↦ g.orbit.foldl (fun c f ↦ c.record (f.apply e)) c) c =
      (seeds.flatMap fun e ↦ g.orbit.map (·.apply e)).foldl record c := by
  rw [List.foldl_flatMap]
  simp [List.foldl_map]

/-- A scan goes through images of all events, and leaves no hand and no path untouched. -/
theorem scan_eq_ok (hok : scan seeds g J N = .ok c) :
    (seeds.flatMap fun e ↦ g.orbit.map (·.apply e)).foldl record (empty J N) = c ∧
      c.untouchedHand? = none ∧ c.untouchedPath? = none := by
  unfold scan at hok
  simp only [foldl_orbit] at hok
  split at hok
  · cases hok
  · cases hok
  · rename_i hhand hpath
    cases hok
    exact ⟨rfl, hhand, hpath⟩

variable (hg : g.IsGroupOf symmetries J N) (hseeds : ∀ e ∈ seeds, Placed J N e)
  (hok : scan seeds g J N = .ok c)

include hg hseeds

theorem exists_of_mem_scanned {f : Event α}
    (hf : f ∈ seeds.flatMap fun e ↦ g.orbit.map (·.apply e)) :
    Placed J N f ∧ ∃ e ∈ seeds, ∃ k, f = (g.image k).apply e := by
  obtain ⟨e, he, hf⟩ := List.mem_flatMap.mp hf
  obtain ⟨h, hh, rfl⟩ := List.mem_map.mp hf
  obtain ⟨k, -, rfl⟩ := List.mem_map.mp hh
  exact ⟨hg.placed_image (hseeds e he) k, e, he, k, rfl⟩

include hok

/-- A scan that succeeds knows all images of all events. -/
theorem scan_ok : c.Sized J N ∧ ∀ e ∈ seeds, ∀ k, c.Knows ((g.image k).apply e) := by
  obtain ⟨rfl, -, -⟩ := scan_eq_ok hok
  obtain ⟨hsized, hknows⟩ := foldl_record (c := empty J N)
    ⟨Numbered.size_replicate _ _, Numbered.size_replicate _ _⟩
    fun f hf ↦ (exists_of_mem_scanned hg hseeds hf).1
  refine ⟨hsized, fun e he k ↦ ?_⟩
  obtain ⟨f, hf, halike⟩ := hg.exists_orbit (hseeds e he) k
  exact (hknows (f.apply e) (.inr (List.mem_flatMap.mpr ⟨e, he, List.mem_map_of_mem hf⟩))).congr
    halike

/-- What a scan that succeeds knows, some image does, and every hand and every path is touched. -/
theorem scan_founded : (c.Founded fun f ↦ ∃ e ∈ seeds, ∃ k, f = (g.image k).apply e) ∧
    (∀ j, 1 ≤ j ∧ j ≤ J → ∀ h, (c.hand j h).touched = true) ∧
    ∀ p, 1 ≤ p ∧ p ≤ N → (c.path p).touched = true := by
  obtain ⟨hsized, -⟩ := scan_ok hg hseeds hok
  obtain ⟨hfold, hhand, hpath⟩ := scan_eq_ok hok
  refine ⟨?_, fun j hj h ↦ untouchedHand?_eq_none hhand (hsized.hands.symm ▸ hj) h,
    fun p hp ↦ untouchedPath?_eq_none hpath (hsized.paths.symm ▸ hp)⟩
  rw [← hfold]
  exact (founded_empty _).foldl_record
    ⟨Numbered.size_replicate _ _, Numbered.size_replicate _ _⟩
    (fun f hf ↦ (exists_of_mem_scanned hg hseeds hf).1)
    fun f hf ↦ (exists_of_mem_scanned hg hseeds hf).2

end Coverage

end Juggling
