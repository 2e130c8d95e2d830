import Juggling.Proofs.Scan
import Juggling.Proofs.Settling

namespace Juggling

/-- What a search through a list in order finds is the first of all that it could find. -/
theorem find?_eq_some_iff_of_pairwise {β : Type} {r : β → β → Prop} (hasymm : ∀ a b, r a b → ¬r b a)
    {p : β → Bool} {b : β} {l : List β} (hl : l.Pairwise r) :
    l.find? p = some b ↔ b ∈ l ∧ p b = true ∧ ∀ a ∈ l, r a b → p a = false := by
  induction l with
  | nil => simp
  | cons x l ih =>
    obtain ⟨hx, hl⟩ := List.pairwise_cons.mp hl
    cases hpx : p x with
    | true =>
      rw [List.find?_cons_of_pos hpx, Option.some.injEq]
      constructor
      · rintro rfl
        refine ⟨List.mem_cons_self, hpx, List.forall_mem_cons.mpr ⟨fun h ↦ ?_, fun a ha h ↦ ?_⟩⟩
        · exact absurd h (hasymm _ _ h)
        · exact absurd h (hasymm _ _ (hx a ha))
      · rintro ⟨hb, -, hfirst⟩
        rcases List.mem_cons.mp hb with rfl | hb
        · rfl
        · cases hpx.symm.trans (hfirst x List.mem_cons_self (hx b hb))
    | false =>
      have hne : p x ≠ true := by simp [hpx]
      rw [List.find?_cons_of_neg hne, ih hl]
      constructor
      · rintro ⟨hb, hp, hfirst⟩
        exact ⟨List.mem_cons_of_mem x hb, hp, List.forall_mem_cons.mpr ⟨fun _ ↦ hpx, hfirst⟩⟩
      · rintro ⟨hb, hp, hfirst⟩
        refine ⟨(List.mem_cons.mp hb).resolve_left ?_, hp, (List.forall_mem_cons.mp hfirst).2⟩
        rintro rfl
        exact hne hp

namespace Hand

/-- Hands in order of their jugglers, and of one juggler the left before the right. -/
def Precedes (a b : ℕ × Hand) : Prop := a.1 < b.1 ∨ a.1 = b.1 ∧ a.2.index < b.2.index

theorem Precedes.not_precedes {a b : ℕ × Hand} (h : Precedes a b) : ¬Precedes b a := by
  rcases h with h | ⟨heq, h⟩ <;> rintro (h' | ⟨heq', h'⟩) <;> omega

theorem pairwise_precedes (jugglers : List ℕ) (h : jugglers.Pairwise (· < ·)) :
    (jugglers.flatMap fun j ↦ all.map (j, ·)).Pairwise Precedes := by
  rw [List.pairwise_flatMap]
  refine ⟨fun j _ ↦ ?_, h.imp fun hlt x hx y hy ↦ ?_⟩
  · simp [all, Precedes, index]
  · obtain ⟨-, -, rfl⟩ := List.mem_map.mp hx
    obtain ⟨-, -, rfl⟩ := List.mem_map.mp hy
    exact .inl hlt

end Hand

namespace Coverage

variable {α : Type} {J N : ℕ} {c : Coverage} {e f : Event α}

/-- The hand and the paths of an event are on record. -/
structure Marks (c : Coverage) (e : Event α) : Prop where
  hand : (c.hand e.juggler e.hand).touched = true
  path : ∀ t ∈ e.transitions, (c.path t.path).touched = true

theorem Marks.congr (h : c.Marks e) (hef : e.Alike f) : c.Marks f := by
  obtain ⟨hj, hh, ht⟩ := hef
  exact ⟨hj ▸ hh ▸ h.hand, ht ▸ h.path⟩

theorem marks_record (hc : c.Sized J N) (he : Placed J N e) : (c.record e).Marks e := by
  refine ⟨?_, fun t ht ↦ ?_⟩
  · rw [hand_record hc he, if_pos ⟨rfl, rfl⟩, recordHand]
  · rw [path_record hc he, Bool.or_eq_true, List.any_eq_true]
    exact .inr ⟨t, ht, beq_self_eq_true _⟩

theorem Marks.record (hc : c.Sized J N) (he : Placed J N e) (h : c.Marks f) :
    (c.record e).Marks f := by
  refine ⟨?_, fun t ht ↦ ?_⟩
  · rw [hand_record hc he]
    split_ifs
    · rfl
    · exact h.hand
  · simp [path_record hc he, h.path t ht]

theorem marks_foldl {es : List (Event α)} (hc : c.Sized J N) (hes : ∀ e ∈ es, Placed J N e)
    (h : c.Marks f ∨ f ∈ es) : (es.foldl Coverage.record c).Marks f := by
  induction es generalizing c with
  | nil => exact h.resolve_right List.not_mem_nil
  | cons e es ih =>
    obtain ⟨he, hes⟩ := List.forall_mem_cons.mp hes
    refine ih (hc.record e) hes ?_
    rcases h with h | h
    · exact .inl (h.record hc he)
    · rcases List.mem_cons.mp h with rfl | h
      · exact .inl (marks_record hc he)
      · exact .inr h

/-- What is on record is exactly what some of the events do. -/
structure Records (c : Coverage) (P : Event α → Prop) : Prop where
  hand : ∀ j h, (c.hand j h).touched = true ↔ ∃ e, P e ∧ e.juggler = j ∧ e.hand = h
  velocity : ∀ j h, (c.hand j h).determinesVelocity = true ↔
    ∃ e, P e ∧ e.juggler = j ∧ e.hand = h ∧ e.determinesVelocity = true
  path : ∀ p, (c.path p).touched = true ↔ ∃ e, P e ∧ ∃ t ∈ e.transitions, t.path = p
  thrown : ∀ p, (c.path p).thrown = true ↔
    ∃ e, P e ∧ ∃ t ∈ e.transitions, t.path = p ∧ t.kind = .throwing
  caught : ∀ p, (c.path p).caught = true ↔
    ∃ e, P e ∧ ∃ t ∈ e.transitions, t.path = p ∧ t.kind.isCatch = true

theorem Founded.records {P : Event α → Prop} (h : c.Founded P) (hmarks : ∀ e, P e → c.Marks e)
    (hknows : ∀ e, P e → c.Knows e) : c.Records P where
  hand j k := by
    refine ⟨h.hand j k, ?_⟩
    rintro ⟨e, he, rfl, rfl⟩
    exact (hmarks e he).hand
  velocity j k := by
    refine ⟨h.velocity j k, ?_⟩
    rintro ⟨e, he, rfl, rfl, hv⟩
    exact (hknows e he).velocity hv
  path p := by
    refine ⟨h.path p, ?_⟩
    rintro ⟨e, he, t, ht, rfl⟩
    exact (hmarks e he).path t ht
  thrown p := by
    refine ⟨h.thrown p, ?_⟩
    rintro ⟨e, he, t, ht, rfl, hthrow⟩
    exact (hknows e he).thrown t ht hthrow
  caught p := by
    refine ⟨h.caught p, ?_⟩
    rintro ⟨e, he, t, ht, rfl, hcatch⟩
    exact (hknows e he).caught t ht hcatch

theorem untouchedHand?_eq_some {j : ℕ} {h : Hand} : c.untouchedHand? = some (j, h) ↔
    (1 ≤ j ∧ j ≤ c.hands.size) ∧ (c.hand j h).touched = false ∧
      ∀ j' h', 1 ≤ j' → Hand.Precedes (j', h') (j, h) → (c.hand j' h').touched = true := by
  have hmem (a : ℕ × Hand) : (a ∈ c.hands.numbers.flatMap fun j ↦ Hand.all.map (j, ·)) ↔
      1 ≤ a.1 ∧ a.1 ≤ c.hands.size := by
    rcases a with ⟨i, k⟩
    have hall : k ∈ Hand.all := by cases k <;> simp [Hand.all]
    simp only [List.mem_flatMap, List.mem_map, Numbered.numbers, List.mem_range'_1, Prod.mk.injEq]
    constructor
    · rintro ⟨_, hi, _, -, rfl, rfl⟩
      omega
    · exact fun hi ↦ ⟨i, by omega, k, hall, rfl, rfl⟩
  have hpairwise := Hand.pairwise_precedes c.hands.numbers List.pairwise_lt_range'
  rw [untouchedHand?, find?_eq_some_iff_of_pairwise (fun _ _ h ↦ h.not_precedes) hpairwise, hmem]
  simp only [Bool.not_eq_true', Bool.not_eq_false', Prod.forall, hmem]
  refine and_congr_right fun hj ↦ and_congr_right fun _ ↦ ?_
  refine forall₂_congr fun j' h' ↦ ⟨fun h hj' hbefore ↦ ?_, fun h hj' ↦ h hj'.1⟩
  have hle : j' ≤ j := hbefore.elim le_of_lt fun h ↦ h.1.le
  exact h ⟨hj', hle.trans hj.2⟩ hbefore

theorem untouchedHand?_eq_none_iff : c.untouchedHand? = none ↔
    ∀ j h, 1 ≤ j ∧ j ≤ c.hands.size → (c.hand j h).touched = true := by
  refine ⟨fun hnone j h hj ↦ untouchedHand?_eq_none hnone hj h, fun h ↦ ?_⟩
  refine Option.eq_none_iff_forall_ne_some.mpr fun ⟨j, k⟩ hsome ↦ ?_
  obtain ⟨hj, hidle, -⟩ := untouchedHand?_eq_some.mp hsome
  cases hidle.symm.trans (h j k hj)

theorem untouchedPath?_eq_some {p : ℕ} : c.untouchedPath? = some p ↔
    IsLeast {q | (1 ≤ q ∧ q ≤ c.paths.size) ∧ (c.path q).touched = false} p := by
  have hpairwise : c.paths.numbers.Pairwise (· < ·) := List.pairwise_lt_range'
  have hmem (q : ℕ) : q ∈ c.paths.numbers ↔ 1 ≤ q ∧ q ≤ c.paths.size := by
    rw [Numbered.mem_numbers]
  rw [untouchedPath?, find?_eq_some_iff_of_pairwise (fun _ _ h ↦ h.not_gt) hpairwise, hmem]
  simp only [Bool.not_eq_true', Bool.not_eq_false', hmem, IsLeast, mem_lowerBounds,
    Set.mem_ofPred_eq, and_assoc]
  refine and_congr_right fun hp ↦ and_congr_right fun hsize ↦ and_congr_right fun _ ↦ ?_
  constructor
  · rintro h q ⟨hq, hqsize, huntouched⟩
    by_contra hlt
    cases huntouched.symm.trans (h q ⟨hq, hqsize⟩ (not_le.mp hlt))
  · rintro h q ⟨hq, hqsize⟩ hlt
    by_contra huntouched
    exact hlt.not_ge (h q ⟨hq, hqsize, by simpa using huntouched⟩)

theorem untouchedPath?_eq_none_iff : c.untouchedPath? = none ↔
    ∀ p, 1 ≤ p ∧ p ≤ c.paths.size → (c.path p).touched = true := by
  refine ⟨fun hnone p hp ↦ untouchedPath?_eq_none hnone hp, fun h ↦ ?_⟩
  refine Option.eq_none_iff_forall_ne_some.mpr fun p hsome ↦ ?_
  obtain ⟨hp, hidle⟩ := (untouchedPath?_eq_some.mp hsome).1
  cases hidle.symm.trans (h p hp)

section Scan

variable [Exact α] {symmetries : List (Symmetry α)} {g : SymmetryGroup α} {seeds : List (Event α)}

def IsImage (seeds : List (Event α)) (g : SymmetryGroup α) (f : Event α) : Prop :=
  ∃ e ∈ seeds, ∃ k : ℤ, (g.image k).apply e = f

def HandOnImage (seeds : List (Event α)) (g : SymmetryGroup α) (j : ℕ) (h : Hand) : Prop :=
  ∃ f, IsImage seeds g f ∧ f.juggler = j ∧ f.hand = h

def PathOnImage (seeds : List (Event α)) (g : SymmetryGroup α) (p : ℕ) : Prop :=
  ∃ f, IsImage seeds g f ∧ ∃ t ∈ f.transitions, t.path = p

/-- All that a scan looks at: images of all events up to those that only repeat others. -/
def scanned (seeds : List (Event α)) (g : SymmetryGroup α) (J N : ℕ) : Coverage :=
  (seeds.flatMap fun e ↦ g.orbit.map (·.apply e)).foldl record (empty J N)

theorem foldl_eq_scanned : seeds.foldl
    (fun c e ↦ g.orbit.foldl (fun c f ↦ c.record (f.apply e)) c) (empty J N) =
      scanned seeds g J N := foldl_orbit _

theorem scan_eq_handNeverTouched {j : ℕ} {h : Hand} :
    scan seeds g J N = .error (.handNeverTouched j h) ↔
      (scanned seeds g J N).untouchedHand? = some (j, h) := by
  cases hhand : (scanned seeds g J N).untouchedHand? <;>
    cases hpath : (scanned seeds g J N).untouchedPath? <;>
    simp [scan, foldl_eq_scanned, hhand, hpath, Prod.ext_iff]

theorem scan_eq_pathNeverTouched {p : ℕ} : scan seeds g J N = .error (.pathNeverTouched p) ↔
    (scanned seeds g J N).untouchedHand? = none ∧
      (scanned seeds g J N).untouchedPath? = some p := by
  cases hhand : (scanned seeds g J N).untouchedHand? <;>
    cases hpath : (scanned seeds g J N).untouchedPath? <;>
    simp [scan, foldl_eq_scanned, hhand, hpath]

theorem scan_eq_ok_iff : scan seeds g J N = .ok c ↔
    ((scanned seeds g J N).untouchedHand? = none ∧ (scanned seeds g J N).untouchedPath? = none) ∧
      scanned seeds g J N = c := by
  cases hhand : (scanned seeds g J N).untouchedHand? <;>
    cases hpath : (scanned seeds g J N).untouchedPath? <;>
    simp [scan, foldl_eq_scanned, hhand, hpath]

/-- What a scan looks at is as good as all images. -/
theorem records_scanned (hg : g.IsGroupOf symmetries J N) (hseeds : ∀ e ∈ seeds, Placed J N e) :
    (scanned seeds g J N).Sized J N ∧
      (scanned seeds g J N).Records (IsImage seeds g) := by
  have hempty : (empty J N).Sized J N :=
    ⟨Numbered.size_replicate _ _, Numbered.size_replicate _ _⟩
  have hmade {f : Event α} (hf : f ∈ seeds.flatMap fun e ↦ g.orbit.map (·.apply e)) :=
    exists_of_mem_scanned hg hseeds hf
  have hplaced : ∀ f ∈ seeds.flatMap fun e ↦ g.orbit.map (·.apply e), Placed J N f :=
    fun f hf ↦ (hmade hf).1
  obtain ⟨hsized, hknows⟩ := foldl_record hempty hplaced
  refine ⟨hsized, Founded.records ?_ ?_ ?_⟩
  · refine (founded_empty _).foldl_record hempty hplaced fun f hf ↦ ?_
    obtain ⟨-, e, he, k, rfl⟩ := hmade hf
    exact ⟨e, he, k, rfl⟩
  all_goals
    rintro _ ⟨e, he, k, rfl⟩
    obtain ⟨f, hf, halike⟩ := hg.exists_orbit (hseeds e he) k
    have hmem : f.apply e ∈ seeds.flatMap fun e ↦ g.orbit.map (·.apply e) :=
      List.mem_flatMap.mpr ⟨e, he, List.mem_map_of_mem hf⟩
  · exact (marks_foldl hempty hplaced (.inr hmem)).congr halike
  · exact (hknows _ (.inr hmem)).congr halike

variable (hfits : ∀ s ∈ symmetries, (SymmetryGroup.ofShift s (0 : α)).Fits J N)
  (hok : SymmetryGroup.ofSymmetries symmetries J N = .ok g) (hseeds : ∀ e ∈ seeds, Placed J N e)

include hfits hok hseeds

end Scan

end Coverage

end Juggling
