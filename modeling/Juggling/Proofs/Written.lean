import Juggling.Proofs.Order
import Juggling.Proofs.Parsing

namespace Juggling.Permutation

variable {p q : Permutation}

theorem natAbs_iterate (p : Permutation) (m : ℕ) (i : ℤ) :
    (p.apply^[m] i).natAbs = p.target^[m] i.natAbs := by
  induction m generalizing i with
  | zero => rfl
  | succ m ih => rw [Function.iterate_succ_apply, ih, natAbs_apply, Function.iterate_succ_apply]

theorem iterate_neg (p : Permutation) (m : ℕ) (i : ℤ) : p.apply^[m] (-i) = -p.apply^[m] i := by
  induction m generalizing i with
  | zero => rfl
  | succ m ih => rw [Function.iterate_succ_apply, apply_neg, ih, Function.iterate_succ_apply]

theorem Rearranges.isElement_iterate (h : p.Rearranges) {i : ℕ} (hi : i ∈ p.elements) (m : ℕ) :
    p.IsElement (p.apply^[m] i) := by
  rw [IsElement, natAbs_iterate]
  exact mem_elements.mp (h.iterate_target_mem m hi)

theorem Rearranges.exists_signed_return (h : p.Rearranges) {i : ℕ} (hi : i ∈ p.elements) :
    ∃ m, 0 < m ∧ m ≤ 2 * p.size ∧ p.apply^[m] (i : ℤ) = i := by
  obtain ⟨m, hm, hsize, hback⟩ := h.exists_return hi
  have habs := p.natAbs_iterate m i
  rw [Int.natAbs_natCast, hback] at habs
  rcases Int.natAbs_eq (p.apply^[m] (i : ℤ)) with hs | hs <;> rw [habs] at hs
  · exact ⟨m, hm, by omega, hs⟩
  · refine ⟨m + m, by omega, by omega, ?_⟩
    rw [Function.iterate_add_apply, hs, iterate_neg, hs, neg_neg]

section Cycle

theorem entry_orbit {next : ℤ → ℤ} {start : ℤ} (m : ℕ) (hpos : 0 < Function.minimalPeriod next start) :
    entry (orbit next start) m = next^[m] start := by
  have hm := Nat.mod_lt m hpos
  rw [← entry_mod, length_orbit, entry_of_lt (by rwa [length_orbit])]
  simp only [orbit, List.getElem_map, List.getElem_range]
  exact Function.iterate_mod_minimalPeriod_eq

variable (h : p.Rearranges) {i : ℕ} (hi : i ∈ p.elements)

include h hi

theorem signedCycle_eq_orbit : p.signedCycle i = orbit p.apply (i : ℤ) := by
  obtain ⟨m, hm, hsize, hback⟩ := h.exists_signed_return hi
  exact walk_eq_orbit hm hsize hback

theorem nodup_signedCycle : (p.signedCycle i).Nodup :=
  signedCycle_eq_orbit h hi ▸ nodup_orbit

theorem apply_of_successions : ∀ y ∈ successions (p.signedCycle i), p.apply y.1 = y.2 := by
  obtain ⟨n, hn, -, hback⟩ := h.exists_signed_return hi
  have hpos := Function.IsPeriodicPt.minimalPeriod_pos hn hback
  rintro ⟨j, k⟩ hy
  rw [signedCycle_eq_orbit h hi] at hy
  obtain ⟨m, -, rfl, rfl⟩ := mem_successions.mp hy
  rw [entry_orbit m hpos, entry_orbit (m + 1) hpos, Function.iterate_succ_apply']

end Cycle

theorem mem_signedCycle {i : ℕ} (hi : i ∈ p.elements) : (i : ℤ) ∈ p.signedCycle i := by
  have := mem_elements.mp hi
  rw [signedCycle, show 2 * p.size = 2 * p.size - 1 + 1 by omega, walk]
  exact List.mem_cons_self

theorem isElement_signedCycle (h : p.Rearranges) {i : ℕ} (hi : i ∈ p.elements) {e : ℤ}
    (he : e ∈ p.signedCycle i) : p.IsElement e := by
  obtain ⟨m, rfl⟩ := eq_iterate_of_mem_walk he
  exact h.isElement_iterate hi m

/-- The cycles that are written, one for each element that moves and is not among those that are
done. -/
def written (p : Permutation) : List ℕ → List ℕ → List (List ℤ)
  | _, [] => []
  | done, i :: is =>
    if done.contains i || p.apply i == i then written p done is
    else p.signedCycle i :: written p (done ++ (p.signedCycle i).map Int.natAbs) is

theorem mem_written {done is : List ℕ} (his : is ⊆ p.elements) {c : List ℤ}
    (hc : c ∈ p.written done is) :
    ∃ i ∈ p.elements, c = p.signedCycle i := by
  induction is generalizing done with
  | nil => cases hc
  | cons i is ih =>
    obtain ⟨hi, his⟩ := List.cons_subset.mp his
    rw [written] at hc
    split_ifs at hc
    · exact ih his hc
    · rcases List.mem_cons.mp hc with rfl | hc
      · exact ⟨i, hi, rfl⟩
      · exact ih his hc

def inside (c : List ℤ) : List Char :=
  List.intercalate [','] (c.map fun e ↦ (elementText e).toList)

def cycleText (c : List ℤ) : List Char := '(' :: inside c ++ [')']

theorem toText_eq (p : Permutation) :
    p.toText.toList = (p.written [] p.elements).flatMap cycleText := by
  have key (done is : List ℕ) (out : String) :
      (is.foldl (fun (s : List ℕ × String) (i : ℕ) ↦
        if s.1.contains i || p.apply i == i then (s.1, s.2)
        else
          let c := p.signedCycle i
          (s.1 ++ c.map Int.natAbs, s.2 ++ "(" ++ Text.join "," (c.map elementText) ++ ")"))
        (done, out)).2.toList = out.toList ++ (p.written done is).flatMap cycleText := by
    induction is generalizing done out with
    | nil => simp [written]
    | cons i is ih =>
      by_cases hskip : (done.contains i || p.apply i == i) = true
      · simp only [List.foldl_cons, written, if_pos hskip]
        exact ih done out
      · simp only [List.foldl_cons, written, if_neg hskip]
        rw [ih]
        simp [cycleText, inside, Text.join, String.toList_intercalate, Function.comp_def]
  exact key [] p.elements ""

/-- Whether the elements of a list go to each other. -/
def Closed (p : Permutation) (done : List ℕ) : Prop :=
  ∀ i ∈ done, i ∈ p.elements ∧ p.target i ∈ done

section Written

variable (h : p.Rearranges) {done is : List ℕ}

include h

theorem Closed.append_cycle (hdone : p.Closed done) {i : ℕ} (hi : i ∈ p.elements) :
    p.Closed (done ++ (p.signedCycle i).map Int.natAbs) := by
  intro j hj
  rcases List.mem_append.mp hj with hj | hj
  · exact ⟨(hdone j hj).1, List.mem_append_left _ (hdone j hj).2⟩
  · obtain ⟨e, he, rfl⟩ := List.mem_map.mp hj
    refine ⟨mem_elements.mpr (isElement_signedCycle h hi he), List.mem_append_right _ ?_⟩
    obtain ⟨e', he'⟩ := exists_successor he
    rw [← natAbs_apply, apply_of_successions h hi _ he']
    exact List.mem_map_of_mem (right_mem he')

/-- The cycle of an element that is not done holds none that is. -/
theorem Closed.disjoint_cycle (hdone : p.Closed done) {i : ℕ} (hi : i ∈ p.elements)
    (hnew : i ∉ done) : ∀ e ∈ p.signedCycle i, e.natAbs ∉ done := by
  have hiterate (m : ℕ) {j : ℕ} (hj : j ∈ done) : p.target^[m] j ∈ done := by
    induction m with
    | zero => exact hj
    | succ m ih =>
      rw [Function.iterate_succ_apply']
      exact (hdone _ ih).2
  intro e he hmem
  obtain ⟨m, rfl⟩ := eq_iterate_of_mem_walk he
  rw [natAbs_iterate, Int.natAbs_natCast] at hmem
  -- From there on the walk leads back to the element.
  obtain ⟨n, hn, -, hback⟩ := h.exists_return hi
  have hround : p.target^[n * m] i = i := by
    rw [Function.iterate_mul]
    exact Function.iterate_fixed hback m
  have hle : m ≤ n * m := Nat.le_mul_of_pos_left m hn
  rw [show n * m = n * m - m + m by omega, Function.iterate_add_apply] at hround
  exact hnew (hround ▸ hiterate (n * m - m) hmem)

theorem disjoint_written (hdone : p.Closed done) (his : is ⊆ p.elements) :
    ∀ c ∈ p.written done is, ∀ e ∈ c, e.natAbs ∉ done := by
  induction is generalizing done with
  | nil => simp [written]
  | cons i is ih =>
    obtain ⟨hi, his⟩ := List.cons_subset.mp his
    rw [written]
    split_ifs with hskip
    · exact ih hdone his
    · have hnew : i ∉ done := fun hmem ↦ hskip (by simp [hmem])
      refine List.forall_mem_cons.mpr ⟨hdone.disjoint_cycle h hi hnew, fun c hc e he hmem ↦ ?_⟩
      exact ih (hdone.append_cycle h hi) his c hc e he (List.mem_append_left _ hmem)

theorem pairwise_written (hdone : p.Closed done) (his : is ⊆ p.elements) :
    (p.written done is).Pairwise fun c d ↦ ∀ e ∈ c, ∀ e' ∈ d, e.natAbs ≠ e'.natAbs := by
  induction is generalizing done with
  | nil => exact .nil
  | cons i is ih =>
    obtain ⟨hi, his⟩ := List.cons_subset.mp his
    rw [written]
    split_ifs with hskip
    · exact ih hdone his
    · have hnext := hdone.append_cycle h hi
      refine .cons (fun d hd e he e' he' heq ↦ ?_) (ih hnext his)
      refine disjoint_written h hnext his d hd e' he' (List.mem_append_right _ ?_)
      exact heq ▸ List.mem_map_of_mem he

omit h in
theorem exists_written (his : is ⊆ p.elements) {i : ℕ} (hi : i ∈ is) (hmoves : p.apply i ≠ i) :
    i ∈ done ∨ ∃ c ∈ p.written done is, ∃ e ∈ c, e.natAbs = i := by
  induction is generalizing done with
  | nil => cases hi
  | cons j is ih =>
    obtain ⟨hj, his⟩ := List.cons_subset.mp his
    rw [written]
    split_ifs with hskip
    · rcases List.mem_cons.mp hi with rfl | hi
      · left
        simpa [hmoves] using hskip
      · exact ih his hi
    · rcases List.mem_cons.mp hi with rfl | hi
      · exact .inr ⟨_, List.mem_cons_self, i, mem_signedCycle hj, rfl⟩
      · rcases ih his hi with hmem | ⟨c, hc, hec⟩
        · rcases List.mem_append.mp hmem with hmem | hmem
          · exact .inl hmem
          · exact .inr ⟨_, List.mem_cons_self, List.mem_map.mp hmem⟩
        · exact .inr ⟨c, List.mem_cons_of_mem _ hc, hec⟩

end Written

theorem elementText_eq (e : ℤ) : (elementText e).toList =
    Nat.toDigits 10 e.natAbs ++ if e < 0 then ['*'] else [] := by
  unfold elementText
  split_ifs
  · simp
    rfl
  · simp

namespace Spelling

variable {signed : Bool} {c : List ℤ} {cs : List (List ℤ)}

theorem elementText {e : ℤ} (hlimit : e.natAbs < Text.natLimit) (hneg : e < 0 → signed = true) :
    Element signed (Permutation.elementText e).toList e := by
  have hdigits := Text.spells_toDigits hlimit
  rw [elementText_eq]
  split_ifs with he
  · have := Element.starred (hneg he) Text.blank_nil hdigits Text.blank_nil Text.blank_nil
    rwa [List.nil_append, List.append_nil, List.append_nil, Int.ofNat_natAbs_of_nonpos he.le,
      neg_neg] at this
  · have : Element signed ([] ++ Nat.toDigits 10 e.natAbs ++ []) (e.natAbs : ℤ) :=
      .plain Text.blank_nil hdigits Text.blank_nil
    rwa [List.nil_append, Int.natAbs_of_nonneg (not_lt.mp he)] at this

theorem cycleText (hne : c ≠ []) (hlimit : ∀ e ∈ c, e.natAbs < Text.natLimit)
    (hneg : ∀ e ∈ c, e < 0 → signed = true) : Cycle signed (Permutation.cycleText c) c := by
  refine .mk hne (List.forall₂_map_left_iff.mpr (List.forall₂_same.mpr fun e he ↦ ?_))
  exact elementText (hlimit e he) (hneg e he)

theorem flatMap_cycleText (hcs : ∀ c ∈ cs, c ≠ [])
    (hlimit : ∀ c ∈ cs, ∀ e ∈ c, e.natAbs < Text.natLimit)
    (hneg : ∀ c ∈ cs, ∀ e ∈ c, e < 0 → signed = true) :
    Spec signed (cs.flatMap Permutation.cycleText) cs := by
  induction cs with
  | nil => exact .nil Text.blank_nil
  | cons c cs ih =>
    obtain ⟨hc, hcs⟩ := List.forall_mem_cons.mp hcs
    obtain ⟨hfirst, hlimit⟩ := List.forall_mem_cons.mp hlimit
    obtain ⟨hsign, hneg⟩ := List.forall_mem_cons.mp hneg
    exact .cons (w := []) Text.blank_nil (cycleText hc hfirst hsign) (ih hcs hlimit hneg)

end Spelling

section Realizes

variable {cs : List (List ℤ)}

theorem ext_apply (hsize : p.size = q.size) (hsigned : p.signed = q.signed)
    (happly : ∀ i ∈ p.elements, p.apply i = q.apply i) : p = q := by
  obtain ⟨signed, images⟩ := p
  obtain ⟨signed', images'⟩ := q
  obtain rfl : signed = signed' := hsigned
  congr 1
  refine Array.ext hsize fun n hn hn' ↦ ?_
  have := happly (n + 1) (mem_elements.mpr ⟨by omega, hn⟩)
  push_cast at this
  rw [apply_succ, apply_succ] at this
  simpa [Array.getD_eq_getD_getElem?, hn, hn'] using this

/-- Cycles leave no choice. -/
theorem Realizes.unique (hp : p.Realizes cs) (hq : q.Realizes cs) (hsize : p.size = q.size)
    (hsigned : p.signed = q.signed) : p = q := by
  have hel : q.elements = p.elements := by rw [elements, elements, hsize]
  refine ext_apply hsize hsigned fun i hi ↦ ?_
  by_cases hstay : ∀ c ∈ cs, ∀ e ∈ c, e.natAbs ≠ i
  · rw [hp.stay i hi hstay, hq.stay i (hel ▸ hi) hstay]
  · push Not at hstay
    obtain ⟨c, hc, e, he, rfl⟩ := hstay
    obtain ⟨j, hj⟩ := exists_successor he
    rw [← image_apply, ← image_apply, hp.apply_of_successions hc hj, hq.apply_of_successions hc hj]

end Realizes

theorem consistent_of_apply {pairs : List (ℤ × ℤ)} (h : ∀ y ∈ pairs, p.apply y.1 = y.2) :
    Consistent pairs := by
  rintro ⟨i, j⟩ hx ⟨i', j'⟩ hy (habs : i.natAbs = i'.natAbs)
  obtain rfl : p.apply i = j := h _ hx
  obtain rfl : p.apply i' = j' := h _ hy
  rw [image_apply, image_apply, habs]

theorem Upright.iterate_pos (hup : p.Upright) (h : p.Rearranges) (hsigned : p.signed = false)
    {i : ℕ} (hi : i ∈ p.elements) (m : ℕ) : 0 < p.apply^[m] (i : ℤ) := by
  induction m with
  | zero =>
    have := mem_elements.mp hi
    simpa using by omega
  | succ m ih =>
    rw [Function.iterate_succ_apply']
    exact hup.apply_pos hsigned (h.isElement_iterate hi m) ih

section ToText

variable (h : p.Rearranges)

include h

theorem written_spec {c : List ℤ} (hc : c ∈ p.written [] p.elements) : c ≠ [] ∧ c.Nodup ∧
    (∀ e ∈ c, 1 ≤ e.natAbs ∧ e.natAbs ≤ p.size) ∧ ∀ y ∈ successions c, p.apply y.1 = y.2 := by
  obtain ⟨i, hi, rfl⟩ := mem_written (List.Subset.refl p.elements) hc
  exact ⟨List.ne_nil_of_mem (mem_signedCycle hi), nodup_signedCycle h hi,
    fun e he ↦ isElement_signedCycle h hi he, apply_of_successions h hi⟩

/-- The cycles that are written mean something. -/
theorem meaningful_written : Meaningful p.size (p.written [] p.elements) where
  range c hc := (written_spec h hc).2.2.1
  apart := pairwise_written h (by simp [Closed]) (List.Subset.refl p.elements)
  nodup c hc := (written_spec h hc).2.1
  turns c hc := by
    obtain ⟨-, hnodup, hrange, happly⟩ := written_spec h hc
    refine (consistent_successions hnodup fun e he ↦ ?_).mp (consistent_of_apply happly)
    have := hrange e he
    omega

/-- The cycles that are written say what the permutation does. -/
theorem realizes_written : p.Realizes (p.written [] p.elements) where
  next c hc := next_iff.mpr (written_spec h hc).2.2.2
  stay i hi hstay := by
    by_contra hmoves
    obtain hmem | ⟨c, hc, e, he, rfl⟩ : i ∈ ([] : List ℕ) ∨ _ :=
      exists_written (List.Subset.refl _) hi hmoves
    · cases hmem
    · exact hstay c hc e he rfl

theorem spelling_toText (hup : p.Upright) (hlimit : p.size < Text.natLimit) :
    Spelling.Spec p.signed p.toText.toList (p.written [] p.elements) := by
  rw [toText_eq]
  refine Spelling.flatMap_cycleText (fun c hc ↦ (written_spec h hc).1)
    (fun c hc e he ↦ ((written_spec h hc).2.2.1 e he).2.trans_lt hlimit) fun c hc e he hneg ↦ ?_
  obtain ⟨i, hi, rfl⟩ := mem_written (List.Subset.refl p.elements) hc
  obtain ⟨m, rfl⟩ := eq_iterate_of_mem_walk he
  by_contra hsigned
  have := hup.iterate_pos h (Bool.not_eq_true _ ▸ hsigned) hi m
  omega

/-- What a rearrangement is written as reads back. -/
theorem parse_toText (hup : p.Upright) (hlimit : p.size < Text.natLimit) :
    parse p.size p.toText p.signed = .ok p := by
  have hspec := spelling_toText h hup hlimit
  obtain ⟨q, hq⟩ := (exists_parse hspec).mpr (meaningful_written h)
  obtain ⟨hsize, hsigned⟩ := size_parse hq
  rw [hq, (realizes_parse hq hspec).unique (realizes_written h) hsize hsigned]

theorem parse_toText_of_signed (hsigned : p.signed = true) (hlimit : p.size < Text.natLimit) :
    parse p.size p.toText true = .ok p := by
  have hup : p.Upright := fun hunsigned ↦ by simp [hsigned] at hunsigned
  rw [← hsigned]
  exact parse_toText h hup hlimit

end ToText

theorem toText_of_isIdentity (h : p.isIdentity = true) : p.toText = "" := by
  have hfix : ∀ i ∈ p.elements, p.apply i = i := by simpa [isIdentity] using h
  have hnone (done is : List ℕ) (his : is ⊆ p.elements) : p.written done is = [] := by
    induction is generalizing done with
    | nil => rfl
    | cons i is ih =>
      obtain ⟨hi, his⟩ := List.cons_subset.mp his
      rw [written, if_pos (by simp [hfix i hi]), ih done his]
  have htext := p.toText_eq
  rw [hnone [] p.elements (List.Subset.refl _)] at htext
  exact String.toList_inj.mp htext

theorem isIdentity_identity (size : ℕ) (signed : Bool) :
    (identity size signed).isIdentity = true := by
  rw [isIdentity, List.all_eq_true]
  intro i hi
  rw [mem_elements, size_identity] at hi
  have hsame : (identity size signed).apply i = i := apply_identity (by simpa using hi.2)
  simpa using hsame

end Juggling.Permutation
