import Juggling.Proofs.Spelling

namespace Juggling.Permutation

variable {size : ℕ} {signed : Bool} {spec : String} {p q : Permutation} {c : List ℤ}
  {cs : List (List ℤ)}

/-- What makes cycles stand for a rearrangement of so many elements: each element stands in one
cycle only and there once with each sign, and a cycle that holds one with both signs changes all
signs half-way round. -/
structure Meaningful (size : ℕ) (cs : List (List ℤ)) : Prop where
  range : ∀ c ∈ cs, ∀ e ∈ c, 1 ≤ e.natAbs ∧ e.natAbs ≤ size
  apart : cs.Pairwise fun c d ↦ ∀ e ∈ c, ∀ f ∈ d, e.natAbs ≠ f.natAbs
  nodup : ∀ c ∈ cs, c.Nodup
  turns : ∀ c ∈ cs, (∃ e ∈ c, -e ∈ c) → HalfTurn c

/-- Whether each entry of the cycles goes to the next and the last to the first, and all elements
that are no entries stay in place. -/
structure Realizes (p : Permutation) (cs : List (List ℤ)) : Prop where
  next : ∀ c ∈ cs, ∀ k < c.length, p.apply (c.getD k 0) = c.getD ((k + 1) % c.length) 0
  stay : ∀ i ∈ p.elements, (∀ c ∈ cs, ∀ e ∈ c, e.natAbs ≠ i) → p.apply i = i

/-- Whether elements are reversed only where reversals may be written. -/
def Upright (p : Permutation) : Prop := p.signed = false → ∀ i ∈ p.elements, 0 < p.apply i

theorem next_iff : (∀ k < c.length, p.apply (c.getD k 0) = c.getD ((k + 1) % c.length) 0) ↔
    ∀ y ∈ successions c, p.apply y.1 = y.2 := by
  have hentry {k : ℕ} (hk : k < c.length) : entry c k = c.getD k 0 := by
    rw [entry, Nat.mod_eq_of_lt hk]
  constructor
  · rintro h ⟨i, j⟩ hy
    obtain ⟨k, hk, rfl, rfl⟩ := mem_successions.mp hy
    rw [hentry hk]
    exact h k hk
  · intro h k hk
    rw [← hentry hk]
    exact h _ (mem_successions.mpr ⟨k, hk, rfl, rfl⟩)

theorem Realizes.apply_of_successions (h : p.Realizes cs) (hc : c ∈ cs) {i j : ℤ}
    (hij : (i, j) ∈ successions c) : p.apply i = j :=
  next_iff.mp (h.next c hc) _ hij

theorem Upright.apply_pos (hup : p.Upright) (hsigned : p.signed = false) {e : ℤ}
    (he : p.IsElement e) (hpos : 0 < e) : 0 < p.apply e := by
  have := hup hsigned e.natAbs (mem_elements.mpr he)
  rwa [Int.natAbs_of_nonneg hpos.le] at this

namespace Reading

variable {r : Reading} {earlier : List ℤ} {known known' : List (ℕ × ℤ)} {pairs : List (ℤ × ℤ)}

theorem Records.assigned (h : r.Records earlier known cs known') (hpairs : Assigned pairs known) :
    Assigned (pairs ++ cs.flatMap successions) known' := by
  induction cs generalizing earlier known pairs with
  | nil =>
    obtain rfl : known = known' := h
    simpa using hpairs
  | cons c cs ih =>
    obtain ⟨-, mid, hmid, h⟩ := h
    simpa using ih h (hpairs.assignCycle hmid)

theorem consistent_append (happart : ∀ x ∈ pairs, ∀ e ∈ c, x.1.natAbs ≠ e.natAbs)
    (hpairs : Consistent pairs) :
    Consistent (pairs ++ successions c) ↔ Consistent (successions c) := by
  constructor
  · exact fun h x hx y hy ↦ h x (List.mem_append_right _ hx) y (List.mem_append_right _ hy)
  · intro h x hx y hy habs
    rcases List.mem_append.mp hx with hx | hx <;> rcases List.mem_append.mp hy with hy | hy
    · exact hpairs x hx y hy habs
    · exact absurd habs (happart x hx _ (left_mem hy))
    · exact absurd habs.symm (happart y hy _ (left_mem hx))
    · exact h x hx y hy habs

/-- Cycles can be taken in when they are meaningful and share no elements with earlier ones. -/
theorem exists_records (h : Assigned pairs known)
    (hpairs : ∀ x ∈ pairs, ∃ f ∈ earlier, f.natAbs = x.1.natAbs) :
    (∃ known', r.Records earlier known cs known') ↔
      Meaningful r.size cs ∧ ∀ c ∈ cs, ∀ e ∈ c, ∀ f ∈ earlier, f.natAbs ≠ e.natAbs := by
  induction cs generalizing earlier known pairs with
  | nil => exact ⟨fun _ ↦ ⟨⟨by simp, .nil, by simp, by simp⟩, by simp⟩, fun _ ↦ ⟨known, rfl⟩⟩
  | cons c cs ih =>
    have hzero (hrange : ∀ e ∈ c, 1 ≤ e.natAbs ∧ e.natAbs ≤ r.size) : ∀ e ∈ c, e ≠ 0 := by
      intro e he
      have := hrange e he
      omega
    have happart (hc : ∀ e ∈ c, ∀ f ∈ earlier, f.natAbs ≠ e.natAbs) :
        ∀ x ∈ pairs, ∀ e ∈ c, x.1.natAbs ≠ e.natAbs := by
      intro x hx e he
      obtain ⟨f, hf, hfx⟩ := hpairs x hx
      exact hfx ▸ hc e he f hf
    have hnext : ∀ x ∈ pairs ++ successions c, ∃ f ∈ earlier ++ c, f.natAbs = x.1.natAbs := by
      intro x hx
      rcases List.mem_append.mp hx with hx | hx
      · obtain ⟨f, hf, hfx⟩ := hpairs x hx
        exact ⟨f, List.mem_append_left _ hf, hfx⟩
      · exact ⟨x.1, List.mem_append_right _ (left_mem hx), rfl⟩
    constructor
    · rintro ⟨known', hfresh, mid, hmid, hrec⟩
      obtain ⟨hcs, hlater⟩ := (ih (h.assignCycle hmid) hnext).mp ⟨known', hrec⟩
      have hturn := (consistent_append (happart hfresh.apart) h.consistent).mp
        (h.exists_assignCycle.mp ⟨mid, hmid⟩)
      rw [consistent_successions hfresh.nodup (hzero hfresh.range)] at hturn
      refine ⟨⟨?_, ?_, ?_, ?_⟩, ?_⟩
      · exact List.forall_mem_cons.mpr ⟨hfresh.range, hcs.range⟩
      · exact List.pairwise_cons.mpr ⟨fun d hd e he f hf ↦
          hlater d hd f hf e (List.mem_append_right _ he), hcs.apart⟩
      · exact List.forall_mem_cons.mpr ⟨hfresh.nodup, hcs.nodup⟩
      · exact List.forall_mem_cons.mpr ⟨hturn, hcs.turns⟩
      · exact List.forall_mem_cons.mpr ⟨hfresh.apart, fun d hd e he f hf ↦
          hlater d hd e he f (List.mem_append_left _ hf)⟩
    · rintro ⟨hcs, hearlier⟩
      obtain ⟨hrange, hranges⟩ := List.forall_mem_cons.mp hcs.range
      obtain ⟨hfirst, hpairwise⟩ := List.pairwise_cons.mp hcs.apart
      obtain ⟨hnodup, hnodups⟩ := List.forall_mem_cons.mp hcs.nodup
      obtain ⟨hturn, hturns⟩ := List.forall_mem_cons.mp hcs.turns
      obtain ⟨hc, hlater⟩ := List.forall_mem_cons.mp hearlier
      obtain ⟨mid, hmid⟩ := (h.exists_assignCycle (r := r)).mpr
        ((consistent_append (happart hc) h.consistent).mpr
          ((consistent_successions hnodup (hzero hrange)).mpr hturn))
      have happart' : ∀ d ∈ cs, ∀ e ∈ d, ∀ f ∈ earlier ++ c, f.natAbs ≠ e.natAbs := by
        intro d hd e he f hf
        rcases List.mem_append.mp hf with hf | hf
        · exact hlater d hd e he f hf
        · exact hfirst d hd f hf e he
      obtain ⟨known', hrec⟩ := (ih (h.assignCycle hmid) hnext).mpr
        ⟨⟨hranges, hpairwise, hnodups, hturns⟩, happart'⟩
      exact ⟨known', ⟨hrange, hc, hnodup⟩, mid, hmid, hrec⟩

end Reading

open Reading in
/-- Reading a text takes in the cycles that it is written with. -/
theorem parse_eq_ok (h : Spelling.Spec signed spec.toList cs) : parse size spec signed = .ok p ↔
    ∃ known, Records ⟨size, signed, spec⟩ [] [] cs known ∧
      p = ⟨signed, Array.ofFn fun i : Fin size ↦ (known.lookup (i.val + 1)).getD (i.val + 1)⟩ := by
  have hspec : Spelling.Spec signed (Text.trim spec.toList) cs := Spelling.spec_trim.mpr h
  have hread (known : List (ℕ × ℤ)) :
      Reading.cycles ⟨size, signed, spec⟩ ((Text.trim spec.toList).length + 1) [] []
        (Text.trimLeft (Text.trim spec.toList)) = .ok known ↔
      Reading.Records ⟨size, signed, spec⟩ [] [] cs known :=
    cycles_eq_ok hspec (Nat.lt_succ_self _)
  simp only [Text.trimLeft_trim] at hread
  unfold parse
  simp only [bind_eq_ok, Except.ok.injEq]
  exact exists_congr fun known ↦ and_congr (hread known) eq_comm

/-- What can be read is written well. -/
theorem spelling_of_parse (hok : parse size spec signed = .ok p) :
    ∃ cs, Spelling.Spec signed spec.toList cs := by
  obtain ⟨known, hknown, -⟩ := bind_eq_ok.mp hok
  obtain ⟨cs, hcs⟩ := Reading.spelling_of_cycles (s := Text.trim spec.toList)
    (Nat.lt_succ_self _) (by rwa [Text.trimLeft_trim])
  exact ⟨cs, Spelling.spec_trim.mp hcs⟩

theorem exists_parse (h : Spelling.Spec signed spec.toList cs) :
    (∃ p, parse size spec signed = .ok p) ↔ Meaningful size cs := by
  simp only [parse_eq_ok h]
  have hrecords : (∃ known, Reading.Records ⟨size, signed, spec⟩ [] [] cs known) ↔
      Meaningful size cs ∧ ∀ c ∈ cs, ∀ e ∈ c, ∀ f ∈ ([] : List ℤ), f.natAbs ≠ e.natAbs :=
    Reading.exists_records Reading.assigned_nil (by simp)
  simpa using hrecords

theorem size_parse (hok : parse size spec signed = .ok p) : p.size = size ∧ p.signed = signed := by
  obtain ⟨known, -, hok⟩ := bind_eq_ok.mp hok
  obtain rfl := Except.ok.inj hok
  simp [Permutation.size]

/-- The permutation that is read does what its text says. -/
theorem realizes_parse (hok : parse size spec signed = .ok p)
    (h : Spelling.Spec signed spec.toList cs) : p.Realizes cs := by
  obtain ⟨hsize, -⟩ := size_parse hok
  have hrange := ((exists_parse h).mp ⟨p, hok⟩).range
  obtain ⟨known, hrec, rfl⟩ := (parse_eq_ok h).mp hok
  have hknown : Reading.Assigned (cs.flatMap successions) known :=
    hrec.assigned Reading.assigned_nil
  set p : Permutation :=
    ⟨signed, Array.ofFn fun i : Fin size ↦ (known.lookup (i.val + 1)).getD (i.val + 1)⟩ with hp
  have happly {i : ℕ} (hi : i ∈ p.elements) : p.apply i = (known.lookup i).getD i := by
    obtain ⟨k, rfl⟩ : ∃ k, i = k + 1 := ⟨i - 1, by have := mem_elements.mp hi; omega⟩
    have hk : k < size := by
      have := mem_elements.mp hi
      omega
    push_cast
    rw [apply_succ]
    simp [hp, Array.getD_eq_getD_getElem?, hk]
  refine ⟨fun c hc ↦ next_iff.mpr ?_, fun i hi hstay ↦ ?_⟩
  · rintro ⟨i, j⟩ hij
    have hel : i.natAbs ∈ p.elements := mem_elements.mpr (hsize ▸ hrange c hc i (left_mem hij))
    have hlookup := hknown.forth i j (List.mem_flatMap.mpr ⟨c, hc, hij⟩)
    have habs := happly hel
    rw [hlookup, Option.getD_some, ← image_apply] at habs
    exact image_injective habs
  · rw [happly hi]
    cases hlookup : known.lookup i with
    | none => rfl
    | some v =>
      obtain ⟨j, j', hmem, hj, -⟩ := hknown.back i v hlookup
      obtain ⟨c, hc, hjj'⟩ := List.mem_flatMap.mp hmem
      exact absurd hj (hstay c hc j (left_mem hjj'))

/-- Elements that cycles of elements move are rearranged. -/
theorem Realizes.rearranges (h : p.Realizes cs)
    (hrange : ∀ c ∈ cs, ∀ e ∈ c, 1 ≤ e.natAbs ∧ e.natAbs ≤ p.size) : p.Rearranges := by
  refine .of_surjective fun j hj ↦ ?_
  by_cases hstay : ∀ c ∈ cs, ∀ e ∈ c, e.natAbs ≠ j
  · exact ⟨j, hj, by rw [target_eq, h.stay j hj hstay, Int.natAbs_natCast]⟩
  · -- The element before `j` in its cycle goes to `j`.
    push Not at hstay
    obtain ⟨c, hc, e, he, rfl⟩ := hstay
    obtain ⟨k, hk⟩ := exists_predecessor he
    exact ⟨k.natAbs, mem_elements.mpr (hrange c hc k (left_mem hk)),
      by rw [← natAbs_apply, h.apply_of_successions hc hk]⟩

/-- Cycle notation stands for rearrangements only. -/
theorem rearranges_parse (hok : parse size spec signed = .ok p) : p.Rearranges := by
  obtain ⟨cs, h⟩ := spelling_of_parse hok
  have hrange := ((exists_parse h).mp ⟨p, hok⟩).range
  exact (realizes_parse hok h).rearranges ((size_parse hok).1 ▸ hrange)

theorem upright_parse (hok : parse size spec signed = .ok p) : p.Upright := by
  obtain ⟨cs, h⟩ := spelling_of_parse hok
  obtain ⟨hsize, rfl⟩ := size_parse hok
  have hrange := ((exists_parse h).mp ⟨p, hok⟩).range
  have hreal := realizes_parse hok h
  intro hsigned i hi
  have hpos {c : List ℤ} (hc : c ∈ cs) {e : ℤ} (he : e ∈ c) : 0 < e := by
    have := hrange c hc e he
    by_contra hneg
    have := h.signed_of_neg hc he (by omega)
    simp [hsigned] at this
  by_cases hstay : ∀ c ∈ cs, ∀ e ∈ c, e.natAbs ≠ i
  · rw [hreal.stay i hi hstay]
    have := mem_elements.mp hi
    omega
  · push Not at hstay
    obtain ⟨c, hc, e, he, rfl⟩ := hstay
    obtain ⟨j, hj⟩ := exists_successor he
    rw [Int.natAbs_of_nonneg (hpos hc he).le, hreal.apply_of_successions hc hj]
    exact hpos hc (right_mem hj)

end Juggling.Permutation
