import Juggling.Proofs.Passes

namespace Juggling

variable {α : Type} [Exact α] {symmetries : List (Symmetry α)} {J N : ℕ}

namespace Expansion

variable {x : Expansion α} {dir : ℤ} {note : Needs → Event α → Needs} {c c' : ℕ → ℤ}
  {n n' : Needs} {made : List (Generated α)}

namespace Run

/-- Images that are all made within some periods are at most as many as fit there. -/
theorem length_le (hg : x.group.IsGroupOf symmetries J N) (hdir : dir = 1 ∨ dir = -1)
    (h : x.Run dir note c n made c' n') {B : ℕ}
    (hspan : ∀ a ∈ made, ∀ b ∈ made, (dir : α) * (b.event.time - a.event.time) <
      B * x.group.period) : made.length ≤ x.seeds.length * (x.group.size * B) := by
  have hblock (i : ℕ) : (made.map (·.seed)).count i ≤ x.group.size * B := by
    have hcount : (made.map (·.seed)).count i =
        ((made.filter (·.seed == i)).map (·.image)).length := by
      rw [List.count, List.countP_map, List.length_map, ← List.countP_eq_length_filter]
      rfl
    obtain ⟨m, -, hm⟩ := h.block i
    rw [hcount, hm, List.length_map, List.length_range]
    by_contra! hlt
    -- The first of them and the one so many periods later were both made.
    have hmem {a : ℕ} (ha : a < m) : c i + dir * a ∈ (made.filter (·.seed == i)).map (·.image) := by
      rw [hm]
      exact List.mem_map_of_mem (f := fun a : ℕ ↦ c i + dir * a) (List.mem_range.mpr ha)
    obtain ⟨o, ho, -⟩ := List.mem_map.mp (hmem (a := 0) (by omega))
    obtain ⟨ho, hseed⟩ := List.mem_filter.mp ho
    obtain ⟨e, he, -⟩ := h.generated o ho
    rw [beq_iff_eq] at hseed
    rw [hseed] at he
    have hfirst := (h.mem_iff_mem_block he _).mpr (hmem (a := 0) (by omega))
    have hlast := (h.mem_iff_mem_block he _).mpr (hmem hlt)
    have := hspan _ hfirst _ hlast
    have himage : c i + dir * ((x.group.size * B : ℕ) : ℤ) = c i + dir * B * x.group.size := by
      push_cast
      ring
    rw [SymmetryGroup.time_image, SymmetryGroup.time_image, himage, Nat.cast_zero, mul_zero,
      add_zero, hg.imageTime_add_size] at this
    push_cast at this
    rcases hdir with rfl | rfl <;> push_cast at this <;> linarith
  have hseed : ∀ i ∈ (made.map (·.seed) : Multiset ℕ), i ∈ Finset.range x.seeds.length := by
    intro i hi
    obtain ⟨o, ho, rfl⟩ := List.mem_map.mp hi
    obtain ⟨e, he, -⟩ := h.generated o ho
    exact Finset.mem_range.mpr (List.getElem?_eq_some_iff.mp he).1
  calc made.length = ∑ i ∈ Finset.range x.seeds.length, (made.map (·.seed)).count i := by
        have := Multiset.sum_count_eq_card hseed
        simpa using this.symm
    _ ≤ ∑ _i ∈ Finset.range x.seeds.length, x.group.size * B := Finset.sum_le_sum fun i _ ↦ hblock i
    _ = x.seeds.length * (x.group.size * B) := by simp

end Run

/-- Before each image that it makes a pass does not stop. -/
theorem Pass.exists_before {stops : Needs → (ℕ → ℤ) → Prop}
    {pass : ℕ → Needs → (ℕ → ℤ) → Except (UserError α) (List (Generated α))}
    (hpass : x.Pass dir note stops pass) {budget : ℕ} (hok : pass budget n c = .ok made) :
    ∀ o ∈ made, ∃ before c₁ n₁, x.Run dir note c n before c₁ n₁ ∧ ¬stops n₁ c₁ ∧
      Run.Beyond x dir c₁ o.event.time := by
  induction budget generalizing n c made with
  | zero =>
    by_cases hstop : stops n c
    · obtain rfl : [] = made := Except.ok.inj ((hpass.stop 0 n c hstop).symm.trans hok)
      simp
    · obtain ⟨i, e, -, -, hzero, -⟩ := hpass.go n c hstop
      rw [hzero] at hok
      cases hok
  | succ budget ih =>
    by_cases hstop : stops n c
    · obtain rfl : [] = made := Except.ok.inj ((hpass.stop _ n c hstop).symm.trans hok)
      simp
    · obtain ⟨i, e, he, hfirst, -, hsucc⟩ := hpass.go n c hstop
      rw [hsucc, map_eq_ok] at hok
      obtain ⟨made, hok, rfl⟩ := hok
      intro o ho
      rcases List.mem_cons.mp ho with rfl | ho
      · refine ⟨[], c, n, .done c n, hstop, fun j e' he' ↦ ?_⟩
        rw [SymmetryGroup.time_image]
        exact hfirst j e' he'
      · obtain ⟨before, c₁, n₁, hbefore, h⟩ := ih hok o ho
        exact ⟨_, c₁, n₁, .step he hfirst hbefore, h⟩

/-- A recursion that has to stop after so many images makes the same images with every budget that
is enough for them. -/
theorem Pass.exists_run {stops : Needs → (ℕ → ℤ) → Prop}
    {pass : ℕ → Needs → (ℕ → ℤ) → Except (UserError α) (List (Generated α))}
    (hpass : x.Pass dir note stops pass) (M : ℕ)
    (hM : ∀ made c' n', x.Run dir note c n made c' n' → made.length = M → stops n' c') :
    ∃ made c' n', x.Run dir note c n made c' n' ∧ stops n' c' ∧
      ∀ budget, pass budget n c =
        if made.length ≤ budget then .ok made else .error (.expansionLimit limit) := by
  have hdone (n : Needs) (c : ℕ → ℤ) (hstop : stops n c) : ∃ made c' n',
      x.Run dir note c n made c' n' ∧ stops n' c' ∧
      ∀ budget, pass budget n c =
        if made.length ≤ budget then .ok made else .error (.expansionLimit limit) :=
    ⟨[], c, n, .done c n, hstop, fun budget ↦ by rw [hpass.stop budget n c hstop]; rfl⟩
  induction M generalizing n c with
  | zero => exact hdone n c (hM [] c n (.done c n) rfl)
  | succ M ih =>
    by_cases hstop : stops n c
    · exact hdone n c hstop
    obtain ⟨i, e, he, hfirst, hzero, hsucc⟩ := hpass.go n c hstop
    obtain ⟨made, c', n', hrun, hend, heq⟩ := @ih (Function.update c i (c i + dir))
      (note n ((x.group.image (c i)).apply e)) fun made c' n' hrun hlen ↦
        hM _ c' n' (.step he hfirst hrun) (by rw [List.length_cons, hlen])
    refine ⟨_, c', n', .step he hfirst hrun, hend, fun budget ↦ ?_⟩
    cases budget with
    | zero => exact hzero.trans (if_neg (by simp)).symm
    | succ budget =>
      rw [hsucc, heq, List.length_cons]
      by_cases hle : made.length ≤ budget
      · rw [if_pos hle, if_pos (by omega)]
        rfl
      · rw [if_neg hle, if_neg (by omega)]
        rfl

section Ends

variable (hg : x.group.IsGroupOf symmetries J N) (hseeds : ∀ e ∈ x.seeds, Placed J N e)
  (hscan : Coverage.scan x.seeds x.group J N = .ok x.coverage)
  (hloop : x.loop.high = x.loop.low + x.group.period)

include hg

theorem time_lt_of_backward (h : x.Run (-1) note x.lastInLoop n made c' n') {o : Generated α}
    (ho : o ∈ made) : o.event.time < x.loop.high := by
  obtain ⟨e, he, hevent⟩ := h.generated o ho
  have hmem : ⟨o.seed, o.image, (x.group.image o.image).apply e⟩ ∈ made := hevent ▸ ho
  rw [hevent, SymmetryGroup.time_image]
  exact (hg.imageTime_mono e ((h.mem_backward_iff he o.image).mp hmem).2).trans_lt
    (lastInLoop_spec hg he).1

theorem le_time_of_forward (h : x.Run 1 note (fun i ↦ x.lastInLoop i + 1) n made c' n')
    {o : Generated α} (ho : o ∈ made) : x.loop.high ≤ o.event.time := by
  obtain ⟨e, he, hevent⟩ := h.generated o ho
  have hmem : ⟨o.seed, o.image, (x.group.image o.image).apply e⟩ ∈ made := hevent ▸ ho
  rw [hevent, SymmetryGroup.time_image]
  exact (lastInLoop_spec hg he).2.trans
    (hg.imageTime_mono e ((h.mem_forward_iff he o.image).mp hmem).1)

include hseeds hscan hloop

/-- As long as images are made backwards, the next of them is less than a period before all props
are back on their paths, or not yet before the loop. -/
theorem exists_front_backward
    (h : x.Run (-1) x.noteBackward x.lastInLoop (.ofCoverage x.coverage) made c' n')
    (hgo : ¬x.StopsBackward n' c') : ∃ j e, x.seeds[j]? = some e ∧
      (x.loop.low - (x.group.delay.paths.order + 1) * x.group.period <
          x.group.imageTime e (c' j) ∨
        x.loop.low - timeTolerance ≤ x.group.imageTime e (c' j)) := by
  by_contra! hpast
  refine hgo (.inr ⟨fulfilled_backward hg hseeds hscan (Permutation.order_pos _)
    (recurs_order hg hseeds) x.loop.low (by linarith [timeTolerance_pos (α := α)]) h
    (fun i e he ↦ ?_) fun i e he ↦ (hpast i e he).1, fun i e he ↦ (hpast i e he).2⟩)
  have := (lastInLoop_spec hg he).2
  linarith [hg.period_pos]

theorem exists_front_forward {back : List (Generated α)}
    (h : x.Run 1 x.noteForward (fun i ↦ x.lastInLoop i + 1) (x.needsAfter N back) made c' n')
    (hgo : ¬x.StopsForward n' c') : ∃ j e, x.seeds[j]? = some e ∧ x.group.imageTime e (c' j) <
      x.loop.high + (x.group.delay.paths.order + 1) * x.group.period := by
  by_contra! hpast
  refine hgo (.inr (fulfilled_forward hg hseeds hscan hloop h (fun i e he ↦ ?_) hpast))
  rw [add_sub_cancel_right]
  exact (lastInLoop_spec hg he).1

theorem exists_backward : ∃ back c' n',
    x.Run (-1) x.noteBackward x.lastInLoop (.ofCoverage x.coverage) back c' n' ∧
    x.StopsBackward n' c' ∧
    (∀ budget, x.backward budget (.ofCoverage x.coverage)
        (Front.before x.group x.seeds x.loop.high 0) =
      if back.length ≤ budget then .ok back else .error (.expansionLimit limit)) ∧
    ∀ o ∈ back, o.event.time < x.loop.high ∧
      (x.loop.low - (x.group.delay.paths.order + 1) * x.group.period < o.event.time ∨
        x.loop.low - timeTolerance ≤ o.event.time) := by
  have hpos := hg.period_pos
  -- So many periods before the loop all reasons to go on are gone.
  obtain ⟨K, hK⟩ := exists_nat_gt (timeTolerance / x.group.period +
    (x.group.delay.paths.order + 1))
  have hratio : 0 < timeTolerance / x.group.period := div_pos timeTolerance_pos hpos
  have htolerance : timeTolerance < K * x.group.period := by
    rw [← div_lt_iff₀ hpos]
    have : (0 : α) ≤ x.group.delay.paths.order := Nat.cast_nonneg _
    linarith
  have hrounds : (x.group.delay.paths.order + 1) * x.group.period ≤ K * x.group.period :=
    mul_le_mul_of_nonneg_right (by linarith) hpos.le
  obtain ⟨back, c', n', hrun, hstop, heq⟩ := x.pass_backward.exists_run
    (c := x.lastInLoop) (n := .ofCoverage x.coverage)
    (x.seeds.length * (x.group.size * (K + 1)) + 1) (by
      intro made c' n' hrun hlen
      by_contra hgo
      obtain ⟨j, e, he, hfront⟩ := exists_front_backward hg hseeds hscan hloop hrun hgo
      have hfirst : ∀ o ∈ made, x.loop.low - K * x.group.period < o.event.time := by
        intro o ho
        have := (hrun.ordered hg (.inr rfl)).2 o ho j e he
        push_cast at this
        rcases hfront with hfront | hfront <;> linarith
      have hle := hrun.length_le hg (.inr rfl) (B := K + 1) fun a ha b hb ↦ by
        have := time_lt_of_backward hg hrun ha
        have := hfirst b hb
        push_cast
        linarith
      omega)
  refine ⟨back, c', n', hrun, hstop, fun budget ↦ ?_, fun o ho ↦
    ⟨time_lt_of_backward hg hrun ho, ?_⟩⟩
  · rw [before_eq_lastInLoop]
    simpa using heq budget
  · obtain ⟨before, c₁, n₁, hbefore, hgo, hbeyond⟩ :=
      x.pass_backward.exists_before ((heq back.length).trans (if_pos le_rfl)) o ho
    obtain ⟨j, e, he, hfront⟩ := exists_front_backward hg hseeds hscan hloop hbefore hgo
    have := hbeyond j e he
    push_cast at this
    exact hfront.imp (fun h ↦ by linarith) fun h ↦ by linarith

theorem exists_forward (back : List (Generated α)) : ∃ forth c' n',
    x.Run 1 x.noteForward (fun i ↦ x.lastInLoop i + 1) (x.needsAfter N back) forth c' n' ∧
    (∀ budget, x.forward budget (x.needsAfter N back)
        (Front.before x.group x.seeds x.loop.high 1) =
      if forth.length ≤ budget then .ok forth else .error (.expansionLimit limit)) ∧
    ∀ o ∈ forth, x.loop.high ≤ o.event.time ∧ o.event.time <
      x.loop.high + (x.group.delay.paths.order + 1) * x.group.period := by
  obtain ⟨forth, c', n', hrun, -, heq⟩ := x.pass_forward.exists_run
    (c := fun i ↦ x.lastInLoop i + 1) (n := x.needsAfter N back)
    (x.seeds.length * (x.group.size * (x.group.delay.paths.order + 1)) + 1) (by
      intro made c' n' hrun hlen
      by_contra hgo
      obtain ⟨j, e, he, hfront⟩ := exists_front_forward hg hseeds hscan hloop hrun hgo
      have hle := hrun.length_le hg (.inl rfl) (B := x.group.delay.paths.order + 1)
        fun a ha b hb ↦ by
          have := le_time_of_forward hg hrun ha
          have := (hrun.ordered hg (.inl rfl)).2 b hb j e he
          push_cast at this ⊢
          linarith
      omega)
  refine ⟨forth, c', n', hrun, fun budget ↦ ?_, fun o ho ↦ ⟨le_time_of_forward hg hrun ho, ?_⟩⟩
  · rw [before_eq_lastInLoop]
    exact heq budget
  · obtain ⟨before, c₁, n₁, hbefore, hgo, hbeyond⟩ :=
      x.pass_forward.exists_before ((heq forth.length).trans (if_pos le_rfl)) o ho
    obtain ⟨j, e, he, hfront⟩ := exists_front_forward hg hseeds hscan hloop hbefore hgo
    have := hbeyond j e he
    push_cast at this
    linarith

end Ends

end Expansion

end Juggling
