import Juggling.Proofs.Images

namespace Juggling

/-- A loop that moves as long as a condition holds: how many rounds it makes from where it starts
to where it comes to rest. -/
inductive Loops (p : ℤ → Prop) (f : ℤ → ℤ) : ℕ → ℤ → ℤ → Prop
  | rest {k : ℤ} (hk : ¬p k) : Loops p f 0 k k
  | round {n : ℕ} {k l : ℤ} (hk : p k) (h : Loops p f n (f k) l) : Loops p f (n + 1) k l

namespace Loops

variable {p : ℤ → Prop} {f : ℤ → ℤ} {n : ℕ} {k l : ℤ}

theorem not_at_end (h : Loops p f n k l) : ¬p l := by
  induction h with
  | rest hk => exact hk
  | round hk h ih => exact ih

theorem eq_or_exists_last (h : Loops p f n k l) : n = 0 ∧ l = k ∨ ∃ i, p i ∧ f i = l := by
  induction h with
  | rest hk => exact .inl ⟨rfl, rfl⟩
  | @round n k l hk h ih =>
    rcases ih with ⟨-, rfl⟩ | hlast
    · exact .inr ⟨k, hk, rfl⟩
    · exact .inr hlast

/-- A loop upwards makes no more rounds than it takes to where the condition fails. -/
theorem exists_up (h : ¬p (k + n)) : ∃ m ≤ n, Loops p (· + 1) m k (k + m) := by
  induction n generalizing k with
  | zero => exact ⟨0, le_rfl, by simpa using rest (by simpa using h)⟩
  | succ n ih =>
    by_cases hk : p k
    · obtain ⟨m, hm, hl⟩ := ih (k := k + 1) (by rwa [add_assoc, add_comm 1, ← Nat.cast_succ])
      rw [add_assoc, add_comm 1, ← Nat.cast_succ] at hl
      exact ⟨m + 1, by omega, round hk hl⟩
    · exact ⟨0, by omega, by simpa using rest hk⟩

end Loops

namespace SymmetryGroup

variable {α : Type} [Exact α] {g : SymmetryGroup α} {J N : ℕ}

section Bounded

variable {e : Event α} {t : α} {n fuel : ℕ} {k l : ℤ}

/-- With steps enough for all its rounds, the bounded search upwards is the loop. -/
theorem climb_of_loops (h : Loops (g.imageTime e · < t) (· + 1) n k l) (hn : n ≤ fuel) :
    g.climb e t fuel k = l := by
  induction h generalizing fuel with
  | rest hk => cases fuel <;> simp [climb, hk]
  | round hk h ih =>
    cases fuel with
    | zero => omega
    | succ fuel =>
      rw [climb, if_pos hk]
      exact ih (by omega)

theorem descend_of_loops (h : Loops (t ≤ g.imageTime e ·) (· - 1) n k l) (hn : n ≤ fuel) :
    g.descend e t fuel k = l := by
  induction h generalizing fuel with
  | rest hk => cases fuel <;> simp [descend, hk]
  | round hk h ih =>
    cases fuel with
    | zero => omega
    | succ fuel =>
      rw [descend, if_pos hk]
      exact ih (by omega)

end Bounded

namespace InOrder

variable (hg : g.InOrder J N) (e : Event α)

include hg

theorem imageTime_period (q : ℤ) : g.imageTime e (q * g.size) = e.time + q * g.period := by
  rw [← zero_add (q * (g.size : ℤ)), hg.imageTime_add_size, hg.imageTime_zero]

/-- Before the first image of a period all images are strictly earlier. -/
theorem imageTime_lt_period {k q : ℤ} (hk : k < q * g.size) :
    g.imageTime e k < e.time + q * g.period := by
  have hdiv : k / (g.size : ℤ) < q :=
    Int.ediv_lt_of_lt_mul (by exact_mod_cast hg.size_pos) hk
  have hle : ((k / (g.size : ℤ) : ℤ) : α) + 1 ≤ q := by exact_mod_cast hdiv
  have hshift := (hg.shift_mem _ (hg.representative_mem k)).2
  rw [imageTime_eq]
  nlinarith [hg.period_pos]

variable (t : α)

/-- From the estimate the climb passes at most one period of images. -/
theorem exists_climb : ∃ n ≤ g.size, ∃ k,
    Loops (g.imageTime e · < t) (· + 1) n (⌊(t - e.time) / g.period⌋ * g.size) k ∧
    g.imageTime e (k - 1) < t := by
  let q : ℤ := ⌊(t - e.time) / g.period⌋
  have hlow : 0 ≤ t - e.time - q * g.period := Int.sub_floor_div_mul_nonneg _ hg.period_pos
  have hhigh : t - e.time - q * g.period < g.period := Int.sub_floor_div_mul_lt _ hg.period_pos
  have hnext : ¬g.imageTime e (q * g.size + g.size) < t := by
    rw [← add_one_mul, hg.imageTime_period, not_lt]
    push_cast
    linarith
  obtain ⟨n, hn, hup⟩ := Loops.exists_up (p := (g.imageTime e · < t)) hnext
  refine ⟨n, hn, _, hup, ?_⟩
  rcases hup.eq_or_exists_last with ⟨rfl, -⟩ | ⟨i, hi, hlast⟩
  · -- The estimate is the first image of its period: the one before is strictly earlier.
    exact (hg.imageTime_lt_period (q := q) e (by omega)).trans_le (by linarith)
  · rwa [← hlast, add_sub_cancel_right]

/-- The search ends: after the climb one step down is left. -/
theorem exists_loops : ∃ n ≤ g.size, ∃ k,
    Loops (g.imageTime e · < t) (· + 1) n (⌊(t - e.time) / g.period⌋ * g.size) k ∧
    Loops (t ≤ g.imageTime e ·) (· - 1) 1 k (g.lastImageBefore e t) := by
  obtain ⟨n, hn, k, hup, hbefore⟩ := hg.exists_climb e t
  have hdown : Loops (t ≤ g.imageTime e ·) (· - 1) 1 k (k - 1) :=
    .round (not_lt.mp hup.not_at_end) (.rest (not_le.mpr hbefore))
  have hsteps : g.size ≤ g.searchSteps ∧ 1 ≤ g.searchSteps := by
    unfold searchSteps
    omega
  have hresult : g.lastImageBefore e t = k - 1 := by
    show g.descend e t g.searchSteps
      (g.climb e t g.searchSteps (⌊(t - e.time) / g.period⌋ * g.size)) = k - 1
    rw [climb_of_loops hup (hn.trans hsteps.1), descend_of_loops hdown hsteps.2]
  exact ⟨n, hn, k, hup, hresult ▸ hdown⟩

/-- The search finds the last image before a time. -/
theorem lastImageBefore_spec : g.imageTime e (g.lastImageBefore e t) < t ∧
    t ≤ g.imageTime e (g.lastImageBefore e t + 1) := by
  obtain ⟨-, -, k, -, hdown⟩ := hg.exists_loops e t
  refine ⟨not_le.mp hdown.not_at_end, ?_⟩
  rcases hdown.eq_or_exists_last with ⟨h, -⟩ | ⟨i, hi, hlast⟩
  · cases h
  · rwa [← hlast, sub_add_cancel]

theorem isGreatest_lastImageBefore :
    IsGreatest {k | g.imageTime e k < t} (g.lastImageBefore e t) := by
  obtain ⟨hlt, hle⟩ := hg.lastImageBefore_spec e t
  refine ⟨hlt, fun k hk ↦ ?_⟩
  by_contra hafter
  exact (hk.trans_le hle).not_ge (hg.imageTime_mono e (by omega))

end InOrder

/-- The images of an event come in order of time, the same number in each period, and the search
for the last one before a time comes to rest there. -/
theorem images_searchable {symmetries : List (Symmetry α)}
    (hok : ofSymmetries symmetries J N = .ok g) (e : Event α) :
    (∀ r ∈ g.representatives, 0 ≤ r.shift ∧ r.shift < g.period) ∧
    g.representatives[0]? = some (Transform.identity J N) ∧
    Monotone (g.imageTime e) ∧
    (∀ k, ((g.image k).apply e).time = g.imageTime e k) ∧
    (∀ k, g.imageTime e (k + g.size) = g.imageTime e k + g.period) ∧
    ∀ t, (∃ n ≤ g.size, ∃ k,
        Loops (g.imageTime e · < t) (· + 1) n (⌊(t - e.time) / g.period⌋ * g.size) k ∧
        Loops (t ≤ g.imageTime e ·) (· - 1) 1 k (g.lastImageBefore e t)) ∧
      IsGreatest {k | g.imageTime e k < t} (g.lastImageBefore e t) := by
  have hg := ofSymmetries_inOrder hok
  refine ⟨hg.shift_mem, hg.getElem?_zero, hg.imageTime_mono e, time_image e, fun k ↦ ?_,
    fun t ↦ ⟨hg.exists_loops e t, hg.isGreatest_lastImageBefore e t⟩⟩
  have := hg.imageTime_add_size e k 1
  rwa [one_mul, Int.cast_one, one_mul] at this

/-- Hands that throw at once: the shift of their exchange falls short of a period by less than the
tolerance. -/
def unison : List (Symmetry ℚ) :=
  [⟨.delay, ⟨true, #[1]⟩, ⟨true, #[1, 2]⟩, some 2⟩,
    ⟨.switchDelay, ⟨true, #[-1]⟩, ⟨true, #[2, 1]⟩, some (2 - 1 / 10 ^ 10)⟩,
    ⟨.switchDelay, ⟨true, #[1]⟩, ⟨true, #[1, 2]⟩, none⟩]

def unisonGroup : SymmetryGroup ℚ :=
  ⟨⟨2, ⟨true, #[1]⟩, ⟨true, #[1, 2]⟩⟩,
    #[⟨0, ⟨true, #[1]⟩, ⟨true, #[1, 2]⟩⟩, ⟨0, ⟨true, #[-1]⟩, ⟨true, #[2, 1]⟩⟩,
      ⟨1, ⟨true, #[1]⟩, ⟨true, #[1, 2]⟩⟩, ⟨1, ⟨true, #[-1]⟩, ⟨true, #[2, 1]⟩⟩]⟩

def toss : Event ℚ where
  time := 1 / 4
  place := ⟨10, 0, 0⟩
  juggler := 1
  hand := .right
  transitions := [{ kind := .throwing, path := 1 }]

theorem images_searchable_unison :
    ofSymmetries unison 1 2 = .ok unisonGroup ∧
    (∃ n ≤ unisonGroup.size, ∃ k,
      Loops (unisonGroup.imageTime toss · < -1 / 2) (· + 1) n
        (⌊(-1 / 2 - toss.time) / unisonGroup.period⌋ * unisonGroup.size) k ∧
      Loops (-1 / 2 ≤ unisonGroup.imageTime toss ·) (· - 1) 1 k (-1)) ∧
    IsGreatest {k | unisonGroup.imageTime toss k < -1 / 2} (-1) := by
  have hok : ofSymmetries unison 1 2 = .ok unisonGroup :=
    ofSymmetries_of_ordered unison 1 2 _ unisonGroup.representatives rfl (by decide +kernel)
      (by decide +kernel) (by decide +kernel) (by decide +kernel)
  obtain ⟨-, -, -, -, -, hsearch⟩ := images_searchable hok toss
  have hlast : unisonGroup.lastImageBefore toss (-1 / 2) = -1 := by decide +kernel
  exact ⟨hok, hlast ▸ hsearch (-1 / 2)⟩

end SymmetryGroup

end Juggling
