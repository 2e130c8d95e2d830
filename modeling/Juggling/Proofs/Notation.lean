import Mathlib.Data.List.Rotate
import Mathlib.Data.Nat.ModEq
import Juggling.Permutation.Notation
import Juggling.Proofs.Outcome
import Juggling.Proofs.Permutation

namespace Juggling.Permutation

section Successions

theorem rotateLeft_one {β : Type} (x : β) (xs : List β) : (x :: xs).rotateLeft 1 = xs ++ [x] := by
  cases xs with
  | nil => rfl
  | cons y xs => simp [List.rotateLeft]

/-- Every entry of a cycle together with the next, and the last with the first. -/
def successions (cycle : List ℤ) : List (ℤ × ℤ) := cycle.zip (cycle.rotateLeft 1)

/-- The entries of a cycle, which follow each other round and round. -/
def entry (cycle : List ℤ) (m : ℕ) : ℤ := cycle.getD (m % cycle.length) 0

variable {cycle : List ℤ} {i j : ℤ}

theorem successions_cons (x : ℤ) (xs : List ℤ) :
    successions (x :: xs) = (x :: xs).zip (xs ++ [x]) := by
  rw [successions, rotateLeft_one]

theorem entry_of_lt {m : ℕ} (hm : m < cycle.length) : entry cycle m = cycle[m] := by
  simp [entry, Nat.mod_eq_of_lt hm, hm]

theorem entry_mod (cycle : List ℤ) (m : ℕ) : entry cycle (m % cycle.length) = entry cycle m := by
  rw [entry, Nat.mod_mod, entry]

theorem entry_mem (hne : cycle ≠ []) (m : ℕ) : entry cycle m ∈ cycle := by
  have hm := Nat.mod_lt m (List.length_pos_of_ne_nil hne)
  rw [← entry_mod, entry_of_lt hm]
  exact List.getElem_mem hm

theorem exists_entry (hi : i ∈ cycle) : ∃ m < cycle.length, entry cycle m = i := by
  obtain ⟨m, hm, rfl⟩ := List.getElem_of_mem hi
  exact ⟨m, hm, entry_of_lt hm⟩

theorem entry_add_length (cycle : List ℤ) (m : ℕ) :
    entry cycle (m + cycle.length) = entry cycle m := by
  rw [← entry_mod, Nat.add_mod_right, entry_mod]

theorem entry_add_mod (cycle : List ℤ) (m n : ℕ) :
    entry cycle (m + n % cycle.length) = entry cycle (m + n) := by
  rw [← entry_mod, Nat.add_mod_mod, entry_mod]

theorem entry_inj (hnodup : cycle.Nodup) (hne : cycle ≠ []) {m n : ℕ} :
    entry cycle m = entry cycle n ↔ m ≡ n [MOD cycle.length] := by
  have hpos := List.length_pos_of_ne_nil hne
  rw [← entry_mod cycle m, ← entry_mod cycle n, entry_of_lt (Nat.mod_lt m hpos),
    entry_of_lt (Nat.mod_lt n hpos), hnodup.getElem_inj_iff]
  rfl

theorem mem_successions :
    (i, j) ∈ successions cycle ↔
      ∃ m < cycle.length, entry cycle m = i ∧ entry cycle (m + 1) = j := by
  cases cycle with
  | nil => simp [successions]
  | cons x xs =>
    have hrotate : xs ++ [x] = (x :: xs).rotate 1 := by simp
    rw [successions_cons, hrotate, List.mem_iff_getElem]
    constructor
    · rintro ⟨m, hm, heq⟩
      have hm' : m < (x :: xs).length := by simpa using hm
      rw [List.getElem_zip, List.getElem_rotate] at heq
      obtain ⟨rfl, rfl⟩ := Prod.mk.inj heq
      have hnext := Nat.mod_lt (m + 1) (by simp : 0 < (x :: xs).length)
      exact ⟨m, hm', entry_of_lt hm', by rw [← entry_mod, entry_of_lt hnext]⟩
    · rintro ⟨m, hm, rfl, rfl⟩
      have hnext := Nat.mod_lt (m + 1) (by simp : 0 < (x :: xs).length)
      refine ⟨m, by simpa using hm, ?_⟩
      rw [List.getElem_zip, List.getElem_rotate, entry_of_lt hm, ← entry_mod _ (m + 1),
        entry_of_lt hnext]

theorem left_mem (h : (i, j) ∈ successions cycle) : i ∈ cycle := (List.of_mem_zip h).1

theorem right_mem (h : (i, j) ∈ successions cycle) : j ∈ cycle := by
  obtain ⟨m, hm, -, rfl⟩ := mem_successions.mp h
  exact entry_mem (List.ne_nil_of_length_pos (by omega)) _

theorem exists_successor (hi : i ∈ cycle) : ∃ j, (i, j) ∈ successions cycle := by
  obtain ⟨m, hm, rfl⟩ := exists_entry hi
  exact ⟨_, mem_successions.mpr ⟨m, hm, rfl, rfl⟩⟩

theorem exists_predecessor (hj : j ∈ cycle) : ∃ i, (i, j) ∈ successions cycle := by
  obtain ⟨m, hm, rfl⟩ := exists_entry hj
  cases m with
  | zero =>
    refine ⟨_, mem_successions.mpr ⟨cycle.length - 1, by omega, rfl, ?_⟩⟩
    rw [Nat.sub_add_cancel (by omega), ← entry_mod, Nat.mod_self]
  | succ m => exact ⟨_, mem_successions.mpr ⟨m, by omega, rfl, rfl⟩⟩

end Successions

section Consistent

variable {cycle : List ℤ} {i j j' : ℤ}

/-- What it says about an unsigned element that a signed one goes to `j`. -/
def image (i j : ℤ) : ℤ := if i < 0 then -j else j

theorem image_neg (hi : i ≠ 0) (j : ℤ) : image (-i) (-j) = image i j := by
  unfold image
  split_ifs <;> omega

theorem image_injective (h : image i j = image i j') : j = j' := by
  unfold image at h
  split_ifs at h <;> omega

theorem image_apply (p : Permutation) (i : ℤ) : image i (p.apply i) = p.apply i.natAbs := by
  unfold image
  split_ifs with hneg
  · rw [← apply_neg, Int.ofNat_natAbs_of_nonpos hneg.le]
  · rw [Int.natAbs_of_nonneg (not_lt.mp hneg)]

/-- Images that do not contradict each other. -/
def Consistent (pairs : List (ℤ × ℤ)) : Prop :=
  ∀ x ∈ pairs, ∀ y ∈ pairs, x.1.natAbs = y.1.natAbs → image x.1 x.2 = image y.1 y.2

/-- Whether the second half of a cycle is the first with all signs changed. -/
def HalfTurn (cycle : List ℤ) : Prop :=
  ∃ h, cycle.length = 2 * h ∧ ∀ k < h, cycle.getD (k + h) 0 = -cycle.getD k 0

theorem halfTurn_of_entry {h : ℕ} (hlen : cycle.length = 2 * h)
    (hturn : ∀ m, entry cycle (m + h) = -entry cycle m) : HalfTurn cycle := by
  refine ⟨h, hlen, fun k hk ↦ ?_⟩
  have := hturn k
  rwa [entry, entry, Nat.mod_eq_of_lt (by omega), Nat.mod_eq_of_lt (by omega)] at this

theorem HalfTurn.entry (hturn : HalfTurn cycle) :
    ∃ h, cycle.length = 2 * h ∧ ∀ m, entry cycle (m + h) = -entry cycle m := by
  obtain ⟨h, hlen, hturn⟩ := hturn
  have hfirst (k : ℕ) (hk : k < h) : Permutation.entry cycle (k + h) = -Permutation.entry cycle k := by
    rw [Permutation.entry, Permutation.entry, Nat.mod_eq_of_lt (by omega),
      Nat.mod_eq_of_lt (by omega), hturn k hk]
  have hround (k : ℕ) : Permutation.entry cycle (k + h + h) = Permutation.entry cycle k := by
    rw [← entry_mod, show k + h + h = k + cycle.length by omega, Nat.add_mod_right, entry_mod]
  refine ⟨h, hlen, fun m ↦ ?_⟩
  rcases Nat.eq_zero_or_pos h with rfl | hpos
  · have hnil : cycle = [] := List.eq_nil_of_length_eq_zero (by omega)
    simp [hnil, Permutation.entry]
  -- A place in the second half is `h` places after one in the first.
  have hm : Permutation.entry cycle m = Permutation.entry cycle (m % cycle.length) :=
    (entry_mod cycle m).symm
  have hmh : Permutation.entry cycle (m + h) = Permutation.entry cycle (m % cycle.length + h) := by
    rw [← entry_mod, ← entry_mod cycle (m % cycle.length + h), Nat.mod_add_mod]
  have hlt := Nat.mod_lt m (by omega : 0 < cycle.length)
  rw [hm, hmh]
  rcases Nat.lt_or_ge (m % cycle.length) h with hk | hk
  · exact hfirst _ hk
  · obtain ⟨k, hk⟩ := Nat.exists_eq_add_of_le' hk
    rw [hk, hround, hfirst k (by omega), neg_neg]

theorem entry_step (hcons : Consistent (successions cycle)) (hne : cycle ≠ [])
    (hzero : ∀ e ∈ cycle, e ≠ 0) {m n : ℕ} (h : entry cycle m = -entry cycle n) :
    entry cycle (m + 1) = -entry cycle (n + 1) := by
  have hmem (m : ℕ) : (entry cycle m, entry cycle (m + 1)) ∈ successions cycle := by
    refine mem_successions.mpr ⟨m % cycle.length, Nat.mod_lt _ (List.length_pos_of_ne_nil hne),
      entry_mod cycle m, ?_⟩
    rw [← entry_mod, Nat.mod_add_mod, entry_mod]
  have := hcons _ (hmem m) _ (hmem n) (by rw [h, Int.natAbs_neg])
  rw [← image_neg (hzero _ (entry_mem hne n)), ← h] at this
  exact image_injective this

/-- A cycle contradicts itself unless it holds no element with both signs or is a half-turn. -/
theorem consistent_successions (hnodup : cycle.Nodup) (hzero : ∀ e ∈ cycle, e ≠ 0) :
    Consistent (successions cycle) ↔ ((∃ e ∈ cycle, -e ∈ cycle) → HalfTurn cycle) := by
  constructor
  · rintro hcons ⟨e, he, he'⟩
    have hne := List.ne_nil_of_mem he
    have hpos := List.length_pos_of_ne_nil hne
    obtain ⟨a, ha, rfl⟩ := exists_entry he
    obtain ⟨b, hb, hab⟩ := exists_entry he'
    have hsteps (m : ℕ) : entry cycle (b + m) = -entry cycle (a + m) := by
      induction m with
      | zero => exact hab
      | succ m ih => exact entry_step hcons hne hzero ih
    -- So the signs change all the way round after as many places as lead from `a` to `b`.
    obtain ⟨d, hd⟩ : ∃ d, a + d = b + cycle.length := ⟨b + cycle.length - a, by omega⟩
    have hturn (k : ℕ) : entry cycle (k + d) = -entry cycle k := by
      have := hsteps (k + cycle.length - a)
      rwa [show b + (k + cycle.length - a) = k + d by omega,
        show a + (k + cycle.length - a) = k + cycle.length by omega, entry_add_length] at this
    have hround : d + d ≡ 0 [MOD cycle.length] := by
      rw [← entry_inj hnodup hne, hturn, ← Nat.zero_add d, hturn, neg_neg]
    have hhalf : d % cycle.length ≠ 0 := by
      intro hd0
      have := hturn 0
      rw [← entry_add_mod, hd0, Nat.add_zero] at this
      exact hzero _ (entry_mem hne 0) (by omega)
    refine halfTurn_of_entry (h := d % cycle.length) ?_ fun m ↦ by rw [entry_add_mod, hturn]
    have hlt := Nat.mod_lt d hpos
    have hdvd : cycle.length ∣ d % cycle.length + d % cycle.length :=
      Nat.dvd_of_mod_eq_zero (by rwa [← Nat.add_mod])
    have := Nat.eq_of_dvd_of_lt_two_mul (by omega) hdvd (by omega)
    omega
  · rintro hturn ⟨i, j⟩ hx ⟨i', j'⟩ hy habs
    obtain ⟨m, hm, rfl, rfl⟩ := mem_successions.mp hx
    obtain ⟨n, hn, rfl, rfl⟩ := mem_successions.mp hy
    have hne : cycle ≠ [] := List.ne_nil_of_length_pos (by omega)
    have hor : entry cycle m = entry cycle n ∨ entry cycle m = -entry cycle n :=
      Int.natAbs_eq_natAbs_iff.mp habs
    rcases hor with heq | heq
    · have := (entry_inj hnodup hne).mpr (((entry_inj hnodup hne).mp heq).add_right 1)
      simp only [heq, this]
    · obtain ⟨h, hlen, hturn⟩ := (hturn ⟨_, entry_mem hne n, heq ▸ entry_mem hne m⟩).entry
      have hplace : m ≡ n + h [MOD cycle.length] := by
        rw [← entry_inj hnodup hne, hturn]
        exact heq
      have hnext : entry cycle (m + 1) = -entry cycle (n + 1) := by
        rw [← hturn, entry_inj hnodup hne, Nat.add_right_comm]
        exact hplace.add_right 1
      simp only [heq, hnext]
      exact image_neg (hzero _ (entry_mem hne n)) _

end Consistent

namespace Reading

variable {r : Reading} {known known' : List (ℕ × ℤ)} {i j : ℤ} {cycle : List ℤ}

/-- Whether just these images are known. -/
structure Assigned (pairs : List (ℤ × ℤ)) (known : List (ℕ × ℤ)) : Prop where
  forth : ∀ i j, (i, j) ∈ pairs → known.lookup i.natAbs = some (image i j)
  back : ∀ n v, known.lookup n = some v → ∃ i j, (i, j) ∈ pairs ∧ i.natAbs = n ∧ image i j = v

theorem assigned_nil : Assigned (([] : List (List ℤ)).flatMap successions) [] :=
  ⟨fun _ _ h ↦ absurd h (by simp), fun _ _ h ↦ absurd h (by simp)⟩

theorem Assigned.assign {pairs : List (ℤ × ℤ)} (h : Assigned pairs known)
    (hok : r.assign known i j = .ok known') : Assigned (pairs ++ [(i, j)]) known' := by
  have himage : (if i < 0 then -j else j) = image i j := rfl
  unfold Reading.assign at hok
  simp only [himage] at hok
  split at hok
  · rename_i v hv
    split at hok
    · rename_i heq
      obtain rfl := Except.ok.inj hok
      refine ⟨fun i' j' hmem ↦ ?_, fun n v hn ↦ ?_⟩
      · rcases List.mem_append.mp hmem with hmem | hmem
        · exact h.forth i' j' hmem
        · obtain ⟨rfl, rfl⟩ := Prod.mk.inj (List.mem_singleton.mp hmem)
          rw [hv, heq]
      · obtain ⟨i', j', hmem, hpair⟩ := h.back n v hn
        exact ⟨i', j', List.mem_append_left _ hmem, hpair⟩
    · cases hok
  · rename_i hnone
    obtain rfl := Except.ok.inj hok
    refine ⟨fun i' j' hmem ↦ ?_, fun n v hn ↦ ?_⟩
    · rcases List.mem_append.mp hmem with hmem | hmem
      · have hold := h.forth i' j' hmem
        have hne : (i'.natAbs == i.natAbs) = false := by
          rw [beq_eq_false_iff_ne]
          intro he
          rw [he, hnone] at hold
          cases hold
        simpa only [List.lookup_cons, hne] using hold
      · obtain ⟨rfl, rfl⟩ := Prod.mk.inj (List.mem_singleton.mp hmem)
        simp
    · rw [List.lookup_cons] at hn
      split at hn
      · rename_i heq
        exact ⟨i, j, by simp, (beq_iff_eq.mp heq).symm, Option.some.inj hn⟩
      · obtain ⟨i', j', hmem, hpair⟩ := h.back n v hn
        exact ⟨i', j', List.mem_append_left _ hmem, hpair⟩

theorem Assigned.assignCycle {pairs : List (ℤ × ℤ)} (h : Assigned pairs known)
    (hok : r.assignCycle known cycle = .ok known') :
    Assigned (pairs ++ successions cycle) known' := by
  unfold Reading.assignCycle at hok
  rw [← successions] at hok
  generalize successions cycle = new at hok ⊢
  induction new generalizing pairs known with
  | nil =>
    obtain rfl := pure_eq_ok.mp hok
    simpa using h
  | cons p new ih =>
    rw [List.foldlM_cons] at hok
    obtain ⟨mid, hmid, hok⟩ := bind_eq_ok.mp hok
    have := ih (h.assign hmid) hok
    rwa [List.append_assoc] at this

theorem Assigned.consistent {pairs : List (ℤ × ℤ)} (h : Assigned pairs known) :
    Consistent pairs := by
  intro x hx y hy habs
  have hxy := h.forth _ _ hx
  rw [habs, h.forth _ _ hy] at hxy
  exact (Option.some.inj hxy).symm

theorem Assigned.exists_assign {pairs : List (ℤ × ℤ)} (h : Assigned pairs known)
    (hcons : Consistent (pairs ++ [(i, j)])) : ∃ known', r.assign known i j = .ok known' := by
  have himage : (if i < 0 then -j else j) = image i j := rfl
  unfold Reading.assign
  simp only [himage]
  split
  · rename_i v hv
    obtain ⟨i', j', hmem, hi', rfl⟩ := h.back _ v hv
    have heq : image i' j' = image i j :=
      hcons (i', j') (List.mem_append_left _ hmem) (i, j) (by simp) hi'
    exact ⟨known, if_pos heq⟩
  · exact ⟨_, rfl⟩

/-- A cycle is taken in unless it contradicts itself or what is known. -/
theorem Assigned.exists_assignCycle {pairs : List (ℤ × ℤ)} (h : Assigned pairs known) :
    (∃ known', r.assignCycle known cycle = .ok known') ↔
      Consistent (pairs ++ successions cycle) := by
  constructor
  · rintro ⟨known', hok⟩
    exact (h.assignCycle hok).consistent
  · intro hcons
    unfold Reading.assignCycle
    rw [← successions]
    generalize successions cycle = new at hcons ⊢
    induction new generalizing pairs known with
    | nil => exact ⟨known, rfl⟩
    | cons y new ih =>
      rw [List.append_cons] at hcons
      obtain ⟨mid, hmid⟩ := h.exists_assign (r := r) fun x hx y hy ↦
        hcons x (List.mem_append_left _ hx) y (List.mem_append_left _ hy)
      obtain ⟨known', hok⟩ := ih (h.assign hmid) hcons
      exact ⟨known', bind_eq_ok.mpr ⟨mid, hmid, hok⟩⟩

end Reading

end Juggling.Permutation
