import Juggling.Proofs.Built

namespace Juggling

/-- Where a step through a list first leaves what held at its start. -/
theorem exists_turn {σ β : Type} (f : σ → β → σ) (φ : σ → Bool) (xs : List β) (s : σ)
    (hstart : φ s = true) (hend : φ (xs.foldl f s) = false) :
    ∃ pre x post, xs = pre ++ x :: post ∧ φ (pre.foldl f s) = true ∧
      φ (f (pre.foldl f s) x) = false := by
  induction xs generalizing s with
  | nil => exact absurd (hstart.symm.trans hend) (by decide)
  | cons x xs ih =>
    cases hx : φ (f s x) with
    | false => exact ⟨[], x, xs, rfl, hstart, hx⟩
    | true =>
      obtain ⟨pre, y, post, rfl, hpre, hy⟩ := ih (f s x) hx hend
      exact ⟨x :: pre, y, post, rfl, hpre, hy⟩

namespace Numbered

variable {β γ : Type} {v : Numbered β} {i j : ℕ} {f : β → β} {d : β}

theorem get?_modify : (v.modify i f).get? j = if i = j then (v.get? j).map f else v.get? j := by
  cases i with
  | zero => cases j <;> simp [modify, get?]
  | succ i =>
    cases j with
    | zero => simp [get?]
    | succ j => simp [modify, get?, Array.getElem?_modify]

@[simp] theorem size_modify : (v.modify i f).size = v.size := by
  cases i <;> simp [modify, size]

@[simp] theorem size_map (f : β → γ) : (v.map f).size = v.size := by simp [map, size]

@[simp] theorem size_replicate (n : ℕ) (x : β) : (replicate n x).size = n := by
  simp [replicate, size]

@[simp] theorem getD_replicate {n : ℕ} {x : β} : (replicate n x).getD i x = x := by
  cases i with
  | zero => rfl
  | succ i =>
    rw [getD, replicate, get?, Array.getElem?_replicate]
    split_ifs <;> rfl

theorem mem_numbers : i ∈ v.numbers ↔ 1 ≤ i ∧ i ≤ v.size := by
  rw [numbers, List.mem_range'_1]
  omega

theorem exists_get? (hi : 1 ≤ i ∧ i ≤ v.size) : ∃ x, v.get? i = some x := by
  obtain ⟨i, rfl⟩ : ∃ k, i = k + 1 := ⟨i - 1, by omega⟩
  exact ⟨_, Array.getElem?_eq_getElem (by simpa [size] using hi.2)⟩

theorem getD_modify (hi : 1 ≤ i ∧ i ≤ v.size) :
    (v.modify i f).getD j d = if i = j then f (v.getD j d) else v.getD j d := by
  obtain ⟨x, hx⟩ := v.exists_get? hi
  rw [getD, getD, get?_modify]
  split_ifs with h
  · rw [← h, hx]
    rfl
  · rfl

theorem getD_map (g : β → γ) (hi : 1 ≤ i ∧ i ≤ v.size) (e : γ) :
    (v.map g).getD i e = g (v.getD i d) := by
  obtain ⟨x, hx⟩ := v.exists_get? hi
  have hmap : (v.map g).get? i = some (g x) := by
    cases i with
    | zero => cases hx
    | succ i =>
      simp only [map, get?, Array.getElem?_map] at hx ⊢
      rw [hx, Option.map_some]
  rw [getD_of_get? hx, getD_of_get? hmap]

theorem getD_mem (hne : v.getD i d ≠ d) : v.getD i d ∈ v.toList := by
  cases hx : v.get? i with
  | none => exact absurd (by rw [getD, hx, Option.getD_none]) hne
  | some x =>
    rw [getD_of_get? hx]
    cases i with
    | zero => cases hx
    | succ i => exact Array.mem_toList_iff.mpr (Array.mem_of_getElem? hx)

end Numbered

namespace Needs

variable {n : Needs} {j : ℕ} {h : Hand} {p : ℕ}

def path (n : Needs) (p : ℕ) : PathNeed := n.paths.getD p ⟨false, false⟩

structure Sized (J N : ℕ) (n : Needs) : Prop where
  hands : n.hands.size = J
  paths : n.paths.size = N

section Modify

variable {J N : ℕ} (hn : n.Sized J N)

include hn

theorem Sized.modifyHand (j : ℕ) (h : Hand) (f : HandNeed → HandNeed) :
    (n.modifyHand j h f).Sized J N :=
  ⟨Numbered.size_modify.trans hn.hands, hn.paths⟩

theorem Sized.modifyPath (p : ℕ) (f : PathNeed → PathNeed) : (n.modifyPath p f).Sized J N :=
  ⟨hn.hands, Numbered.size_modify.trans hn.paths⟩

theorem hand_modifyHand (hj : 1 ≤ j ∧ j ≤ J) (f : HandNeed → HandNeed) (i : ℕ) (k : Hand) :
    (n.modifyHand j h f).hand i k = if j = i ∧ h = k then f (n.hand i k) else n.hand i k := by
  rw [hand, hand, Needs.modifyHand, Numbered.getD_modify (hn.hands.symm ▸ hj)]
  by_cases hji : j = i
  · rw [if_pos hji]
    cases h <;> cases k <;> simp [hji, Hands.set, Hands.get]
  · simp [hji]

theorem path_modifyPath (hp : 1 ≤ p ∧ p ≤ N) (f : PathNeed → PathNeed) (q : ℕ) :
    (n.modifyPath p f).path q = if p = q then f (n.path q) else n.path q := by
  rw [path, path, Needs.modifyPath, Numbered.getD_modify (hn.paths.symm ▸ hp)]

end Modify

@[simp] theorem hand_modifyPath (f : PathNeed → PathNeed) :
    (n.modifyPath p f).hand j h = n.hand j h :=
  rfl

@[simp] theorem path_modifyHand (f : HandNeed → HandNeed) :
    (n.modifyHand j h f).path p = n.path p :=
  rfl

theorem hand_of_not_pending (hn : n.pending = false) : n.hand j h = ⟨false, false⟩ := by
  by_contra hne
  have hmem : n.hands.getD j ⟨⟨false, false⟩, ⟨false, false⟩⟩ ∈ n.hands.toList := by
    refine Numbered.getD_mem fun heq ↦ hne ?_
    rw [hand, heq]
    cases h <;> rfl
  simp only [pending, Bool.or_eq_false_iff, List.any_eq_false] at hn
  have := hn.1 _ hmem
  have hget := List.any_eq_false.mp (Bool.not_eq_true _ ▸ this) (n.hand j h)
    (by cases h <;> simp [Hands.toList, hand, Hands.get])
  rw [Bool.not_eq_true, Bool.or_eq_false_iff] at hget
  cases hneed : n.hand j h with
  | mk event velocity =>
    rw [hneed] at hget hne
    exact hne (by rw [show event = false from hget.1, show velocity = false from hget.2])

theorem path_of_not_pending (hn : n.pending = false) : n.path p = ⟨false, false⟩ := by
  by_contra hne
  simp only [pending, Bool.or_eq_false_iff, List.any_eq_false] at hn
  have hget := hn.2 _ (Numbered.getD_mem hne)
  rw [Bool.not_eq_true, Bool.or_eq_false_iff] at hget
  cases hneed : n.path p with
  | mk touch partner =>
    rw [path] at hneed
    rw [path, hneed] at hne
    rw [hneed] at hget
    exact hne (by rw [show touch = false from hget.1, show partner = false from hget.2])

section Record

variable {α : Type} {c : Coverage} {J N : ℕ} {ts : List Transition} {e : Event α}

/-- The needs of a path after the transitions of an image, when none of them is a throw. -/
theorem recordBackward_transitions (hn : n.Sized J N) (hts : ∀ t ∈ ts, 1 ≤ t.path ∧ t.path ≤ N) :
    (ts.foldl (recordBackwardTransition c) n).Sized J N ∧
    (∀ j h, (ts.foldl (recordBackwardTransition c) n).hand j h = n.hand j h) ∧
    ((∀ t ∈ ts, t.path ≠ p) → (ts.foldl (recordBackwardTransition c) n).path p = n.path p) ∧
    ((∀ t ∈ ts, t.path = p → t.kind ≠ .throwing) →
      ((ts.foldl (recordBackwardTransition c) n).path p).partner = (n.path p).partner) := by
  induction ts generalizing n with
  | nil => exact ⟨hn, fun _ _ ↦ rfl, fun _ ↦ rfl, fun _ ↦ rfl⟩
  | cons t ts ih =>
    obtain ⟨ht, hts⟩ := List.forall_mem_cons.mp hts
    rw [List.foldl_cons]
    -- A throw ends all that its path waits for, other transitions at most the wait for a touch.
    have hstep : (recordBackwardTransition c n t).Sized J N ∧
        (∀ j h, (recordBackwardTransition c n t).hand j h = n.hand j h) ∧
        (t.path ≠ p → (recordBackwardTransition c n t).path p = n.path p) ∧
        ((t.path = p → t.kind ≠ .throwing) →
          ((recordBackwardTransition c n t).path p).partner = (n.path p).partner) := by
      unfold recordBackwardTransition
      split_ifs with hthrow hthrown
      · refine ⟨hn.modifyPath _ _, fun _ _ ↦ rfl, fun hne ↦ ?_, fun hno ↦ ?_⟩
        · rw [path_modifyPath hn ht, if_neg hne]
        · rw [path_modifyPath hn ht, if_neg fun heq ↦ hno heq hthrow]
      · exact ⟨hn, fun _ _ ↦ rfl, fun _ ↦ rfl, fun _ ↦ rfl⟩
      · refine ⟨hn.modifyPath _ _, fun _ _ ↦ rfl, fun hne ↦ ?_, fun _ ↦ ?_⟩
        · rw [path_modifyPath hn ht, if_neg hne]
        · rw [path_modifyPath hn ht]
          split_ifs <;> rfl
    obtain ⟨hsized, hhand, htouch, hpartner⟩ := ih hstep.1 hts
    refine ⟨hsized, fun j h ↦ (hhand j h).trans (hstep.2.1 j h), fun hne ↦ ?_, fun hno ↦ ?_⟩
    · obtain ⟨hne, hnes⟩ := List.forall_mem_cons.mp hne
      exact (htouch hnes).trans (hstep.2.2.1 hne)
    · obtain ⟨hno, hnos⟩ := List.forall_mem_cons.mp hno
      exact (hpartner hnos).trans (hstep.2.2.2 hno)

/-- The needs of a path after it was asked for the throws of some soft catches. -/
theorem awaitThrows (hn : n.Sized J N) (hts : ∀ t ∈ ts, 1 ≤ t.path ∧ t.path ≤ N) :
    (ts.foldl (fun n t ↦ n.awaitPartner (c.path t.path).thrown t.path) n).Sized J N ∧
    (∀ j h, (ts.foldl (fun n t ↦ n.awaitPartner (c.path t.path).thrown t.path) n).hand j h =
      n.hand j h) ∧
    (ts.foldl (fun n t ↦ n.awaitPartner (c.path t.path).thrown t.path) n).path p =
      if ∃ t ∈ ts, t.path = p then { n.path p with partner := (c.path p).thrown }
      else n.path p := by
  induction ts generalizing n with
  | nil => exact ⟨hn, fun _ _ ↦ rfl, by simp⟩
  | cons t ts ih =>
    obtain ⟨ht, hts⟩ := List.forall_mem_cons.mp hts
    obtain ⟨hsized, hhand, hpath⟩ := @ih (n.awaitPartner (c.path t.path).thrown t.path)
      (hn.modifyPath _ _) hts
    refine ⟨hsized, hhand, ?_⟩
    rw [List.foldl_cons, hpath, awaitPartner, path_modifyPath hn ht]
    by_cases htp : t.path = p
    · subst htp
      simp
    · simp [htp]

/-- What an image at or before the start of the loop leaves needed. -/
theorem recordBackward_spec (hn : n.Sized J N) (he : Placed J N e) :
    (n.recordBackward c e).Sized J N ∧
    (∀ j h, (n.recordBackward c e).hand j h = if e.juggler = j ∧ e.hand = h then
      ⟨false, (n.hand j h).velocity && !e.determinesVelocity⟩ else n.hand j h) ∧
    ((∀ t ∈ e.transitions, t.path ≠ p) → (n.recordBackward c e).path p = n.path p) ∧
    ((c.path p).thrown = true → (∀ t ∈ e.transitions, t.path = p → t.kind ≠ .throwing) →
      ((n.path p).partner = true ∨ (n.hand e.juggler e.hand).velocity = true ∧
        e.determinesVelocity = true ∧ e.has .throwing = false ∧
        ∃ t ∈ e.transitions, t.kind = .softCatching ∧ t.path = p) →
      ((n.recordBackward c e).path p).partner = true) := by
  have hsized := hn.modifyHand e.juggler e.hand fun h ↦
    ⟨false, h.velocity && !((n.hand e.juggler e.hand).velocity && e.determinesVelocity)⟩
  unfold recordBackward
  simp only
  -- The soft catches whose throws are asked for.
  set soft := if ((n.hand e.juggler e.hand).velocity && e.determinesVelocity &&
    !e.has .throwing) = true then e.transitions.filter (·.kind == .softCatching) else [] with hsoft
  have hsub : ∀ t ∈ soft, t ∈ e.transitions := by
    intro t ht
    rw [hsoft] at ht
    split_ifs at ht
    · exact (List.mem_filter.mp ht).1
    · cases ht
  obtain ⟨hawait, hhand, hpath⟩ := awaitThrows (p := p) (c := c) hsized
    fun t ht ↦ he.path t (hsub t ht)
  have hreverse : ∀ t ∈ e.transitions.reverse, 1 ≤ t.path ∧ t.path ≤ N := fun t ht ↦
    he.path t (List.mem_reverse.mp ht)
  obtain ⟨hrecord, hhand', hkeep, hpartner⟩ :=
    recordBackward_transitions (p := p) (c := c) hawait hreverse
  refine ⟨hrecord, fun j h ↦ ?_, fun hne ↦ ?_, fun hthrown hno h ↦ ?_⟩
  · rw [hhand', hhand, hand_modifyHand hn he.juggler]
    split_ifs with heq
    · rw [← heq.1, ← heq.2]
      cases (n.hand e.juggler e.hand).velocity <;> simp
    · rfl
  · rw [hkeep fun t ht ↦ hne t (List.mem_reverse.mp ht), hpath,
      if_neg fun ⟨t, ht, htp⟩ ↦ hne t (hsub t ht) htp]
    rfl
  · rw [hpartner fun t ht ↦ hno t (List.mem_reverse.mp ht), hpath]
    split_ifs with hawaits
    · exact hthrown
    · rcases h with h | ⟨hvelocity, hdetermines, hthrow, t, ht, hkind, htp⟩
      · exact h
      · refine absurd ⟨t, ?_, htp⟩ hawaits
        rw [hsoft, if_pos (by simp [hvelocity, hdetermines, hthrow])]
        exact List.mem_filter.mpr ⟨ht, by simpa using hkind⟩

variable [Exact α]

/-- What the transitions of an image after the loop leave needed of a path. -/
theorem recordForward_transitions (resolves : Bool) (hn : n.Sized J N)
    (hts : ∀ t ∈ ts, 1 ≤ t.path ∧ t.path ≤ N) :
    (n.recordForwardTransitions c resolves ts).Sized J N ∧
    (∀ j h, (n.recordForwardTransitions c resolves ts).hand j h = n.hand j h) ∧
    ((∀ t ∈ ts, t.path ≠ p) → (n.recordForwardTransitions c resolves ts).path p = n.path p) ∧
    ((c.path p).caught = true → (∀ t ∈ ts, t.path = p → t.kind.isCatch = false) →
      (n.path p).partner = true →
      ((n.recordForwardTransitions c resolves ts).path p).partner = true) := by
  induction ts generalizing n resolves with
  | nil => exact ⟨hn, fun _ _ ↦ rfl, fun _ ↦ rfl, fun _ _ ↦ id⟩
  | cons t ts ih =>
    obtain ⟨ht, hts⟩ := List.forall_mem_cons.mp hts
    unfold recordForwardTransitions
    simp only
    have hsized := hn.modifyPath t.path fun p ↦ ⟨false, p.partner && !t.kind.isCatch⟩
    have hstep (q : ℕ) := path_modifyPath hn ht (fun p ↦ ⟨false, p.partner && !t.kind.isCatch⟩) q
    split_ifs
    · obtain ⟨h1, h2, h3, h4⟩ := ih false (hsized.modifyPath t.path fun p ↦
        { p with partner := (c.path t.path).caught }) hts
      refine ⟨h1, h2, fun hne ↦ ?_, fun hcaught hno hpartner ↦ ?_⟩
      · obtain ⟨hne, hnes⟩ := List.forall_mem_cons.mp hne
        exact (h3 hnes).trans (by rw [path_modifyPath hsized ht, if_neg hne, hstep, if_neg hne])
      · obtain ⟨hno, hnos⟩ := List.forall_mem_cons.mp hno
        refine h4 hcaught hnos ?_
        rw [path_modifyPath hsized ht, hstep]
        split_ifs with htp
        · rw [htp]
          exact hcaught
        · exact hpartner
    · obtain ⟨h1, h2, h3, h4⟩ := ih resolves hsized hts
      refine ⟨h1, h2, fun hne ↦ ?_, fun hcaught hno hpartner ↦ ?_⟩
      · obtain ⟨hne, hnes⟩ := List.forall_mem_cons.mp hne
        exact (h3 hnes).trans (by rw [hstep, if_neg hne])
      · obtain ⟨hno, hnos⟩ := List.forall_mem_cons.mp hno
        refine h4 hcaught hnos ?_
        rw [hstep]
        split_ifs with htp
        · simp [hpartner, hno htp]
        · exact hpartner

/-- Where an image gives a hand its velocity, its first throw asks for the catch. -/
theorem recordForward_first {before after : List Transition} {t : Transition} (hn : n.Sized J N)
    (hts : ∀ t' ∈ before ++ t :: after, 1 ≤ t'.path ∧ t'.path ≤ N)
    (hbefore : ∀ t' ∈ before, t'.kind ≠ .throwing) (hthrow : t.kind = .throwing)
    (hcaught : (c.path t.path).caught = true)
    (hafter : ∀ t' ∈ after, t'.path = t.path → t'.kind.isCatch = false) :
    ((n.recordForwardTransitions c true (before ++ t :: after)).path t.path).partner = true := by
  -- Transitions before the first throw leave it to be the first.
  induction before generalizing n with
  | nil =>
    obtain ⟨ht, hts⟩ := List.forall_mem_cons.mp hts
    have hsized := hn.modifyPath t.path fun p ↦ ⟨false, p.partner && !t.kind.isCatch⟩
    unfold recordForwardTransitions
    simp only [hthrow, beq_self_eq_true, Bool.and_self, if_true, List.nil_append]
    rw [hthrow] at hsized
    refine (recordForward_transitions (c := c) false (hsized.modifyPath t.path fun p ↦
      { p with partner := (c.path t.path).caught }) hts).2.2.2 hcaught hafter ?_
    rw [path_modifyPath hsized ht, if_pos rfl]
    exact hcaught
  | cons a before ih =>
    obtain ⟨ha, hts⟩ := List.forall_mem_cons.mp hts
    obtain ⟨hne, hbefore⟩ := List.forall_mem_cons.mp hbefore
    rw [List.cons_append]
    unfold recordForwardTransitions
    have hkind : (true && a.kind == .throwing) = false := by simpa using hne
    simp only [hkind, Bool.false_eq_true, if_false]
    exact ih (hn.modifyPath _ _) hts hbefore

/-- What an image after the loop leaves needed. -/
theorem recordForward_spec (u : α) (hn : n.Sized J N) (he : Placed J N e) :
    (n.recordForward c u e).Sized J N ∧
    (∀ j h, (n.recordForward c u e).hand j h = if e.juggler = j ∧ e.hand = h then
      ⟨(n.hand j h).event && !((c.hand j h).determinesVelocity ||
          decide (u - timeTolerance ≤ e.time)),
        (n.hand j h).velocity && !e.determinesVelocity⟩ else n.hand j h) ∧
    ((∀ t ∈ e.transitions, t.path ≠ p) → (n.recordForward c u e).path p = n.path p) ∧
    ((c.path p).caught = true → (∀ t ∈ e.transitions, t.path = p → t.kind.isCatch = false) →
      (n.path p).partner = true → ((n.recordForward c u e).path p).partner = true) := by
  unfold recordForward
  simp only
  obtain ⟨h1, h2, h3, h4⟩ := recordForward_transitions (p := p) (c := c)
    ((n.hand e.juggler e.hand).velocity && e.determinesVelocity)
    (hn.modifyHand e.juggler e.hand fun h ↦
      ⟨h.event && !((c.hand e.juggler e.hand).determinesVelocity ||
          decide (u - timeTolerance ≤ e.time)),
        h.velocity && !((n.hand e.juggler e.hand).velocity && e.determinesVelocity)⟩) he.path
  refine ⟨h1, fun j h ↦ ?_, fun hne ↦ h3 hne, fun hcaught hno hpartner ↦ h4 hcaught hno hpartner⟩
  rw [h2, hand_modifyHand hn he.juggler]
  split_ifs with heq
  · rw [← heq.1, ← heq.2]
    cases (n.hand e.juggler e.hand).velocity <;> simp
  · rfl

end Record

end Needs

namespace Expansion

variable {α : Type} {x : Expansion α} {J N : ℕ}

/-- An expansion of events that exist, with entries for all jugglers and paths. -/
structure Sound (x : Expansion α) (J N : ℕ) : Prop where
  seeds : ∀ e ∈ x.seeds, Placed J N e
  hands : x.coverage.hands.size = J
  paths : x.coverage.paths.size = N

namespace Sound

variable (hx : x.Sound J N)

include hx

theorem sized_ofCoverage : (Needs.ofCoverage x.coverage).Sized J N :=
  ⟨(Numbered.size_map _).trans hx.hands, (Numbered.size_map _).trans hx.paths⟩

theorem hand_ofCoverage {j : ℕ} (hj : 1 ≤ j ∧ j ≤ J) (h : Hand) :
    (Needs.ofCoverage x.coverage).hand j h =
      ⟨true, (x.coverage.hand j h).determinesVelocity⟩ := by
  rw [Needs.hand, Needs.ofCoverage, Coverage.hand,
    Numbered.getD_map (d := ⟨{}, {}⟩) _ (hx.hands.symm ▸ hj)]
  cases h <;> rfl

theorem path_ofCoverage {p : ℕ} (hp : 1 ≤ p ∧ p ≤ N) :
    (Needs.ofCoverage x.coverage).path p = ⟨true, false⟩ := by
  rw [Needs.path, Needs.ofCoverage, Numbered.getD_map (d := {}) _ (hx.paths.symm ▸ hp)]

end Sound

/-- What a run takes note of keeps an entry for everybody. -/
theorem sized_foldl {note : Needs → Event α → Needs} {n : Needs} {gs : List (Generated α)}
    (hnote : ∀ n : Needs, ∀ g ∈ gs, n.Sized J N → (note n g.event).Sized J N) (hn : n.Sized J N) :
    (gs.foldl (fun n g ↦ note n g.event) n).Sized J N :=
  List.foldlRecOn (motive := fun n : Needs ↦ n.Sized J N) gs _ hn fun n h g hg ↦ hnote n g hg h

section After

variable [Scalar α]

theorem size_lastOnPaths (made : List (Generated α)) : (lastOnPaths N made).size = N := by
  unfold lastOnPaths
  refine List.foldlRecOn (motive := fun v : Numbered (Option (α × TransitionKind)) ↦ v.size = N)
    _ _ (Numbered.size_replicate _ _) ?_
  intro v hv g _
  refine List.foldlRecOn (motive := fun v : Numbered (Option (α × TransitionKind)) ↦ v.size = N)
    _ _ hv ?_
  intro v hv t _
  rw [Numbered.size_modify, hv]

namespace Sound

variable (hx : x.Sound J N)

include hx

/-- Props in the air at the end of the loop only add catches to what is needed. -/
theorem needsAfter (made : List (Generated α)) : (x.needsAfter N made).Sized J N ∧
    (∀ j h, (x.needsAfter N made).hand j h = (Needs.ofCoverage x.coverage).hand j h) ∧
    ∀ p, 1 ≤ p ∧ p ≤ N → ((x.needsAfter N made).path p).touch = true := by
  unfold Expansion.needsAfter
  simp only
  refine List.foldlRecOn (motive := fun n : Needs ↦ n.Sized J N ∧
    (∀ j h, n.hand j h = (Needs.ofCoverage x.coverage).hand j h) ∧
    ∀ p, 1 ≤ p ∧ p ≤ N → (n.path p).touch = true) _ _
    ⟨hx.sized_ofCoverage, fun _ _ ↦ rfl, fun p hp ↦ by rw [hx.path_ofCoverage hp]⟩ ?_
  rintro n ⟨hsized, hhand, htouch⟩ q hq
  split
  · have hq' : 1 ≤ q ∧ q ≤ N := by
      rwa [Numbered.mem_numbers, size_lastOnPaths] at hq
    refine ⟨hsized.modifyPath _ _, hhand, fun p hp ↦ ?_⟩
    rw [Needs.awaitPartner, Needs.path_modifyPath hsized hq']
    split_ifs <;> exact htouch p hp
  · exact ⟨hsized, hhand, htouch⟩

/-- After the loop a path waits for a catch only if it is ever caught. -/
theorem partner_needsAfter (made : List (Generated α)) {p : ℕ} (hp : 1 ≤ p ∧ p ≤ N)
    (hneed : ((x.needsAfter N made).path p).partner = true) :
    (x.coverage.path p).caught = true := by
  revert hneed
  unfold Expansion.needsAfter
  simp only
  refine (List.foldlRecOn (motive := fun n : Needs ↦ n.Sized J N ∧
    ((n.path p).partner = true → (x.coverage.path p).caught = true)) _ _
    ⟨hx.sized_ofCoverage, fun h ↦ ?_⟩ ?_).2
  · rw [hx.path_ofCoverage hp] at h
    cases h
  · rintro n ⟨hsized, hpartner⟩ q hq
    split
    · have hq' : 1 ≤ q ∧ q ≤ N := by
        rwa [Numbered.mem_numbers, size_lastOnPaths] at hq
      refine ⟨hsized.modifyPath _ _, fun h ↦ ?_⟩
      rw [Needs.awaitPartner, Needs.path_modifyPath hsized hq'] at h
      split_ifs at h with heq
      · exact heq ▸ h
      · exact hpartner h
    · exact ⟨hsized, hpartner⟩

end Sound

end After

variable [Exact α]

theorem freeUntil_eq : x.freeUntil = 2 * x.loop.high - x.loop.low := by
  rw [freeUntil, Scalar.ofNat_eq]
  push_cast
  ring

theorem noteBackward_eq (n : Needs) (e : Event α) : x.noteBackward n e = n ∨
    e.time ≤ x.loop.low + timeTolerance ∧ x.noteBackward n e = n.recordBackward x.coverage e := by
  unfold noteBackward
  split_ifs with h
  · exact .inr ⟨h, rfl⟩
  · exact .inl rfl

namespace Made

variable {symmetries : List (Symmetry α)} {made : List (Generated α)} (m : x.Made N made)
  (hg : x.group.IsGroupOf symmetries J N) (hx : x.Sound J N)

include m hg hx

theorem placed {g : Generated α} (hmem : g ∈ made) : Placed J N g.event := by
  obtain ⟨e, he, heq⟩ := m.generated hmem
  rw [show g.event = (x.group.image g.image).apply e from congrArg Generated.event heq]
  exact hg.placed_image (hx.seeds e (List.mem_of_getElem? he)) g.image

theorem placed_back {g : Generated α} (hmem : g ∈ m.back) : Placed J N g.event :=
  m.placed hg hx (m.mem_made.mpr (.inl hmem))

theorem placed_forth {g : Generated α} (hmem : g ∈ m.forth) : Placed J N g.event :=
  m.placed hg hx (m.mem_made.mpr (.inr hmem))

theorem sized_back {pre post : List (Generated α)} (hsplit : m.back = pre ++ post) :
    (pre.foldl (fun n g ↦ x.noteBackward n g.event) (.ofCoverage x.coverage)).Sized J N := by
  refine sized_foldl (fun n g hmem hn ↦ ?_) hx.sized_ofCoverage
  have hplaced := m.placed_back hg hx (hsplit ▸ List.mem_append_left _ hmem)
  rcases x.noteBackward_eq n g.event with h | ⟨-, h⟩ <;> rw [h]
  · exact hn
  · exact (Needs.recordBackward_spec (p := 0) hn hplaced).1

/-- Every path is touched when the loop starts. -/
theorem exists_touch_back {p : ℕ} (hp : 1 ≤ p ∧ p ≤ N) : ∃ g ∈ m.back,
    g.event.time ≤ x.loop.low + timeTolerance ∧ ∃ t ∈ g.event.transitions, t.path = p := by
  obtain ⟨pre, g, post, hsplit, htouch, hclear⟩ := exists_turn
    (fun n (g : Generated α) ↦ x.noteBackward n g.event) (fun n ↦ (n.path p).touch) m.back _
    (by rw [hx.path_ofCoverage hp])
    (by rw [← m.runBack.needs_eq, Needs.path_of_not_pending m.settled.1])
  have hmem : g ∈ m.back := hsplit ▸ List.mem_append_right _ List.mem_cons_self
  refine ⟨g, hmem, ?_⟩
  have hsized := m.sized_back hg hx hsplit
  rcases x.noteBackward_eq (pre.foldl _ _) g.event with h | ⟨htime, h⟩ <;> rw [h] at hclear
  · exact absurd (htouch.symm.trans hclear) (by decide)
  · refine ⟨htime, ?_⟩
    by_contra hno
    push Not at hno
    rw [(Needs.recordBackward_spec hsized (m.placed_back hg hx hmem)).2.2.1 hno] at hclear
    exact absurd (htouch.symm.trans hclear) (by decide)

/-- A throw that a path waits for comes when the loop starts or before. -/
theorem exists_throw_back {pre post : List (Generated α)} {p : ℕ}
    (hsplit : m.back = pre ++ post) (hthrown : (x.coverage.path p).thrown = true)
    (hawait : ((pre.foldl (fun n g ↦ x.noteBackward n g.event)
      (.ofCoverage x.coverage)).path p).partner = true) :
    ∃ g ∈ post, ∃ t ∈ g.event.transitions, t.kind = .throwing ∧ t.path = p := by
  obtain ⟨mid, g, rest, rfl, hpartner, hclear⟩ := exists_turn
    (fun n (g : Generated α) ↦ x.noteBackward n g.event) (fun n ↦ (n.path p).partner) post _ hawait
    (by rw [← List.foldl_append, ← hsplit, ← m.runBack.needs_eq,
      Needs.path_of_not_pending m.settled.1])
  refine ⟨g, List.mem_append_right _ List.mem_cons_self, ?_⟩
  rw [← List.foldl_append] at hpartner hclear
  have hsized := m.sized_back hg hx (hsplit.trans (List.append_assoc pre mid _).symm)
  have hmem : g ∈ m.back := by
    rw [hsplit]
    exact List.mem_append_right _ (List.mem_append_right _ List.mem_cons_self)
  rcases x.noteBackward_eq ((pre ++ mid).foldl _ _) g.event with h | ⟨-, h⟩ <;> rw [h] at hclear
  · exact absurd (hpartner.symm.trans hclear) (by decide)
  · by_contra hno
    push Not at hno
    have := (Needs.recordBackward_spec hsized (m.placed_back hg hx hmem)).2.2.2 hthrown
      (fun t ht htp hthrow ↦ hno t ht hthrow htp) (.inl hpartner)
    exact absurd (this.symm.trans hclear) (by decide)

/-- A hand that waits for a velocity was not given one. -/
theorem not_determines_back {j : ℕ} {hand : Hand} {pre post : List (Generated α)}
    (hsplit : m.back = pre ++ post)
    (hneed : ((pre.foldl (fun n g ↦ x.noteBackward n g.event)
      (.ofCoverage x.coverage)).hand j hand).velocity = true) :
    ∀ g ∈ pre, g.event.juggler = j → g.event.hand = hand →
      g.event.time ≤ x.loop.low + timeTolerance → g.event.determinesVelocity = false := by
  induction pre using List.reverseRecOn generalizing post with
  | nil => simp
  | append_singleton pre g ih =>
    rw [List.append_assoc, List.singleton_append] at hsplit
    have hplaced := m.placed_back hg hx (hsplit ▸ List.mem_append_right _ List.mem_cons_self)
    have hspec := (Needs.recordBackward_spec (c := x.coverage) (p := 0)
      (m.sized_back hg hx hsplit) hplaced).2.1 j hand
    rw [List.foldl_append, List.foldl_cons, List.foldl_nil] at hneed
    -- What is still needed after an image was needed before it, and was not met by it.
    have key : ((pre.foldl (fun n g ↦ x.noteBackward n g.event)
        (.ofCoverage x.coverage)).hand j hand).velocity = true ∧
        (g.event.juggler = j → g.event.hand = hand →
          g.event.time ≤ x.loop.low + timeTolerance → g.event.determinesVelocity = false) := by
      generalize pre.foldl (fun n g ↦ x.noteBackward n g.event) (.ofCoverage x.coverage) = n
        at hneed hspec ⊢
      unfold noteBackward at hneed
      split_ifs at hneed with htime
      · rw [hspec] at hneed
        split_ifs at hneed with hhand
        · simp only [Bool.and_eq_true, Bool.not_eq_true'] at hneed
          exact ⟨hneed.1, fun _ _ _ ↦ hneed.2⟩
        · exact ⟨hneed, fun hj hh _ ↦ absurd ⟨hj, hh⟩ hhand⟩
      · exact ⟨hneed, fun _ _ hle ↦ absurd hle htime⟩
    intro g' hg'
    rcases List.mem_append.mp hg' with hg' | hg'
    · exact ih hsplit key.1 g' hg'
    · rw [List.mem_singleton.mp hg']
      exact key.2

/-- A hand that some image gives a velocity has one when the loop starts: that of its last image
until then. Where it is that of a soft catch, the throw is there as well. -/
theorem exists_velocity_back {j : ℕ} (hj : 1 ≤ j ∧ j ≤ J) {hand : Hand}
    (hdetermines : (x.coverage.hand j hand).determinesVelocity = true) :
    ∃ pre g post, m.back = pre ++ g :: post ∧ g.event.time ≤ x.loop.low + timeTolerance ∧
      g.event.juggler = j ∧ g.event.hand = hand ∧ g.event.determinesVelocity = true ∧
      (∀ g' ∈ pre, g'.event.juggler = j → g'.event.hand = hand →
        g'.event.time ≤ x.loop.low + timeTolerance → g'.event.determinesVelocity = false) ∧
      (g.event.has .throwing = false → ∀ t ∈ g.event.transitions, t.kind = .softCatching →
        (x.coverage.path t.path).thrown = true →
        ∃ g' ∈ post, ∃ t' ∈ g'.event.transitions, t'.kind = .throwing ∧ t'.path = t.path) := by
  obtain ⟨pre, g, post, hsplit, hneed, hclear⟩ := exists_turn
    (fun n (g : Generated α) ↦ x.noteBackward n g.event) (fun n ↦ (n.hand j hand).velocity) m.back
    _ (by rw [hx.hand_ofCoverage hj]; exact hdetermines)
    (by rw [← m.runBack.needs_eq, Needs.hand_of_not_pending m.settled.1])
  have hmem : g ∈ m.back := hsplit ▸ List.mem_append_right _ List.mem_cons_self
  have hsized := m.sized_back hg hx hsplit
  have hplaced := m.placed_back hg hx hmem
  rcases x.noteBackward_eq (pre.foldl _ _) g.event with h | ⟨htime, h⟩
  · rw [h] at hclear
    exact absurd (hneed.symm.trans hclear) (by decide)
  · rw [h, (Needs.recordBackward_spec (p := 0) hsized hplaced).2.1] at hclear
    split_ifs at hclear with hhand
    · simp only [hneed, Bool.true_and, Bool.not_eq_false'] at hclear
      refine ⟨pre, g, post, hsplit, htime, hhand.1, hhand.2, hclear,
        m.not_determines_back hg hx hsplit hneed, fun hthrow t ht hsoft ht' ↦ ?_⟩
      rw [← List.singleton_append, ← List.append_assoc] at hsplit
      refine m.exists_throw_back hg hx hsplit ht' ?_
      rw [List.foldl_append, List.foldl_cons, List.foldl_nil, h]
      have hnone : ∀ t ∈ g.event.transitions, t.kind ≠ .throwing := by
        simpa [Event.has] using hthrow
      refine (Needs.recordBackward_spec hsized hplaced).2.2.2 ht' (fun t ht _ ↦ hnone t ht)
        (.inr ⟨?_, hclear, hthrow, t, ht, hsoft, rfl⟩)
      rw [hhand.1, hhand.2]
      exact hneed
    · exact absurd (hneed.symm.trans hclear) (by decide)

/-- Every hand has an event when the loop starts. -/
theorem exists_event_back {j : ℕ} (hj : 1 ≤ j ∧ j ≤ J) (hand : Hand) : ∃ g ∈ m.back,
    g.event.time ≤ x.loop.low + timeTolerance ∧ g.event.juggler = j ∧ g.event.hand = hand := by
  obtain ⟨pre, g, post, hsplit, hneed, hclear⟩ := exists_turn
    (fun n (g : Generated α) ↦ x.noteBackward n g.event) (fun n ↦ (n.hand j hand).event) m.back _
    (by rw [hx.hand_ofCoverage hj])
    (by rw [← m.runBack.needs_eq, Needs.hand_of_not_pending m.settled.1])
  have hmem : g ∈ m.back := hsplit ▸ List.mem_append_right _ List.mem_cons_self
  rcases x.noteBackward_eq (pre.foldl _ _) g.event with h | ⟨htime, h⟩ <;> rw [h] at hclear
  · exact absurd (hneed.symm.trans hclear) (by decide)
  · rw [(Needs.recordBackward_spec (p := 0) (m.sized_back hg hx hsplit)
      (m.placed_back hg hx hmem)).2.1] at hclear
    split_ifs at hclear with hhand
    · exact ⟨g, hmem, htime, hhand⟩
    · exact absurd (hneed.symm.trans hclear) (by decide)

theorem sized_forth {pre post : List (Generated α)} (hsplit : m.forth = pre ++ post) :
    (pre.foldl (fun n g ↦ x.noteForward n g.event) (x.needsAfter N m.back)).Sized J N := by
  refine sized_foldl (fun n g hmem hn ↦ ?_) (hx.needsAfter m.back).1
  exact (Needs.recordForward_spec (p := 0) _ hn
    (m.placed_forth hg hx (hsplit ▸ List.mem_append_left _ hmem))).1

theorem exists_touch_forth {p : ℕ} (hp : 1 ≤ p ∧ p ≤ N) :
    ∃ g ∈ m.forth, ∃ t ∈ g.event.transitions, t.path = p := by
  obtain ⟨pre, g, post, hsplit, htouch, hclear⟩ := exists_turn
    (fun n (g : Generated α) ↦ x.noteForward n g.event) (fun n ↦ (n.path p).touch) m.forth _
    ((hx.needsAfter m.back).2.2 p hp)
    (by rw [← m.runForth.needs_eq, Needs.path_of_not_pending m.settled.2])
  have hmem : g ∈ m.forth := hsplit ▸ List.mem_append_right _ List.mem_cons_self
  refine ⟨g, hmem, ?_⟩
  by_contra hno
  push Not at hno
  rw [noteForward, (Needs.recordForward_spec _ (m.sized_forth hg hx hsplit)
    (m.placed_forth hg hx hmem)).2.2.1 hno] at hclear
  exact absurd (htouch.symm.trans hclear) (by decide)

/-- A hand that no image gives a velocity has an event one loop after the loop. -/
theorem exists_event_forth {j : ℕ} (hj : 1 ≤ j ∧ j ≤ J) {hand : Hand}
    (hfree : (x.coverage.hand j hand).determinesVelocity = false) : ∃ g ∈ m.forth,
    x.freeUntil - timeTolerance ≤ g.event.time ∧ g.event.juggler = j ∧ g.event.hand = hand := by
  obtain ⟨pre, g, post, hsplit, hneed, hclear⟩ := exists_turn
    (fun n (g : Generated α) ↦ x.noteForward n g.event) (fun n ↦ (n.hand j hand).event) m.forth _
    (by rw [(hx.needsAfter m.back).2.1, hx.hand_ofCoverage hj])
    (by rw [← m.runForth.needs_eq, Needs.hand_of_not_pending m.settled.2])
  have hmem : g ∈ m.forth := hsplit ▸ List.mem_append_right _ List.mem_cons_self
  rw [noteForward, (Needs.recordForward_spec (p := 0) _ (m.sized_forth hg hx hsplit)
    (m.placed_forth hg hx hmem)).2.1] at hclear
  split_ifs at hclear with hhand
  · rw [hfree, hneed, Bool.false_or, Bool.true_and, Bool.not_eq_false', decide_eq_true_eq] at hclear
    exact ⟨g, hmem, hclear, hhand⟩
  · exact absurd (hneed.symm.trans hclear) (by decide)

/-- A catch that a path waits for comes after the loop. -/
theorem exists_catch_forth {pre post : List (Generated α)} {p : ℕ}
    (hsplit : m.forth = pre ++ post) (hcaught : (x.coverage.path p).caught = true)
    (hawait : ((pre.foldl (fun n g ↦ x.noteForward n g.event)
      (x.needsAfter N m.back)).path p).partner = true) :
    ∃ g ∈ post, ∃ t ∈ g.event.transitions, t.kind.isCatch = true ∧ t.path = p := by
  obtain ⟨mid, g, rest, rfl, hpartner, hclear⟩ := exists_turn
    (fun n (g : Generated α) ↦ x.noteForward n g.event) (fun n ↦ (n.path p).partner) post _ hawait
    (by rw [← List.foldl_append, ← hsplit, ← m.runForth.needs_eq,
      Needs.path_of_not_pending m.settled.2])
  refine ⟨g, List.mem_append_right _ List.mem_cons_self, ?_⟩
  rw [← List.foldl_append] at hpartner hclear
  have hsized := m.sized_forth hg hx (hsplit.trans (List.append_assoc pre mid _).symm)
  have hmem : g ∈ m.forth := by
    rw [hsplit]
    exact List.mem_append_right _ (List.mem_append_right _ List.mem_cons_self)
  by_contra hno
  push Not at hno
  have := (Needs.recordForward_spec x.freeUntil hsized
    (m.placed_forth hg hx hmem)).2.2.2 hcaught
    (fun t ht htp ↦ Bool.not_eq_true _ ▸ fun hcatch ↦ hno t ht hcatch htp) hpartner
  exact absurd (this.symm.trans hclear) (by decide)

theorem not_determines_forth {j : ℕ} {hand : Hand} {pre post : List (Generated α)}
    (hsplit : m.forth = pre ++ post)
    (hneed : ((pre.foldl (fun n g ↦ x.noteForward n g.event)
      (x.needsAfter N m.back)).hand j hand).velocity = true) :
    ∀ g ∈ pre, g.event.juggler = j → g.event.hand = hand →
      g.event.determinesVelocity = false := by
  induction pre using List.reverseRecOn generalizing post with
  | nil => simp
  | append_singleton pre g ih =>
    rw [List.append_assoc, List.singleton_append] at hsplit
    have hplaced := m.placed_forth hg hx (hsplit ▸ List.mem_append_right _ List.mem_cons_self)
    have hspec := (Needs.recordForward_spec (c := x.coverage) (p := 0) x.freeUntil
      (m.sized_forth hg hx hsplit) hplaced).2.1 j hand
    rw [List.foldl_append, List.foldl_cons, List.foldl_nil, noteForward, hspec] at hneed
    have key : ((pre.foldl (fun n g ↦ x.noteForward n g.event)
        (x.needsAfter N m.back)).hand j hand).velocity = true ∧
        (g.event.juggler = j → g.event.hand = hand → g.event.determinesVelocity = false) := by
      split_ifs at hneed with hhand
      · simp only [Bool.and_eq_true, Bool.not_eq_true'] at hneed
        exact ⟨hneed.1, fun _ _ ↦ hneed.2⟩
      · exact ⟨hneed, fun hj hh ↦ absurd ⟨hj, hh⟩ hhand⟩
    intro g' hg'
    rcases List.mem_append.mp hg' with hg' | hg'
    · exact ih hsplit key.1 g' hg'
    · rw [List.mem_singleton.mp hg']
      exact key.2

/-- A hand that some image gives a velocity has one after the loop: that of its first image there.
Where it is that of a throw, the catch is there as well. -/
theorem exists_velocity_forth {j : ℕ} (hj : 1 ≤ j ∧ j ≤ J) {hand : Hand}
    (hdetermines : (x.coverage.hand j hand).determinesVelocity = true) :
    ∃ pre g post, m.forth = pre ++ g :: post ∧ g.event.juggler = j ∧ g.event.hand = hand ∧
      g.event.determinesVelocity = true ∧
      (∀ g' ∈ pre, g'.event.juggler = j → g'.event.hand = hand →
        g'.event.determinesVelocity = false) ∧
      ∀ before t after, g.event.transitions = before ++ t :: after →
        (∀ t' ∈ before, t'.kind ≠ .throwing) → t.kind = .throwing →
        (x.coverage.path t.path).caught = true →
        (∃ t' ∈ after, t'.path = t.path ∧ t'.kind.isCatch = true) ∨
        ∃ g' ∈ post, ∃ t' ∈ g'.event.transitions, t'.kind.isCatch = true ∧ t'.path = t.path := by
  obtain ⟨pre, g, post, hsplit, hneed, hclear⟩ := exists_turn
    (fun n (g : Generated α) ↦ x.noteForward n g.event) (fun n ↦ (n.hand j hand).velocity) m.forth
    _ (by
      rw [(hx.needsAfter m.back).2.1, hx.hand_ofCoverage hj]
      exact hdetermines)
    (by rw [← m.runForth.needs_eq, Needs.hand_of_not_pending m.settled.2])
  have hmem : g ∈ m.forth := hsplit ▸ List.mem_append_right _ List.mem_cons_self
  have hsized := m.sized_forth hg hx hsplit
  have hplaced := m.placed_forth hg hx hmem
  rw [noteForward, (Needs.recordForward_spec (p := 0) _ hsized hplaced).2.1] at hclear
  split_ifs at hclear with hhand
  · simp only [hneed, Bool.true_and, Bool.not_eq_false'] at hclear
    refine ⟨pre, g, post, hsplit, hhand.1, hhand.2, hclear,
      m.not_determines_forth hg hx hsplit hneed,
      fun before t after htrans hbefore hthrow hcaught ↦ ?_⟩
    -- The catch may be made at the same moment.
    by_cases hin : ∃ t' ∈ after, t'.path = t.path ∧ t'.kind.isCatch = true
    · exact .inl hin
    push Not at hin
    rw [← List.singleton_append, ← List.append_assoc] at hsplit
    refine .inr (m.exists_catch_forth hg hx hsplit hcaught ?_)
    rw [List.foldl_append, List.foldl_cons, List.foldl_nil, noteForward]
    unfold Needs.recordForward
    have hresolves : ((pre.foldl (fun n g ↦ x.noteForward n g.event)
        (x.needsAfter N m.back)).hand g.event.juggler g.event.hand).velocity = true := by
      rw [hhand.1, hhand.2]
      exact hneed
    simp only [hresolves, hclear, Bool.and_self, htrans]
    refine Needs.recordForward_first (hsized.modifyHand _ _ _) (htrans ▸ hplaced.path) hbefore
      hthrow hcaught fun t' ht' htp ↦ ?_
    exact Bool.not_eq_true _ ▸ hin t' ht' htp
  · exact absurd (hneed.symm.trans hclear) (by decide)

end Made

end Expansion

end Juggling
