import Juggling.Proofs.Supply

namespace Juggling

section Raise

variable {σ β : Type} {f : σ → β → σ} {I φ : σ → Prop} {Q : β → Prop} {R : σ → β → Prop}
  {xs : List β} {s : σ}

/-- What holds after a walk through a list has held all the way, or was brought about by a step
after which nothing ended it. -/
theorem exists_last_raise (hI : ∀ s, ∀ x ∈ xs, I s → I (f s x))
    (hstep : ∀ s, ∀ x ∈ xs, I s → φ (f s x) → φ s ∧ Q x ∨ R s x) (hs : I s)
    (hend : φ (xs.foldl f s)) : (φ s ∧ ∀ x ∈ xs, Q x) ∨
      ∃ pre x post, xs = pre ++ x :: post ∧ I (pre.foldl f s) ∧ R (pre.foldl f s) x ∧
        ∀ y ∈ post, Q y := by
  induction xs using List.reverseRecOn with
  | nil => exact .inl ⟨hend, by simp⟩
  | append_singleton xs x ih =>
    have hmem {y : β} (hy : y ∈ xs) : y ∈ xs ++ [x] := List.mem_append_left _ hy
    have hlast : x ∈ xs ++ [x] := List.mem_append_right _ (List.mem_singleton_self x)
    have hmid : I (xs.foldl f s) := List.foldlRecOn (motive := I) xs f hs fun s hs y hy ↦
      hI s y (hmem hy) hs
    rw [List.foldl_append, List.foldl_cons, List.foldl_nil] at hend
    rcases hstep _ x hlast hmid hend with ⟨hφ, hQ⟩ | hR
    · rcases ih (fun s y hy ↦ hI s y (hmem hy)) (fun s y hy ↦ hstep s y (hmem hy)) hφ with
        ⟨hφ, hQs⟩ | ⟨pre, y, post, rfl, hpre, hR, hQs⟩
      · exact .inl ⟨hφ, List.forall_mem_append.mpr ⟨hQs, by simpa using hQ⟩⟩
      · exact .inr ⟨pre, y, post ++ [x], by simp, hpre, hR,
          List.forall_mem_append.mpr ⟨hQs, by simpa using hQ⟩⟩
    · exact .inr ⟨xs, x, [], rfl, hmid, hR, by simp⟩

/-- What no step brings about and holds after a walk has held all the way. -/
theorem held_throughout (hI : ∀ s, ∀ x ∈ xs, I s → I (f s x))
    (hstep : ∀ s, ∀ x ∈ xs, I s → φ (f s x) → φ s ∧ Q x) (hs : I s) (hend : φ (xs.foldl f s)) :
    φ s ∧ ∀ x ∈ xs, Q x := by
  rcases exists_last_raise (R := fun _ _ ↦ False) hI
    (fun s x hx hs h ↦ .inl (hstep s x hx hs h)) hs hend with h | ⟨-, -, -, -, -, h, -⟩
  · exact h
  · exact h.elim

end Raise

variable {α : Type}

namespace Needs

variable {J N : ℕ} {n : Needs}

theorem exists_of_pending (hn : n.Sized J N) (h : n.pending = true) :
    (∃ j, (1 ≤ j ∧ j ≤ J) ∧ ∃ k, (n.hand j k).event = true ∨ (n.hand j k).velocity = true) ∨
      ∃ p, (1 ≤ p ∧ p ≤ N) ∧ ((n.path p).touch = true ∨ (n.path p).partner = true) := by
  have hentry {β : Type} {v : Numbered β} {M : ℕ} (hv : v.size = M) {x : β} (hx : x ∈ v.toList) :
      ∃ i, (1 ≤ i ∧ i ≤ M) ∧ ∀ d, v.getD i d = x := by
    obtain ⟨i, hi, rfl⟩ := List.getElem_of_mem hx
    have hi' : i < v.entries.size := by simpa [Numbered.toList] using hi
    refine ⟨i + 1, ⟨by omega, hv ▸ hi'⟩, fun d ↦ ?_⟩
    rw [Numbered.getD, Numbered.get?, Array.getElem?_eq_getElem hi']
    rfl
  simp only [pending, Bool.or_eq_true, List.any_eq_true] at h
  rcases h with ⟨hs, hmem, need, hneed, h⟩ | ⟨need, hmem, h⟩
  · obtain ⟨j, hj, hget⟩ := hentry hn.hands hmem
    obtain ⟨k, rfl⟩ : ∃ k, need = hs.get k := by
      rcases List.mem_pair.mp hneed with rfl | rfl
      · exact ⟨.left, rfl⟩
      · exact ⟨.right, rfl⟩
    exact .inl ⟨j, hj, k, by rwa [hand, hget]⟩
  · obtain ⟨p, hp, hget⟩ := hentry hn.paths hmem
    exact .inr ⟨p, hp, by rwa [path, hget]⟩

/-- What events have to be for one that is taken note of to end what its hand and its paths wait
for. -/
structure Uses (α : Type) where
  event : Event α → Prop
  velocity : Event α → Prop
  touch : ℕ → Event α → Prop
  partner : ℕ → Event α → Prop

/-- Events are taken note of so that those of use end what is waited for. Only an event on a hand
that waits for a velocity may let a path wait again, and only for a partner that it ever has. -/
structure Lowers (J N : ℕ) (note : Needs → Event α → Needs) (u : Uses α) (ever : ℕ → Bool) :
    Prop where
  sized : ∀ n e, Sized J N n → Placed J N e → (note n e).Sized J N
  event : ∀ n e, Sized J N n → Placed J N e → ∀ j h, ((note n e).hand j h).event = true →
    (n.hand j h).event = true ∧ ¬(e.juggler = j ∧ e.hand = h ∧ u.event e)
  velocity : ∀ n e, Sized J N n → Placed J N e → ∀ j h, ((note n e).hand j h).velocity = true →
    (n.hand j h).velocity = true ∧ ¬(e.juggler = j ∧ e.hand = h ∧ u.velocity e)
  touch : ∀ n e, Sized J N n → Placed J N e → ∀ p, ((note n e).path p).touch = true →
    (n.path p).touch = true ∧ ¬u.touch p e
  partner : ∀ n e, Sized J N n → Placed J N e → ∀ p, ((note n e).path p).partner = true →
    (n.path p).partner = true ∧ ¬u.partner p e ∨
      (n.hand e.juggler e.hand).velocity = true ∧ ever p = true

namespace Lowers

variable {note : Needs → Event α → Needs} {u : Uses α} {ever : ℕ → Bool}
  {gs : List (Generated α)} (hnote : Lowers J N note u ever) (hn : n.Sized J N)
  (hgs : ∀ g ∈ gs, Placed J N g.event)

include hnote hn hgs

theorem sized_foldl : (gs.foldl (fun n g ↦ note n g.event) n).Sized J N :=
  List.foldlRecOn (motive := fun n : Needs ↦ n.Sized J N) gs _ hn fun n hn g hg ↦
    hnote.sized n g.event hn (hgs g hg)

theorem event_foldl {j : ℕ} {h : Hand}
    (hend : ((gs.foldl (fun n g ↦ note n g.event) n).hand j h).event = true) :
    ∀ g ∈ gs, ¬(g.event.juggler = j ∧ g.event.hand = h ∧ u.event g.event) :=
  (held_throughout (I := Sized J N) (φ := fun n ↦ (n.hand j h).event = true)
    (fun n g hg hn ↦ hnote.sized n g.event hn (hgs g hg))
    (fun n g hg hn ↦ hnote.event n g.event hn (hgs g hg) j h) hn hend).2

theorem velocity_foldl {j : ℕ} {h : Hand}
    (hend : ((gs.foldl (fun n g ↦ note n g.event) n).hand j h).velocity = true) :
    (n.hand j h).velocity = true ∧
      ∀ g ∈ gs, ¬(g.event.juggler = j ∧ g.event.hand = h ∧ u.velocity g.event) :=
  held_throughout (I := Sized J N) (φ := fun n ↦ (n.hand j h).velocity = true)
    (fun n g hg hn ↦ hnote.sized n g.event hn (hgs g hg))
    (fun n g hg hn ↦ hnote.velocity n g.event hn (hgs g hg) j h) hn hend

theorem touch_foldl {p : ℕ}
    (hend : ((gs.foldl (fun n g ↦ note n g.event) n).path p).touch = true) :
    ∀ g ∈ gs, ¬u.touch p g.event :=
  (held_throughout (I := Sized J N) (φ := fun n ↦ (n.path p).touch = true)
    (fun n g hg hn ↦ hnote.sized n g.event hn (hgs g hg))
    (fun n g hg hn ↦ hnote.touch n g.event hn (hgs g hg) p) hn hend).2

theorem partner_foldl {p : ℕ}
    (hend : ((gs.foldl (fun n g ↦ note n g.event) n).path p).partner = true) :
    ((n.path p).partner = true ∧ ∀ g ∈ gs, ¬u.partner p g.event) ∨
      ∃ pre g post, gs = pre ++ g :: post ∧
        (((pre.foldl (fun n g ↦ note n g.event) n).hand g.event.juggler g.event.hand).velocity =
          true ∧ ever p = true) ∧ ∀ g' ∈ post, ¬u.partner p g'.event := by
  rcases exists_last_raise (I := Sized J N) (φ := fun n ↦ (n.path p).partner = true)
    (fun n g hg hn ↦ hnote.sized n g.event hn (hgs g hg))
    (fun n g hg hn ↦ hnote.partner n g.event hn (hgs g hg) p) hn hend with
    hheld | ⟨pre, g, post, hsplit, -, hraise⟩
  · exact .inl hheld
  · exact .inr ⟨pre, g, post, hsplit, hraise⟩

/-- Nothing is needed any more when every hand got what it waits for within some time, and every
path got its touch, and its partner after that time. -/
theorem not_pending {τ : Event α → α} [LinearOrder α] {T : α}
    (hτ : gs.Pairwise fun a b ↦ τ a.event ≤ τ b.event)
    (hstart : ∀ p, 1 ≤ p ∧ p ≤ N → (n.path p).partner = true → ever p = true)
    (hevent : ∀ j, 1 ≤ j ∧ j ≤ J → ∀ h, ∃ g ∈ gs,
      g.event.juggler = j ∧ g.event.hand = h ∧ u.event g.event)
    (hvelocity : ∀ j, 1 ≤ j ∧ j ≤ J → ∀ h, (n.hand j h).velocity = true →
      ∃ g ∈ gs, τ g.event < T ∧ g.event.juggler = j ∧ g.event.hand = h ∧ u.velocity g.event)
    (htouch : ∀ p, 1 ≤ p ∧ p ≤ N → ∃ g ∈ gs, u.touch p g.event)
    (hpartner : ∀ p, 1 ≤ p ∧ p ≤ N → ever p = true →
      ∃ g ∈ gs, T ≤ τ g.event ∧ u.partner p g.event) :
    (gs.foldl (fun n g ↦ note n g.event) n).pending = false := by
  by_contra hpending
  rw [Bool.not_eq_false] at hpending
  rcases exists_of_pending (hnote.sized_foldl hn hgs) hpending with
    ⟨j, hj, h, hneed | hneed⟩ | ⟨p, hp, hneed | hneed⟩
  · obtain ⟨g, hg, huse⟩ := hevent j hj h
    exact hnote.event_foldl hn hgs hneed g hg huse
  · obtain ⟨hneed, hno⟩ := hnote.velocity_foldl hn hgs hneed
    obtain ⟨g, hg, -, huse⟩ := hvelocity j hj h hneed
    exact hno g hg huse
  · obtain ⟨g, hg, huse⟩ := htouch p hp
    exact hnote.touch_foldl hn hgs hneed g hg huse
  · rcases hnote.partner_foldl hn hgs hneed with
      ⟨hneed, hno⟩ | ⟨pre, g, post, rfl, ⟨hwait, hever⟩, hno⟩
    · obtain ⟨g, hg, -, huse⟩ := hpartner p hp (hstart p hp hneed)
      exact hno g hg huse
    · -- The path was last asked to wait before the hand had its velocity, the partner comes later.
      obtain ⟨hwait, hnone⟩ :=
        hnote.velocity_foldl hn (fun g' hg' ↦ hgs g' (List.mem_append_left _ hg')) hwait
      have hplaced := hgs g (List.mem_append_right _ List.mem_cons_self)
      obtain ⟨w, hw, hwT, huse⟩ := hvelocity _ hplaced.juggler _ hwait
      obtain ⟨v, hv, hvT, hpartner⟩ := hpartner p hp hever
      obtain ⟨-, htail, hpre⟩ := List.pairwise_append.mp hτ
      have hle : τ g.event ≤ τ w.event := by
        rcases List.mem_append.mp hw with hw | hw
        · exact absurd huse (hnone w hw)
        · rcases List.mem_cons.mp hw with rfl | hw
          · exact le_rfl
          · exact (List.pairwise_cons.mp htail).1 w hw
      have hlt : τ g.event < τ v.event := (hle.trans_lt hwT).trans_le hvT
      rcases List.mem_append.mp hv with hv | hv
      · exact absurd (hpre v hv g List.mem_cons_self) (not_le.mpr hlt)
      · rcases List.mem_cons.mp hv with rfl | hv
        · exact absurd hlt (lt_irrefl _)
        · exact hno v hv hpartner

end Lowers

section Record

variable {c : Coverage} {e : Event α} {p : ℕ}

theorem path_recordBackwardTransition {t : Transition} (hn : n.Sized J N)
    (ht : 1 ≤ t.path ∧ t.path ≤ N) : (recordBackwardTransition c n t).path p =
      if t.path = p then
        if t.kind = .throwing then ⟨false, false⟩
        else ⟨(n.path p).touch && (c.path p).thrown, (n.path p).partner⟩
      else n.path p := by
  unfold recordBackwardTransition
  by_cases hthrow : t.kind = .throwing
  · rw [if_pos hthrow, path_modifyPath hn ht, if_pos hthrow]
  · rw [if_neg hthrow, if_neg hthrow]
    by_cases htp : t.path = p
    · subst htp
      cases hthrown : (c.path t.path).thrown with
      | true => simp
      | false =>
        rw [if_neg (by simp), path_modifyPath hn ht]
        simp
    · rw [if_neg htp]
      split_ifs
      · rfl
      · rw [path_modifyPath hn ht, if_neg htp]

/-- What a path still waits for after an event, and did not get there. -/
theorem recordBackward_path (hn : n.Sized J N) (he : Placed J N e) :
    (((n.recordBackward c e).path p).touch = true → (n.path p).touch = true ∧
      ∀ t ∈ e.transitions, ¬(t.path = p ∧ (t.kind = .throwing ∨ (c.path p).thrown = false))) ∧
    (((n.recordBackward c e).path p).partner = true →
      (n.path p).partner = true ∧
        (∀ t ∈ e.transitions, ¬(t.path = p ∧ t.kind = .throwing)) ∨
      (n.hand e.juggler e.hand).velocity = true ∧ (c.path p).thrown = true) := by
  unfold recordBackward
  simp only
  have hsized := hn.modifyHand e.juggler e.hand fun h ↦
    ⟨false, h.velocity && !((n.hand e.juggler e.hand).velocity && e.determinesVelocity)⟩
  set soft := if ((n.hand e.juggler e.hand).velocity && e.determinesVelocity &&
    !e.has .throwing) = true then e.transitions.filter (·.kind == .softCatching) else [] with hsoft
  have hsub : ∀ t ∈ soft, t ∈ e.transitions ∧ (n.hand e.juggler e.hand).velocity = true := by
    intro t ht
    rw [hsoft] at ht
    split_ifs at ht with hresolves
    · simp only [Bool.and_eq_true] at hresolves
      exact ⟨(List.mem_filter.mp ht).1, hresolves.1.1⟩
    · cases ht
  obtain ⟨hawait, -, hpath⟩ := awaitThrows (p := p) (c := c) hsized
    fun t ht ↦ he.path t (hsub t ht).1
  have hkeep : ∀ n, ∀ t ∈ e.transitions.reverse, Sized J N n →
      (recordBackwardTransition c n t).Sized J N := by
    intro n t ht hn
    have hone : ∀ t' ∈ [t], 1 ≤ t'.path ∧ t'.path ≤ N := by
      simpa using he.path t (List.mem_reverse.mp ht)
    exact (recordBackward_transitions (p := 0) (c := c) hn hone).1
  constructor
  · intro htouch
    have := held_throughout (φ := fun n ↦ (n.path p).touch = true)
      (Q := fun t ↦ ¬(t.path = p ∧ (t.kind = .throwing ∨ (c.path p).thrown = false))) hkeep
      (fun n t ht hn h ↦ by
        rw [path_recordBackwardTransition hn (he.path t (List.mem_reverse.mp ht))] at h
        split_ifs at h with htp hthrow
        · simp only [Bool.and_eq_true] at h
          exact ⟨h.1, by simp [hthrow, h.2]⟩
        · exact ⟨h, fun h ↦ htp h.1⟩) hawait htouch
    refine ⟨?_, fun t ht ↦ this.2 t (List.mem_reverse.mpr ht)⟩
    have htouch := this.1
    rw [hpath] at htouch
    split_ifs at htouch <;> exact htouch
  · intro hpartner
    have := held_throughout (φ := fun n ↦ (n.path p).partner = true)
      (Q := fun t ↦ ¬(t.path = p ∧ t.kind = .throwing)) hkeep
      (fun n t ht hn h ↦ by
        rw [path_recordBackwardTransition hn (he.path t (List.mem_reverse.mp ht))] at h
        split_ifs at h with htp hthrow
        · exact ⟨h, fun h ↦ hthrow h.2⟩
        · exact ⟨h, fun h ↦ htp h.1⟩) hawait hpartner
    have hpartner := this.1
    rw [hpath] at hpartner
    split_ifs at hpartner with hawaits
    · obtain ⟨t, ht, -⟩ := hawaits
      exact .inr ⟨(hsub t ht).2, hpartner⟩
    · exact .inl ⟨hpartner, fun t ht ↦ this.2 t (List.mem_reverse.mpr ht)⟩

theorem recordForwardTransitions_path {ts : List Transition} (resolves : Bool) (hn : n.Sized J N)
    (hts : ∀ t ∈ ts, 1 ≤ t.path ∧ t.path ≤ N) :
    (((n.recordForwardTransitions c resolves ts).path p).touch = true →
      (n.path p).touch = true ∧ ∀ t ∈ ts, t.path ≠ p) ∧
    (((n.recordForwardTransitions c resolves ts).path p).partner = true →
      (n.path p).partner = true ∧ (∀ t ∈ ts, ¬(t.path = p ∧ t.kind.isCatch = true)) ∨
      resolves = true ∧ (c.path p).caught = true) := by
  induction ts generalizing n resolves with
  | nil => exact ⟨fun h ↦ ⟨h, by simp⟩, fun h ↦ .inl ⟨h, by simp⟩⟩
  | cons t ts ih =>
    obtain ⟨ht, hts⟩ := List.forall_mem_cons.mp hts
    have hsized := hn.modifyPath t.path fun p ↦ ⟨false, p.partner && !t.kind.isCatch⟩
    have hstep := path_modifyPath hn ht (fun p ↦ ⟨false, p.partner && !t.kind.isCatch⟩) p
    unfold recordForwardTransitions
    simp only
    split_ifs with hawaits
    · obtain ⟨htouch, hpartner⟩ := @ih _ false (hsized.modifyPath t.path fun p ↦
        { p with partner := (c.path t.path).caught }) hts
      rw [path_modifyPath hsized ht, hstep] at htouch hpartner
      simp only [Bool.and_eq_true] at hawaits
      constructor
      · intro h
        obtain ⟨h, hno⟩ := htouch h
        split_ifs at h with htp
        exact ⟨h, List.forall_mem_cons.mpr ⟨htp, hno⟩⟩
      · intro h
        obtain ⟨h, hno⟩ := (hpartner h).resolve_right (by simp)
        split_ifs at h with htp
        · exact .inr ⟨hawaits.1, htp ▸ h⟩
        · exact .inl ⟨h, List.forall_mem_cons.mpr ⟨fun h ↦ htp h.1, hno⟩⟩
    · obtain ⟨htouch, hpartner⟩ := @ih _ resolves hsized hts
      rw [hstep] at htouch hpartner
      constructor
      · intro h
        obtain ⟨h, hno⟩ := htouch h
        split_ifs at h with htp
        exact ⟨h, List.forall_mem_cons.mpr ⟨htp, hno⟩⟩
      · intro h
        refine (hpartner h).imp_left fun hkept ↦ ?_
        obtain ⟨h, hno⟩ := hkept
        split_ifs at h with htp
        · simp only [Bool.and_eq_true, Bool.not_eq_true'] at h
          exact ⟨h.1, List.forall_mem_cons.mpr ⟨by simp [h.2], hno⟩⟩
        · exact ⟨h, List.forall_mem_cons.mpr ⟨fun h ↦ htp h.1, hno⟩⟩

end Record

end Needs

namespace Expansion

variable [Exact α] (x : Expansion α) (J N : ℕ)

/-- Events up to the start of the loop are of use to their hands, those that give a hand its
velocity for that, and throws for their paths; a path that is never thrown takes any touch. -/
def usesBackward : Needs.Uses α where
  event e := e.time ≤ x.loop.low + timeTolerance
  velocity e := e.time ≤ x.loop.low + timeTolerance ∧ e.determinesVelocity = true
  touch p e := e.time ≤ x.loop.low + timeTolerance ∧ ∃ t ∈ e.transitions,
    t.path = p ∧ (t.kind = .throwing ∨ (x.coverage.path p).thrown = false)
  partner p e := e.time ≤ x.loop.low + timeTolerance ∧ ∃ t ∈ e.transitions,
    t.path = p ∧ t.kind = .throwing

def usesForward : Needs.Uses α where
  event e := (x.coverage.hand e.juggler e.hand).determinesVelocity = true ∨
    x.freeUntil - timeTolerance ≤ e.time
  velocity e := e.determinesVelocity = true
  touch p e := ∃ t ∈ e.transitions, t.path = p
  partner p e := ∃ t ∈ e.transitions, t.path = p ∧ t.kind.isCatch = true

theorem lowers_noteBackward : Needs.Lowers J N x.noteBackward x.usesBackward
    fun p ↦ (x.coverage.path p).thrown := by
  have hspec {n : Needs} {e : Event α} (hn : n.Sized J N) (he : Placed J N e) (p : ℕ) :=
    Needs.recordBackward_spec (c := x.coverage) (p := p) hn he
  have hpath {n : Needs} {e : Event α} (hn : n.Sized J N) (he : Placed J N e) (p : ℕ) :=
    Needs.recordBackward_path (c := x.coverage) (p := p) hn he
  constructor <;> intro n e hn he <;> unfold noteBackward <;> split_ifs with htime
  · exact (hspec hn he 0).1
  · exact hn
  · intro j h hneed
    rw [(hspec hn he 0).2.1] at hneed
    split_ifs at hneed with hhand
    exact ⟨hneed, fun huse ↦ hhand ⟨huse.1, huse.2.1⟩⟩
  · exact fun j h hneed ↦ ⟨hneed, fun huse ↦ htime huse.2.2⟩
  · intro j h hneed
    rw [(hspec hn he 0).2.1] at hneed
    split_ifs at hneed with hhand
    · simp only [Bool.and_eq_true, Bool.not_eq_true'] at hneed
      exact ⟨hneed.1, fun huse ↦ by simp [huse.2.2.2] at hneed⟩
    · exact ⟨hneed, fun huse ↦ hhand ⟨huse.1, huse.2.1⟩⟩
  · exact fun j h hneed ↦ ⟨hneed, fun huse ↦ htime huse.2.2.1⟩
  · intro p hneed
    obtain ⟨hneed, hno⟩ := (hpath hn he p).1 hneed
    refine ⟨hneed, ?_⟩
    rintro ⟨-, t, ht, huse⟩
    exact hno t ht huse
  · exact fun p hneed ↦ ⟨hneed, fun huse ↦ htime huse.1⟩
  · intro p hneed
    refine ((hpath hn he p).2 hneed).imp_left fun hkept ↦ ⟨hkept.1, ?_⟩
    rintro ⟨-, t, ht, huse⟩
    exact hkept.2 t ht huse
  · exact fun p hneed ↦ .inl ⟨hneed, fun huse ↦ htime huse.1⟩

theorem lowers_noteForward : Needs.Lowers J N x.noteForward x.usesForward
    fun p ↦ (x.coverage.path p).caught := by
  have hpath {n : Needs} {e : Event α} (hn : n.Sized J N) (he : Placed J N e) (p : ℕ) :=
    Needs.recordForwardTransitions_path (c := x.coverage) (p := p)
      ((n.hand e.juggler e.hand).velocity && e.determinesVelocity)
      (hn.modifyHand e.juggler e.hand fun h ↦
        ⟨h.event && !((x.coverage.hand e.juggler e.hand).determinesVelocity ||
            decide (x.freeUntil - timeTolerance ≤ e.time)),
          h.velocity && !((n.hand e.juggler e.hand).velocity && e.determinesVelocity)⟩) he.path
  refine ⟨fun n e hn he ↦ (Needs.recordForward_spec (p := 0) x.freeUntil hn he).1,
    fun n e hn he j h hneed ↦ ?_, fun n e hn he j h hneed ↦ ?_,
    fun n e hn he p hneed ↦ ?_, fun n e hn he p hneed ↦ ?_⟩
  · rw [noteForward, (Needs.recordForward_spec (p := 0) x.freeUntil hn he).2.1] at hneed
    split_ifs at hneed with hhand
    · simp only [Bool.and_eq_true, Bool.not_eq_true', Bool.or_eq_false_iff,
        decide_eq_false_iff_not] at hneed
      refine ⟨hneed.1, fun huse ↦ ?_⟩
      rcases huse.2.2 with huse | huse
      · rw [hhand.1, hhand.2, hneed.2.1] at huse
        cases huse
      · exact hneed.2.2 huse
    · exact ⟨hneed, fun huse ↦ hhand ⟨huse.1, huse.2.1⟩⟩
  · rw [noteForward, (Needs.recordForward_spec (p := 0) x.freeUntil hn he).2.1] at hneed
    split_ifs at hneed with hhand
    · simp only [Bool.and_eq_true, Bool.not_eq_true'] at hneed
      exact ⟨hneed.1, fun huse ↦ by simp [show e.determinesVelocity = true from huse.2.2] at hneed⟩
    · exact ⟨hneed, fun huse ↦ hhand ⟨huse.1, huse.2.1⟩⟩
  · obtain ⟨hneed, hno⟩ := (hpath hn he p).1 hneed
    refine ⟨hneed, ?_⟩
    rintro ⟨t, ht, huse⟩
    exact hno t ht huse
  · rcases (hpath hn he p).2 hneed with ⟨hneed, hno⟩ | ⟨hresolves, hever⟩
    · refine .inl ⟨hneed, ?_⟩
      rintro ⟨t, ht, huse⟩
      exact hno t ht huse
    · exact .inr ⟨((Bool.and_eq_true _ _).mp hresolves).1, hever⟩

end Expansion

end Juggling
