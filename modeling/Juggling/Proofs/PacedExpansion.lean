import Juggling.Proofs.PacedGroup

namespace Juggling

variable {α : Type} [Exact α] {f : α}

theorem Numbered.map_modify {β γ : Type} {σ : β → γ} {a : β → β} {b : γ → γ}
    (hσ : ∀ x, σ (a x) = b (σ x)) (v : Numbered β) (i : ℕ) :
    (v.map σ).modify i b = (v.modify i a).map σ := by
  cases i with
  | zero => rfl
  | succ i =>
    simp only [map, modify, Numbered.mk.injEq]
    refine Array.ext_getElem? fun j ↦ ?_
    simp only [Array.getElem?_modify, Array.getElem?_map]
    split_ifs <;> cases v.entries[j]? <;> simp [hσ]

theorem Numbered.get?_map {β γ : Type} (σ : β → γ) (v : Numbered β) (i : ℕ) :
    (v.map σ).get? i = (v.get? i).map σ := by
  cases i with
  | zero => rfl
  | succ i => exact Array.getElem?_map

namespace Generated

def stretch (f : α) (o : Generated α) : Generated α := { o with event := o.event.stretch f }

theorem notAfter_stretch (hf : 0 < f) (a b : Generated α) :
    notAfter (a.stretch f) (b.stretch f) = notAfter a b := by
  have hprecedes (x y : α) : Scalar.precedes (x * f) (y * f) = Scalar.precedes x y := by
    rw [Bool.eq_iff_iff, Scalar.precedes_iff, Scalar.precedes_iff, mul_le_mul_iff_left₀ hf]
  simp only [notAfter, stretch, Event.stretch, hprecedes]
  rfl

section Coincidence

variable {T : Set α} (h : Pace f T) {kept gs out : List (Generated α)} {g : Generated α}
  (hkept : ∀ o ∈ kept, o.event.time ∈ T)
include h hkept

theorem clash?_stretch (hg : g.event.time ∈ T) :
    clash? (kept.map (·.stretch f)) (g.stretch f) = (clash? kept g).map (·.stretch f) := by
  induction kept with
  | nil => rfl
  | cons o kept ih =>
    have hnear : (g.stretch f).event.time - (o.stretch f).event.time < timeTolerance ↔
        g.event.time - o.event.time < timeTolerance := h.sub_lt hg (hkept o List.mem_cons_self)
    have ih := ih fun o ho ↦ hkept o (List.mem_cons_of_mem _ ho)
    simp only [clash?, List.map_cons, List.takeWhile_cons, hnear] at ih ⊢
    by_cases hlt : g.event.time - o.event.time < timeTolerance
    · simp only [hlt, decide_true, if_true, List.find?_cons]
      have hhand :
          (o.stretch f).event.hasHand (g.stretch f).event.juggler (g.stretch f).event.hand =
        o.event.hasHand g.event.juggler g.event.hand := rfl
      rw [hhand]
      cases o.event.hasHand g.event.juggler g.event.hand with
      | true => rfl
      | false => exact ih
    · simp only [hlt, decide_false, Bool.false_eq_true, if_false]
      rfl

theorem dropCoincident_stretch (hgs : ∀ o ∈ gs, o.event.time ∈ T)
    (hok : dropCoincident kept gs = .ok out) :
    dropCoincident (kept.map (·.stretch f)) (gs.map (·.stretch f)) =
      .ok (out.map (·.stretch f)) := by
  induction gs generalizing kept with
  | nil =>
    obtain rfl := Except.ok.inj hok
    simp [dropCoincident]
  | cons g gs ih =>
    have hg := hgs g List.mem_cons_self
    have hgs' := fun o ho ↦ hgs o (List.mem_cons_of_mem g ho)
    rw [List.map_cons]
    unfold dropCoincident at hok ⊢
    simp only [clash?_stretch h hkept hg] at hok ⊢
    cases hc : clash? kept g with
    | none =>
      rw [hc] at hok
      refine @ih (g :: kept) (fun o ho ↦ ?_) hgs' hok
      rcases List.mem_cons.mp ho with rfl | ho
      · exact hg
      · exact hkept o ho
    | some o =>
      rw [hc] at hok
      simp only [Option.map_some] at hok ⊢
      split_ifs at hok with hsame
      refine Eq.trans (if_pos ?_) (ih hkept hgs' hok)
      exact hsame

end Coincidence

end Generated

theorem Coverage.scan_stretch (seeds : List (Event α)) (g : SymmetryGroup α) (J N : ℕ) :
    scan (seeds.map (·.stretch f)) (g.stretch f) J N = scan seeds g J N := by
  have hrecord (c : Coverage) (e : Event α) (h : Transform α) :
      c.record ((h.stretch f).apply (e.stretch f)) = c.record (h.apply e) := by
    rw [Transform.apply_stretch]
    rfl
  simp only [scan, SymmetryGroup.orbit_stretch, List.foldl_map, hrecord]

namespace Front

def stretch (f : α) (h : Front α) : Front α := { h with origin := h.origin.stretch f }

variable (g : SymmetryGroup α)

theorem time_stretch (h : Front α) : (h.stretch f).time (g.stretch f) = h.time g * f :=
  g.imageTime_stretch h.origin h.image

theorem generate_stretch (h : Front α) :
    (h.stretch f).generate (g.stretch f) = (h.generate g).stretch f := by
  simp only [generate, stretch, SymmetryGroup.image_stretch, Transform.apply_stretch]
  rfl

theorem move_stretch (seed : ℕ) (offset : ℤ) (fs : List (Front α)) :
    move seed offset (fs.map (·.stretch f)) = (move seed offset fs).map (·.stretch f) := by
  simp only [move, List.map_map]
  refine List.map_congr_left fun h _ ↦ ?_
  by_cases hs : h.seed = seed <;> simp [stretch, hs]

section Order

variable (hf : 0 < f)
include hf

theorem precedes_stretch (a b : Front α) :
    Scalar.precedes ((a.stretch f).time (g.stretch f)) ((b.stretch f).time (g.stretch f)) =
      Scalar.precedes (a.time g) (b.time g) := by
  rw [Bool.eq_iff_iff, Scalar.precedes_iff, Scalar.precedes_iff, time_stretch, time_stretch,
    mul_le_mul_iff_left₀ hf]

theorem latest?_stretch (fs : List (Front α)) :
    latest? (g.stretch f) (fs.map (·.stretch f)) = (latest? g fs).map (·.stretch f) := by
  cases fs with
  | nil => rfl
  | cons h fs =>
    simp only [List.map_cons, latest?, Option.map_some, List.foldl_map, Option.some.injEq]
    refine List.foldl_hom (stretch f) fun a b ↦ ?_
    rw [precedes_stretch g hf]
    split_ifs <;> rfl

theorem earliest?_stretch (fs : List (Front α)) :
    earliest? (g.stretch f) (fs.map (·.stretch f)) = (earliest? g fs).map (·.stretch f) := by
  cases fs with
  | nil => rfl
  | cons h fs =>
    simp only [List.map_cons, earliest?, Option.map_some, List.foldl_map, Option.some.injEq]
    refine List.foldl_hom (stretch f) fun a b ↦ ?_
    rw [precedes_stretch g hf]
    split_ifs <;> rfl

theorem before_stretch (seeds : List (Event α)) (t : α) (offset : ℤ) :
    before (g.stretch f) (seeds.map (·.stretch f)) (t * f) offset =
      (before g seeds t offset).map (·.stretch f) := by
  simp only [before, List.mapIdx_eq_zipIdx_map, List.zipIdx_map, List.map_map]
  refine List.map_congr_left fun p _ ↦ ?_
  simp only [Function.comp, Prod.map]
  rw [SymmetryGroup.lastImageBefore_stretch g hf]
  rfl

end Order

end Front

namespace Expansion

def stretch (f : α) (x : Expansion α) : Expansion α :=
  ⟨x.seeds.map (·.stretch f), x.group.stretch f, x.coverage, x.loop.stretch f⟩

variable (x : Expansion α) {T : Set α} (h : Pace f T)

/-- What was last on a path, at another pace. -/
def stretchLast (f : α) : Option (α × TransitionKind) → Option (α × TransitionKind) :=
  Option.map fun p ↦ (p.1 * f, p.2)

theorem lastOnPaths_stretch (hf : 0 < f) (N : ℕ) (made : List (Generated α)) :
    lastOnPaths N (made.map (·.stretch f)) = (lastOnPaths N made).map (stretchLast f) := by
  have hempty : (Numbered.replicate N none : Numbered (Option (α × TransitionKind))) =
      (Numbered.replicate N none).map (stretchLast f) := by
    simp [Numbered.replicate, Numbered.map, stretchLast]
  unfold lastOnPaths
  rw [List.foldl_map]
  conv_lhs => rw [hempty]
  refine List.foldl_hom _ fun last m ↦ List.foldl_hom _ fun last t ↦
    Numbered.map_modify (fun o ↦ ?_) last t.path
  cases o with
  | none => rfl
  | some p =>
    have hle : p.1 * f ≤ (m.stretch f).event.time ↔ p.1 ≤ m.event.time := mul_le_mul_iff_left₀ hf
    simp only [stretchLast, Option.map_some, hle]
    split_ifs <;> rfl

theorem needsAfter_stretch (hf : 0 < f) (N : ℕ) (made : List (Generated α)) :
    (x.stretch f).needsAfter N (made.map (·.stretch f)) = x.needsAfter N made := by
  have hnumbers : ((lastOnPaths N made).map (stretchLast f)).numbers =
      (lastOnPaths N made).numbers := by
    simp [Numbered.numbers, Numbered.size, Numbered.map]
  simp only [needsAfter, lastOnPaths_stretch hf, hnumbers]
  congr 1
  funext n p
  rw [Numbered.getD, Numbered.get?_map, Numbered.getD]
  rcases (lastOnPaths N made).get? p with _ | _ | ⟨_, _ | _⟩ <;> rfl

section Steps

variable {x : Expansion α} {n : Needs} {fs : List (Front α)} {a : Front α} {budget : ℕ}

/-- Whether nothing before a time is needed any more. -/
def stopsAt (x : Expansion α) (n : Needs) (t : α) : Bool :=
  t < x.loop.low - timeTolerance && !n.pending

theorem backward_none (h : Front.latest? x.group fs = none) : x.backward budget n fs = .ok [] := by
  unfold backward
  rw [h]

theorem backward_zero (h : Front.latest? x.group fs = some a) : x.backward 0 n fs =
    if x.stopsAt n (a.time x.group) then .ok [] else .error (.expansionLimit limit) := by
  unfold backward
  rw [h]
  rfl

theorem backward_succ (h : Front.latest? x.group fs = some a) : x.backward (budget + 1) n fs =
    if x.stopsAt n (a.time x.group) then .ok []
    else (x.backward budget (x.noteBackward n (a.generate x.group).event)
      (Front.move a.seed (-1) fs)).map (a.generate x.group :: ·) := by
  conv_lhs => unfold backward
  rw [h]
  rfl

theorem forward_idle (hn : n.pending = false) : x.forward budget n fs = .ok [] := by
  unfold forward
  rw [hn]
  rfl

theorem forward_none (h : Front.earliest? x.group fs = none) : x.forward budget n fs = .ok [] := by
  unfold forward
  rw [h]
  split_ifs <;> rfl

theorem forward_zero (hn : n.pending = true) (h : Front.earliest? x.group fs = some a) :
    x.forward 0 n fs = .error (.expansionLimit limit) := by
  unfold forward
  rw [hn, h]
  rfl

theorem forward_succ (hn : n.pending = true) (h : Front.earliest? x.group fs = some a) :
    x.forward (budget + 1) n fs =
      (x.forward budget (x.noteForward n (a.generate x.group).event)
        (Front.move a.seed 1 fs)).map (a.generate x.group :: ·) := by
  conv_lhs => unfold forward
  rw [hn, h]
  rfl

end Steps

section Runs

variable (hseeds : ∀ e ∈ x.seeds, ∀ k, x.group.imageTime e k ∈ T) (hlow : x.loop.low ∈ T)
include h

omit h in
theorem time_generate_mem (hseeds : ∀ e ∈ x.seeds, ∀ k, x.group.imageTime e k ∈ T) {a : Front α}
    (ha : a.origin ∈ x.seeds) : (a.generate x.group).event.time ∈ T := by
  rw [Front.generate, SymmetryGroup.time_image]
  exact hseeds _ ha a.image

include hlow in
theorem stopsAt_stretch (n : Needs) {a : Front α} (ha : a.time x.group ∈ T) :
    (x.stretch f).stopsAt n ((a.stretch f).time (x.stretch f).group) =
      x.stopsAt n (a.time x.group) := by
  have hpast : (a.stretch f).time (x.stretch f).group < (x.stretch f).loop.low - timeTolerance ↔
      a.time x.group < x.loop.low - timeTolerance := by
    rw [show (x.stretch f).group = x.group.stretch f from rfl, Front.time_stretch]
    exact h.lt_sub ha hlow
  simp only [stopsAt, hpast]

include hlow in
theorem noteBackward_stretch (n : Needs) {e : Event α} (he : e.time ∈ T) :
    (x.stretch f).noteBackward n (e.stretch f) = x.noteBackward n e := by
  have hle : (e.stretch f).time ≤ (x.stretch f).loop.low + timeTolerance ↔
      e.time ≤ x.loop.low + timeTolerance := h.le_add he hlow
  simp only [noteBackward, hle]
  rfl

theorem noteForward_stretch (hfree : x.freeUntil ∈ T) (n : Needs) {e : Event α} (he : e.time ∈ T) :
    (x.stretch f).noteForward n (e.stretch f) = x.noteForward n e := by
  have hle : (x.stretch f).freeUntil - timeTolerance ≤ (e.stretch f).time ↔
      x.freeUntil - timeTolerance ≤ e.time := by
    have hmul : (x.stretch f).freeUntil = x.freeUntil * f := by
      simp only [freeUntil, stretch, Window.stretch]
      ring
    rw [hmul]
    exact h.sub_le hfree he
  simp only [noteForward, Needs.recordForward, hle]
  rfl

include hseeds

include hlow in
theorem backward_stretch (budget : ℕ) (n : Needs) {fs : List (Front α)}
    (hfs : ∀ a ∈ fs, a.origin ∈ x.seeds) :
    (x.stretch f).backward budget n (fs.map (·.stretch f)) =
      (x.backward budget n fs).map (·.map (·.stretch f)) := by
  induction budget generalizing n fs with
  | zero =>
    have hlatest : Front.latest? (x.stretch f).group (fs.map (·.stretch f)) =
        (Front.latest? x.group fs).map (·.stretch f) := Front.latest?_stretch x.group h.pos fs
    cases ha : Front.latest? x.group fs with
    | none =>
      rw [ha] at hlatest
      rw [backward_none ha, backward_none hlatest]
      rfl
    | some a =>
      rw [ha] at hlatest
      have hpast := stopsAt_stretch x h hlow n (hseeds _ (hfs a (Front.latest?_mem ha)) a.image)
      rw [backward_zero ha, backward_zero hlatest, hpast]
      split_ifs <;> rfl
  | succ budget ih =>
    have hlatest : Front.latest? (x.stretch f).group (fs.map (·.stretch f)) =
        (Front.latest? x.group fs).map (·.stretch f) := Front.latest?_stretch x.group h.pos fs
    cases ha : Front.latest? x.group fs with
    | none =>
      rw [ha] at hlatest
      rw [backward_none ha, backward_none hlatest]
      rfl
    | some a =>
      rw [ha] at hlatest
      have horigin := hfs a (Front.latest?_mem ha)
      have hpast := stopsAt_stretch x h hlow n (hseeds _ horigin a.image)
      have hgenerate :
          (a.stretch f).generate (x.stretch f).group = (a.generate x.group).stretch f :=
        Front.generate_stretch x.group a
      have hnote := noteBackward_stretch x h hlow n (time_generate_mem x hseeds horigin)
      have hmove := Front.move_stretch (f := f) a.seed (-1) fs
      rw [backward_succ ha, backward_succ hlatest, hpast, hgenerate]
      split_ifs
      · rfl
      · rw [Generated.stretch, hnote]
        rw [show (a.stretch f).seed = a.seed from rfl, hmove, ih _ (Front.origin_move hfs _ _)]
        cases x.backward budget (x.noteBackward n (a.generate x.group).event)
          (Front.move a.seed (-1) fs) <;> rfl

theorem forward_stretch (hfree : x.freeUntil ∈ T) (budget : ℕ) (n : Needs) {fs : List (Front α)}
    (hfs : ∀ a ∈ fs, a.origin ∈ x.seeds) :
    (x.stretch f).forward budget n (fs.map (·.stretch f)) =
      (x.forward budget n fs).map (·.map (·.stretch f)) := by
  induction budget generalizing n fs with
  | zero =>
    have hearliest : Front.earliest? (x.stretch f).group (fs.map (·.stretch f)) =
        (Front.earliest? x.group fs).map (·.stretch f) := Front.earliest?_stretch x.group h.pos fs
    cases hn : n.pending with
    | false =>
      rw [forward_idle hn, forward_idle hn]
      rfl
    | true =>
      cases ha : Front.earliest? x.group fs with
      | none =>
        rw [ha] at hearliest
        rw [forward_none ha, forward_none hearliest]
        rfl
      | some a =>
        rw [ha] at hearliest
        rw [forward_zero hn ha, forward_zero hn hearliest]
        rfl
  | succ budget ih =>
    have hearliest : Front.earliest? (x.stretch f).group (fs.map (·.stretch f)) =
        (Front.earliest? x.group fs).map (·.stretch f) := Front.earliest?_stretch x.group h.pos fs
    cases hn : n.pending with
    | false =>
      rw [forward_idle hn, forward_idle hn]
      rfl
    | true =>
      cases ha : Front.earliest? x.group fs with
      | none =>
        rw [ha] at hearliest
        rw [forward_none ha, forward_none hearliest]
        rfl
      | some a =>
        rw [ha] at hearliest
        have horigin := hfs a (Front.earliest?_mem ha)
        have hgenerate : (a.stretch f).generate (x.stretch f).group =
            (a.generate x.group).stretch f := Front.generate_stretch x.group a
        have hnote := noteForward_stretch x h hfree n (time_generate_mem x hseeds horigin)
        have hmove := Front.move_stretch (f := f) a.seed 1 fs
        rw [forward_succ hn ha, forward_succ hn hearliest, hgenerate, Generated.stretch, hnote,
          show (a.stretch f).seed = a.seed from rfl, hmove, ih _ (Front.origin_move hfs _ _)]
        cases x.forward budget (x.noteForward n (a.generate x.group).event)
          (Front.move a.seed 1 fs) <;> rfl

include hlow in
/-- At another pace the same images are generated in the same order. -/
theorem run_stretch (hfree : x.freeUntil ∈ T) {N : ℕ} {made : List (Generated α)}
    (hok : x.run N = .ok made) : (x.stretch f).run N = .ok (made.map (·.stretch f)) := by
  have hbefore (offset : ℤ) : Front.before (x.stretch f).group (x.stretch f).seeds
      (x.stretch f).loop.high offset =
      (Front.before x.group x.seeds x.loop.high offset).map (·.stretch f) :=
    Front.before_stretch x.group h.pos x.seeds x.loop.high offset
  obtain ⟨back, hback, hok⟩ := bind_eq_ok.mp hok
  obtain ⟨forth, hforth, hok⟩ := bind_eq_ok.mp hok
  obtain rfl := pure_eq_ok.mp hok
  refine bind_eq_ok.mpr ⟨back.map (·.stretch f), ?_, bind_eq_ok.mpr
    ⟨forth.map (·.stretch f), ?_, ?_⟩⟩
  · rw [hbefore, show (x.stretch f).coverage = x.coverage from rfl,
      backward_stretch x h hseeds hlow _ _ Front.origin_before, hback]
    rfl
  · rw [hbefore, needsAfter_stretch x h.pos, List.length_map,
      forward_stretch x h hseeds hfree _ _ Front.origin_before, hforth]
    rfl
  · rw [pure_eq_ok, List.map_append]

end Runs

end Expansion

end Juggling
