import Juggling.Pattern.Query
import Juggling.Proofs.Bounds

namespace Juggling

variable {α : Type} [Exact α]

theorem Extreme.ofList?_cons (e : Extreme) (p : Coordinate α) (ps : List (Coordinate α)) :
    ∃ c, e.ofList? (p :: ps) = some c := ⟨_, rfl⟩

theorem Window.clip?_of_within {w v : Window α} (hlow : w.low ≤ v.low) (hle : v.low ≤ v.high)
    (hhigh : v.high ≤ w.high) : w.clip? v = some v := by
  simp [clip?, max_eq_left hlow, min_eq_left hhigh, hle]

theorem Spline.exists_extreme (s : Spline α) (e : Extreme) {v : Window α}
    (hlow : s.knots.range.low ≤ v.low) (hle : v.low ≤ v.high)
    (hhigh : v.high ≤ s.knots.range.high) : ∃ c, s.extreme e v = some c := by
  simp only [extreme, Window.clip?_of_within hlow hle hhigh]
  exact e.ofList?_cons _ _

namespace Flight

theorem exists_extreme (f : Flight α) (e : Extreme) {v : Window α} (hlow : f.range.low ≤ v.low)
    (hle : v.low ≤ v.high) (hhigh : v.high ≤ f.range.high) : ∃ c, f.extreme e v = some c := by
  cases f with
  | toss f =>
    simp only [range] at hlow hhigh
    simp only [extreme, Toss.extreme, Window.clip?_of_within hlow hle hhigh]
    exact e.ofList?_cons _ _
  | bounce f =>
    simp only [range] at hlow hhigh
    simp only [extreme, Bounce.extreme, Window.clip?_of_within hlow hle hhigh]
    exact e.ofList?_cons _ _

end Flight

namespace Layout

theorem overlap?_eq_some {w v u : Window α} : overlap? w v = some u ↔
    max v.low w.low < min v.high w.high ∧ u = ⟨max v.low w.low, min v.high w.high⟩ := by
  simp only [overlap?, Scalar.larger_eq, Scalar.smaller_eq]
  split_ifs with h
  · simp [not_lt.mpr h]
  · simp only [Option.some.injEq]
    exact ⟨fun heq ↦ ⟨not_le.mp h, heq.symm⟩, fun heq ↦ heq.2.symm⟩

/-- Where all links within a window have extremes, so have they together. -/
theorem extremeOver_ok {β : Type} {e : Extreme} {range : β → Window α}
    {extreme : β → Window α → Except (InternalError α) (Option (Coordinate α))} {w : Window α}
    {links : List β}
    (hall : ∀ k ∈ links, ∀ v, overlap? w (range k) = some v → ∃ c, extreme k v = .ok (some c))
    (hsome : ∃ k ∈ links, ∃ v, overlap? w (range k) = some v) :
    ∃ c, extremeOver e range extreme w links = .ok (some c) := by
  -- One link within the window is enough, and what was found before is kept.
  have hfound : (∃ c, (none : Option (Coordinate α)) = some c) ∨
      ∃ k ∈ links, ∃ v, overlap? w (range k) = some v :=
    .inr hsome
  clear hsome
  unfold extremeOver
  revert hfound
  generalize (none : Option (Coordinate α)) = found
  induction links generalizing found with
  | nil =>
    rintro (⟨c, rfl⟩ | ⟨k, hk, -⟩)
    · exact ⟨c, rfl⟩
    · cases hk
  | cons k links ih =>
    obtain ⟨hk, hlinks⟩ := List.forall_mem_cons.mp hall
    intro hfound
    rw [List.foldlM_cons]
    cases hv : overlap? w (range k) with
    | none =>
      refine ih hlinks found (hfound.imp_right ?_)
      rintro ⟨k', hk', v, hv'⟩
      rcases List.mem_cons.mp hk' with rfl | hk'
      · cases hv.symm.trans hv'
      · exact ⟨k', hk', v, hv'⟩
    | some v =>
      obtain ⟨c, hc⟩ := hk v hv
      simp only [hc]
      refine ih hlinks _ (.inl ?_)
      cases found with
      | none => exact ⟨c, rfl⟩
      | some f => exact ⟨_, rfl⟩

namespace Covered

variable {l : Layout α} {j : ℕ} {hand : Hand} {low high t : α}
  (hc : l.Covered (l.handLinks j hand) low high)

include hc

theorem of_answer {s : Spline α} (h : l.handCurveAt j hand t = .ok s) : low ≤ t ∧ t ≤ high := by
  obtain ⟨before, mid, after, a, b, hlinks, hbefore, hmid, hafter, hbare, hfollows⟩ := hc
  unfold handCurveAt at h
  split at h
  · rename_i s' hs
    obtain ⟨k, hk, hcurve⟩ := Option.bind_eq_some_iff.mp hs
    obtain ⟨hmem, hlow, hhigh⟩ := linkAt?_eq_some hk
    have hkmid : k ∈ mid := by
      by_contra hnot
      have hk' : k ∈ before ++ after := by
        rw [hlinks] at hmem
        simp only [List.mem_append] at hmem ⊢
        tauto
      rw [hbare k hk'] at hcurve
      cases hcurve
    obtain ⟨hstart, -, hstop⟩ := hmid.of_mem hkmid
    exact ⟨hstart.trans hlow, hhigh.trans hstop⟩
  · cases h

theorem exists_link (hlow : low ≤ t) (hhigh : t < high) : ∃ k ∈ l.handLinks j hand,
    linkAt? handRange t (l.handLinks j hand) = some k ∧ l.Follows k ∧ k.start.time ≤ t ∧
      t < k.stop.time := by
  obtain ⟨before, mid, after, a, b, hlinks, hbefore, hmid, hafter, hbare, hfollows⟩ := hc
  have hne : mid ≠ [] := by
    rintro rfl
    exact absurd (hlow.trans_lt hhigh) (not_lt.mpr hmid.ge)
  obtain ⟨k, hk⟩ := exists_linkAt? hmid hne hlow hhigh.le
  obtain ⟨hmem, hstart, -⟩ := linkAt?_eq_some hk
  have heq : linkAt? handRange t (l.handLinks j hand) = some k := by
    rw [hlinks, linkAt?_append_right (hbefore.append hmid) hafter (hbefore.le.trans hlow) hhigh,
      linkAt?_append_left hbefore hmid hne hlow, hk]
  exact ⟨k, (linkAt?_eq_some heq).1, heq, hfollows k hmem, hstart, lt_of_linkAt? hmid hhigh hk⟩

theorem answers (hlow : low ≤ t) (hhigh : t < high) : ∃ s, l.handCurveAt j hand t = .ok s := by
  obtain ⟨k, -, hk, ⟨s, hs, -⟩, -⟩ := hc.exists_link hlow hhigh
  refine ⟨s, ?_⟩
  rw [handCurveAt, hk, Option.bind_some, hs]

theorem exists_extreme (e : Extreme) {w : Window α} (hlow : low ≤ w.low) (hw : w.low < w.high)
    (hhigh : w.high ≤ high) : ∃ c, l.handExtremeOver e j hand w = .ok (some c) := by
  refine extremeOver_ok (fun k hk v hv ↦ ?_) ?_
  · obtain ⟨hlt, rfl⟩ := overlap?_eq_some.mp hv
    obtain ⟨before, mid, after, a, b, hlinks, hbefore, hmid, hafter, -, hfollows⟩ := hc
    obtain ⟨hl, hh⟩ := max_lt_iff.mp hlt
    obtain ⟨hll, hlh⟩ := lt_min_iff.mp hl
    obtain ⟨hhl, hhh⟩ := lt_min_iff.mp hh
    -- The links before and after those that are covered are outside the window.
    have hkmid : k ∈ mid := by
      rw [hlinks] at hk
      rcases List.mem_append.mp hk with hk | hk
      · rcases List.mem_append.mp hk with hk | hk
        · exact absurd (hhl.trans_le (hbefore.of_mem hk).2.2) (not_lt.mpr hlow)
        · exact hk
      · exact absurd ((hafter.of_mem hk).1.trans_lt hlh) (not_lt.mpr hhigh)
    obtain ⟨s, hs, hslow, hshigh⟩ := hfollows k hkmid
    obtain ⟨c, hc⟩ := s.exists_extreme e (v := ⟨max k.start.time w.low, min k.stop.time w.high⟩)
      (hslow.trans (le_max_left _ _)) hlt.le ((min_le_left _ _).trans hshigh)
    exact ⟨c, by rw [hs]; exact congrArg _ hc⟩
  · obtain ⟨k, hmem, -, -, hstart, hstop⟩ := hc.exists_link hlow (hw.trans_le hhigh)
    refine ⟨k, hmem, _, overlap?_eq_some.mpr ⟨?_, rfl⟩⟩
    rw [max_eq_right (show (handRange k).low ≤ w.low from hstart)]
    exact lt_min hstop hw

end Covered

theorem pathLinkAt_eq_ok {l : Layout α} {p : ℕ} {t : α} {k : PathLink α} :
    l.pathLinkAt p t = .ok k ↔ linkAt? PathLink.range t (l.pathLinks p) = some k := by
  unfold pathLinkAt
  cases linkAt? PathLink.range t (l.pathLinks p) <;> simp

variable {l : Layout α}

/-- Whether it is known where all paths and hands are at a time. -/
def AnswersAt (l : Layout α) (jugglers paths : ℕ) (t : α) : Prop :=
  (∀ p, 1 ≤ p ∧ p ≤ paths → (∃ c, l.pathPlace p t = .ok c) ∧ ∃ b, l.isHeld p t = .ok b) ∧
    ∀ j, 1 ≤ j ∧ j ≤ jugglers → ∀ hand, ∃ c, l.handPlace j hand t = .ok c

/-- Whether it is known in which boxes all paths and hands stay. -/
def AnswersExtremes (l : Layout α) (jugglers paths : ℕ) : Prop :=
  ∀ e, (∀ p, 1 ≤ p ∧ p ≤ paths → ∃ c, l.pathExtreme e p = .ok (some c)) ∧
    ∀ j, 1 ≤ j ∧ j ≤ jugglers → ∀ hand, ∃ c, l.handExtreme e j hand = .ok (some c)

/-- The links of all paths and the curves of all hands reach over the loop. -/
structure Reaches (l : Layout α) (jugglers paths : ℕ) : Prop where
  path : ∀ p, 1 ≤ p ∧ p ≤ paths → ∃ a b, Linked PathLink.range a (l.pathLinks p) b ∧
    a ≤ l.loop.low ∧ l.loop.high ≤ b
  hand : ∀ j, 1 ≤ j ∧ j ≤ jugglers → ∀ hand, ∃ low high,
    l.Covered (l.handLinks j hand) low high ∧ low ≤ l.loop.low ∧ l.loop.high ≤ high

theorem exists_pathLink {p : ℕ} {a b t : α} (hl : Linked PathLink.range a (l.pathLinks p) b)
    (ha : a ≤ t) (hb : t < b) : ∃ k ∈ l.pathLinks p, l.pathLinkAt p t = .ok k ∧
      k.start.time ≤ t ∧ t < k.stop.time := by
  have hne : l.pathLinks p ≠ [] := by
    intro hnil
    rw [hnil] at hl
    exact absurd (ha.trans_lt hb) (not_lt.mpr hl.ge)
  obtain ⟨k, hk⟩ := exists_linkAt? hl hne ha hb.le
  obtain ⟨hmem, hstart, -⟩ := linkAt?_eq_some hk
  exact ⟨k, hmem, pathLinkAt_eq_ok.mpr hk, hstart, lt_of_linkAt? hl hb hk⟩

theorem wrapTime_of_mem {t : α} (ht : l.loop.low ≤ t) (ht' : t < l.loop.high) :
    l.wrapTime t = t := by
  unfold wrapTime period
  rw [Scalar.remainder_of_mem (sub_nonneg.mpr ht) (sub_lt_sub_right ht' _)]
  exact add_sub_cancel _ _

namespace IsBuilt

variable [Numeral α] {d : Declarations α} (h : IsBuilt d l)
  (hperms : ∀ s ∈ d.symmetries, s.jugglers.Rearranges ∧ s.paths.Rearranges)

include h hperms

theorem low_lt_high : l.loop.low < l.loop.high := by
  rw [h.low, h.high]
  exact (h.isGroupOf hperms).period_pos

theorem wrapTime_mem (t : α) : l.loop.low ≤ l.wrapTime t ∧ l.wrapTime t < l.loop.high := by
  have hpos : 0 < l.period := sub_pos.mpr (h.low_lt_high hperms)
  have hlt := Scalar.remainder_lt (t - l.loop.low) hpos
  refine ⟨le_add_of_nonneg_right (Scalar.remainder_nonneg _ hpos), ?_⟩
  have hsum : l.loop.low + l.period = l.loop.high := by
    simp [period]
  rw [← hsum]
  exact add_lt_add_right hlt _

theorem answersAt_of_reaches (hr : l.Reaches d.jugglers d.paths) (t : α) :
    l.AnswersAt d.jugglers d.paths t := by
  obtain ⟨hlow, hhigh⟩ := h.wrapTime_mem hperms t
  have hhand : ∀ j, 1 ≤ j ∧ j ≤ d.jugglers → ∀ hand,
      ∃ c, l.handPlaceWithin j hand (l.wrapTime t) = .ok c := by
    intro j hj hand
    obtain ⟨low, high, hcovered, hl, hh⟩ := hr.hand j hj hand
    obtain ⟨s, hs⟩ := hcovered.answers (hl.trans hlow) (hhigh.trans_le hh)
    exact ⟨_, map_eq_ok.mpr ⟨s, hs, rfl⟩⟩
  refine ⟨fun p hp ↦ ?_, hhand⟩
  obtain ⟨a, b, hlinked, ha, hb⟩ := hr.path p hp
  obtain ⟨k, hmem, hk, -⟩ := exists_pathLink hlinked (ha.trans hlow) (hhigh.trans_le hb)
  refine ⟨?_, _, map_eq_ok.mpr ⟨k, hk, rfl⟩⟩
  simp only [pathPlace, bind_eq_ok]
  cases hpassage : k.passage with
  | held j hand =>
    obtain ⟨c, hc⟩ := hhand j (h.held hperms hp hmem hpassage) hand
    exact ⟨c, k, hk, by rw [hpassage]; exact hc⟩
  | thrown kind modifier f => exact ⟨_, k, hk, by rw [hpassage]; rfl⟩

theorem answersExtremes_of_reaches (hr : l.Reaches d.jugglers d.paths) :
    l.AnswersExtremes d.jugglers d.paths := by
  have hlt := h.low_lt_high hperms
  intro e
  refine ⟨fun p hp ↦ ?_, fun j hj hand ↦ ?_⟩
  · obtain ⟨a, b, hlinked, ha, hb⟩ := hr.path p hp
    refine extremeOver_ok (fun k hk v hv ↦ ?_) ?_
    · obtain ⟨hoverlap, rfl⟩ := overlap?_eq_some.mp hv
      cases hpassage : k.passage with
      | held j hand =>
        obtain ⟨low, high, hcovered, hl, hh⟩ := hr.hand j (h.held hperms hp hk hpassage) hand
        exact hcovered.exists_extreme e (hl.trans (le_max_right _ _)) hoverlap
          ((min_le_right _ _).trans hh)
      | thrown kind modifier f =>
        obtain ⟨-, -, hpass⟩ := h.path_link hp hk
        rcases PathLink.passage?_ok hpass with ⟨_, _, _, heq, -, -, hf⟩ | ⟨heq, -⟩
        · cases hpassage.symm.trans heq
          have hrange := (Flight.build_ok hf).2
          obtain ⟨c, hc⟩ := f.exists_extreme e
            (v := ⟨max k.start.time l.loop.low, min k.stop.time l.loop.high⟩)
            (by rw [hrange]; exact le_max_left _ _) hoverlap.le
            (by rw [hrange]; exact min_le_left _ _)
          exact ⟨c, congrArg _ hc⟩
        · cases hpassage.symm.trans heq
    · obtain ⟨k, hmem, -, hstart, hstop⟩ := exists_pathLink hlinked ha (hlt.trans_le hb)
      refine ⟨k, hmem, _, overlap?_eq_some.mpr ⟨?_, rfl⟩⟩
      rw [max_eq_right (show (PathLink.range k).low ≤ l.loop.low from hstart)]
      exact lt_min hstop hlt
  · obtain ⟨low, high, hcovered, hl, hh⟩ := hr.hand j hj hand
    exact hcovered.exists_extreme e hl hlt hh

section Ends

variable (hstart : l.AnswersAt d.jugglers d.paths l.loop.low)

include hstart

theorem path_low_le {p : ℕ} (hp : 1 ≤ p ∧ p ≤ d.paths) {a b : α}
    (hlinked : Linked PathLink.range a (l.pathLinks p) b) : a ≤ l.loop.low := by
  obtain ⟨-, _, hb⟩ := hstart.1 p hp
  obtain ⟨k, hk, -⟩ := map_eq_ok.mp hb
  rw [wrapTime_of_mem le_rfl (h.low_lt_high hperms)] at hk
  obtain ⟨hmem, hlow, -⟩ := linkAt?_eq_some (pathLinkAt_eq_ok.mp hk)
  exact (hlinked.of_mem hmem).1.trans hlow

theorem hand_low_le {j : ℕ} (hj : 1 ≤ j ∧ j ≤ d.jugglers) {hand : Hand} {low high : α}
    (hcovered : l.Covered (l.handLinks j hand) low high) : low ≤ l.loop.low := by
  obtain ⟨c, hc⟩ := hstart.2 j hj hand
  obtain ⟨s, hs, -⟩ := map_eq_ok.mp hc
  rw [wrapTime_of_mem le_rfl (h.low_lt_high hperms)] at hs
  exact (hcovered.of_answer hs).1

/-- Links that answer at the start of the loop and as near to its end as one likes reach over
it. -/
theorem reaches_of_ends (hend : ∀ s, s < l.loop.high → ∃ t, s ≤ t ∧ t < l.loop.high ∧
    l.AnswersAt d.jugglers d.paths t) : l.Reaches d.jugglers d.paths := by
  have hlt := h.low_lt_high hperms
  -- An end of the links within the loop would leave a time after it without an answer.
  have key {b : α} {P : α → Prop} (hP : ∀ t, l.AnswersAt d.jugglers d.paths t → P (l.wrapTime t))
      (hb : ∀ t, P t → t ≤ b) : l.loop.high ≤ b := by
    by_contra hnot
    rw [not_le] at hnot
    obtain ⟨t, hst, hth, hanswer⟩ := hend (max l.loop.low ((b + l.loop.high) / 2))
      (max_lt hlt (by linarith))
    obtain ⟨hlow, hmid⟩ := max_le_iff.mp hst
    have := hb _ (hP t hanswer)
    rw [wrapTime_of_mem hlow hth] at this
    linarith
  constructor
  · intro p hp
    obtain ⟨a, b, hlinked, -⟩ := h.linked_path hperms hp
    refine ⟨a, b, hlinked, h.path_low_le hperms hstart hp hlinked,
      key (P := fun t ↦ ∃ k, l.pathLinkAt p t = .ok k) (fun t hanswer ↦ ?_) fun t ⟨k, hk⟩ ↦ ?_⟩
    · obtain ⟨-, _, hb⟩ := hanswer.1 p hp
      obtain ⟨k, hk, -⟩ := map_eq_ok.mp hb
      exact ⟨k, hk⟩
    · obtain ⟨hmem, -, hhigh⟩ := linkAt?_eq_some (pathLinkAt_eq_ok.mp hk)
      exact hhigh.trans (hlinked.of_mem hmem).2.2
  · intro j hj hand
    obtain ⟨low, high, -, hcovered, -⟩ := h.covered hperms hj hand
    refine ⟨low, high, hcovered, h.hand_low_le hperms hstart hj hcovered,
      key (P := fun t ↦ ∃ s, l.handCurveAt j hand t = .ok s) (fun t hanswer ↦ ?_)
        fun t ⟨s, hs⟩ ↦ (hcovered.of_answer hs).2⟩
    obtain ⟨c, hc⟩ := hanswer.2 j hj hand
    obtain ⟨s, hs, -⟩ := map_eq_ok.mp hc
    exact ⟨s, hs⟩

end Ends

/-- Where image times of one event are spaced, links and curves reach to the end of the loop. They
reach over all of it if they answer at its start, and if no event follows the start too closely. -/
theorem reaches_of_spaced (hs : SymmetryGroup.Spaced l.group.period d.symmetries)
    (hlow : l.AnswersAt d.jugglers d.paths l.loop.low ∨
      ∀ m ∈ l.timeline.moments, m.time ≤ timeTolerance → m.time ≤ 0) :
    l.Reaches d.jugglers d.paths := by
  obtain ⟨f⟩ := h.filled hperms hs.separated
  constructor
  · intro p hp
    obtain ⟨a, b, hlinked, hbounds⟩ := h.linked_path hperms hp
    obtain ⟨m, hm, hmlow, t, ht, hpath⟩ := f.touched_low h hperms hp
    obtain ⟨n, hn, -, hnhigh, t', ht', hpath'⟩ := f.touched_high h hperms hp
    refine ⟨a, b, hlinked, ?_, ?_⟩
    · rcases hlow with hstart | hclear
      · exact h.path_low_le hperms hstart hp hlinked
      · rw [h.low]
        exact (hbounds ⟨m, t⟩ (Touch.mem_ofPath.mpr ⟨hm, ht, hpath⟩)).1.trans (hclear m hm hmlow)
    · rw [h.high]
      exact hnhigh.trans (hbounds ⟨n, t'⟩ (Touch.mem_ofPath.mpr ⟨hn, ht', hpath'⟩)).2
  · intro j hj hand
    obtain ⟨low, high, stops, hcovered, hstops, hreach⟩ := h.covered hperms hj hand
    obtain ⟨hhigh, hclear⟩ := f.hand_reach h hperms hs hstops hreach
    refine ⟨low, high, hcovered, ?_, h.high ▸ hhigh⟩
    rcases hlow with hstart | hno
    · exact h.hand_low_le hperms hstart hj hcovered
    · exact h.low ▸ hclear hno

end IsBuilt

end Layout

end Juggling
