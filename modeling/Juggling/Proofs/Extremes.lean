import Mathlib.Order.Bounds.Basic
import Mathlib.Order.Interval.Set.UnorderedInterval
import Juggling.Proofs.Smooth

namespace Juggling

variable {α : Type} [Exact α]

namespace Extreme

/-- Whether a number is the greatest or the least of some numbers. -/
def Ends : Extreme → Set α → α → Prop
  | highest => IsGreatest
  | lowest => IsLeast

/-- Whether a corner is that of the smallest box around some places: every component is that of one
of the places. -/
def IsOf (e : Extreme) (places : Set (Coordinate α)) (c : Coordinate α) : Prop :=
  ∀ i, e.Ends ((·.along i) '' places) (c.along i)

variable {e : Extreme} {places places' : Set (Coordinate α)} {c c' : Coordinate α}

namespace IsOf

theorem singleton (c : Coordinate α) : e.IsOf {c} c := by
  intro i
  rw [Set.image_singleton]
  cases e
  · exact isGreatest_singleton
  · exact isLeast_singleton

theorem union (h : e.IsOf places c) (h' : e.IsOf places' c') :
    e.IsOf (places ∪ places') (e.pick c c') := by
  intro i
  rw [Set.image_union]
  cases e
  · have hmax : (pick .highest c c').along i = max (c.along i) (c'.along i) := by
      cases i <;> exact Scalar.larger_eq _ _
    rw [hmax]
    exact (h i).union (h' i)
  · have hmin : (pick .lowest c c').along i = min (c.along i) (c'.along i) := by
      cases i <;> exact Scalar.smaller_eq _ _
    rw [hmin]
    exact (h i).union (h' i)

theorem foldl (h : e.IsOf places c) (ps : List (Coordinate α)) :
    e.IsOf (places ∪ {p | p ∈ ps}) (ps.foldl e.pick c) := by
  induction ps generalizing places c with
  | nil => simpa using h
  | cons p ps ih =>
    have hsets : places ∪ {q | q ∈ p :: ps} = places ∪ {p} ∪ {q | q ∈ ps} := by
      ext q
      simp [or_assoc, or_left_comm]
    rw [hsets, List.foldl_cons]
    exact ih (h.union (singleton p))

/-- Between places there may be others that do not change the box. -/
theorem of_between (h : e.IsOf places c) (hsub : places ⊆ places')
    (hbetween : ∀ q ∈ places', ∀ i, ∃ p ∈ places, ∃ p' ∈ places,
      q.along i ∈ Set.uIcc (p.along i) (p'.along i)) : e.IsOf places' c := by
  intro i
  have hmono := Set.image_mono (f := fun a : Coordinate α ↦ a.along i) hsub
  cases e
  · refine ⟨hmono (h i).1, ?_⟩
    rintro _ ⟨q, hq, rfl⟩
    obtain ⟨p, hp, p', hp', -, hle⟩ := hbetween q hq i
    exact hle.trans (sup_le ((h i).2 ⟨p, hp, rfl⟩) ((h i).2 ⟨p', hp', rfl⟩))
  · refine ⟨hmono (h i).1, ?_⟩
    rintro _ ⟨q, hq, rfl⟩
    obtain ⟨p, hp, p', hp', hle, -⟩ := hbetween q hq i
    exact le_trans (le_inf ((h i).2 ⟨p, hp, rfl⟩) ((h i).2 ⟨p', hp', rfl⟩)) hle

end IsOf

theorem isOf_of_ofList? {ps : List (Coordinate α)} (h : e.ofList? ps = some c) :
    e.IsOf {p | p ∈ ps} c := by
  cases ps with
  | nil => cases h
  | cons p ps =>
    obtain rfl := Option.some.inj h
    have hsets : {q | q ∈ p :: ps} = {p} ∪ {q | q ∈ ps} := by
      ext q
      simp
    rw [hsets]
    exact (IsOf.singleton p).foldl ps

end Extreme

namespace Window

def times (w : Window α) : Set α := Set.Icc w.low w.high

theorem inside_iff {w : Window α} {t : α} : w.inside t = true ↔ w.low < t ∧ t < w.high := by
  simp [inside]

theorem clip?_eq_none {w v : Window α} : w.clip? v = none ↔ w.times ∩ v.times = ∅ := by
  rw [times, times, Set.Icc_inter_Icc, Set.Icc_eq_empty_iff, sup_comm, inf_comm]
  simp only [clip?, Scalar.larger_eq, Scalar.smaller_eq]
  split_ifs with h
  · exact iff_of_false not_false (not_not.mpr h)
  · exact iff_of_true rfl h

theorem of_clip? {w v u : Window α} (h : w.clip? v = some u) :
    u.times = w.times ∩ v.times ∧ w.low ≤ u.low ∧ u.low ≤ u.high ∧ u.high ≤ w.high := by
  simp only [clip?, Scalar.larger_eq, Scalar.smaller_eq, max_comm v.low, min_comm v.high] at h
  split_ifs at h with hle
  obtain rfl := Option.some.inj h
  refine ⟨?_, le_max_left _ _, hle, min_le_left _ _⟩
  simp only [times, Set.Icc_inter_Icc]

end Window

/-- Whether the places on a list are where a motion is within a window, and all other places that
the motion has there are between them. -/
structure Decides (position : α → Coordinate α) (w : Window α) (ps : List (Coordinate α)) :
    Prop where
  place : ∀ p ∈ ps, ∃ t ∈ w.times, position t = p
  between : ∀ t ∈ w.times, ∀ i, ∃ p ∈ ps, ∃ q ∈ ps,
    (position t).along i ∈ Set.uIcc (p.along i) (q.along i)

theorem Decides.isOf {position : α → Coordinate α} {w : Window α} {ps : List (Coordinate α)}
    {e : Extreme} {c : Coordinate α} (h : Decides position w ps) (hc : e.ofList? ps = some c) :
    e.IsOf (position '' w.times) c := by
  refine (Extreme.isOf_of_ofList? hc).of_between h.place ?_
  rintro _ ⟨t, ht, rfl⟩ i
  exact h.between t ht i

/-- Whether the answers for windows are the extremes of a motion over the part of its range that is
within the window, and missing if there is no such part. -/
def Tight (position : α → Coordinate α) (range : Window α)
    (extreme : Extreme → Window α → Option (Coordinate α)) : Prop :=
  ∀ e w, (extreme e w = none ↔ range.times ∩ w.times = ∅) ∧
    ∀ c, extreme e w = some c → e.IsOf (position '' (range.times ∩ w.times)) c

theorem Tight.of_decides {position : α → Coordinate α} {range : Window α}
    {ps : Window α → List (Coordinate α)}
    (h : ∀ w, range.low ≤ w.low → w.low ≤ w.high → w.high ≤ range.high →
      Decides position w (ps w)) :
    Tight position range fun e w ↦ (range.clip? w).bind fun u ↦ e.ofList? (ps u) := by
  intro e w
  beta_reduce
  cases hclip : range.clip? w with
  | none =>
    exact ⟨⟨fun _ ↦ Window.clip?_eq_none.mp hclip, fun _ ↦ rfl⟩, fun c hc ↦ by cases hc⟩
  | some u =>
    obtain ⟨htimes, hlow, hle, hhigh⟩ := Window.of_clip? hclip
    have hdecides := h u hlow hle hhigh
    rw [← htimes]
    refine ⟨⟨fun hnone ↦ ?_, fun hempty ↦ ?_⟩, fun c hc ↦ hdecides.isOf hc⟩
    · obtain ⟨p, hp, -⟩ := hdecides.between u.low ⟨le_rfl, hle⟩ .x
      obtain ⟨q, ps', hps⟩ := List.exists_cons_of_ne_nil (List.ne_nil_of_mem hp)
      rw [Option.bind_some, hps] at hnone
      cases hnone
    · exact absurd (show u.low ∈ u.times from ⟨le_rfl, hle⟩) (hempty ▸ Set.notMem_empty _)

/-- Whether a quantity keeps its sign, unless one of some times is passed. -/
def KeepsSign (f : α → α) (turns : List α) : Prop :=
  ∀ u v, (∀ s ∈ turns, ¬(u < s ∧ s < v)) →
    (∀ t, u ≤ t → t ≤ v → 0 ≤ f t) ∨ ∀ t, u ≤ t → t ≤ v → f t ≤ 0

namespace KeepsSign

variable {f g : α → α} {turns : List α}

theorem const (k : α) : KeepsSign (fun _ ↦ k) turns := fun _ _ _ ↦
  (le_total 0 k).imp (fun h _ _ _ ↦ h) fun h _ _ _ ↦ h

theorem root {r : α} (h : r ∈ turns) : KeepsSign (· - r) turns := by
  intro u v hturns
  rcases le_or_gt r u with hle | hlt
  · exact .inl fun t ht _ ↦ sub_nonneg.mpr (hle.trans ht)
  · exact .inr fun t _ ht ↦ sub_nonpos.mpr (ht.trans (not_lt.mp fun hv ↦ hturns r h ⟨hlt, hv⟩))

theorem mul (hf : KeepsSign f turns) (hg : KeepsSign g turns) :
    KeepsSign (fun t ↦ f t * g t) turns := by
  intro u v hturns
  rcases hf u v hturns with hf | hf <;> rcases hg u v hturns with hg | hg
  · exact .inl fun t ht ht' ↦ mul_nonneg (hf t ht ht') (hg t ht ht')
  · exact .inr fun t ht ht' ↦ mul_nonpos_of_nonneg_of_nonpos (hf t ht ht') (hg t ht ht')
  · exact .inr fun t ht ht' ↦ mul_nonpos_of_nonpos_of_nonneg (hf t ht ht') (hg t ht ht')
  · exact .inl fun t ht ht' ↦ mul_nonneg_of_nonpos_of_nonpos (hf t ht ht') (hg t ht ht')

theorem congr (hg : KeepsSign g turns) (h : ∀ t, f t = g t) : KeepsSign f turns := by
  obtain rfl : f = g := funext h
  exact hg

end KeepsSign

/-- Whether a quantity stays between its values at any two times within a window, unless one of
some times is passed between them. -/
def Tame (f : α → α) (turns : List α) (w : Window α) : Prop :=
  ∀ u v, w.low ≤ u → v ≤ w.high → (∀ s ∈ turns, ¬(u < s ∧ s < v)) →
    ∀ t, u ≤ t → t ≤ v → f t ∈ Set.uIcc (f u) (f v)

namespace Tame

variable {f g h : α → α} {turns turns' : List α} {w : Window α} {low high u : α}

theorem mono (hf : Tame f turns w)
    (hturns : ∀ s ∈ turns, w.low < s → s < w.high → s ∈ turns') : Tame f turns' w :=
  fun u v hu hv hno ↦ hf u v hu hv fun s hs ⟨hus, hsv⟩ ↦
    hno s (hturns s hs (hu.trans_lt hus) (hsv.trans_le hv)) ⟨hus, hsv⟩

theorem within {v : Window α} (hf : Tame f turns w) (hlow : w.low ≤ v.low)
    (hhigh : v.high ≤ w.high) : Tame f turns v :=
  fun s t hs ht ↦ hf s t (hlow.trans hs) (ht.trans hhigh)

theorem congr (hg : Tame g turns w) (heq : ∀ t ∈ w.times, f t = g t) : Tame f turns w := by
  intro u v hu hv hno t hut htv
  rw [heq u ⟨hu, (hut.trans htv).trans hv⟩, heq v ⟨hu.trans (hut.trans htv), hv⟩,
    heq t ⟨hu.trans hut, htv.trans hv⟩]
  exact hg u v hu hv hno t hut htv

theorem max_const (hf : Tame f turns w) (k : α) : Tame (fun t ↦ max (f t) k) turns w := by
  intro u v hu hv hno t hut htv
  obtain ⟨hlow, hhigh⟩ := hf u v hu hv hno t hut htv
  exact ⟨(max_min_distrib_right _ _ k).ge.trans (max_le_max_right k hlow),
    (max_le_max_right k hhigh).trans (max_max_max_comm _ _ k k ▸ by rw [max_self])⟩

/-- A quantity that changes over from one to another at a turn, where both are alike. -/
theorem switch (hu : u ∈ turns) (hg : Tame g turns ⟨low, u⟩) (hh : Tame h turns ⟨u, high⟩)
    (heq : g u = h u) (hbefore : ∀ t < u, f t = g t) (hafter : ∀ t, u ≤ t → f t = h t) :
    Tame f turns ⟨low, high⟩ := by
  intro s t hs ht hno
  rcases le_or_gt t u with hle | hlt
  · refine hg.congr (fun r hr ↦ ?_) s t hs hle hno
    rcases hr.2.lt_or_eq with hr | rfl
    · exact hbefore r hr
    · rw [hafter _ le_rfl, heq]
  · exact hh.congr (fun r hr ↦ hafter r hr.1) s t
      (not_lt.mp fun hsu ↦ hno u hu ⟨hsu, hlt⟩) ht hno

/-- The ends of a window and the turns inside it decide over the window. -/
theorem exists_between (hf : Tame f turns w) {t : α} (ht : t ∈ w.times) :
    ∃ u ∈ w.low :: w.high :: turns.filter w.inside, ∃ v ∈ w.low :: w.high :: turns.filter w.inside,
      f t ∈ Set.uIcc (f u) (f v) := by
  induction turns generalizing w with
  | nil => exact ⟨w.low, by simp, w.high, by simp, hf _ _ le_rfl le_rfl (by simp) t ht.1 ht.2⟩
  | cons s turns ih =>
    by_cases hs : w.low < s ∧ s < w.high
    · -- The window is split at the turn.
      have key {v : Window α} (hlow : w.low ≤ v.low) (hhigh : v.high ≤ w.high)
          (hv : ∀ r, v.low < r → r < v.high → r ≠ s) (ht : t ∈ v.times)
          (hends : v.low ∈ [w.low, s] ∧ v.high ∈ [w.high, s]) :
          ∃ u ∈ w.low :: w.high :: (s :: turns).filter w.inside,
            ∃ v ∈ w.low :: w.high :: (s :: turns).filter w.inside,
              f t ∈ Set.uIcc (f u) (f v) := by
        have htame : Tame f turns v := (hf.within hlow hhigh).mono fun r hr hr' hr'' ↦
          (List.mem_cons.mp hr).resolve_left (hv r hr' hr'')
        have hsub : ∀ r ∈ v.low :: v.high :: turns.filter v.inside,
            r ∈ w.low :: w.high :: (s :: turns).filter w.inside := by
          intro r hr
          simp only [List.mem_cons, List.mem_filter, Window.inside_iff, List.not_mem_nil,
            or_false] at hr hends ⊢
          rcases hr with rfl | rfl | ⟨hr, hr', hr''⟩
          · exact hends.1.imp_right fun h ↦ .inr ⟨.inl h, h ▸ hs⟩
          · exact .inr (hends.2.imp_right fun h ↦ ⟨.inl h, h ▸ hs⟩)
          · exact .inr (.inr ⟨.inr hr, hlow.trans_lt hr', hr''.trans_le hhigh⟩)
        obtain ⟨u, hu, v', hv', hmem⟩ := ih htame ht
        exact ⟨u, hsub u hu, v', hsub v' hv', hmem⟩
      rcases le_total t s with hle | hle
      · exact key (v := ⟨w.low, s⟩) le_rfl hs.2.le (fun r _ hr ↦ hr.ne) ⟨ht.1, hle⟩ (by simp)
      · exact key (v := ⟨s, w.high⟩) hs.1.le le_rfl (fun r hr _ ↦ hr.ne') ⟨hle, ht.2⟩ (by simp)
    · have hfilter : (s :: turns).filter w.inside = turns.filter w.inside :=
        List.filter_cons_of_neg fun hin ↦ hs (Window.inside_iff.mp hin)
      rw [hfilter]
      refine ih (hf.mono fun r hr hr' hr'' ↦ (List.mem_cons.mp hr).resolve_left ?_) ht
      rintro rfl
      exact hs ⟨hr', hr''⟩

/-- A cubic whose rate of change keeps its sign is monotone. -/
theorem cubic {a b c d o : α}
    (hrate : KeepsSign (fun t ↦ b + (t - o) * (2 * c + 3 * (t - o) * d)) turns) :
    Tame (fun t ↦ a + (t - o) * (b + (t - o) * (c + (t - o) * d))) turns w := by
  intro u v _ _ hno t hut htv
  -- Simpson's rule gives the exact change of a cubic.
  have hchange (x y : α) : a + (y - o) * (b + (y - o) * (c + (y - o) * d)) -
      (a + (x - o) * (b + (x - o) * (c + (x - o) * d))) = (y - x) / 6 *
        ((b + (x - o) * (2 * c + 3 * (x - o) * d)) +
          4 * (b + ((x + y) / 2 - o) * (2 * c + 3 * ((x + y) / 2 - o) * d)) +
          (b + (y - o) * (2 * c + 3 * (y - o) * d))) := by
    field_simp
    ring
  have hmid {x y : α} (h : x ≤ y) : x ≤ (x + y) / 2 ∧ (x + y) / 2 ≤ y := by
    constructor <;> linarith
  rcases hrate u v hno with hpos | hneg
  · have hle {x y : α} (hx : u ≤ x) (hxy : x ≤ y) (hy : y ≤ v) :
        a + (x - o) * (b + (x - o) * (c + (x - o) * d)) ≤
          a + (y - o) * (b + (y - o) * (c + (y - o) * d)) := by
      obtain ⟨hlow, hhigh⟩ := hmid hxy
      rw [← sub_nonneg, hchange]
      refine mul_nonneg (by linarith) ?_
      linarith [hpos x hx (hxy.trans hy), hpos _ (hx.trans hlow) (hhigh.trans hy),
        hpos y (hx.trans hxy) hy]
    exact Set.mem_uIcc_of_le (hle le_rfl hut htv) (hle hut htv le_rfl)
  · have hge {x y : α} (hx : u ≤ x) (hxy : x ≤ y) (hy : y ≤ v) :
        a + (y - o) * (b + (y - o) * (c + (y - o) * d)) ≤
          a + (x - o) * (b + (x - o) * (c + (x - o) * d)) := by
      obtain ⟨hlow, hhigh⟩ := hmid hxy
      rw [← sub_nonpos, hchange]
      refine mul_nonpos_of_nonneg_of_nonpos (by linarith) ?_
      linarith [hneg x hx (hxy.trans hy), hneg _ (hx.trans hlow) (hhigh.trans hy),
        hneg y (hx.trans hxy) hy]
    exact Set.mem_uIcc_of_ge (hge hut htv le_rfl) (hge le_rfl hut htv)

theorem quadratic {a b c o : α} (hrate : KeepsSign (fun t ↦ b + 2 * c * (t - o)) turns) :
    Tame (fun t ↦ a + b * (t - o) + c * (t - o) * (t - o)) turns w :=
  (cubic (a := a) (b := b) (c := c) (d := 0) (o := o) (hrate.congr fun t ↦ by ring)).congr
    fun t _ ↦ by ring

theorem straight (a b o : α) : Tame (fun t ↦ a + b * (t - o)) turns w :=
  (quadratic (a := a) (b := b) (c := 0) (o := o) ((KeepsSign.const b).congr fun t ↦ by ring)).congr
    fun t _ ↦ by ring

end Tame

/-- Along each axis a motion has its extremes at the ends of a window or at turns inside it. -/
theorem Decides.of_tame {position : α → Coordinate α} {w : Window α} {turns : List α}
    {ps : List (Coordinate α)} (htame : ∀ i, Tame (fun t ↦ (position t).along i) turns w)
    (hplace : ∀ p ∈ ps, ∃ t ∈ w.times, position t = p)
    (hps : ∀ t ∈ w.low :: w.high :: turns.filter w.inside, position t ∈ ps) :
    Decides position w ps := by
  refine ⟨hplace, fun t ht i ↦ ?_⟩
  obtain ⟨u, hu, v, hv, hmem⟩ := (htame i).exists_between ht
  exact ⟨_, hps u hu, _, hps v hv, hmem⟩

theorem Decides.of_turns {position : α → Coordinate α} {w : Window α} (hw : w.low ≤ w.high)
    {turns : List α} (htame : ∀ i, Tame (fun t ↦ (position t).along i) turns w) :
    Decides position w
      (position w.low :: position w.high :: (turns.filter w.inside).map position) := by
  rw [← List.map_cons, ← List.map_cons]
  refine .of_tame htame (fun p hp ↦ ?_) fun t ht ↦ List.mem_map_of_mem ht
  obtain ⟨t, ht, rfl⟩ := List.mem_map.mp hp
  refine ⟨t, ?_, rfl⟩
  simp only [List.mem_cons, List.mem_filter, Window.inside_iff] at ht
  rcases ht with rfl | rfl | ⟨-, hlow, hhigh⟩
  · exact ⟨le_rfl, hw⟩
  · exact ⟨hw, le_rfl⟩
  · exact ⟨hlow.le, hhigh.le⟩

end Juggling
