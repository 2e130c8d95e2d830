import Juggling.Proofs.HandAnswers
import Juggling.Proofs.Windowed

namespace Juggling

variable {α : Type} [Exact α]

namespace Extreme

/-- Whether a place is not beyond a corner of a box. -/
def Within (e : Extreme) (corner c : Coordinate α) : Prop :=
  match e with
  | highest => ∀ i, c.along i ≤ corner.along i
  | lowest => ∀ i, corner.along i ≤ c.along i

/-- Whether an answer is the corner of the smallest box around some places, or missing if there are
none. -/
def Boxes (e : Extreme) (places : Set (Coordinate α)) : Option (Coordinate α) → Prop
  | none => places = ∅
  | some c => e.IsOf places c

variable {e : Extreme} {places places' : Set (Coordinate α)} {b c : Coordinate α}

theorem IsOf.within (h : e.IsOf places b) (hc : c ∈ places) : e.Within b c := by
  cases e <;> exact fun i ↦ (h i).2 ⟨c, hc, rfl⟩

theorem IsOf.exists_along (h : e.IsOf places b) (i : Axis) :
    ∃ c ∈ places, c.along i = b.along i := by
  have := h i
  cases e <;> exact this.1

theorem Boxes.pick? {r r' : Option (Coordinate α)} (h : e.Boxes places r)
    (h' : e.Boxes places' r') : e.Boxes (places ∪ places') (e.pick? r r') := by
  cases r with
  | none =>
    obtain rfl : places = ∅ := h
    rw [Set.empty_union]
    exact h'
  | some b =>
    cases r' with
    | none =>
      obtain rfl : places' = ∅ := h'
      rw [Set.union_empty]
      exact h
    | some b' => exact IsOf.union h h'

theorem Boxes.exists_along {r : Option (Coordinate α)} (h : e.Boxes places r) (hb : r = some b)
    (i : Axis) : ∃ c ∈ places, c.along i = b.along i := by
  subst hb
  exact IsOf.exists_along h i

/-- Around places of which one is known there is a box, and it contains that place. -/
theorem Boxes.exists_within {r : Option (Coordinate α)} (h : e.Boxes places r)
    (hc : c ∈ places) : ∃ b, r = some b ∧ e.Within b c := by
  cases r with
  | none => exact absurd hc ((show places = ∅ from h) ▸ Set.notMem_empty c)
  | some b => exact ⟨b, rfl, IsOf.within h hc⟩

end Extreme

theorem Tight.boxes {position : α → Coordinate α} {range w : Window α}
    {extreme : Extreme → Window α → Option (Coordinate α)} (h : Tight position range extreme)
    (hw : w.times ⊆ range.times) (e : Extreme) :
    e.Boxes (position '' w.times) (extreme e w) := by
  obtain ⟨hnone, hsome⟩ := h e w
  rw [Set.inter_eq_right.mpr hw] at hnone hsome
  cases hr : extreme e w with
  | none => exact Set.image_eq_empty.mpr (hnone.mp hr)
  | some b => exact hsome b hr

namespace Layout

section Overlaps

variable {w v u : Window α} {t : α}

theorem times_of_overlap? (h : overlap? w v = some u) :
    u.times ⊆ w.times ∧ u.times ⊆ v.times := by
  obtain ⟨-, rfl⟩ := overlap?_eq_some.mp h
  exact ⟨fun _ ht ↦ ⟨(le_max_right _ _).trans ht.1, ht.2.trans (min_le_right _ _)⟩,
    fun _ ht ↦ ⟨(le_max_left _ _).trans ht.1, ht.2.trans (min_le_left _ _)⟩⟩

/-- Windows that share a time overlap, unless one of them ends there and the other one starts. -/
theorem exists_overlap (hw : t ∈ w.times) (hv : t ∈ v.times) (hlt : t < w.high)
    (hbeyond : t < v.high ∨ v.low < t ∧ w.low < t) :
    ∃ u, overlap? w v = some u ∧ t ∈ u.times ∧ (t < v.high → t < u.high) := by
  refine ⟨_, overlap?_eq_some.mpr ⟨?_, rfl⟩, ⟨max_le hv.1 hw.1, le_min hv.2 hw.2⟩,
    fun hlt' ↦ lt_min hlt' hlt⟩
  rcases hbeyond with hlt' | ⟨hvt, hwt⟩
  · exact (max_le hv.1 hw.1).trans_lt (lt_min hlt' hlt)
  · exact (max_lt hvt hwt).trans_le (le_min hv.2 hw.2)

end Overlaps

/-- What links answer for the parts that they take of a window makes up what they answer
together. -/
theorem extremeOver_boxes {β : Type} {e : Extreme} {range : β → Window α}
    {extreme : β → Window α → Except (InternalError α) (Option (Coordinate α))} {w : Window α}
    {links : List β} (places : β → Window α → Set (Coordinate α)) {r : Option (Coordinate α)}
    (hplaces : ∀ k ∈ links, ∀ v, overlap? w (range k) = some v → ∀ r, extreme k v = .ok r →
      e.Boxes (places k v) r)
    (hok : extremeOver e range extreme w links = .ok r) :
    e.Boxes {c | ∃ k ∈ links, ∃ v, overlap? w (range k) = some v ∧ c ∈ places k v} r := by
  -- What was found before is around some places, at first around none.
  have hfound : e.Boxes (∅ : Set (Coordinate α)) none := rfl
  unfold extremeOver at hok
  rw [← Set.empty_union {c | _}]
  revert hok hfound
  generalize (none : Option (Coordinate α)) = found
  generalize (∅ : Set (Coordinate α)) = before
  induction links generalizing found before with
  | nil =>
    intro hok hfound
    obtain rfl := pure_eq_ok.mp hok
    simpa using hfound
  | cons k links ih =>
    obtain ⟨hk, hlinks⟩ := List.forall_mem_cons.mp hplaces
    intro hok hfound
    rw [List.foldlM_cons] at hok
    obtain ⟨found', hstep, hok⟩ := bind_eq_ok.mp hok
    have hsplit : {c | ∃ x ∈ k :: links, ∃ v, overlap? w (range x) = some v ∧ c ∈ places x v} =
        {c | ∃ v, overlap? w (range k) = some v ∧ c ∈ places k v} ∪
          {c | ∃ x ∈ links, ∃ v, overlap? w (range x) = some v ∧ c ∈ places x v} := by
      ext c
      simp only [List.mem_cons, exists_eq_or_imp, Set.mem_union, Set.mem_ofPred_eq]
    rw [hsplit, ← Set.union_assoc]
    refine ih hlinks found' _ hok ?_
    cases hv : overlap? w (range k) with
    | none =>
      rw [hv] at hstep
      obtain rfl := Except.ok.inj hstep
      simpa using hfound
    | some v =>
      rw [hv] at hstep
      obtain ⟨r, hr, rfl⟩ := map_eq_ok.mp hstep
      refine hfound.pick? ?_
      simpa using hk v hv r hr

/-- The curves in a layout: those that hands follow and the ways of jugglers. -/
inductive HasCurve (l : Layout α) : Spline α → Prop
  | hand {s : Spline α} (h : s ∈ l.curves) : HasCurve l s
  | way {j : ℕ} {start period : α} {s : Spline α} {angle : Line α}
      (h : l.track j = .moving start period s angle) : HasCurve l s

variable (l : Layout α)

/-- Where a hand gets during a window, but for links that take only one moment of it. -/
def handPlaces (j : ℕ) (hand : Hand) (w : Window α) : Set (Coordinate α) :=
  {c | ∃ k ∈ l.handLinks j hand, ∃ v, overlap? w (handRange k) = some v ∧
    ∃ s, l.curveOf? k = some s ∧ c ∈ s.position '' v.times}

/-- Where a prop gets during the part of the loop that it flies or is held. -/
def passagePlaces (x : Passage α) (w : Window α) : Set (Coordinate α) :=
  match x with
  | .thrown _ _ f => f.position '' w.times
  | .held j hand => l.handPlaces j hand w

def pathPlaces (p : ℕ) : Set (Coordinate α) :=
  {c | ∃ k ∈ l.pathLinks p, ∃ v, overlap? l.loop k.range = some v ∧
    c ∈ l.passagePlaces k.passage v}

variable {l} [Numeral α] {d : Declarations α} {e : Extreme} {j p : ℕ} {hand : Hand}

namespace IsBuilt

variable (h : IsBuilt d l)
  (hperms : ∀ s ∈ d.symmetries, s.jugglers.Rearranges ∧ s.paths.Rearranges)
include h hperms

/-- A link that follows a curve follows a solved one within its time. -/
theorem curve_ok (hj : 1 ≤ j ∧ j ≤ d.jugglers) {k : HandLink α} (hk : k ∈ l.handLinks j hand)
    {s : Spline α} (hs : l.curveOf? k = some s) : l.HasCurve s ∧ Spline.ofKnots s.knots = .ok s ∧
      (s.knots.toList.map Knot.time).Pairwise (· < ·) ∧
      s.knots.range.low ≤ k.start.time ∧ k.stop.time ≤ s.knots.range.high := by
  have hmem : s ∈ l.curves := by
    obtain ⟨i, -, hi⟩ := Option.bind_eq_some_iff.mp hs
    exact Array.mem_of_getElem? hi
  obtain ⟨stops, chains, hstops, hchains, hnumbers⟩ := h.hand_ok hj hand
  obtain ⟨a, b, hlinked⟩ := h.linked_hand hperms hstops
  obtain ⟨before, mid, after, rfl, heq, hbare, hsolves, -⟩ :=
    HandCurve.chains_ok (HandLink.fresh_between stops).joined hchains
  rw [heq] at hlinked
  obtain ⟨c, hc, k', hk', hrange, hcurve⟩ := hnumbers.mem hk
  obtain ⟨a', b', -, -, hlinks⟩ := hlinked.of_mem_flatMap hc
  rw [hs] at hcurve
  have hmid : c ∈ mid := by
    by_contra hnot
    have := hbare c (by simp only [List.mem_append] at hc ⊢; tauto)
    cases hcurve.trans this
  obtain ⟨v, w, hsolve⟩ := hsolves c hmid
  obtain ⟨x, hx, hxrange⟩ := hsolve.range hlinks
  obtain ⟨y, z, hz, hok, hknots⟩ := hsolve
  obtain rfl := Option.some.inj (hcurve.trans hx)
  obtain rfl := Option.some.inj (hcurve.trans hz)
  obtain rfl := Spline.knots_ofKnots hok
  obtain ⟨htimes, -, hsorted, -⟩ := Knots.ofLists_ok hknots
  obtain ⟨hlow, -, hhigh⟩ := hlinks.of_mem hk'
  rw [← hrange] at hlow hhigh
  exact ⟨.hand hmem, hok, htimes ▸ hsorted, hxrange ▸ hlow, hxrange ▸ hhigh⟩

section Boxes

variable (hcurves : ∀ s, l.HasCurve s → ∀ q ∈ s.first :: s.rest, q.Sharp ∧ q.Rooted)
include hcurves

theorem handExtremeOver_boxes (hj : 1 ≤ j ∧ j ≤ d.jugglers) {w : Window α}
    {r : Option (Coordinate α)} (hok : l.handExtremeOver e j hand w = .ok r) :
    e.Boxes (l.handPlaces j hand w) r := by
  refine extremeOver_boxes
    (fun k v ↦ {c | ∃ s, l.curveOf? k = some s ∧ c ∈ s.position '' v.times})
    (fun k hk v hv r hr ↦ ?_) hok
  cases hs : l.curveOf? k with
  | none =>
    rw [hs] at hr
    cases hr
  | some s =>
    rw [hs] at hr
    obtain rfl := Except.ok.inj hr
    obtain ⟨hcurve, hsolved, hsorted, hlow, hhigh⟩ := h.curve_ok hperms hj hk hs
    have hwithin : v.times ⊆ s.knots.range.times := fun t ht ↦ by
      obtain ⟨hstart, hstop⟩ := (times_of_overlap? hv).2 ht
      exact ⟨hlow.trans hstart, hstop.trans hhigh⟩
    have hplaces : {c | ∃ s', some s = some s' ∧ c ∈ s'.position '' v.times} =
        s.position '' v.times := by
      ext c
      simp
    rw [hplaces]
    exact (Spline.tight hsolved hsorted (hcurves s hcurve)).boxes hwithin e

theorem pathExtreme_boxes (hp : 1 ≤ p ∧ p ≤ d.paths) {r : Option (Coordinate α)}
    (hok : l.pathExtreme e p = .ok r) : e.Boxes (l.pathPlaces p) r := by
  refine extremeOver_boxes (fun k v ↦ l.passagePlaces k.passage v)
    (fun k hk v hv r hr ↦ ?_) hok
  obtain ⟨-, -, hpass⟩ := h.path_link hp hk
  cases hpassage : k.passage with
  | held j hand =>
    rw [hpassage] at hr
    exact h.handExtremeOver_boxes hperms hcurves (h.held hperms hp hk hpassage) hr
  | thrown kind modifier f =>
    rw [hpassage] at hr
    obtain rfl := Except.ok.inj hr
    rcases PathLink.passage?_ok hpass with ⟨_, _, _, heq, -, -, hf⟩ | ⟨heq, -⟩
    · cases hpassage.symm.trans heq
      refine (Flight.tight hf).boxes (fun t ht ↦ ?_) e
      rw [(Flight.build_ok hf).2]
      exact (times_of_overlap? hv).2 ht
    · cases hpassage.symm.trans heq

end Boxes

theorem exists_handLink_to (hj : 1 ≤ j ∧ j ≤ d.jugglers) {m n : Moment α}
    (hm : m ∈ Moment.ofHand l.timeline.moments j hand)
    (hn : n ∈ Moment.ofHand l.timeline.moments j hand) (hlt : m.time < n.time) :
    ∃ k ∈ l.handLinks j hand, k.stop.time = n.time := by
  obtain ⟨stops, chains, hstops, hchains, hnumbers⟩ := h.hand_ok hj hand
  obtain ⟨-, -, -, -, hlinks, -⟩ :=
    HandCurve.chains_ok (HandLink.fresh_between stops).joined hchains
  have hranges := hnumbers.handRange
  rw [← hlinks] at hranges
  obtain ⟨x, hx, rfl⟩ := exists_link_to_of_lt h hperms hstops hm hn hlt
  obtain ⟨k, hk, hrange⟩ := exists_of_forall₂ hranges hx
  exact ⟨k, hk, (Window.mk.inj hrange).2⟩

/-- A known place of a hand is one of those it gets to during a window, unless the window starts
there and no link of the hand leads on. -/
theorem mem_handPlaces (hj : 1 ≤ j ∧ j ≤ d.jugglers) {w : Window α} {t : α} {c : Coordinate α}
    (ht : t ∈ w.times) (hlt : t < w.high) (hc : l.handPlaceWithin j hand t = .ok c)
    (hbeyond : w.low < t ∨ ∃ k ∈ l.handLinks j hand, t < k.stop.time) :
    c ∈ l.handPlaces j hand w := by
  obtain ⟨s, hs, rfl⟩ := map_eq_ok.mp hc
  obtain ⟨k, hk, hcurve⟩ := handCurveAt_eq_ok.mp hs
  obtain ⟨hmem, hrange⟩ := linkAt?_eq_some hk
  obtain ⟨⟨a, b, hlinked⟩, hspec⟩ := h.linked_handLinks hperms hj hand
  have hon : t < k.stop.time ∨ k.start.time < t ∧ w.low < t := by
    rcases hbeyond with hlow | ⟨k', hk', hlt'⟩
    · rcases hrange.2.lt_or_eq with hlt' | heq
      · exact .inl hlt'
      · exact .inr ⟨heq ▸ (hspec k hmem).1, hlow⟩
    · exact .inl (lt_of_linkAt? hlinked (hlt'.trans_le (hlinked.of_mem hk').2.2) hk)
  obtain ⟨v, hv, htv, -⟩ := exists_overlap ht hrange hlt hon
  exact ⟨k, hmem, v, hv, s, hcurve, t, htv, rfl⟩

/-- A known place of a prop is one of those it gets to during the loop, if a link of it leads on
from there. -/
theorem mem_pathPlaces (hp : 1 ≤ p ∧ p ≤ d.paths) {t : α} {c : Coordinate α}
    (hc : l.pathPlace p t = .ok c) (hbeyond : ∃ k ∈ l.pathLinks p, l.wrapTime t < k.stop.time) :
    c ∈ l.pathPlaces p := by
  obtain ⟨hlow, hhigh⟩ := h.wrapTime_mem hperms t
  obtain ⟨k, hk, hc⟩ := bind_eq_ok.mp hc
  rw [pathLinkAt_eq_ok] at hk
  obtain ⟨hmem, hrange⟩ := linkAt?_eq_some hk
  obtain ⟨a, b, hlinked, -⟩ := h.linked_path hperms hp
  obtain ⟨k', hk', hlt'⟩ := hbeyond
  have hlt : l.wrapTime t < k.stop.time :=
    lt_of_linkAt? hlinked (hlt'.trans_le (hlinked.of_mem hk').2.2) hk
  obtain ⟨v, hv, ht, hstop⟩ := exists_overlap ⟨hlow, hhigh.le⟩ hrange hhigh (.inl hlt)
  refine ⟨k, hmem, v, hv, ?_⟩
  cases hpassage : k.passage with
  | thrown kind modifier f =>
    rw [hpassage] at hc
    exact ⟨l.wrapTime t, ht, Except.ok.inj hc⟩
  | held j hand =>
    rw [hpassage] at hc
    have hj := h.held hperms hp hmem hpassage
    refine h.mem_handPlaces hperms hj ht (hstop hlt) hc (.inr ?_)
    -- The hand holds the prop up to an event of its own.
    obtain ⟨ha, hb, hpass⟩ := h.path_link hp hmem
    rcases PathLink.passage?_ok hpass with ⟨_, _, _, heq, -⟩ | ⟨heq, -, hsame⟩
    · cases hpassage.symm.trans heq
    · cases hpassage.symm.trans heq
      have hm := mem_ofHand.mpr ⟨(Touch.mem_ofPath.mp ha).1, rfl, rfl⟩
      have hn := mem_ofHand.mpr ⟨(Touch.mem_ofPath.mp hb).1, hsame⟩
      obtain ⟨x, hx, hstop⟩ := h.exists_handLink_to hperms hj hm hn (hrange.1.trans_lt hlt)
      exact ⟨x, hx, hlt.trans_eq hstop.symm⟩

end IsBuilt

end Layout

end Juggling
