import Juggling.Proofs.Built
import Juggling.Proofs.Knots

namespace Juggling

variable {α : Type}

namespace Numbers

variable {l : Layout α} {links : List (HandLink α)} {chains : List (Chain α)}

theorem handRange (h : Numbers l.curves chains links) :
    List.Forall₂ (fun k k' ↦ Layout.handRange k = Layout.handRange k') links
      (chains.flatMap (·.links)) := by
  have hmap : chains.flatMap (·.links) =
      (chains.flatMap fun c ↦ c.links.map (c, ·)).map Prod.snd := by
    simp [List.map_flatMap, List.map_map, Function.comp_def]
  rw [hmap, List.forall₂_map_right_iff]
  refine h.imp fun k p hk ↦ ?_
  rw [hk.1]
  rfl

theorem split {before after : List (Chain α)}
    (h : Numbers l.curves (before ++ after) links) : ∃ xs ys, links = xs ++ ys ∧
      Numbers l.curves before xs ∧ Numbers l.curves after ys := by
  rw [Numbers, List.flatMap_append] at h
  exact ⟨_, _, (List.take_append_drop _ links).symm, List.forall₂_take_append _ _ _ h,
    List.forall₂_drop_append _ _ _ h⟩

theorem mem (h : Numbers l.curves chains links) {k : HandLink α} (hk : k ∈ links) :
    ∃ c ∈ chains, ∃ k' ∈ c.links,
      Layout.handRange k = Layout.handRange k' ∧ l.curveOf? k = c.curve := by
  obtain ⟨p, hmem, heq, hcurve⟩ := exists_of_forall₂ h.flip hk
  obtain ⟨c, hc, hp⟩ := List.mem_flatMap.mp hmem
  obtain ⟨k', hk', rfl⟩ := List.mem_map.mp hp
  refine ⟨c, hc, k', hk', ?_, hcurve⟩
  rw [heq]
  rfl

end Numbers

variable [Exact α]

namespace Linked

variable {β γ : Type} {range : β → Window α} {range' : γ → Window α} {a b : α} {xs : List β}
  {ys : List γ}

theorem congr (h : Linked range a xs b)
    (hall : List.Forall₂ (fun y x ↦ range' y = range x) ys xs) : Linked range' a ys b := by
  induction hall generalizing a with
  | nil => exact h
  | cons hyx _ ih =>
    obtain ⟨rfl, hle, hxs⟩ := h
    exact ⟨by rw [hyx], by rwa [hyx], by rw [hyx]; exact ih hxs⟩

theorem high_getLast? {k : β} (h : Linked range a xs b) (hk : xs.getLast? = some k) :
    (range k).high = b := by
  obtain ⟨ys, rfl⟩ := List.getLast?_eq_some_iff.mp hk
  obtain ⟨_, -, -, -, h⟩ := h.split
  exact h

theorem low_head? {k : β} (h : Linked range a xs b) (hk : xs.head? = some k) :
    (range k).low = a := by
  cases xs with
  | nil => cases hk
  | cons x xs =>
    obtain rfl := Option.some.inj hk
    exact h.1

theorem of_mem_flatMap {f : γ → List β} {c : γ} {cs : List γ} (h : Linked range a (cs.flatMap f) b)
    (hc : c ∈ cs) : ∃ a' b', a ≤ a' ∧ b' ≤ b ∧ Linked range a' (f c) b' := by
  obtain ⟨before, after, rfl⟩ := List.append_of_mem hc
  rw [List.flatMap_append, List.flatMap_cons] at h
  obtain ⟨a', hbefore, h⟩ := h.split
  obtain ⟨b', hc, hafter⟩ := h.split
  exact ⟨a', b', hbefore.le, hafter.le, hc⟩

end Linked

theorem HandCurve.Solves.range {x : HandCurve α} {v w : Option (Coordinate α)} {c : Chain α}
    {a b : α} (h : x.Solves v w c) (hlinked : Linked Layout.handRange a c.links b) :
    ∃ s, c.curve = some s ∧ s.knots.range = ⟨a, b⟩ := by
  obtain ⟨k, s, hs, hsolve, hk⟩ := h
  refine ⟨s, hs, ?_⟩
  rw [Spline.knots_ofKnots hsolve]
  have htimes := (Knots.ofLists_ok hk).1
  have hlow := k.low_range
  have hhigh := k.high_range
  rw [htimes] at hlow hhigh
  cases hlast : c.links.getLast? with
  | none =>
    simp [Chain.stops, List.getLast?_eq_none_iff.mp hlast] at hlow
  | some l =>
    obtain ⟨ls, hls⟩ := List.getLast?_eq_some_iff.mp hlast
    have hb := hlinked.high_getLast? hlast
    have ha : (c.links.head?.map fun l ↦ (Layout.handRange l).low) = some a := by
      rw [Option.map_eq_some_iff]
      cases hhead : c.links.head? with
      | none => simp [List.head?_eq_none_iff.mp hhead] at hlast
      | some f => exact ⟨f, rfl, hlinked.low_head? hhead⟩
    simp only [Chain.stops, hlast, Option.map_some, Option.toList_some, List.map_append,
      List.map_cons, List.map_nil, List.getLast?_concat, Option.some.injEq] at hhigh
    have hlow' : k.range.low = a := by
      rw [← Option.some.injEq, ← ha, ← hlow, Chain.stops, List.map_append, List.head?_append, hls]
      cases ls <;> simp [Layout.handRange, Moment.time]
    rw [← hlow', ← hb]
    exact congrArg _ hhigh.symm

/-- From when to when the curves of a hand go: from its first velocity to the last one, or, where
there are no velocities, twice around from the link over the start of the loop. -/
def HandCurve.Reach (x : HandCurve α) (moments : List (Moment α)) (j : ℕ) (hand : Hand)
    (links : List (HandLink α)) (low high : α) : Prop :=
  (Moment.ofHand moments j hand).any (·.event.determinesVelocity) = true ∧
    (∀ k ∈ links, k.startVelocity ≠ none → low ≤ k.start.time) ∧
    (∀ k ∈ links, k.endVelocity ≠ none → k.stop.time ≤ high) ∨
  (Moment.ofHand moments j hand).any (·.event.determinesVelocity) = false ∧
    ∃ f ∈ links, ∃ k ∈ links, ∃ f' ∈ links, ∃ k' ∈ links, f.start.time = low ∧
      x.straddles f = true ∧ x.closes f.start k = true ∧ k.stop.time = f'.start.time ∧
      x.closes f'.start k' = true ∧ k'.stop.time = high

theorem HandCurve.Ends.reach {x : HandCurve α} {moments : List (Moment α)} {j : ℕ} {hand : Hand}
    {before mid after : List (Chain α)} {a low high b : α}
    (h : x.Ends moments j hand before mid after)
    (hbefore : Linked Layout.handRange a (before.flatMap (·.links)) low)
    (hmid : Linked Layout.handRange low (mid.flatMap (·.links)) high)
    (hafter : Linked Layout.handRange high (after.flatMap (·.links)) b) :
    x.Reach moments j hand ((before ++ mid ++ after).flatMap (·.links)) low high := by
  rw [List.flatMap_append, List.flatMap_append]
  rcases h with ⟨hdetermines, hstart, hend⟩ | ⟨hnone, c, d, rfl, hc, hd, f, hf, hstraddles⟩
  · refine .inl ⟨hdetermines, fun k hk hsome ↦ ?_, fun k hk hsome ↦ ?_⟩
    · rcases List.mem_append.mp hk with hk | hk
      · rcases List.mem_append.mp hk with hk | hk
        · exact absurd (hstart k hk) hsome
        · exact (hmid.of_mem hk).1
      · exact hmid.le.trans (hafter.of_mem hk).1
    · rcases List.mem_append.mp hk with hk | hk
      · rcases List.mem_append.mp hk with hk | hk
        · exact (hbefore.of_mem hk).2.2.trans hmid.le
        · exact (hmid.of_mem hk).2.2
      · exact absurd (hend k hk) hsome
  · obtain ⟨f₀, k, ks, hlinks, hf₀, hcloses, -⟩ := hc.closes
    obtain ⟨f', k', ks', hlinks', hf', hcloses', -⟩ := hd.closes
    obtain rfl := Option.some.inj (hf.symm.trans hf₀)
    simp only [List.flatMap_cons, List.flatMap_nil, List.append_nil] at hmid ⊢
    obtain ⟨t, hmid, hmid'⟩ := hmid.split
    have hmem {k : HandLink α} (hk : k ∈ c.links ∨ k ∈ d.links) :
        k ∈ before.flatMap (·.links) ++ (c.links ++ d.links) ++ after.flatMap (·.links) :=
      List.mem_append_left _ (List.mem_append_right _ (List.mem_append.mpr hk))
    refine .inr ⟨hnone, f, hmem (.inl (List.mem_of_head? hf)), k, hmem (.inl (by simp [hlinks])),
      f', hmem (.inr (List.mem_of_head? hf')), k', hmem (.inr (by simp [hlinks'])),
      hmid.low_head? hf, hstraddles, hcloses, ?_, hcloses', ?_⟩
    · exact (hmid.high_getLast? (by simp [hlinks])).trans (hmid'.low_head? hf').symm
    · exact hmid'.high_getLast? (by simp [hlinks'])

namespace Layout

def Follows (l : Layout α) (k : HandLink α) : Prop :=
  ∃ s, l.curveOf? k = some s ∧ s.knots.range.low ≤ k.start.time ∧ k.stop.time ≤ s.knots.range.high

/-- Links in order of time of which those between two times follow curves, and no others do. -/
def Covered (l : Layout α) (links : List (HandLink α)) (low high : α) : Prop :=
  ∃ before mid after a b, links = before ++ mid ++ after ∧ Linked handRange a before low ∧
    Linked handRange low mid high ∧ Linked handRange high after b ∧
    (∀ k ∈ before ++ after, l.curveOf? k = none) ∧ ∀ k ∈ mid, l.Follows k

variable [Numeral α] {d : Declarations α} {l : Layout α}

namespace IsBuilt

variable (h : IsBuilt d l)
  (hperms : ∀ s ∈ d.symmetries, s.jugglers.Rearranges ∧ s.paths.Rearranges)

include h hperms

theorem linked_path {p : ℕ} (hp : 1 ≤ p ∧ p ≤ d.paths) :
    ∃ a b, Linked PathLink.range a (l.pathLinks p) b ∧
      ∀ t ∈ Touch.ofPath l.timeline.moments p, a ≤ t.time ∧ t.time ≤ b := by
  obtain ⟨hist, hget, hbuild⟩ := h.path_ok hp
  obtain ⟨htouches, hlinks⟩ := PathHistory.build_ok hbuild
  have hsorted := (h.listed hperms).sorted_time_ofPath p
  rw [pathLinks, Numbered.getD_of_get? hget, ← htouches]
  rw [← htouches] at hsorted
  cases hnil : hist.touches with
  | nil =>
    have hempty : hist.links = [] := by simpa [hnil, steps] using hlinks
    rw [hempty]
    exact ⟨0, 0, rfl, by simp⟩
  | cons t ts =>
    rw [hnil] at hlinks hsorted
    refine ⟨_, _, linked_of_steps hsorted (hlinks.imp fun s l hl ↦ ?_), fun t' ht' ↦ ?_⟩
    · obtain ⟨_, -, rfl⟩ := PathLink.build_ok hl
      rfl
    · have hfirst := head_rel hsorted (fun t ↦ le_refl t.time) ht' rfl
      have hlast := rel_getLast hsorted (fun t ↦ le_refl t.time) ht'
        (List.getLast?_eq_some_getLast (List.cons_ne_nil t ts))
      exact ⟨hfirst, hlast⟩

theorem sorted_stops {j : ℕ} {hand : Hand} {stops : List (Moment α × Option VelocityRef)}
    (hstops : HandLink.Stops l.paths l.timeline.moments j hand stops) :
    stops.Pairwise fun s s' ↦ s.1.time ≤ s'.1.time := by
  have := (h.listed hperms).sorted_ofHand j hand
  rw [← hstops.moments, List.pairwise_map] at this
  exact this.imp fun h ↦ h.2

theorem linked_hand {j : ℕ} {hand : Hand} {stops : List (Moment α × Option VelocityRef)}
    (hstops : HandLink.Stops l.paths l.timeline.moments j hand stops) :
    ∃ a b, Linked handRange a ((steps stops).map (HandLink.between j hand)) b := by
  have hsorted := h.sorted_stops hperms hstops
  cases stops with
  | nil => exact ⟨0, 0, rfl⟩
  | cons s ss =>
    refine ⟨_, _, linked_of_steps hsorted ?_⟩
    exact List.forall₂_map_right_iff.mpr (List.forall₂_same.mpr fun p _ ↦ rfl)

/-- The links of a hand that follow curves stand together. -/
theorem covered {j : ℕ} (hj : 1 ≤ j ∧ j ≤ d.jugglers) (hand : Hand) :
    ∃ low high stops, l.Covered (l.handLinks j hand) low high ∧
      HandLink.Stops l.paths l.timeline.moments j hand stops ∧
      HandCurve.Reach ⟨globalPlace l.tracks, l.paths, l.loop⟩ l.timeline.moments j hand
        ((steps stops).map (HandLink.between j hand)) low high := by
  obtain ⟨stops, chains, hstops, hchains, hnumbers⟩ := h.hand_ok hj hand
  obtain ⟨a, b, hlinked⟩ := h.linked_hand hperms hstops
  obtain ⟨before, mid, after, rfl, heq, hbare, hsolves, hends⟩ :=
    HandCurve.chains_ok (HandLink.fresh_between stops).joined hchains
  rw [heq, List.flatMap_append, List.flatMap_append] at hlinked
  obtain ⟨high, hlinked, hafter⟩ := hlinked.split
  obtain ⟨low, hbefore, hmid⟩ := hlinked.split
  obtain ⟨xs, zs, hsplit, hxs, hzs⟩ := hnumbers.split
  obtain ⟨xs, ys, rfl, hxs, hys⟩ := hxs.split
  refine ⟨low, high, stops, ⟨xs, ys, zs, a, b, hsplit, hbefore.congr hxs.handRange,
    hmid.congr hys.handRange, hafter.congr hzs.handRange, fun k hk ↦ ?_, fun k hk ↦ ?_⟩, hstops,
    heq ▸ hends.reach hbefore hmid hafter⟩
  · rcases List.mem_append.mp hk with hk | hk
    · obtain ⟨c, hc, -, -, -, hcurve⟩ := hxs.mem hk
      rw [hcurve]
      exact hbare c (List.mem_append_left _ hc)
    · obtain ⟨c, hc, -, -, -, hcurve⟩ := hzs.mem hk
      rw [hcurve]
      exact hbare c (List.mem_append_right _ hc)
  · obtain ⟨c, hc, k', hk', hrange, hcurve⟩ := hys.mem hk
    obtain ⟨v, w, hsolve⟩ := hsolves c hc
    obtain ⟨a', b', -, -, hlinks⟩ := hmid.of_mem_flatMap hc
    obtain ⟨s, hs, hknots⟩ := hsolve.range hlinks
    obtain ⟨hlow, -, hhigh⟩ := hlinks.of_mem hk'
    rw [← hrange] at hlow hhigh
    exact ⟨s, hcurve.trans hs, by rw [hknots]; exact hlow, by rw [hknots]; exact hhigh⟩

end IsBuilt

end Layout

end Juggling
