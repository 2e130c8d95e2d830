import Juggling.Proofs.Touches

namespace Juggling

variable {α : Type}

def Moment.Touches (m : Moment α) (p : ℕ) : Prop := ∃ t ∈ m.event.transitions, t.path = p

namespace VelocityRef

variable {paths : Numbered (PathHistory α)} {m : Moment α} {p : ℕ} {hist : PathHistory α}

theorem determines_of_ofMoment {v : VelocityRef} (hv : ofMoment paths m = .ok (some v)) :
    m.event.determinesVelocity = true := by
  have key {kind : TransitionKind} {t : Transition} (ht : m.event.find? kind = some t)
      (hkind : kind.determinesVelocity = true) : m.event.determinesVelocity = true := by
    refine List.any_eq_true.mpr ⟨t, List.mem_of_find?_eq_some ht, ?_⟩
    have : t.kind = kind := by simpa using List.find?_some ht
    rwa [this]
  cases hthrow : m.event.find? .throwing with
  | some t => exact key hthrow rfl
  | none =>
    cases hsoft : m.event.find? .softCatching with
    | some t => exact key hsoft rfl
    | none => simp [ofMoment, hthrow, hsoft] at hv

theorem flight_of_index (hget : paths.get? p = some hist) {i : ℕ} (hi : i < hist.links.length)
    (hflies : (!hist.links[i].isHeld) = true) :
    hist.links[i] ∈ (paths.getD p .empty).links ∧
      ∃ f, hist.links[i].flight? = some f ∧ flight paths p i = .ok f := by
  refine ⟨by rw [Numbered.getD_of_get? hget]; exact List.getElem_mem hi, ?_⟩
  simp only [PathLink.isHeld, PathLink.flight?, flight, hget, Option.bind_some,
    List.getElem?_eq_getElem hi] at hflies ⊢
  cases hpassage : hist.links[i].passage with
  | held j hand => simp [hpassage] at hflies
  | thrown kind modifier f => exact ⟨f, rfl, rfl⟩

end VelocityRef

namespace Woven

variable [Exact α] [Numeral α] {place : Event α → Coordinate α} {J N : ℕ}
  {moments : List (Moment α)} {paths : Numbered (PathHistory α)}
  (h : Woven place J N moments paths)

include h

/-- A path is touched once at a time. -/
theorem eq_of_touches {p : ℕ} (hp : 1 ≤ p ∧ p ≤ N) {m n : Moment α} (hm : m ∈ moments)
    (hn : n ∈ moments) (htouch : m.Touches p) (htouch' : n.Touches p) (htime : m.time = n.time) :
    m = n := by
  obtain ⟨t, ht, htp⟩ := htouch
  obtain ⟨t', ht', htp'⟩ := htouch'
  exact h.touch_unique hp (a := ⟨m, t⟩) (b := ⟨n, t'⟩) (Touch.mem_ofPath.mpr ⟨hm, ht, htp⟩)
    (Touch.mem_ofPath.mpr ⟨hn, ht', htp'⟩) htime

theorem thrown_of_flight {p : ℕ} (hp : 1 ≤ p ∧ p ≤ N) {k : PathLink α}
    (hk : k ∈ (paths.getD p .empty).links) {f : Flight α} (hf : k.flight? = some f) :
    k.start.transition.kind = .throwing ∧ k.stop.transition.kind.isCatch = true := by
  rcases PathLink.passage?_ok (h.path_link hp hk).2.2 with
    ⟨_, _, _, -, hthrow, hcatch, -⟩ | ⟨hheld, -⟩
  · exact ⟨hthrow, hcatch⟩
  · simp [PathLink.flight?, hheld] at hf

end Woven

namespace Traced

variable [Exact α] [Numeral α] {place : Event α → Coordinate α} {J N : ℕ}
  {moments : List (Moment α)} {paths : Numbered (PathHistory α)}
  (h : Traced place J N moments paths)

include h

/-- A hand takes the velocity of its first throw as that starts, unless the path ends there. -/
theorem throw_cases {m : Moment α} (hm : m ∈ moments) {t : Transition}
    (ht : m.event.find? .throwing = some t) :
    (∃ k ∈ (paths.getD t.path .empty).links, ∃ f v, k.start.moment = m ∧ k.flight? = some f ∧
      VelocityRef.ofMoment paths m = .ok (some v) ∧ v.resolve paths = .ok f.startVelocity) ∨
    VelocityRef.ofMoment paths m = .ok none ∧
      ∃ a, (Touch.ofPath moments t.path).getLast? = some a ∧ a.moment = m := by
  have hp := (h.placed m hm).path t (List.mem_of_find?_eq_some ht)
  obtain ⟨hist, hget, hbuild⟩ := h.history t.path hp
  obtain ⟨htouches, -⟩ := PathHistory.build_ok hbuild
  obtain ⟨v, hv⟩ := h.velocity m hm
  rw [hv]
  simp only [VelocityRef.ofMoment, ht, Numbered.getD_of_get? hget] at hv
  cases hflight : hist.flightFrom? m with
  | none =>
    rw [hflight] at hv
    simp only at hv
    split_ifs at hv with hends
    obtain rfl := Except.ok.inj hv
    obtain ⟨a, ha, hindex⟩ := Option.map_eq_some_iff.mp (beq_iff_eq.mp hends)
    rw [htouches] at ha
    exact .inr ⟨rfl, a, ha, h.listed.eq_of_index_eq
      (Touch.mem_ofPath.mp (List.mem_of_getLast? ha)).1 hm hindex⟩
  | some i =>
    rw [hflight] at hv
    obtain rfl := Except.ok.inj hv
    obtain ⟨hi, hpred, -⟩ := List.findIdx?_eq_some_iff_getElem.mp hflight
    rw [Bool.and_eq_true, beq_iff_eq] at hpred
    obtain ⟨hmem, f, hf, hresolve⟩ := VelocityRef.flight_of_index hget hi hpred.1
    exact .inl ⟨_, hmem, f, _, h.listed.eq_of_index_eq
      (Touch.mem_ofPath.mp (h.path_link hp hmem).1).1 hm hpred.2, hf, rfl,
      by rw [VelocityRef.resolve, hresolve]; rfl⟩

/-- A hand that throws nothing takes the velocity of its first soft catch as that ends, unless the
path starts there. -/
theorem softCatch_cases {m : Moment α} (hm : m ∈ moments) {t : Transition}
    (hnone : m.event.find? .throwing = none) (ht : m.event.find? .softCatching = some t) :
    (∃ k ∈ (paths.getD t.path .empty).links, ∃ f v, k.stop.moment = m ∧ k.flight? = some f ∧
      VelocityRef.ofMoment paths m = .ok (some v) ∧ v.resolve paths = .ok f.endVelocity) ∨
    VelocityRef.ofMoment paths m = .ok none ∧
      ∃ a, (Touch.ofPath moments t.path).head? = some a ∧ a.moment = m := by
  have hp := (h.placed m hm).path t (List.mem_of_find?_eq_some ht)
  obtain ⟨hist, hget, hbuild⟩ := h.history t.path hp
  obtain ⟨htouches, -⟩ := PathHistory.build_ok hbuild
  obtain ⟨v, hv⟩ := h.velocity m hm
  rw [hv]
  simp only [VelocityRef.ofMoment, hnone, ht, Numbered.getD_of_get? hget] at hv
  cases hflight : hist.flightTo? m with
  | none =>
    rw [hflight] at hv
    simp only at hv
    split_ifs at hv with hstarts
    obtain rfl := Except.ok.inj hv
    obtain ⟨a, ha, hindex⟩ := Option.map_eq_some_iff.mp (beq_iff_eq.mp hstarts)
    rw [htouches] at ha
    exact .inr ⟨rfl, a, ha, h.listed.eq_of_index_eq
      (Touch.mem_ofPath.mp (List.mem_of_head? ha)).1 hm hindex⟩
  | some i =>
    rw [hflight] at hv
    obtain rfl := Except.ok.inj hv
    obtain ⟨hi, hpred, -⟩ := List.findIdx?_eq_some_iff_getElem.mp hflight
    rw [Bool.and_eq_true, beq_iff_eq] at hpred
    obtain ⟨hmem, f, hf, hresolve⟩ := VelocityRef.flight_of_index hget hi hpred.1
    exact .inl ⟨_, hmem, f, _, h.listed.eq_of_index_eq
      (Touch.mem_ofPath.mp (h.path_link hp hmem).2.1).1 hm hpred.2, hf, rfl,
      by rw [VelocityRef.resolve, hresolve]; rfl⟩

/-- A hand that throws a prop which is touched later moves with the prop, and it is caught. -/
theorem throw_resolved {m n : Moment α} (hm : m ∈ moments) (hn : n ∈ moments) {t : Transition}
    (ht : m.event.find? .throwing = some t) (htouch : n.Touches t.path) (hlt : m.time < n.time) :
    (∃ v, VelocityRef.ofMoment paths m = .ok (some v)) ∧ ∃ n' ∈ moments,
      ∃ t' ∈ n'.event.transitions, t'.kind.isCatch = true ∧ t'.path = t.path := by
  have hp := (h.placed m hm).path t (List.mem_of_find?_eq_some ht)
  rcases h.throw_cases hm ht with ⟨k, hk, f, v, -, hf, hv, -⟩ | ⟨-, a, ha, rfl⟩
  · obtain ⟨hstop, htrans, hpath⟩ := Touch.mem_ofPath.mp (h.path_link hp hk).2.1
    exact ⟨⟨v, hv⟩, _, hstop, _, htrans, (h.thrown_of_flight hp hk hf).2, hpath⟩
  · obtain ⟨t', ht', htp⟩ := htouch
    have hlast := rel_getLast (h.listed.sorted_time_ofPath t.path) (fun a ↦ le_refl a.time)
      (Touch.mem_ofPath (t := ⟨n, t'⟩).mpr ⟨hn, ht', htp⟩) ha
    exact absurd hlast (not_le.mpr hlt)

/-- A hand that catches a prop softly which was touched before moves with the prop. -/
theorem softCatch_resolved {m n : Moment α} (hm : m ∈ moments) (hn : n ∈ moments) {t : Transition}
    (hnone : m.event.find? .throwing = none) (ht : m.event.find? .softCatching = some t)
    (htouch : n.Touches t.path) (hlt : n.time < m.time) :
    ∃ v, VelocityRef.ofMoment paths m = .ok (some v) := by
  rcases h.softCatch_cases hm hnone ht with ⟨k, hk, f, v, -, hf, hv, -⟩ | ⟨-, a, ha, rfl⟩
  · exact ⟨v, hv⟩
  · obtain ⟨t', ht', htp⟩ := htouch
    have hfirst := head_rel (h.listed.sorted_time_ofPath t.path) (fun a ↦ le_refl a.time)
      (Touch.mem_ofPath (t := ⟨n, t'⟩).mpr ⟨hn, ht', htp⟩) ha
    exact absurd hfirst (not_le.mpr hlt)

/-- A prop that is caught and was touched before was thrown. -/
theorem exists_throw_before {m n : Moment α} (hm : m ∈ moments) (hn : n ∈ moments)
    {t : Transition} (ht : t ∈ m.event.transitions) (hcatch : t.kind.isCatch = true)
    (htouch : n.Touches t.path) (hlt : n.time < m.time) : ∃ n' ∈ moments,
      ∃ t' ∈ n'.event.transitions, t'.kind = .throwing ∧ t'.path = t.path := by
  have hp := (h.placed m hm).path t ht
  obtain ⟨t', ht', htp⟩ := htouch
  obtain ⟨a, ha⟩ := exists_step_to (h.listed.sorted_time_ofPath t.path)
    (Touch.mem_ofPath (t := ⟨m, t⟩).mpr ⟨hm, ht, rfl⟩)
    (Touch.mem_ofPath (t := ⟨n, t'⟩).mpr ⟨hn, ht', htp⟩)
    (fun heq ↦ hlt.ne' (congrArg Touch.time heq)) (not_le.mpr hlt)
  obtain ⟨passage, hpassage⟩ := h.step_ok hp ha
  rcases PathLink.passage?_ok hpassage with ⟨-, -, -, -, hthrow, -⟩ | ⟨-, hheld, -⟩
  · obtain ⟨hstart, htrans, hpath⟩ := Touch.mem_ofPath.mp (mem_steps ha).1
    exact ⟨_, hstart, _, htrans, hthrow, hpath⟩
  · exact absurd hheld (by simp [hcatch])

/-- The velocity that a hand takes is that of the flight of its first throw as it starts, or else of
the flight to its first soft catch as it ends. -/
theorem flight_of_velocity {m : Moment α} (hm : m ∈ moments) {v : VelocityRef}
    (hv : VelocityRef.ofMoment paths m = .ok (some v)) :
    (∃ t, m.event.find? .throwing = some t ∧ ∃ k ∈ (paths.getD t.path .empty).links, ∃ f,
      k.start.moment = m ∧ k.flight? = some f ∧ v.resolve paths = .ok f.startVelocity) ∨
    m.event.find? .throwing = none ∧ ∃ t, m.event.find? .softCatching = some t ∧
      ∃ k ∈ (paths.getD t.path .empty).links, ∃ f,
        k.stop.moment = m ∧ k.flight? = some f ∧ v.resolve paths = .ok f.endVelocity := by
  cases hthrow : m.event.find? .throwing with
  | some t =>
    rcases h.throw_cases hm hthrow with ⟨k, hk, f, w, hstart, hf, hw, hresolve⟩ | ⟨hnone, -⟩
    · obtain rfl := Option.some.inj (Except.ok.inj (hw.symm.trans hv))
      exact .inl ⟨t, rfl, k, hk, f, hstart, hf, hresolve⟩
    · cases hnone.symm.trans hv
  | none =>
    cases hsoft : m.event.find? .softCatching with
    | none => simp [VelocityRef.ofMoment, hthrow, hsoft] at hv
    | some t =>
      rcases h.softCatch_cases hm hthrow hsoft with
        ⟨k, hk, f, w, hstop, hf, hw, hresolve⟩ | ⟨hnone, -⟩
      · obtain rfl := Option.some.inj (Except.ok.inj (hw.symm.trans hv))
        exact .inr ⟨rfl, t, rfl, k, hk, f, hstop, hf, hresolve⟩
      · cases hnone.symm.trans hv

theorem exists_resolve {m : Moment α} (hm : m ∈ moments) {v : VelocityRef}
    (hv : VelocityRef.ofMoment paths m = .ok (some v)) : ∃ w, v.resolve paths = .ok w := by
  rcases h.flight_of_velocity hm hv with
    ⟨_, _, _, _, _, _, _, hw⟩ | ⟨_, _, _, _, _, _, _, _, hw⟩
  · exact ⟨_, hw⟩
  · exact ⟨_, hw⟩

end Traced

namespace Layout

theorem mem_ofHand {moments : List (Moment α)} {j : ℕ} {hand : Hand} {m : Moment α} :
    m ∈ Moment.ofHand moments j hand ↔
      m ∈ moments ∧ m.event.juggler = j ∧ m.event.hand = hand := by
  simp [Moment.ofHand, Event.hasHand]

/-- A moment at which a flight gives the hand its velocity. -/
def Resolved (l : Layout α) (m : Moment α) : Prop :=
  ∃ v, VelocityRef.ofMoment l.paths m = .ok (some v)

theorem Resolved.determines {l : Layout α} {m : Moment α} (h : l.Resolved m) :
    m.event.determinesVelocity = true := by
  obtain ⟨v, hv⟩ := h
  exact VelocityRef.determines_of_ofMoment hv

variable [Exact α] [Numeral α]

namespace IsBuilt

variable {d : Declarations α} {l : Layout α} (h : IsBuilt d l)
  (hperms : ∀ s ∈ d.symmetries, s.jugglers.Rearranges ∧ s.paths.Rearranges)

include h hperms

theorem throw_resolved {m n : Moment α} (hm : m ∈ l.timeline.moments)
    (hn : n ∈ l.timeline.moments) {t : Transition} (ht : m.event.find? .throwing = some t)
    (htouch : n.Touches t.path) (hlt : m.time < n.time) : l.Resolved m :=
  ((h.traced hperms).throw_resolved hm hn ht htouch hlt).1

theorem softCatch_resolved {m n : Moment α} (hm : m ∈ l.timeline.moments)
    (hn : n ∈ l.timeline.moments) {t : Transition} (hnone : m.event.find? .throwing = none)
    (ht : m.event.find? .softCatching = some t) (htouch : n.Touches t.path)
    (hlt : n.time < m.time) : l.Resolved m :=
  (h.traced hperms).softCatch_resolved hm hn hnone ht htouch hlt

/-- The velocity that a hand takes is that of the flight of its first throw as it starts, or else of
the flight to its first soft catch as it ends. -/
theorem flight_of_velocity {m : Moment α} (hm : m ∈ l.timeline.moments) {v : VelocityRef}
    (hv : VelocityRef.ofMoment l.paths m = .ok (some v)) :
    (∃ t, m.event.find? .throwing = some t ∧ ∃ k ∈ l.pathLinks t.path, ∃ f,
      k.start.moment = m ∧ k.flight? = some f ∧ v.resolve l.paths = .ok f.startVelocity) ∨
    m.event.find? .throwing = none ∧ ∃ t, m.event.find? .softCatching = some t ∧
      ∃ k ∈ l.pathLinks t.path, ∃ f,
        k.stop.moment = m ∧ k.flight? = some f ∧ v.resolve l.paths = .ok f.endVelocity :=
  (h.traced hperms).flight_of_velocity hm hv

end IsBuilt

end Layout

/-- A hand is at one event at a time. -/
theorem Woven.strict_ofHand [Exact α] [Numeral α] {place : Event α → Coordinate α} {J N : ℕ}
    {moments : List (Moment α)} {paths : Numbered (PathHistory α)}
    (h : Woven place J N moments paths) (j : ℕ) (hand : Hand) :
    (Moment.ofHand moments j hand).Pairwise fun m n ↦ m.time < n.time := by
  refine (h.listed.sorted_ofHand j hand).imp_of_mem fun {m n} hm hn hmn ↦ ?_
  obtain ⟨hm, hmj, hmhand⟩ := Layout.mem_ofHand.mp hm
  obtain ⟨hn, hnj, hnhand⟩ := Layout.mem_ofHand.mp hn
  refine lt_of_le_of_ne hmn.2 fun heq ↦ hmn.1.ne (congrArg Moment.index ?_)
  exact h.unique m hm n hn ⟨hmj.trans hnj.symm, hmhand.trans hnhand.symm⟩ heq

end Juggling
