import Juggling.Proofs.Histories
import Juggling.Proofs.Outcome

namespace Juggling

namespace Numbered

variable {ε β : Type}

theorem get?_ofList (xs : List β) (i : ℕ) : (ofList xs).get? (i + 1) = xs[i]? := by
  simp [ofList, get?]

theorem getD_of_get? {v : Numbered β} {i : ℕ} {x d : β} (h : v.get? i = some x) :
    v.getD i d = x := by
  rw [getD, h, Option.getD_some]

theorem get?_of_mapM {f : ℕ → Except ε β} {n : ℕ} {ys : List β}
    (h : (List.range' 1 n).mapM f = .ok ys) {i : ℕ} (hi : 1 ≤ i ∧ i ≤ n) :
    ∃ y, (ofList ys).get? i = some y ∧ f i = .ok y := by
  have hall := List.forall₂_iff_get.mp (mapM_eq_ok.mp h)
  obtain ⟨i, rfl⟩ : ∃ k, i = k + 1 := ⟨i - 1, by omega⟩
  have hlt : i < (List.range' 1 n).length := by
    rw [List.length_range']
    omega
  have hy := hall.2 i hlt (hall.1 ▸ hlt)
  simp only [List.get_eq_getElem, List.getElem_range'] at hy
  refine ⟨_, (get?_ofList _ _).trans (List.getElem?_eq_getElem (hall.1 ▸ hlt)), ?_⟩
  rw [← hy]
  congr 1
  omega

end Numbered

variable {α : Type}

theorem PathHistory.get?_of_buildAll [Scalar α] [Numeral α] {place : Event α → Coordinate α}
    {moments : List (Moment α)} {N : ℕ} {paths : Numbered (PathHistory α)}
    (hok : buildAll place moments N = .ok paths) {p : ℕ} (hp : 1 ≤ p ∧ p ≤ N) :
    ∃ hist, paths.get? p = some hist ∧ build place moments p = .ok hist := by
  obtain ⟨hists, hhists, heq⟩ := bind_eq_ok.mp hok
  obtain ⟨hist, hget, hbuild⟩ := Numbered.get?_of_mapM hhists hp
  exact ⟨hist, pure_eq_ok.mp heq ▸ hget, hbuild⟩

/-- Links that were given the numbers of the curves of their chains. -/
def Numbers (curves : Array (Spline α)) (chains : List (Chain α)) (links : List (HandLink α)) :
    Prop :=
  List.Forall₂ (fun k p ↦ k = { p.2 with curve := k.curve } ∧
    k.curve.bind (curves[·]?) = p.1.curve) links (chains.flatMap fun c ↦ c.links.map (c, ·))

theorem getElem?_of_prefix {β : Type} {xs ys : Array β} (h : xs.toList <+: ys.toList) {i : ℕ}
    {x : β} (hx : xs[i]? = some x) : ys[i]? = some x := by
  obtain ⟨zs, hzs⟩ := h
  rw [← Array.getElem?_toList] at hx ⊢
  rw [← hzs, List.getElem?_append_left (List.getElem?_eq_some_iff.mp hx).1, hx]

namespace Chain

variable {chains : List (Chain α)}

theorem foldl_numberNext (hfresh : ∀ c ∈ chains, ∀ k ∈ c.links, k.curve = none)
    (s : Array (Spline α) × Array (HandLink α)) : ∃ links,
    (chains.foldl numberNext s).2.toList = s.2.toList ++ links ∧
    s.1.toList <+: (chains.foldl numberNext s).1.toList ∧ ∀ curves : Array (Spline α),
      (chains.foldl numberNext s).1.toList <+: curves.toList → Numbers curves chains links := by
  -- Curves are only added at the end, so the numbers given out keep their meaning.
  induction chains generalizing s with
  | nil => exact ⟨[], by simp, List.prefix_refl _, fun _ _ ↦ .nil⟩
  | cons c chains ih =>
    obtain ⟨hc, hchains⟩ := List.forall_mem_cons.mp hfresh
    obtain ⟨links, hlinks, hknown, hnumbers⟩ := ih hchains (numberNext s c)
    rw [List.foldl_cons]
    cases hcurve : c.curve with
    | none =>
      have hstep : numberNext s c = (s.1, s.2 ++ c.links) := by simp [numberNext, hcurve]
      rw [hstep] at hlinks hknown hnumbers ⊢
      refine ⟨c.links ++ links, by rw [hlinks]; simp, hknown, fun curves hcurves ↦ ?_⟩
      rw [Numbers, List.flatMap_cons]
      refine List.rel_append ?_ (hnumbers curves hcurves)
      refine List.forall₂_map_right_iff.mpr (List.forall₂_same.mpr fun k hk ↦ ⟨rfl, ?_⟩)
      rw [hc k hk, hcurve]
      rfl
    | some curve =>
      have hstep : numberNext s c =
          (s.1.push curve, s.2 ++ c.links.map ({ · with curve := some s.1.size })) := by
        simp [numberNext, hcurve]
      rw [hstep] at hlinks hknown hnumbers ⊢
      refine ⟨c.links.map ({ · with curve := some s.1.size }) ++ links, by rw [hlinks]; simp,
        List.IsPrefix.trans (by simp) hknown, fun curves hcurves ↦ ?_⟩
      rw [Numbers, List.flatMap_cons]
      refine List.rel_append ?_ (hnumbers curves hcurves)
      refine List.forall₂_map_left_iff.mpr (List.forall₂_map_right_iff.mpr
        (List.forall₂_same.mpr fun k _ ↦ ⟨rfl, ?_⟩))
      rw [hcurve]
      exact getElem?_of_prefix (hknown.trans hcurves) (by simp)

/-- Chains are numbered on from the curves known so far, which keep their numbers. -/
theorem number_spec (hfresh : ∀ c ∈ chains, ∀ k ∈ c.links, k.curve = none)
    (known : Array (Spline α)) : known.toList <+: (number known chains).1.toList ∧
      ∀ curves : Array (Spline α), (number known chains).1.toList <+: curves.toList →
        Numbers curves chains (number known chains).2 := by
  obtain ⟨links, hlinks, hknown, hnumbers⟩ := foldl_numberNext hfresh (known, #[])
  refine ⟨hknown, fun curves hcurves ↦ ?_⟩
  have heq : (number known chains).2 = links := by
    simp only [number]
    simpa using hlinks
  rw [heq]
  exact hnumbers curves hcurves

end Chain

namespace HandLink

variable {j : ℕ} {hand : Hand}

/-- Links each of which starts with the velocity that the one before it ends with. -/
def Joined (links : List (HandLink α)) : Prop :=
  links.IsChain fun k l ↦ l.startVelocity = k.endVelocity

def between (j : ℕ) (hand : Hand)
    (p : (Moment α × Option VelocityRef) × Moment α × Option VelocityRef) : HandLink α :=
  { juggler := j, hand, start := p.1.1, stop := p.2.1, startVelocity := p.1.2
    endVelocity := p.2.2 }

theorem joined_between (stops : List (Moment α × Option VelocityRef)) :
    Joined ((steps stops).map (between j hand)) :=
  (List.isChain_map _).mpr ((isChain_steps stops).imp fun _ _ h ↦ congrArg Prod.snd h.symm)

structure Fresh (links : List (HandLink α)) : Prop where
  joined : Joined links
  curve : ∀ k ∈ links, k.curve = none

theorem fresh_between (stops : List (Moment α × Option VelocityRef)) :
    Fresh ((steps stops).map (between j hand)) := by
  refine ⟨joined_between stops, fun k hk ↦ ?_⟩
  obtain ⟨p, -, rfl⟩ := List.mem_map.mp hk
  rfl

variable {paths : Numbered (PathHistory α)} {moments : List (Moment α)}
  {links : List (HandLink α)}

/-- The moments of a hand, each with the velocity that a flight gives it there. -/
structure Stops (paths : Numbered (PathHistory α)) (moments : List (Moment α)) (j : ℕ)
    (hand : Hand) (stops : List (Moment α × Option VelocityRef)) : Prop where
  moments : stops.map Prod.fst = Moment.ofHand moments j hand
  velocity : ∀ s ∈ stops, VelocityRef.ofMoment paths s.1 = .ok s.2

theorem build_ok (hok : build paths moments j hand = .ok links) :
    ∃ stops, Stops paths moments j hand stops ∧ links = (steps stops).map (between j hand) := by
  obtain ⟨stops, hstops, hlinks⟩ := bind_eq_ok.mp hok
  obtain rfl := pure_eq_ok.mp hlinks
  refine ⟨stops, ⟨?_, ?_⟩, rfl⟩
  · have hall := mapM_eq_ok.mp hstops
    clear hstops hok hlinks
    generalize Moment.ofHand moments j hand = ms at hall
    induction hall with
    | nil => rfl
    | @cons m s ms ss h _ ih =>
      obtain ⟨v, -, rfl⟩ := map_eq_ok.mp h
      rw [List.map_cons, ih]
  · intro s hs
    obtain ⟨m, -, hm⟩ := exists_of_forall₂ (mapM_eq_ok.mp hstops) hs
    obtain ⟨v, hv, rfl⟩ := map_eq_ok.mp hm
    exact hv

namespace Stops

variable {stops : List (Moment α × Option VelocityRef)} (hstops : Stops paths moments j hand stops)

include hstops

theorem mem {m : Moment α} {v : Option VelocityRef} (hm : m ∈ Moment.ofHand moments j hand)
    (hv : VelocityRef.ofMoment paths m = .ok v) : (m, v) ∈ stops := by
  rw [← hstops.moments] at hm
  obtain ⟨s, hs, rfl⟩ := List.mem_map.mp hm
  obtain rfl : s.2 = v := Except.ok.inj ((hstops.velocity s hs).symm.trans hv)
  exact hs

theorem build_eq : build paths moments j hand = .ok ((steps stops).map (between j hand)) := by
  unfold build
  rw [← hstops.moments]
  refine bind_eq_ok.mpr ⟨stops, ?_, rfl⟩
  refine mapM_eq_ok.mpr (List.forall₂_map_left_iff.mpr (List.forall₂_same.mpr fun s hs ↦ ?_))
  exact map_eq_ok.mpr ⟨s.2, hstops.velocity s hs, rfl⟩

theorem step_of_link {k : HandLink α} (hk : k ∈ (steps stops).map (between j hand)) :
    (k.start, k.stop) ∈ steps (Moment.ofHand moments j hand) := by
  obtain ⟨p, hp, rfl⟩ := List.mem_map.mp hk
  rw [← hstops.moments, steps_map]
  exact List.mem_map.mpr ⟨p, hp, rfl⟩

end Stops

theorem build_of_both {hs : Hands (List (HandLink α))}
    (hok : (do
      let left ← build paths moments j .left
      let right ← build paths moments j .right
      pure (Hands.mk left right)) = .ok hs) (hand : Hand) :
    build paths moments j hand = .ok (hs.get hand) := by
  obtain ⟨left, hleft, hok⟩ := bind_eq_ok.mp hok
  obtain ⟨right, hright, hok⟩ := bind_eq_ok.mp hok
  obtain rfl := pure_eq_ok.mp hok
  cases hand with
  | left => exact hleft
  | right => exact hright

/-- When the links of all hands are built, it is known what velocity each moment gives its hand. -/
theorem velocity_of_buildAll {J : ℕ} {all : Numbered (Hands (List (HandLink α)))}
    (hok : buildAll paths moments J = .ok all) {m : Moment α} (hm : m ∈ moments)
    (hj : 1 ≤ m.event.juggler ∧ m.event.juggler ≤ J) :
    ∃ v, VelocityRef.ofMoment paths m = .ok v := by
  obtain ⟨hands, hhands, -⟩ := bind_eq_ok.mp hok
  obtain ⟨hs, -, hboth⟩ := Numbered.get?_of_mapM hhands hj
  obtain ⟨stops, hstops, -⟩ := build_ok (build_of_both hboth m.event.hand)
  have hmem : m ∈ stops.map Prod.fst := by
    rw [hstops.moments]
    exact List.mem_filter.mpr ⟨hm, by simp [Event.hasHand]⟩
  obtain ⟨s, hs, rfl⟩ := List.mem_map.mp hmem
  exact ⟨s.2, hstops.velocity s hs⟩

end HandLink

variable [Scalar α]

section Spans

variable {x : HandCurve α} {links ls ks : List (HandLink α)} {chain : Chain α}
  {chains : List (Chain α)} {v w : Option (Coordinate α)}

/-- A chain with the curve through all its stops. -/
def HandCurve.Solves (x : HandCurve α) (v w : Option (Coordinate α)) (c : Chain α) : Prop :=
  ∃ k s, c.curve = some s ∧ Spline.ofKnots k = .ok s ∧
    Knots.ofLists ((Chain.stops c.links).map fun m ↦ x.place m.event)
      ((Chain.stops c.links).map (·.time)) v w = .ok k

theorem HandCurve.solve_ok (hok : x.solve links v w = .ok chain) :
    chain.links = links ∧ x.Solves v w chain := by
  simp only [solve, lift_eq_ok] at hok
  obtain ⟨k, hk, hok⟩ := bind_eq_ok.mp hok
  obtain ⟨s, hs, hok⟩ := bind_eq_ok.mp hok
  obtain rfl := pure_eq_ok.mp hok
  exact ⟨rfl, k, s, rfl, hs, hk⟩

/-- How links from a velocity on fall into chains from each velocity to the next. -/
inductive HandCurve.Spans (x : HandCurve α) : List (HandLink α) → List (Chain α) → Prop
  | rest {ks : List (HandLink α)} (hks : ∀ k ∈ ks, k.endVelocity = none) :
      Spans x ks [.uncovered ks]
  | cons {ls ks : List (HandLink α)} {k : HandLink α} {v w : VelocityRef} {chain : Chain α}
      {chains : List (Chain α)} (hstart : (ls ++ [k]).head?.bind (·.startVelocity) = some v)
      (hls : ∀ l ∈ ls, l.endVelocity = none) (hend : k.endVelocity = some w)
      (hchain : x.clamped (ls ++ [k]) v w = .ok chain) (hks : Spans x ks chains) :
      Spans x (ls ++ k :: ks) (chain :: chains)

/-- All chains are solved but for the last, whose links end without a velocity. -/
theorem HandCurve.Spans.split {spans : List (Chain α)} (h : x.Spans links spans) :
    ∃ mid after, spans = mid ++ after ∧ links = spans.flatMap (·.links) ∧
      (∀ c ∈ after, c.curve = none) ∧ (∀ c ∈ mid, ∃ v w, x.Solves v w c) ∧
      ∀ k ∈ after.flatMap (·.links), k.endVelocity = none := by
  induction h with
  | @rest ks hks =>
    exact ⟨[], [.uncovered ks], rfl, by simp [Chain.uncovered], by simp [Chain.uncovered],
      by simp, by simpa [Chain.uncovered] using hks⟩
  | @cons ls ks k v w chain chains hstart hls hend hchain hks ih =>
    obtain ⟨mid, after, rfl, rfl, hafter, hmid, hends⟩ := ih
    obtain ⟨a, -, hchain⟩ := bind_eq_ok.mp hchain
    obtain ⟨b, -, hchain⟩ := bind_eq_ok.mp hchain
    obtain ⟨hlinks, hsolves⟩ := solve_ok hchain
    refine ⟨chain :: mid, after, rfl, ?_, hafter, ?_, hends⟩
    · simp only [List.flatMap_cons, hlinks, List.append_assoc, List.singleton_append]
    · intro c hc
      rcases List.mem_cons.mp hc with rfl | hc
      · exact ⟨_, _, hsolves⟩
      · exact hmid c hc

theorem HandCurve.pinned_none {k : HandLink α} {v : VelocityRef}
    (hk : k.startVelocity = some v) :
    x.pinned none (k :: ks) = x.pinned (some (v, [])) (k :: ks) := by
  conv_lhs => unfold pinned
  conv_rhs => unfold pinned
  simp [hk]

theorem HandCurve.spans_of_pinned {v : VelocityRef} (hjoined : HandLink.Joined ks)
    (hstart : (ls ++ ks).head?.bind (·.startVelocity) = some v)
    (hls : ∀ l ∈ ls, l.endVelocity = none)
    (hok : x.pinned (some (v, ls)) ks = .ok chains) : x.Spans (ls ++ ks) chains := by
  -- `ls` are the links since the last velocity at a start, which is `v`.
  induction ks generalizing ls v chains with
  | nil =>
    obtain rfl : [.uncovered ls] = chains := Except.ok.inj hok
    rw [List.append_nil]
    exact .rest hls
  | cons k ks ih =>
    have hstart' : (ls ++ [k]).head?.bind (·.startVelocity) = some v := by
      cases ls with
      | nil => exact hstart
      | cons l ls => exact hstart
    unfold pinned at hok
    simp only at hok
    cases hend : k.endVelocity with
    | none =>
      rw [hend] at hok
      rw [List.append_cons]
      refine ih hjoined.tail ?_ ?_ hok
      · cases ls with
        | nil => exact hstart
        | cons l ls => exact hstart
      · intro l hl
        rcases List.mem_append.mp hl with hl | hl
        · exact hls l hl
        · rw [List.mem_singleton.mp hl]
          exact hend
    | some w =>
      rw [hend] at hok
      obtain ⟨chain, hchain, hok⟩ := bind_eq_ok.mp hok
      obtain ⟨chains', hrest, hok⟩ := bind_eq_ok.mp hok
      obtain rfl := pure_eq_ok.mp hok
      refine .cons hstart' hls hend hchain ?_
      -- The next link starts with the velocity that this one ends with.
      cases ks with
      | nil =>
        obtain rfl : [.uncovered []] = chains' := Except.ok.inj hrest
        exact .rest (by simp)
      | cons k' ks =>
        have hk' : k'.startVelocity = some w := by
          rw [← hend]
          exact (List.isChain_cons_cons.mp hjoined).1
        refine @ih [] _ w hjoined.tail (by simpa using hk') (by simp) ?_
        rw [← hrest, pinned_none hk']

/-- Links before the first velocity have no curve. -/
theorem HandCurve.pinned_ok (hjoined : HandLink.Joined ks) (hok : x.pinned none ks = .ok chains) :
    ∃ bare rest spans, ks = bare ++ rest ∧ chains = bare.map (.uncovered [·]) ++ spans ∧
      (∀ k ∈ bare, k.startVelocity = none) ∧ x.Spans rest spans := by
  induction ks generalizing chains with
  | nil =>
    obtain rfl : [.uncovered []] = chains := Except.ok.inj hok
    exact ⟨[], [], _, rfl, rfl, by simp, .rest (by simp)⟩
  | cons k ks ih =>
    cases hstart : k.startVelocity with
    | none =>
      unfold pinned at hok
      simp only [hstart, Option.map_none] at hok
      obtain ⟨chains', hrest, hok⟩ := bind_eq_ok.mp hok
      obtain rfl := pure_eq_ok.mp hok
      obtain ⟨bare, rest, spans, rfl, rfl, hbare, hspans⟩ := ih hjoined.tail hrest
      refine ⟨k :: bare, rest, spans, rfl, rfl, ?_, hspans⟩
      intro l hl
      rcases List.mem_cons.mp hl with rfl | hl
      · exact hstart
      · exact hbare l hl
    | some v =>
      refine ⟨[], k :: ks, chains, rfl, rfl, by simp, ?_⟩
      refine @spans_of_pinned _ _ x [] _ _ v hjoined (by simpa using hstart) (by simp) ?_
      rw [← hok, pinned_none hstart]

/-- A closed curve from a link through those up to the one that ends a period later. -/
structure HandCurve.Closed (x : HandCurve α) (c : Chain α) : Prop where
  solves : x.Solves none none c
  closes : ∃ first last init, c.links = init ++ [last] ∧ c.links.head? = some first ∧
    x.closes first.start last = true ∧ ∀ l ∈ init, x.closes first.start l = false

theorem splitAfter?_eq_some {β : Type} {p : β → Bool} {xs as bs : List β}
    (h : splitAfter? p xs = some (as, bs)) :
    ∃ ys y, as = ys ++ [y] ∧ xs = as ++ bs ∧ p y = true ∧ ∀ z ∈ ys, p z = false := by
  induction xs generalizing as with
  | nil => cases h
  | cons x xs ih =>
    unfold splitAfter? at h
    split_ifs at h with hx
    · cases h
      exact ⟨[], x, rfl, rfl, hx, by simp⟩
    · obtain ⟨⟨as', bs'⟩, hsplit, heq⟩ := Option.map_eq_some_iff.mp h
      cases heq
      obtain ⟨ys, y, rfl, rfl, hy, hys⟩ := ih hsplit
      refine ⟨x :: ys, y, rfl, rfl, hy, ?_⟩
      intro z hz
      rcases List.mem_cons.mp hz with rfl | hz
      · simpa using hx
      · exact hys z hz

theorem HandCurve.closed_ok {j : ℕ} {hand : Hand} (hok : x.closed j hand links = .ok (chain, ks)) :
    links = chain.links ++ ks ∧ x.Closed chain := by
  cases links with
  | nil => cases hok
  | cons first rest =>
    unfold closed at hok
    simp only at hok
    cases hsplit : splitAfter? (x.closes first.start) (first :: rest) with
    | none =>
      rw [hsplit] at hok
      cases hok
    | some s =>
      obtain ⟨as, bs⟩ := s
      rw [hsplit] at hok
      obtain ⟨c, hc, hok⟩ := bind_eq_ok.mp hok
      cases pure_eq_ok.mp hok
      obtain ⟨ys, y, rfl, heq, hy, hys⟩ := splitAfter?_eq_some hsplit
      obtain ⟨hlinks, hsolves⟩ := solve_ok hc
      rw [hlinks]
      refine ⟨heq, hsolves, first, y, ys, hlinks, ?_, hy, hys⟩
      rw [hlinks]
      cases ys with
      | nil => simpa using (List.cons.inj heq).1.symm
      | cons y' ys => simpa using (List.cons.inj heq).1.symm

/-- Of a hand without velocities one closed curve leads over the start of the loop, and another
follows it. -/
theorem HandCurve.free_ok {j : ℕ} {hand : Hand} (hok : x.free j hand links = .ok chains) :
    ∃ before c d after, links = before ++ c.links ++ d.links ++ after ∧
      chains = [.uncovered before, c, d, .uncovered after] ∧ x.Closed c ∧ x.Closed d ∧
      ∃ l ∈ c.links.head?, x.straddles l = true := by
  unfold free at hok
  simp only at hok
  split_ifs at hok with hempty
  · simp at hok
  · obtain ⟨⟨c, ls⟩, hc, hok⟩ := bind_eq_ok.mp hok
    obtain ⟨⟨d, ks⟩, hd, hok⟩ := bind_eq_ok.mp hok
    obtain rfl := pure_eq_ok.mp hok
    obtain ⟨hsplit, hclosed⟩ := closed_ok hc
    obtain ⟨hsplit', hclosed'⟩ := closed_ok hd
    simp only at hsplit'
    refine ⟨_, c, d, ks, ?_, rfl, hclosed, hclosed', ?_⟩
    · conv_lhs => rw [← List.takeWhile_append_dropWhile (p := (!x.straddles ·)) (l := links)]
      rw [hsplit, hsplit']
      simp
    · obtain ⟨first, last, init, -, hhead, -⟩ := hclosed.closes
      refine ⟨first, hhead, ?_⟩
      have hdrop : (links.dropWhile (!x.straddles ·)).head? = some first := by
        rw [hsplit, List.head?_append, hhead]
        rfl
      have := List.head?_dropWhile_not (!x.straddles ·) links
      rw [hdrop] at this
      simpa using this

/-- Which links of a hand are without a curve: before the first velocity and after the last one,
or, where there are no velocities, around two closed curves. -/
def HandCurve.Ends (x : HandCurve α) (moments : List (Moment α)) (j : ℕ) (hand : Hand)
    (before mid after : List (Chain α)) : Prop :=
  (Moment.ofHand moments j hand).any (·.event.determinesVelocity) = true ∧
    (∀ k ∈ before.flatMap (·.links), k.startVelocity = none) ∧
    (∀ k ∈ after.flatMap (·.links), k.endVelocity = none) ∨
  (Moment.ofHand moments j hand).any (·.event.determinesVelocity) = false ∧
    ∃ c d, mid = [c, d] ∧ x.Closed c ∧ x.Closed d ∧ ∃ l ∈ c.links.head?, x.straddles l = true

/-- The links of a hand that have a curve stand together. -/
theorem HandCurve.chains_ok {moments : List (Moment α)} {j : ℕ} {hand : Hand}
    (hjoined : HandLink.Joined links) (hok : x.chains moments j hand links = .ok chains) :
    ∃ before mid after, chains = before ++ mid ++ after ∧ links = chains.flatMap (·.links) ∧
      (∀ c ∈ before ++ after, c.curve = none) ∧ (∀ c ∈ mid, ∃ v w, x.Solves v w c) ∧
      x.Ends moments j hand before mid after := by
  unfold HandCurve.chains at hok
  split_ifs at hok with hpinned
  · obtain ⟨bare, rest, spans, rfl, rfl, hbare, hspans⟩ := pinned_ok hjoined hok
    obtain ⟨mid, after, rfl, rfl, hafter, hmid, hends⟩ := hspans.split
    refine ⟨bare.map (.uncovered [·]), mid, after, by simp, ?_, ?_, hmid, .inl ⟨hpinned, ?_, hends⟩⟩
    · simp [List.flatMap_map, Chain.uncovered]
    · intro c hc
      rcases List.mem_append.mp hc with hc | hc
      · obtain ⟨k, -, rfl⟩ := List.mem_map.mp hc
        rfl
      · exact hafter c hc
    · simpa [List.flatMap_map, Chain.uncovered] using hbare
  · obtain ⟨before, c, d, after, rfl, rfl, hc, hd, hstraddles⟩ := free_ok hok
    refine ⟨[.uncovered before], [c, d], [.uncovered after], rfl, by simp [Chain.uncovered], ?_, ?_,
      .inr ⟨Bool.eq_false_iff.mpr hpinned, c, d, rfl, hc, hd, hstraddles⟩⟩
    · intro e he
      rcases List.mem_pair.mp he with rfl | rfl <;> rfl
    · intro e he
      rcases List.mem_pair.mp he with rfl | rfl
      · exact ⟨_, _, hc.solves⟩
      · exact ⟨_, _, hd.solves⟩

end Spans

section Hands

variable {moments : List (Moment α)} {j : ℕ} {hand : Hand} {links : List (HandLink α)}
  {x : HandCurve α} {known known' : Array (Spline α)}

theorem HandCurve.fresh_of_chains {chains : List (Chain α)} (hfresh : HandLink.Fresh links)
    (hok : x.chains moments j hand links = .ok chains) :
    ∀ c ∈ chains, ∀ k ∈ c.links, k.curve = none := by
  obtain ⟨before, mid, after, -, rfl, -⟩ := chains_ok hfresh.joined hok
  exact fun c hc k hk ↦ hfresh.curve k (List.mem_flatMap.mpr ⟨c, hc, hk⟩)

/-- How the links of the hands of one juggler were solved. -/
def HandCurve.Solved (x : HandCurve α) (moments : List (Moment α)) (curves : Array (Spline α))
    (j : ℕ) (links solved : Hands (List (HandLink α))) : Prop :=
  ∀ hand, ∃ chains, x.chains moments j hand (links.get hand) = .ok chains ∧
    Numbers curves chains (solved.get hand)

theorem HandCurve.solveJuggler_ok {hands solved : Hands (List (HandLink α))}
    (hfresh : ∀ hand, HandLink.Fresh (hands.get hand))
    (hok : x.solveJuggler moments known j hands = .ok (known', solved)) :
    known.toList <+: known'.toList ∧ ∀ curves : Array (Spline α),
      known'.toList <+: curves.toList → x.Solved moments curves j hands solved := by
  obtain ⟨left, hleft, hok⟩ := bind_eq_ok.mp hok
  obtain ⟨right, hright, hok⟩ := bind_eq_ok.mp hok
  obtain ⟨hknown, hnumbers⟩ := Chain.number_spec (fresh_of_chains (hfresh .left) hleft) known
  obtain ⟨hknown', hnumbers'⟩ := Chain.number_spec (fresh_of_chains (hfresh .right) hright)
    (Chain.number known left).1
  cases pure_eq_ok.mp hok
  refine ⟨hknown.trans hknown', fun curves hcurves hand ↦ ?_⟩
  cases hand with
  | left => exact ⟨left, hleft, hnumbers curves (hknown'.trans hcurves)⟩
  | right => exact ⟨right, hright, hnumbers' curves hcurves⟩

theorem HandCurve.solveFrom_ok {hands solved : List (Hands (List (HandLink α)))}
    (hfresh : ∀ hs ∈ hands, ∀ hand, HandLink.Fresh (hs.get hand))
    (hok : x.solveFrom moments known j hands = .ok (known', solved)) :
    known.toList <+: known'.toList ∧ ∀ curves : Array (Spline α),
      known'.toList <+: curves.toList → ∀ (i : ℕ) (hs : Hands (List (HandLink α))),
        hands[i]? = some hs →
        ∃ out, solved[i]? = some out ∧ x.Solved moments curves (j + i) hs out := by
  induction hands generalizing known j solved with
  | nil =>
    cases Except.ok.inj hok
    exact ⟨List.prefix_refl _, fun _ _ _ _ h ↦ by simp at h⟩
  | cons hs hands ih =>
    obtain ⟨hhs, hhands⟩ := List.forall_mem_cons.mp hfresh
    obtain ⟨⟨mid, out⟩, hfirst, hok⟩ := bind_eq_ok.mp hok
    obtain ⟨⟨known', outs⟩, hrest, hok⟩ := bind_eq_ok.mp hok
    cases pure_eq_ok.mp hok
    obtain ⟨hknown, hsolved⟩ := solveJuggler_ok hhs hfirst
    obtain ⟨hknown', hsolved'⟩ := ih hhands hrest
    refine ⟨hknown.trans hknown', fun curves hcurves i hs' hi ↦ ?_⟩
    cases i with
    | zero =>
      obtain rfl := Option.some.inj hi
      exact ⟨out, rfl, hsolved curves (hknown'.trans hcurves)⟩
    | succ i =>
      obtain ⟨out', hout', h⟩ := hsolved' curves hcurves i hs' hi
      refine ⟨out', hout', ?_⟩
      rwa [Nat.add_assoc, Nat.add_comm 1 i] at h

end Hands

end Juggling
