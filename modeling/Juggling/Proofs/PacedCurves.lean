import Juggling.Proofs.PacedLinks

namespace Juggling

variable {α : Type} {f : α}

section Split

variable {β γ : Type} {p : β → Bool} {q : γ → Bool} {σ : β → γ} {xs : List β}
  (hpq : ∀ x ∈ xs, q (σ x) = p x)
include hpq

theorem takeWhile_map_of_mem : (xs.map σ).takeWhile q = (xs.takeWhile p).map σ := by
  induction xs with
  | nil => rfl
  | cons x xs ih =>
    rw [List.map_cons, List.takeWhile_cons, List.takeWhile_cons, hpq x List.mem_cons_self,
      ih fun y hy ↦ hpq y (List.mem_cons_of_mem _ hy)]
    split_ifs <;> rfl

theorem dropWhile_map_of_mem : (xs.map σ).dropWhile q = (xs.dropWhile p).map σ := by
  induction xs with
  | nil => rfl
  | cons x xs ih =>
    rw [List.map_cons, List.dropWhile_cons, List.dropWhile_cons, hpq x List.mem_cons_self,
      ih fun y hy ↦ hpq y (List.mem_cons_of_mem _ hy)]
    split_ifs <;> rfl

theorem splitAfter?_map_of_mem :
    splitAfter? q (xs.map σ) = (splitAfter? p xs).map (Prod.map (·.map σ) (·.map σ)) := by
  induction xs with
  | nil => rfl
  | cons x xs ih =>
    rw [List.map_cons, splitAfter?, splitAfter?, hpq x List.mem_cons_self,
      ih fun y hy ↦ hpq y (List.mem_cons_of_mem _ hy)]
    split_ifs
    · rfl
    · cases splitAfter? p xs <;> rfl

end Split

variable [Exact α]

def Chain.stretch (f : α) (c : Chain α) : Chain α :=
  ⟨c.links.map (·.stretch f), c.curve.map (·.stretch f)⟩

theorem Chain.stops_stretch (links : List (HandLink α)) :
    stops (links.map (·.stretch f)) = (stops links).map (·.stretch f) := by
  rw [stops, stops, List.getLast?_map]
  cases links.getLast? <;> simp [HandLink.stretch]

theorem Knots.exists_ofLists {positions : List (Coordinate α)} {times : List α}
    {v w : Option (Coordinate α)} {k : Knots α} (hok : ofLists positions times v w = .ok k)
    (v' w' : Option (Coordinate α)) : ∃ k', ofLists positions times v' w' = .ok k' := by
  unfold ofLists at hok ⊢
  split_ifs at hok ⊢
  split at hok
  · split at hok
    · cases hok
    · exact ⟨_, rfl⟩
  · cases hok

namespace HandCurve

/-- What curves depend on, at another pace. -/
structure Paced (f : α) (x x' : HandCurve α) : Prop where
  place : ∀ e, x'.place (e.stretch f) = x.place e
  paths : ∀ p, PathHistory.Paced f (x.paths.getD p .empty) (x'.paths.getD p .empty)
  loop : x'.loop = x.loop.stretch f

variable {x x' : HandCurve α} (hx : Paced f x x') {links : List (HandLink α)}
include hx

theorem Paced.knots {ms : List (Moment α)} {v w : Option (Coordinate α)} {k : Knots α} (hf : 0 < f)
    (hok : Knots.ofLists (ms.map fun m ↦ x.place m.event) (ms.map (·.time)) v w = .ok k) :
    Knots.ofLists ((ms.map (·.stretch f)).map fun m ↦ x'.place m.event)
      ((ms.map (·.stretch f)).map (·.time)) v w = .ok (k.stretch f) := by
  have hplaces : (ms.map (·.stretch f)).map (fun m ↦ x'.place m.event) =
      ms.map fun m ↦ x.place m.event := by
    rw [List.map_map]
    exact List.map_congr_left fun m _ ↦ hx.place m.event
  have htimes : (ms.map (·.stretch f)).map (·.time) = (ms.map (·.time)).map (· * f) := by
    rw [List.map_map, List.map_map]
    rfl
  rw [hplaces, htimes]
  exact Knots.ofLists_stretch hf hok

theorem Paced.solve (hf : 0 < f) {chain : Chain α} (hok : x.solve links none none = .ok chain) :
    x'.solve (links.map (·.stretch f)) none none = .ok (chain.stretch f) := by
  simp only [HandCurve.solve, lift_eq_ok, bind_eq_ok] at hok ⊢
  obtain ⟨k, hk, s, hs, hok⟩ := hok
  obtain rfl := pure_eq_ok.mp hok
  obtain ⟨-, -, -, hstart, hend⟩ := Knots.ofLists_ok hk
  rw [Chain.stops_stretch]
  exact ⟨_, hx.knots hf hk, _, Spline.ofKnots_stretch hf hstart hend hs, rfl⟩

theorem Paced.exists_solve (hf : 0 < f) {v w : Option (Coordinate α)} {chain : Chain α}
    (hok : x.solve links v w = .ok chain) (v' w' : Option (Coordinate α)) :
    ∃ chain', x'.solve (links.map (·.stretch f)) v' w' = .ok chain' := by
  simp only [HandCurve.solve, lift_eq_ok, bind_eq_ok] at hok ⊢
  obtain ⟨k, hk, -⟩ := hok
  obtain ⟨k', hk'⟩ := Knots.exists_ofLists (hx.knots hf hk) v' w'
  obtain ⟨s', hs'⟩ := Spline.exists_ofKnots k'
  rw [Chain.stops_stretch]
  exact ⟨_, _, hk', _, hs', rfl⟩

theorem Paced.exists_clamped (hf : 0 < f) {v w : VelocityRef} {chain : Chain α}
    (hok : x.clamped links v w = .ok chain) :
    ∃ chain', x'.clamped (links.map (·.stretch f)) v w = .ok chain' := by
  obtain ⟨start, hstart, hok⟩ := bind_eq_ok.mp hok
  obtain ⟨stop, hstop, hok⟩ := bind_eq_ok.mp hok
  obtain ⟨start', hstart'⟩ := VelocityRef.exists_resolve_stretch hx.paths (lift_eq_ok.mp hstart)
  obtain ⟨stop', hstop'⟩ := VelocityRef.exists_resolve_stretch hx.paths (lift_eq_ok.mp hstop)
  obtain ⟨chain', hchain'⟩ := hx.exists_solve hf hok (some start') (some stop')
  exact ⟨chain', bind_eq_ok.mpr ⟨_, lift_eq_ok.mpr hstart', bind_eq_ok.mpr
    ⟨_, lift_eq_ok.mpr hstop', hchain'⟩⟩⟩

theorem Paced.exists_pinned (hf : 0 < f) {current : Option (VelocityRef × List (HandLink α))}
    {chains : List (Chain α)} (hok : x.pinned current links = .ok chains) :
    ∃ chains', x'.pinned (current.map (Prod.map id (·.map (·.stretch f))))
      (links.map (·.stretch f)) = .ok chains' := by
  induction links generalizing current chains with
  | nil => exact ⟨_, rfl⟩
  | cons k ks ih =>
    have key (v : VelocityRef) (ls : List (HandLink α)) {chains : List (Chain α)}
        (hok : x.pinned (some (v, ls)) (k :: ks) = .ok chains) : ∃ chains',
        x'.pinned (some (v, ls.map (·.stretch f))) ((k :: ks).map (·.stretch f)) = .ok chains' := by
      have hlinks : ls.map (·.stretch f) ++ [k.stretch f] = (ls ++ [k]).map (·.stretch f) := by simp
      rw [List.map_cons]
      unfold pinned at hok ⊢
      simp only [hlinks, show (k.stretch f).endVelocity = k.endVelocity from rfl] at hok ⊢
      cases hend : k.endVelocity with
      | none =>
        rw [hend] at hok
        exact ih hok
      | some w =>
        rw [hend] at hok
        obtain ⟨chain, hchain, hok⟩ := bind_eq_ok.mp hok
        obtain ⟨rest, hrest, -⟩ := bind_eq_ok.mp hok
        obtain ⟨chain', hchain'⟩ := hx.exists_clamped hf hchain
        obtain ⟨rest', hrest'⟩ := ih hrest
        exact ⟨_, bind_eq_ok.mpr ⟨chain', hchain', bind_eq_ok.mpr ⟨rest', hrest', rfl⟩⟩⟩
    rcases current with _ | ⟨v, ls⟩
    · cases hstart : k.startVelocity with
      | none =>
        rw [List.map_cons]
        unfold pinned at hok ⊢
        simp only [show (k.stretch f).startVelocity = k.startVelocity from rfl, hstart,
          Option.map_none] at hok ⊢
        obtain ⟨rest, hrest, -⟩ := bind_eq_ok.mp hok
        obtain ⟨rest', hrest'⟩ := ih hrest
        exact ⟨_, bind_eq_ok.mpr ⟨rest', hrest', rfl⟩⟩
      | some v =>
        rw [pinned_none hstart] at hok
        obtain ⟨chains', hchains'⟩ := key v [] hok
        refine ⟨chains', ?_⟩
        rw [List.map_cons] at hchains' ⊢
        rw [Option.map_none, pinned_none (show (k.stretch f).startVelocity = some v from hstart)]
        exact hchains'
    · exact key v ls hok

section Free

variable {T : Set α} (h : Pace f T) (hlow : x.loop.low ∈ T)
  (hT : ∀ t ∈ T, t + x.period ∈ T)
  (htimes : ∀ k ∈ links, k.start.time ∈ T ∧ k.stop.time ∈ T)
include h

include hlow in
theorem Paced.straddles {k : HandLink α} (hk : k.start.time ∈ T ∧ k.stop.time ∈ T) :
    x'.straddles (k.stretch f) = x.straddles k := by
  have hstart : (k.stretch f).start.time ≤ x'.loop.low + timeTolerance ↔
      k.start.time ≤ x.loop.low + timeTolerance := by
    rw [hx.loop]
    exact h.le_add hk.1 hlow
  have hstop : x'.loop.low + timeTolerance < (k.stretch f).stop.time ↔
      x.loop.low + timeTolerance < k.stop.time := by
    rw [hx.loop]
    exact h.add_lt hlow hk.2
  simp only [HandCurve.straddles, hstart, hstop]

include hT

theorem Paced.closes {m : Moment α} (hm : m.time ∈ T) {k : HandLink α} (hk : k.stop.time ∈ T) :
    x'.closes (m.stretch f) (k.stretch f) = x.closes m k := by
  have hperiod : (m.stretch f).time + x'.period = (m.time + x.period) * f := by
    rw [period, hx.loop, add_mul, period, sub_mul]
    rfl
  have hnear : Scalar.abs ((k.stretch f).stop.time - ((m.stretch f).time + x'.period)) <
      periodTolerance ↔ Scalar.abs (k.stop.time - (m.time + x.period)) < periodTolerance := by
    rw [hperiod, Scalar.abs_eq, Scalar.abs_eq]
    exact h.abs_lt hk (hT _ hm) (timeTolerance_pos.trans SymmetryGroup.timeTolerance_lt) le_rfl
  simp only [HandCurve.closes, hnear]
  rfl

include htimes

theorem Paced.closed {j : ℕ} {hand : Hand} {r : Chain α × List (HandLink α)}
    (hok : x.closed j hand links = .ok r) : x'.closed j hand (links.map (·.stretch f)) =
      .ok (r.1.stretch f, r.2.map (·.stretch f)) := by
  cases links with
  | nil => cases hok
  | cons first rest =>
    have hsplit := splitAfter?_map_of_mem (q := x'.closes (first.start.stretch f)) fun k hk ↦
      hx.closes h hT (htimes first List.mem_cons_self).1 (htimes k hk).2
    rw [List.map_cons] at hsplit ⊢
    unfold HandCurve.closed at hok ⊢
    simp only [show (first.stretch f).start = first.start.stretch f from rfl, hsplit] at hok ⊢
    cases hs : splitAfter? (x.closes first.start) (first :: rest) with
    | none =>
      rw [hs] at hok
      cases hok
    | some p =>
      rw [hs] at hok
      obtain ⟨chain, hchain, hok⟩ := bind_eq_ok.mp hok
      obtain rfl := pure_eq_ok.mp hok
      exact bind_eq_ok.mpr ⟨_, hx.solve h.pos hchain, rfl⟩

include hlow

theorem Paced.free {j : ℕ} {hand : Hand} {chains : List (Chain α)}
    (hok : x.free j hand links = .ok chains) :
    x'.free j hand (links.map (·.stretch f)) = .ok (chains.map (·.stretch f)) := by
  have hstraddles (k : HandLink α) (hk : k ∈ links) :
      (!x'.straddles (k.stretch f)) = !x.straddles k := by
    rw [hx.straddles h hlow (htimes k hk)]
  have hbefore : (links.map (·.stretch f)).takeWhile (!x'.straddles ·) =
      (links.takeWhile (!x.straddles ·)).map (·.stretch f) := takeWhile_map_of_mem hstraddles
  have hafter : (links.map (·.stretch f)).dropWhile (!x'.straddles ·) =
      (links.dropWhile (!x.straddles ·)).map (·.stretch f) := dropWhile_map_of_mem hstraddles
  unfold HandCurve.free at hok ⊢
  simp only [hbefore, hafter, List.isEmpty_map] at hok ⊢
  split_ifs at hok ⊢
  · simp at hok
  · obtain ⟨⟨first, rest⟩, hfirst, hok⟩ := bind_eq_ok.mp hok
    obtain ⟨⟨second, after⟩, hsecond, hok⟩ := bind_eq_ok.mp hok
    obtain rfl := pure_eq_ok.mp hok
    have hdrop : ∀ k ∈ links.dropWhile (!x.straddles ·), k.start.time ∈ T ∧ k.stop.time ∈ T :=
      fun k hk ↦ htimes k ((List.dropWhile_sublist _).subset hk)
    have hrest : ∀ k ∈ rest, k.start.time ∈ T ∧ k.stop.time ∈ T := fun k hk ↦
      hdrop k (by rw [(closed_ok hfirst).1]; exact List.mem_append_right _ hk)
    exact bind_eq_ok.mpr ⟨_, hx.closed h hT hdrop hfirst, bind_eq_ok.mpr
      ⟨_, hx.closed h hT hrest hsecond, rfl⟩⟩

end Free

section All

variable {T : Set α} (h : Pace f T) (hlow : x.loop.low ∈ T)
  (hT : ∀ t ∈ T, t + x.period ∈ T) {moments : List (Moment α)}
include h hlow hT

omit hx h hlow hT in
theorem determines_stretch (moments : List (Moment α)) (j : ℕ) (hand : Hand) :
    (Moment.ofHand (moments.map (·.stretch f)) j hand).any (·.event.determinesVelocity) =
      (Moment.ofHand moments j hand).any (·.event.determinesVelocity) := by
  rw [show Moment.ofHand (moments.map (·.stretch f)) j hand =
    (Moment.ofHand moments j hand).map (·.stretch f) from List.filter_map, List.any_map]
  rfl

theorem Paced.exists_chains (htimes : ∀ k ∈ links, k.start.time ∈ T ∧ k.stop.time ∈ T) {j : ℕ}
    {hand : Hand} {chains : List (Chain α)} (hok : x.chains moments j hand links = .ok chains) :
    ∃ chains', x'.chains (moments.map (·.stretch f)) j hand (links.map (·.stretch f)) =
      .ok chains' := by
  unfold HandCurve.chains at hok ⊢
  rw [determines_stretch]
  split_ifs at hok ⊢
  · exact hx.exists_pinned h.pos hok
  · exact ⟨_, hx.free h hlow hT htimes hok⟩

theorem Paced.exists_solveFrom {known : Array (Spline α)} {j : ℕ}
    {all : List (Hands (List (HandLink α)))}
    (htimes : ∀ hs ∈ all, ∀ hand, ∀ k ∈ hs.get hand, k.start.time ∈ T ∧ k.stop.time ∈ T)
    {r : Array (Spline α) × List (Hands (List (HandLink α)))}
    (hok : x.solveFrom moments known j all = .ok r) (known' : Array (Spline α)) :
    ∃ r', x'.solveFrom (moments.map (·.stretch f)) known' j
      (all.map (·.map (·.map (·.stretch f)))) =
      .ok r' := by
  induction all generalizing known known' j r with
  | nil => exact ⟨_, rfl⟩
  | cons hs all ih =>
    obtain ⟨⟨mid, solved⟩, hsolve, hok⟩ := bind_eq_ok.mp hok
    obtain ⟨rest, hrest, -⟩ := bind_eq_ok.mp hok
    obtain ⟨left, hleft, hsolve⟩ := bind_eq_ok.mp hsolve
    obtain ⟨right, hright, -⟩ := bind_eq_ok.mp hsolve
    have hlinks := htimes hs List.mem_cons_self
    obtain ⟨left', hleft'⟩ := hx.exists_chains h hlow hT (hlinks .left) hleft
    obtain ⟨right', hright'⟩ := hx.exists_chains h hlow hT (hlinks .right) hright
    have hstep : x'.solveJuggler (moments.map (·.stretch f)) known' j
        (hs.map (·.map (·.stretch f))) = .ok _ :=
      bind_eq_ok.mpr ⟨left', hleft', bind_eq_ok.mpr ⟨right', hright', rfl⟩⟩
    obtain ⟨rest', hrest'⟩ := ih (fun gs hgs ↦ htimes gs (List.mem_cons_of_mem _ hgs)) hrest _
    exact ⟨_, bind_eq_ok.mpr ⟨_, hstep, bind_eq_ok.mpr ⟨rest', hrest', rfl⟩⟩⟩

end All

end HandCurve

end Juggling
