import Juggling.Proofs.Covered
import Juggling.Proofs.PacedTimeline
import Juggling.Proofs.Protocol

namespace Juggling

variable {α : Type} {f : α}

section Related

variable {β γ : Type} {R : β → γ → Prop}

theorem findIdx?_of_forall₂ {p : β → Bool} {q : γ → Bool} (hpq : ∀ a b, R a b → q b = p a)
    {xs : List β} {ys : List γ} (h : List.Forall₂ R xs ys) : ys.findIdx? q = xs.findIdx? p := by
  induction h with
  | nil => rfl
  | cons hab _ ih => rw [List.findIdx?_cons, List.findIdx?_cons, hpq _ _ hab, ih]

theorem getElem?_of_forall₂ {xs : List β} {ys : List γ} (h : List.Forall₂ R xs ys) (i : ℕ) :
    (∃ a b, xs[i]? = some a ∧ ys[i]? = some b ∧ R a b) ∨ xs[i]? = none ∧ ys[i]? = none := by
  induction h generalizing i with
  | nil => exact .inr ⟨rfl, rfl⟩
  | cons hab _ ih =>
    cases i with
    | zero => exact .inl ⟨_, _, rfl, rfl, hab⟩
    | succ i => exact ih i

theorem exists_mapM_map {ε δ ι κ : Type} {u : β → Except ε ι} {v : γ → Except δ κ} {σ : β → γ}
    {S : ι → κ → Prop} {xs : List β}
    (h : ∀ a ∈ xs, ∀ r, u a = .ok r → ∃ s, v (σ a) = .ok s ∧ S r s) {rs : List ι}
    (hok : xs.mapM u = .ok rs) : ∃ ss, (xs.map σ).mapM v = .ok ss ∧ List.Forall₂ S rs ss := by
  induction xs generalizing rs with
  | nil =>
    obtain rfl := pure_eq_ok.mp hok
    exact ⟨[], rfl, .nil⟩
  | cons a xs ih =>
    rw [List.mapM_cons] at hok
    obtain ⟨r, hr, hok⟩ := bind_eq_ok.mp hok
    obtain ⟨rs, hrs, hok⟩ := bind_eq_ok.mp hok
    obtain rfl := pure_eq_ok.mp hok
    obtain ⟨s, hs, hrel⟩ := h a List.mem_cons_self r hr
    obtain ⟨ss, hss, hrels⟩ := ih (fun b hb ↦ h b (List.mem_cons_of_mem _ hb)) hrs
    rw [List.map_cons, List.mapM_cons]
    exact ⟨s :: ss, bind_eq_ok.mpr ⟨s, hs, bind_eq_ok.mpr ⟨ss, hss, rfl⟩⟩, .cons hrel hrels⟩

end Related

variable [Exact α]

namespace Touch

def stretch (f : α) (t : Touch α) : Touch α := { t with moment := t.moment.stretch f }

theorem ofPath_stretch (moments : List (Moment α)) (p : ℕ) :
    ofPath (moments.map (·.stretch f)) p = (ofPath moments p).map (·.stretch f) := by
  simp only [ofPath, List.flatMap_map, List.map_flatMap, List.map_map]
  rfl

end Touch

/-- Every throw of an event is a toss. -/
def Event.Tosses (e : Event α) : Prop :=
  ∀ t ∈ e.transitions, t.kind = .throwing → t.throwKind = .toss

namespace PathLink

/-- A link that is passed at another pace. The flights may be different ones. -/
structure Paced (f : α) (k k' : PathLink α) : Prop where
  start : k'.start = k.start.stretch f
  stop : k'.stop = k.stop.stretch f
  isHeld : k'.isHeld = k.isHeld

variable [Numeral α]

theorem exists_toss_stretch (hf : 0 < f) {modifier : String} {l l' : Launch α}
    (hstart : l'.start.time = l.start.time * f) (hstop : l'.stop.time = l.stop.time * f)
    {a : Flight α} (hok : Flight.build .toss modifier l = .ok a) :
    ∃ b, Flight.build .toss modifier l' = .ok b := by
  unfold Flight.build at hok ⊢
  split_ifs at hok with hlt
  rw [if_pos (by rw [hstart, hstop]; exact mul_lt_mul_of_pos_right hlt hf)]
  obtain ⟨toss, htoss, -⟩ := map_eq_ok.mp hok
  obtain ⟨_, hknown, htoss⟩ := bind_eq_ok.mp htoss
  obtain ⟨g, hg, -⟩ := bind_eq_ok.mp htoss
  exact ⟨_, map_eq_ok.mpr ⟨_, bind_eq_ok.mpr ⟨_, hknown, bind_eq_ok.mpr ⟨g, hg, rfl⟩⟩, rfl⟩⟩

theorem exists_build_stretch (hf : 0 < f) (place place' : Event α → Coordinate α) {p : ℕ}
    {a b : Touch α}
    (htoss : a.transition.kind = .throwing → a.transition.throwKind = .toss) {k : PathLink α}
    (hok : build place p a b = .ok k) :
    ∃ k', build place' p (a.stretch f) (b.stretch f) = .ok k' ∧ Paced f k k' := by
  obtain ⟨passage, hpassage, rfl⟩ := map_eq_ok.mp hok
  rcases passage?_eq_ok.mp hpassage with ⟨flight, ⟨hthrow, hcatch, hflight⟩, rfl⟩ | ⟨hheld, rfl⟩
  · rw [htoss hthrow] at hflight
    obtain ⟨flight', hflight'⟩ : ∃ flight', Flight.build .toss a.transition.modifier
        ⟨knot place' (a.stretch f), knot place' (b.stretch f)⟩ = .ok flight' :=
      exists_toss_stretch hf rfl rfl hflight
    rw [← htoss hthrow] at hflight'
    exact ⟨_, map_eq_ok.mpr ⟨_,
      passage?_eq_ok.mpr (.inl ⟨flight', ⟨hthrow, hcatch, hflight'⟩, rfl⟩),
      rfl⟩, rfl, rfl, rfl⟩
  · exact ⟨_, map_eq_ok.mpr ⟨_, passage?_eq_ok.mpr (.inr ⟨hheld, rfl⟩), rfl⟩, rfl, rfl, rfl⟩

end PathLink

namespace PathHistory

/-- The same touches at another pace, and links between them that correspond. -/
structure Paced (f : α) (h h' : PathHistory α) : Prop where
  touches : h'.touches = h.touches.map (·.stretch f)
  links : List.Forall₂ (PathLink.Paced f) h.links h'.links

theorem paced_empty : Paced f empty empty := ⟨rfl, .nil⟩

namespace Paced

variable {h h' : PathHistory α} (hh : Paced f h h') (m : Moment α)
include hh

theorem flightFrom? : h'.flightFrom? (m.stretch f) = h.flightFrom? m :=
  findIdx?_of_forall₂ (fun k k' hk ↦ by rw [hk.isHeld, hk.start]; rfl) hh.links

theorem flightTo? : h'.flightTo? (m.stretch f) = h.flightTo? m :=
  findIdx?_of_forall₂ (fun k k' hk ↦ by rw [hk.isHeld, hk.stop]; rfl) hh.links

theorem startsAt : h'.startsAt (m.stretch f) = h.startsAt m := by
  simp only [PathHistory.startsAt, hh.touches, List.head?_map, Option.map_map]
  rfl

theorem endsAt : h'.endsAt (m.stretch f) = h.endsAt m := by
  simp only [PathHistory.endsAt, hh.touches, List.getLast?_map, Option.map_map]
  rfl

end Paced

variable [Numeral α]

theorem exists_build_stretch (hf : 0 < f) (place place' : Event α → Coordinate α)
    {moments : List (Moment α)} (htoss : ∀ m ∈ moments, m.event.Tosses) {p : ℕ}
    {h : PathHistory α} (hok : build place moments p = .ok h) :
    ∃ h', build place' (moments.map (·.stretch f)) p = .ok h' ∧ Paced f h h' := by
  obtain ⟨links, hlinks, hok⟩ := bind_eq_ok.mp hok
  obtain rfl := pure_eq_ok.mp hok
  obtain ⟨links', hlinks', hrel⟩ := exists_mapM_map
    (v := fun q : Touch α × Touch α ↦ PathLink.build place' p q.1 q.2)
    (σ := Prod.map (·.stretch f) (·.stretch f)) (S := PathLink.Paced f) (fun q hq k hk ↦ by
      obtain ⟨hm, ht, -⟩ := Touch.mem_ofPath.mp (List.of_mem_zip hq).1
      exact PathLink.exists_build_stretch hf place place' (htoss _ hm _ ht) hk) hlinks
  rw [← steps_map, ← Touch.ofPath_stretch] at hlinks'
  exact ⟨_, bind_eq_ok.mpr ⟨links', hlinks', rfl⟩, Touch.ofPath_stretch moments p, hrel⟩

theorem exists_buildAll_stretch (hf : 0 < f) (place place' : Event α → Coordinate α)
    {moments : List (Moment α)} (htoss : ∀ m ∈ moments, m.event.Tosses) {N : ℕ}
    {paths : Numbered (PathHistory α)} (hok : buildAll place moments N = .ok paths) :
    ∃ paths', buildAll place' (moments.map (·.stretch f)) N = .ok paths' ∧
      ∀ p, Paced f (paths.getD p .empty) (paths'.getD p .empty) := by
  obtain ⟨hists, hhists, hok⟩ := bind_eq_ok.mp hok
  obtain rfl := pure_eq_ok.mp hok
  obtain ⟨hists', hhists', hrel⟩ := exists_mapM_map (v := build place' (moments.map (·.stretch f)))
    (σ := id) (S := Paced f) (fun p _ h hh ↦ exists_build_stretch hf place place' htoss hh) hhists
  rw [List.map_id] at hhists'
  refine ⟨_, bind_eq_ok.mpr ⟨hists', hhists', rfl⟩, fun p ↦ ?_⟩
  cases p with
  | zero => exact paced_empty
  | succ p =>
    rw [Numbered.getD, Numbered.getD, Numbered.get?_ofList, Numbered.get?_ofList]
    rcases getElem?_of_forall₂ hrel p with ⟨h, h', hh, hh', hpaced⟩ | ⟨hh, hh'⟩
    · rw [hh, hh']
      exact hpaced
    · rw [hh, hh']
      exact paced_empty

end PathHistory

section Hands

variable {paths paths' : Numbered (PathHistory α)}
  (hpaths : ∀ p, PathHistory.Paced f (paths.getD p .empty) (paths'.getD p .empty))
include hpaths

namespace VelocityRef

theorem ofMoment_stretch {m : Moment α} {v : Option VelocityRef} (hok : ofMoment paths m = .ok v) :
    ofMoment paths' (m.stretch f) = .ok v := by
  have hthrow : (m.stretch f).event.find? .throwing = m.event.find? .throwing := rfl
  have hsoft : (m.stretch f).event.find? .softCatching = m.event.find? .softCatching := rfl
  unfold ofMoment at hok ⊢
  simp only [hthrow, hsoft, (hpaths _).flightFrom?, (hpaths _).flightTo?, (hpaths _).startsAt,
    (hpaths _).endsAt] at hok ⊢
  cases hfind : m.event.find? .throwing with
  | some t =>
    rw [hfind] at hok
    simp only at hok ⊢
    cases hlink : (paths.getD t.path .empty).flightFrom? m with
    | some link => simpa only [hlink] using hok
    | none =>
      simp only [hlink] at hok ⊢
      split_ifs at hok ⊢
      exact hok
  | none =>
    rw [hfind] at hok
    cases hfind' : m.event.find? .softCatching with
    | some t =>
      rw [hfind'] at hok
      simp only at hok ⊢
      cases hlink : (paths.getD t.path .empty).flightTo? m with
      | some link => simpa only [hlink] using hok
      | none =>
        simp only [hlink] at hok ⊢
        split_ifs at hok ⊢
        exact hok
    | none => simpa only [hfind'] using hok

theorem exists_flight_stretch {p i : ℕ} {a : Flight α} (hok : flight paths p i = .ok a) :
    ∃ b, flight paths' p i = .ok b := by
  have hbind (v : Numbered (PathHistory α)) :
      (v.get? p).bind (·.links[i]?) = (v.getD p .empty).links[i]? := by
    rw [Numbered.getD]
    cases v.get? p <;> rfl
  unfold flight at hok ⊢
  rw [hbind] at hok ⊢
  rcases getElem?_of_forall₂ (hpaths p).links i with ⟨k, k', hk, hk', hpaced⟩ | ⟨hk, -⟩
  · rw [hk] at hok
    rw [hk']
    have hheld := hpaced.isHeld
    unfold PathLink.isHeld at hheld
    unfold PathLink.flight? at hok ⊢
    cases hpass : k.passage <;> cases hpass' : k'.passage <;> simp_all
  · rw [hk] at hok
    cases hok

theorem exists_resolve_stretch {v : VelocityRef} {c : Coordinate α}
    (hok : v.resolve paths = .ok c) :
    ∃ c', v.resolve paths' = .ok c' := by
  cases v with
  | throw p i =>
    obtain ⟨a, ha, -⟩ := map_eq_ok.mp hok
    obtain ⟨b, hb⟩ := exists_flight_stretch hpaths ha
    exact ⟨_, map_eq_ok.mpr ⟨b, hb, rfl⟩⟩
  | softCatch p i =>
    obtain ⟨a, ha, -⟩ := map_eq_ok.mp hok
    obtain ⟨b, hb⟩ := exists_flight_stretch hpaths ha
    exact ⟨_, map_eq_ok.mpr ⟨b, hb, rfl⟩⟩

end VelocityRef

namespace HandLink

def stretch (f : α) (k : HandLink α) : HandLink α :=
  { k with start := k.start.stretch f, stop := k.stop.stretch f }

theorem build_stretch {moments : List (Moment α)} {j : ℕ} {hand : Hand} {links : List (HandLink α)}
    (hok : build paths moments j hand = .ok links) :
    build paths' (moments.map (·.stretch f)) j hand = .ok (links.map (·.stretch f)) := by
  obtain ⟨stops, hstops, hlinks⟩ := bind_eq_ok.mp hok
  obtain rfl := pure_eq_ok.mp hlinks
  have hhand : Moment.ofHand (moments.map (·.stretch f)) j hand =
      (Moment.ofHand moments j hand).map (·.stretch f) := List.filter_map
  have hstops' : ((Moment.ofHand moments j hand).map (·.stretch f)).mapM (fun m ↦
      (VelocityRef.ofMoment paths' m).map fun v ↦ (m, v)) =
      .ok (stops.map (Prod.map (·.stretch f) id)) := by
    refine mapM_eq_ok.mpr (List.forall₂_map_left_iff.mpr (List.forall₂_map_right_iff.mpr
      ((mapM_eq_ok.mp hstops).imp fun m s hs ↦ ?_)))
    obtain ⟨v, hv, rfl⟩ := map_eq_ok.mp hs
    exact map_eq_ok.mpr ⟨v, VelocityRef.ofMoment_stretch hpaths hv, rfl⟩
  unfold build
  rw [hhand]
  refine bind_eq_ok.mpr ⟨_, hstops', ?_⟩
  rw [pure_eq_ok, steps_map, List.map_map, List.map_map]
  rfl

theorem buildAll_stretch {moments : List (Moment α)} {J : ℕ}
    {links : Numbered (Hands (List (HandLink α)))} (hok : buildAll paths moments J = .ok links) :
    buildAll paths' (moments.map (·.stretch f)) J =
      .ok (links.map (·.map (·.map (·.stretch f)))) := by
  obtain ⟨built, hbuilt, hlinks⟩ := bind_eq_ok.mp hok
  obtain rfl := pure_eq_ok.mp hlinks
  refine bind_eq_ok.mpr ⟨built.map (·.map (·.map (·.stretch f))), ?_, ?_⟩
  · refine mapM_eq_ok.mpr (List.forall₂_map_right_iff.mpr
      ((mapM_eq_ok.mp hbuilt).imp fun j hs hhs ↦ ?_))
    obtain ⟨left, hleft, hhs⟩ := bind_eq_ok.mp hhs
    obtain ⟨right, hright, hhs⟩ := bind_eq_ok.mp hhs
    obtain rfl := pure_eq_ok.mp hhs
    exact bind_eq_ok.mpr ⟨_, build_stretch hpaths hleft, bind_eq_ok.mpr
      ⟨_, build_stretch hpaths hright, rfl⟩⟩
  · rw [pure_eq_ok]
    simp [Numbered.ofList, Numbered.map]

end HandLink

end Hands

end Juggling
