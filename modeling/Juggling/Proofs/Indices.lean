import Juggling.Proofs.Exchange
import Juggling.Proofs.Located

namespace Juggling

section Avoids

variable {ε δ β γ : Type} {P : ε → Prop}

/-- A result that is not an error of some kind. -/
def Avoids (P : ε → Prop) (x : Except ε β) : Prop := ∀ err, x = .error err → ¬P err

theorem avoids_ok (a : β) : Avoids P (.ok a) := fun _ h ↦ by cases h

theorem avoids_error {err : ε} (h : ¬P err) : Avoids P (.error err : Except ε β) := by
  intro err' heq
  cases heq
  exact h

theorem Avoids.bind {x : Except ε β} {f : β → Except ε γ} (hx : Avoids P x)
    (hf : ∀ a, x = .ok a → Avoids P (f a)) : Avoids P (x >>= f) := by
  cases x with
  | error err => exact avoids_error (hx err rfl)
  | ok a => exact hf a rfl

theorem Avoids.lift {Q : δ → Prop} {f : ε → δ} {x : Except ε β}
    (hx : Avoids (fun err ↦ Q (f err)) x) : Avoids Q (Juggling.lift f x) := by
  cases x with
  | error err => exact avoids_error (hx err rfl)
  | ok a => exact avoids_ok a

theorem avoids_of_forall (h : ∀ err, ¬P err) (x : Except ε β) : Avoids P x := fun err _ ↦ h err

theorem Avoids.mapM {f : β → Except ε γ} {xs : List β} (h : ∀ x ∈ xs, Avoids P (f x)) :
    Avoids P (xs.mapM f) := by
  induction xs with
  | nil => exact avoids_ok []
  | cons x xs ih =>
    obtain ⟨hx, hxs⟩ := List.forall_mem_cons.mp h
    rw [List.mapM_cons]
    exact hx.bind fun y _ ↦ (ih hxs).bind fun ys _ ↦ avoids_ok (y :: ys)

end Avoids

variable {α : Type}

/-- The error for a velocity of a flight that is not there. -/
def InternalError.Dangles (err : InternalError α) : Prop :=
  ∃ path link, err = .danglingVelocityRef path link

def PatternError.Dangles : PatternError α → Prop
  | .user _ => False
  | .internal err => err.Dangles

theorem avoids_user {β : Type} (x : Except (UserError α) β) :
    Avoids PatternError.Dangles (lift .user x) :=
  (avoids_of_forall (fun _ h ↦ h) x).lift

section Links

variable {paths : Numbered (PathHistory α)} {moments : List (Moment α)}

theorem VelocityRef.ofMoment_avoids (paths : Numbered (PathHistory α)) (m : Moment α) :
    Avoids InternalError.Dangles (ofMoment paths m) := by
  obtain ⟨v, -, heq⟩ | heq | ⟨_, _, _, heq⟩ := ofMoment_cases paths m
  · exact heq ▸ avoids_ok (some v)
  · exact heq ▸ avoids_ok none
  · exact heq ▸ avoids_error fun ⟨_, _, h⟩ ↦ by cases h

theorem HandLink.buildAll_avoids (J : ℕ) :
    Avoids InternalError.Dangles (buildAll paths moments J) := by
  have hbuild (j : ℕ) (hand : Hand) :
      Avoids InternalError.Dangles (build paths moments j hand) := by
    refine Avoids.bind (.mapM fun m _ ↦ ?_) fun stops _ ↦ avoids_ok _
    have hm := VelocityRef.ofMoment_avoids paths m
    cases hv : VelocityRef.ofMoment paths m with
    | ok v => exact avoids_ok _
    | error err => exact avoids_error (hm err hv)
  refine Avoids.bind (.mapM fun j _ ↦ ?_) fun hands _ ↦ avoids_ok _
  exact (hbuild j .left).bind fun left _ ↦ (hbuild j .right).bind fun right _ ↦ avoids_ok _

end Links

namespace HandCurve

variable [Scalar α] {x : HandCurve α} {links : List (HandLink α)}

theorem solve_avoids (v w : Option (Coordinate α)) :
    Avoids PatternError.Dangles (x.solve links v w) :=
  (avoids_of_forall (fun _ ⟨_, _, h⟩ ↦ by cases h) _).lift

theorem clamped_avoids {v w : VelocityRef} (hv : v.Flies x.paths) (hw : w.Flies x.paths) :
    Avoids PatternError.Dangles (x.clamped links v w) := by
  obtain ⟨a, ha⟩ := hv.exists_resolve
  obtain ⟨b, hb⟩ := hw.exists_resolve
  have heq : x.clamped links v w = x.solve links (some a) (some b) := by
    unfold clamped
    rw [ha, hb]
    rfl
  rw [heq]
  exact solve_avoids _ _

/-- The velocities at the ends of links are those of flights. -/
def Aimed (x : HandCurve α) (links : List (HandLink α)) : Prop :=
  ∀ k ∈ links, (∀ v, k.startVelocity = some v → v.Flies x.paths) ∧
    ∀ v, k.endVelocity = some v → v.Flies x.paths

theorem pinned_avoids (hlinks : x.Aimed links) (current : Option (VelocityRef × List (HandLink α)))
    (hcurrent : ∀ c, current = some c → c.1.Flies x.paths) :
    Avoids PatternError.Dangles (x.pinned current links) := by
  induction links generalizing current with
  | nil => exact avoids_ok _
  | cons k ks ih =>
    obtain ⟨⟨hstart, hend⟩, hks⟩ := List.forall_mem_cons.mp hlinks
    have hnone := ih hks none fun _ h ↦ by cases h
    have hsome (v : VelocityRef) (before : List (HandLink α)) (hv : v.Flies x.paths) :
        Avoids PatternError.Dangles (x.pinned (some (v, before)) (k :: ks)) := by
      unfold pinned
      simp only
      cases hw : k.endVelocity with
      | none => exact ih hks (some (v, before ++ [k])) fun c hc ↦ Option.some.inj hc ▸ hv
      | some w =>
        exact (clamped_avoids hv (hend w hw)).bind fun chain _ ↦
          hnone.bind fun chains _ ↦ avoids_ok _
    cases current with
    | some c => exact hsome c.1 c.2 (hcurrent c rfl)
    | none =>
      cases hv : k.startVelocity with
      | some v =>
        rw [pinned_none hv]
        exact hsome v [] (hstart v hv)
      | none =>
        unfold pinned
        simp only [hv, Option.map_none]
        exact hnone.bind fun chains _ ↦ avoids_ok _

theorem closed_avoids (j : ℕ) (hand : Hand) :
    Avoids PatternError.Dangles (x.closed j hand links) := by
  unfold closed
  split
  · exact avoids_error fun ⟨_, _, h⟩ ↦ by cases h
  · split
    · exact avoids_error fun ⟨_, _, h⟩ ↦ by cases h
    · exact (solve_avoids none none).bind fun chain _ ↦ avoids_ok _

theorem free_avoids (j : ℕ) (hand : Hand) :
    Avoids PatternError.Dangles (x.free j hand links) := by
  unfold free
  simp only
  split_ifs
  · exact avoids_error fun ⟨_, _, h⟩ ↦ by cases h
  · exact (closed_avoids j hand).bind fun _ _ ↦ (closed_avoids j hand).bind fun _ _ ↦ avoids_ok _

variable {moments : List (Moment α)}

theorem chains_avoids (hlinks : x.Aimed links) (j : ℕ) (hand : Hand) :
    Avoids PatternError.Dangles (x.chains moments j hand links) := by
  unfold chains
  split_ifs
  · exact pinned_avoids hlinks none fun _ h ↦ by cases h
  · exact free_avoids j hand

theorem solveFrom_avoids {known : Array (Spline α)} {j : ℕ}
    {hands : List (Hands (List (HandLink α)))}
    (hhands : ∀ hs ∈ hands, ∀ hand, x.Aimed (hs.get hand)) :
    Avoids PatternError.Dangles (x.solveFrom moments known j hands) := by
  induction hands generalizing known j with
  | nil => exact avoids_ok _
  | cons hs hands ih =>
    obtain ⟨hhs, hhands⟩ := List.forall_mem_cons.mp hhands
    have hjuggler : Avoids PatternError.Dangles (x.solveJuggler moments known j hs) :=
      (chains_avoids (hhs .left) j .left).bind fun _ _ ↦
        (chains_avoids (hhs .right) j .right).bind fun _ _ ↦ avoids_ok _
    exact hjuggler.bind fun _ _ ↦ (ih hhands).bind fun _ _ ↦ avoids_ok _

theorem solveAll_avoids {all : Numbered (Hands (List (HandLink α)))}
    (hbuilt : ∀ j hs, all.get? j = some hs → HandLink.Built x.paths moments j hs) :
    Avoids PatternError.Dangles (x.solveAll moments all) := by
  refine Avoids.bind (solveFrom_avoids fun hs hmem hand k hk ↦ ?_) fun _ _ ↦ avoids_ok _
  obtain ⟨i, hi⟩ := List.getElem?_of_mem hmem
  have hget : all.get? (i + 1) = some hs := by
    rw [Numbered.get?, ← Array.getElem?_toList]
    exact hi
  have hlocated := (hbuilt (i + 1) hs hget).located hand k hk
  exact ⟨hlocated.startVelocity, hlocated.endVelocity⟩

end HandCurve

theorem Timeline.settle_avoids [Scalar α] {g : SymmetryGroup α} {J N : ℕ} {loop : Window α}
    (fuel : ℕ) (seeds : List (Event α)) :
    Avoids PatternError.Dangles (settle g J N loop fuel seeds) := by
  induction fuel generalizing seeds with
  | zero => exact avoids_error fun ⟨_, _, h⟩ ↦ by cases h
  | succ fuel ih =>
    refine (avoids_user _).bind fun moments _ ↦ Avoids.bind (.lift ?_) fun ms _ ↦ ?_
    · refine Avoids.mapM fun i _ ↦ ?_
      split
      · exact avoids_ok _
      · exact avoids_error fun ⟨_, _, h⟩ ↦ by cases h
    · split_ifs
      · exact avoids_ok _
      · exact ih _

theorem Declarations.size_tracks [Scalar α] {d : Declarations α} {loop : Window α}
    {tracks : Numbered (Track α)} (hok : d.tracks loop = .ok tracks) :
    tracks.size = d.jugglers := by
  obtain ⟨ks, hks, heq⟩ := bind_eq_ok.mp hok
  obtain rfl := pure_eq_ok.mp heq
  exact Numbered.size_of_mapM hks

theorem Declarations.bounded_of_validate [Scalar α] {d : Declarations α} {g : SymmetryGroup α}
    (hperms : ∀ s ∈ d.symmetries, s.jugglers.Rearranges ∧ s.paths.Rearranges)
    (hvalid : d.validate = .ok ())
    (hgroup : SymmetryGroup.ofSymmetries d.symmetries d.jugglers d.paths = .ok g) :
    g.Bounded d.jugglers d.paths := by
  have hsizes := (d.validate_ok hvalid).2.2
  exact SymmetryGroup.bounded_of_ofSymmetries (fun s hs ↦
    ⟨(hperms s hs).1, (hsizes s hs).1, (hperms s hs).2, (hsizes s hs).2⟩) hgroup

variable [Scalar α] [Numeral α]

/-- All that the links of paths and hands name is there, whatever else comes of them. -/
structure Declarations.Linked (d : Declarations α) (loop : Window α) (moments : List (Moment α)) :
    Prop where
  tracks : ∀ tracks, d.tracks loop = .ok tracks → ∀ m ∈ moments, tracks.Has m.event.juggler
  paths : ∀ place paths, PathHistory.buildAll place moments d.paths = .ok paths →
    (∀ m ∈ moments, ∀ t ∈ m.event.transitions, paths.Has t.path) ∧
      ∀ p h, paths.get? p = some h → h.Located d.jugglers moments p
  hands : ∀ paths links, HandLink.buildAll paths moments d.jugglers = .ok links →
    (∀ m ∈ moments, links.Has m.event.juggler) ∧
      ∀ j hs, links.get? j = some hs → HandLink.LocatedBoth paths moments 0 j hs

theorem Declarations.linked {d : Declarations α} {loop : Window α} {moments : List (Moment α)}
    {s : ℕ} (hm : ∀ m ∈ moments, m.Located d.jugglers d.paths s moments) :
    d.Linked loop moments where
  tracks tracks hok m hmem :=
    (Numbered.has_iff (d.size_tracks hok)).mpr (hm m hmem).placed.juggler
  paths place paths hok := by
    obtain ⟨hsize, hlocated⟩ := PathHistory.located_of_buildAll hm hok
    exact ⟨fun m hmem t ht ↦ (Numbered.has_iff hsize).mpr ((hm m hmem).placed.path t ht), hlocated⟩
  hands paths links hok := by
    obtain ⟨hsize, hbuilt⟩ := HandLink.built_of_buildAll hm hok
    exact ⟨fun m hmem ↦ (Numbered.has_iff hsize).mpr (hm m hmem).placed.juggler,
      fun j hs hget ↦ (hbuilt j hs hget).located⟩

namespace Layout

variable {d : Declarations α} {l : Layout α}

/-- Everything in a layout that refers to something else in it by a number refers to something
that is there. -/
structure Bounded (d : Declarations α) (l : Layout α) : Prop where
  tracks : ∀ j, l.tracks.Has j ↔ 1 ≤ j ∧ j ≤ d.jugglers
  hands : ∀ j, l.hands.Has j ↔ 1 ≤ j ∧ j ≤ d.jugglers
  paths : ∀ p, l.paths.Has p ↔ 1 ≤ p ∧ p ≤ d.paths
  moment : ∀ m ∈ l.timeline.moments,
    m.Located d.jugglers d.paths l.timeline.masters.length l.timeline.moments
  master : ∀ m ∈ l.timeline.moments, l.timeline.masterOf m < l.timeline.moments.length
  prev : ∀ m ∈ l.timeline.moments, m.index ≠ 0 → ∃ n, l.timeline.prev? m = some n
  next : ∀ m ∈ l.timeline.moments, m.index + 1 ≠ l.timeline.moments.length →
    ∃ n, l.timeline.next? m = some n
  path : ∀ p h, l.paths.get? p = some h → h.Located d.jugglers l.timeline.moments p
  hand : ∀ j hs, l.hands.get? j = some hs →
    HandLink.LocatedBoth l.paths l.timeline.moments l.curves.size j hs

variable (hbounded : ∀ g, SymmetryGroup.ofSymmetries d.symmetries d.jugglers d.paths = .ok g →
  g.Bounded d.jugglers d.paths)

include hbounded

theorem bounded_of_build (hok : build d = .ok l) : l.Bounded d := by
  unfold build ofTimeline at hok
  simp only [bind_eq_ok, lift_eq_ok] at hok
  obtain ⟨⟨⟩, hvalid, g, hgroup, t, ht, tracks, htracks, paths, hpaths, links, hlinks,
    ⟨curves, hands⟩, hsolve, hok⟩ := hok
  obtain rfl := pure_eq_ok.mp hok
  have hg := hbounded g hgroup
  have hsettled := Timeline.settle_ok hg.image (Declarations.validate_ok hvalid).1 ht
  have hmoment := hsettled.located hg
  have hlt {m : Moment α} (hm : m ∈ t.moments) : m.index < t.moments.length :=
    (List.getElem?_eq_some_iff.mp (hmoment m hm).index).1
  obtain ⟨hsizePaths, hpath⟩ := PathHistory.located_of_buildAll hmoment hpaths
  obtain ⟨hsizeLinks, hbuilt⟩ := HandLink.built_of_buildAll hmoment hlinks
  obtain ⟨hsizeHands, hhand⟩ := HandCurve.located_of_solveAll hsizeLinks hbuilt hsolve
  refine ⟨fun _ ↦ Numbered.has_iff (d.size_tracks htracks), fun _ ↦ Numbered.has_iff hsizeHands,
    fun _ ↦ Numbered.has_iff hsizePaths, hmoment, fun m hm ↦ hsettled.masterOf_lt hg hm,
    fun m hm hne ↦ ?_, fun m hm hne ↦ ?_, hpath, hhand⟩
  · rw [Timeline.prev?, if_neg hne]
    exact ⟨_, List.getElem?_eq_getElem ((Nat.sub_le _ _).trans_lt (hlt hm))⟩
  · exact ⟨_, List.getElem?_eq_getElem (lt_of_le_of_ne (hlt hm) hne)⟩

theorem build_avoids : Avoids PatternError.Dangles (build d) := by
  refine (avoids_user _).bind fun _ hvalid ↦ (avoids_user _).bind fun g hgroup ↦
    (Timeline.settle_avoids _ _).bind fun t ht ↦ ?_
  rw [lift_eq_ok] at hvalid hgroup
  have hg := hbounded g hgroup
  have hsettled := Timeline.settle_ok hg.image (Declarations.validate_ok hvalid).1 ht
  have hmoment := hsettled.located hg
  refine Avoids.bind (.lift (avoids_of_forall (fun _ ⟨_, _, h⟩ ↦ by cases h) _)) fun tracks _ ↦
    (avoids_user _).bind fun paths _ ↦
      Avoids.bind (.lift (HandLink.buildAll_avoids _)) fun links hlinks ↦ ?_
  rw [lift_eq_ok] at hlinks
  obtain ⟨-, hbuilt⟩ := HandLink.built_of_buildAll hmoment hlinks
  exact (HandCurve.solveAll_avoids hbuilt).bind fun _ _ ↦ avoids_ok _

end Layout

namespace Declarations

variable {d : Declarations α} {g : SymmetryGroup α}

end Declarations

end Juggling
