import Juggling.Proofs.Masters
import Juggling.Proofs.Validation

namespace Juggling

/-- The same transitions on other paths are the same transitions when their kinds tell what kind of
throw they are. -/
theorem Transform.transitions_perm {α : Type} [Scalar α] {f h : Transform α} {e : Event α}
    (hkinds : ∀ t ∈ e.transitions, ∀ t' ∈ e.transitions, t.kind = t'.kind →
      t.throwKind = t'.throwKind ∧ t.modifier = t'.modifier)
    (htouches : ((f.apply e).transitions.map fun t ↦ (t.path, t.kind)).Perm
      ((h.apply e).transitions.map fun t ↦ (t.path, t.kind))) :
    (f.apply e).transitions.Perm (h.apply e).transitions := by
  let ofTouch (x : ℕ × TransitionKind) : Transition :=
    match e.find? x.2 with
    | some t => { t with path := x.1 }
    | none => { kind := x.2, path := x.1 }
  have hofTouch (r : Transform α) :
      ((r.apply e).transitions.map fun t ↦ (t.path, t.kind)).map ofTouch =
        (r.apply e).transitions := by
    simp only [Transform.apply, List.map_map]
    refine List.map_congr_left fun t ht ↦ ?_
    obtain ⟨t', ht'⟩ : ∃ t', e.find? t.kind = some t' :=
      Option.isSome_iff_exists.mp (List.find?_isSome.mpr ⟨t, ht, by simp⟩)
    have hkind : t'.kind = t.kind := by simpa using List.find?_some ht'
    obtain ⟨hthrow, hmodifier⟩ := hkinds t' (List.mem_of_find?_eq_some ht') t ht hkind
    simp only [Function.comp_apply, ofTouch, ht', hthrow, hmodifier, hkind]
  rw [← hofTouch f, ← hofTouch h]
  exact htouches.map _

namespace Generated

variable {α : Type} [Exact α]

/-- An image of the seed that it names. -/
def OfSeed (seeds : List (Event α)) (g : SymmetryGroup α) (o : Generated α) : Prop :=
  ∃ e, seeds[o.seed]? = some e ∧ o.event = (g.image o.image).apply e

/-- An image does what another does, up to the flights that its throws start. -/
structure Replaces (o g : Generated α) : Prop where
  seed : o.seed = g.seed
  hand : SameHand o g
  near : |g.event.time - o.event.time| < timeTolerance
  place : o.event.place = g.event.place
  touches : (o.event.transitions.map fun t ↦ (t.path, t.kind)).Perm
    (g.event.transitions.map fun t ↦ (t.path, t.kind))

@[refl] theorem Replaces.refl (o : Generated α) : o.Replaces o :=
  ⟨rfl, ⟨rfl, rfl⟩, by simpa using timeTolerance_pos, rfl, .refl _⟩

theorem Replaces.symm {o g : Generated α} (h : o.Replaces g) : g.Replaces o where
  seed := h.seed.symm
  hand := ⟨h.hand.1.symm, h.hand.2.symm⟩
  near := by
    rw [abs_sub_comm]
    exact h.near
  place := h.place.symm
  touches := h.touches.symm

/-- Whatever images of the seeds are made, those that are kept of them have all their transitions,
flights included. -/
def Lossless (seeds : List (Event α)) (g : SymmetryGroup α) : Prop :=
  ∀ made kept : List (Generated α), (∀ o ∈ made, OfSeed seeds g o) →
    dropCoincident [] (made.mergeSort notAfter) = .ok kept →
    ∀ o ∈ made, ∃ o' ∈ kept, o'.Replaces o ∧ o'.event.transitions.Perm o.event.transitions

section Drop

variable {kept gs : List (Generated α)}

/-- The only error is that two images of a list collide. -/
theorem dropCoincident_error {err : UserError α} (h : dropCoincident kept gs = .error err) :
    ∃ o g, [o, g].Sublist (kept.reverse ++ gs) ∧ SameHand o g ∧
      g.event.time - o.event.time < timeTolerance ∧
      ¬(o.seed = g.seed ∧ sameTransitions o.event g.event = true) ∧
      err = .eventCollision g.event.juggler g.event.hand g.event.time := by
  induction gs generalizing kept with
  | nil => cases h
  | cons g gs ih =>
    unfold dropCoincident at h
    cases hc : clash? kept g with
    | none =>
      rw [hc] at h
      simpa using @ih (g :: kept) h
    | some o =>
      rw [hc] at h
      simp only at h
      split_ifs at h with hsame
      · obtain ⟨a, b, hsub, hrest⟩ := ih h
        exact ⟨a, b, hsub.trans (List.Sublist.append_left (List.sublist_cons_self g gs) _), hrest⟩
      · obtain ⟨ho, hhand, hnear⟩ := clash?_some hc
        refine ⟨o, g, ?_, hhand, hnear, by simpa using hsame, (Except.error.inj h).symm⟩
        exact (List.singleton_sublist.mpr (List.mem_reverse.mpr ho)).append
          (List.singleton_sublist.mpr List.mem_cons_self)

end Drop

section Made

variable {symmetries : List (Symmetry α)} {J N : ℕ} {g : SymmetryGroup α}
  {seeds : List (Event α)} {made : List (Generated α)}

theorem sorted_time (made : List (Generated α)) :
    (made.mergeSort notAfter).Pairwise fun a b ↦ a.event.time ≤ b.event.time :=
  (List.pairwise_mergeSort notAfter_trans notAfter_total made).imp fun h ↦
    ((notAfter_iff _ _).mp h).1

theorem exists_collision {err : UserError α}
    (herr : dropCoincident [] (made.mergeSort notAfter) = .error err) :
    ∃ a ∈ made, ∃ b ∈ made, SameHand a b ∧ |b.event.time - a.event.time| < timeTolerance ∧
      ¬a.Replaces b ∧ err = .eventCollision b.event.juggler b.event.hand b.event.time := by
  obtain ⟨a, b, hsub, hhand, hnear, hdiffer, heq⟩ := dropCoincident_error herr
  simp only [List.reverse_nil, List.nil_append] at hsub
  have hle := (sorted_time made).forall_sublist hsub
  refine ⟨a, List.mem_mergeSort.mp (hsub.subset (by simp)), b,
    List.mem_mergeSort.mp (hsub.subset (by simp)), hhand, ?_, fun h ↦ hdiffer ⟨h.seed, ?_⟩, heq⟩
  · rwa [abs_of_nonneg (sub_nonneg.mpr hle)]
  · exact List.isPerm_iff.mpr h.touches

section Place

variable (hg : g.IsGroupOf symmetries J N) (hseeds : ∀ e ∈ seeds, Placed J N e)
  (hmade : ∀ o ∈ made, o.OfSeed seeds g)

include hg hseeds hmade

/-- Images of one seed on one hand are at one place: both are mirrored or none is. -/
theorem place_eq_of_sameHand {a b : Generated α} (ha : a ∈ made) (hb : b ∈ made)
    (hseed : a.seed = b.seed) (hhand : SameHand a b) : a.event.place = b.event.place := by
  obtain ⟨e, he, hae⟩ := hmade a ha
  obtain ⟨e', he', hbe⟩ := hmade b hb
  obtain rfl : e = e' := Option.some.inj (he.symm.trans (hseed ▸ he'))
  have hj := (hseeds e (List.mem_of_getElem? he)).juggler
  have hk := hg.image_fits a.image
  have hl := hg.image_fits b.image
  have hjugglers := (Transform.sameHand_iff hk hl hj a.seed b.seed a.image b.image).mp (by
    simpa only [SameHand, ← hae, ← hbe] using hhand)
  rw [hk.motion_jugglers hj.2, hl.motion_jugglers hj.2] at hjugglers
  rw [hae, hbe, Transform.apply_eq_moved, Transform.apply_eq_moved, Event.moved, Event.moved,
    hjugglers]

theorem replaces_of_near {a b : Generated α} (ha : a ∈ made) (hb : b ∈ made)
    (hhand : SameHand a b) (hnear : |b.event.time - a.event.time| < timeTolerance)
    (hsame : a.seed = b.seed ∧ sameTransitions a.event b.event = true) : a.Replaces b where
  seed := hsame.1
  hand := hhand
  near := hnear
  place := place_eq_of_sameHand hg hseeds hmade ha hb hsame.1 hhand
  touches := List.isPerm_iff.mp hsame.2

theorem exists_replaces {kept : List (Generated α)}
    (hok : dropCoincident [] (made.mergeSort notAfter) = .ok kept) :
    kept.Sublist (made.mergeSort notAfter) ∧ kept.Pairwise Apart ∧
      ∀ o ∈ made, ∃ o' ∈ kept, o'.Replaces o ∧ o'.event.time ≤ o.event.time := by
  obtain ⟨⟨rest, hrest, hsub⟩, hapart, hall⟩ := @dropCoincident_ok _ _ [] _ _
    (by simpa using sorted_time made) (by simp) hok
  simp only [List.reverse_nil, List.nil_append] at hrest hall
  subst hrest
  refine ⟨hsub, hapart, fun o ho ↦ ?_⟩
  rcases hall o (List.mem_mergeSort.mpr ho) with h | ⟨o', ho', hstands⟩
  · exact ⟨o, h, .refl o, le_rfl⟩
  · have hle := (sorted_time made).forall_sublist hstands.before
    refine ⟨o', ho', replaces_of_near hg hseeds hmade (List.mem_mergeSort.mp (hsub.subset ho')) ho
      hstands.hand ?_ ⟨hstands.seed, hstands.transitions⟩, hle⟩
    rw [abs_of_nonneg (sub_nonneg.mpr hle)]
    exact hstands.near

/-- Images on one hand at one instant that are all dropped but one replace each other. -/
theorem replaces_of_ok {kept : List (Generated α)}
    (hok : dropCoincident [] (made.mergeSort notAfter) = .ok kept) {a b : Generated α}
    (ha : a ∈ made) (hb : b ∈ made) (hhand : SameHand a b)
    (htime : a.event.time = b.event.time) : a.Replaces b := by
  obtain ⟨hsub, hapart, hall⟩ := exists_replaces hg hseeds hmade hok
  obtain ⟨o, ho, hoa, hole⟩ := hall a ha
  obtain ⟨o', ho', hob, hole'⟩ := hall b hb
  have hnear := abs_lt.mp hoa.near
  have hnear' := abs_lt.mp hob.near
  have hsame : SameHand o o' :=
    ⟨hoa.hand.1.trans (hhand.1.trans hob.hand.1.symm),
      hoa.hand.2.trans (hhand.2.trans hob.hand.2.symm)⟩
  obtain rfl : o = o' := eq_of_near hapart ho ho' hsame
    (abs_lt.mpr ⟨by linarith, by linarith⟩)
  exact {
    seed := hoa.seed.symm.trans hob.seed
    hand := hhand
    near := by simpa [htime] using timeTolerance_pos
    place := hoa.place.symm.trans hob.place
    touches := hoa.touches.symm.trans hob.touches }

end Place

/-- Of two images by themselves that replace each other only one is kept. -/
theorem perm_of_lossless (hg : g.IsGroupOf symmetries J N) (hseeds : ∀ e ∈ seeds, Placed J N e)
    (h : Lossless seeds g) {i : ℕ} {e : Event α} (he : seeds[i]? = some e) {k l : ℤ}
    (hreplaces : Replaces ⟨i, k, (g.image k).apply e⟩ ⟨i, l, (g.image l).apply e⟩) :
    ((g.image k).apply e).transitions.Perm ((g.image l).apply e).transitions := by
  let a : Generated α := ⟨i, k, (g.image k).apply e⟩
  let b : Generated α := ⟨i, l, (g.image l).apply e⟩
  have hmade : ∀ o ∈ [a, b], OfSeed seeds g o := by
    intro o ho
    rcases List.mem_pair.mp ho with rfl | rfl <;> exact ⟨e, he, rfl⟩
  have hall : ∀ o ∈ [a, b], ∀ o' ∈ [a, b], o.Replaces o' := by
    intro o ho o' ho'
    rcases List.mem_pair.mp ho with rfl | rfl <;> rcases List.mem_pair.mp ho' with rfl | rfl
    · exact .refl a
    · exact hreplaces
    · exact hreplaces.symm
    · exact .refl b
  cases hdrop : dropCoincident [] ([a, b].mergeSort notAfter) with
  | error err =>
    obtain ⟨o, ho, o', ho', -, -, hdiffer, -⟩ := exists_collision hdrop
    exact absurd (hall o ho o' ho') hdiffer
  | ok kept =>
    obtain ⟨hsub, hapart, -⟩ := exists_replaces hg hseeds hmade hdrop
    obtain ⟨o, ho, -, hoa⟩ := h [a, b] kept hmade hdrop a (by simp)
    obtain ⟨o', ho', -, hob⟩ := h [a, b] kept hmade hdrop b (by simp)
    have hsame := hall o (List.mem_mergeSort.mp (hsub.subset ho)) o'
      (List.mem_mergeSort.mp (hsub.subset ho'))
    obtain rfl := eq_of_near hapart ho ho' hsame.hand hsame.near
    exact hoa.symm.trans hob

theorem lossless_iff (hg : g.IsGroupOf symmetries J N) (hseeds : ∀ e ∈ seeds, Placed J N e) :
    Lossless seeds g ↔ ∀ i e, seeds[i]? = some e → ∀ k l,
      Replaces ⟨i, k, (g.image k).apply e⟩ ⟨i, l, (g.image l).apply e⟩ →
      ((g.image k).apply e).transitions.Perm ((g.image l).apply e).transitions := by
  refine ⟨fun h i e he k l ↦ perm_of_lossless hg hseeds h he, fun h made kept hmade hkept o ho ↦ ?_⟩
  obtain ⟨hsub, -, hall⟩ := exists_replaces hg hseeds hmade hkept
  obtain ⟨o', ho', hreplaces, -⟩ := hall o ho
  obtain ⟨e, he, hoe⟩ := hmade o ho
  obtain ⟨e', he', hoe'⟩ := hmade o' (List.mem_mergeSort.mp (hsub.subset ho'))
  rw [hreplaces.seed] at he'
  obtain rfl : e = e' := Option.some.inj (he.symm.trans he')
  refine ⟨o', ho', hreplaces, ?_⟩
  rw [hoe, hoe']
  refine h o.seed e he o'.image o.image ?_
  rw [← hoe, ← hoe']
  exact ⟨rfl, hreplaces.hand, hreplaces.near, hreplaces.place, hreplaces.touches⟩

/-- Nothing is lost of events that do not throw two props differently. -/
theorem lossless_of_kinds (hg : g.IsGroupOf symmetries J N) (hseeds : ∀ e ∈ seeds, Placed J N e)
    (hkinds : ∀ e ∈ seeds, ∀ t ∈ e.transitions, ∀ t' ∈ e.transitions, t.kind = t'.kind →
      t.throwKind = t'.throwKind ∧ t.modifier = t'.modifier) : Lossless seeds g :=
  (lossless_iff hg hseeds).mpr fun _ e he _ _ hreplaces ↦
    Transform.transitions_perm (hkinds e (List.mem_of_getElem? he)) hreplaces.touches

variable (hfits : ∀ s ∈ symmetries, (SymmetryGroup.ofShift s (0 : α)).Fits J N)
  (hok : SymmetryGroup.ofSymmetries symmetries J N = .ok g)
  (hseeds : ∀ e ∈ seeds, Placed J N e)

include hfits hok hseeds

/-- An image that is dropped leaves one in its place that does the same, up to the flights that
throws start; images that differ in anything else collide. The flights are the same as well if and
only if no two images of a seed that replace each other throw the same paths differently. -/
theorem dropCoincident_lossless_iff :
    (∀ made : List (Generated α), (∀ o ∈ made, OfSeed seeds g o) →
      (∀ kept, dropCoincident [] (made.mergeSort notAfter) = .ok kept →
        kept.Sublist (made.mergeSort notAfter) ∧ ∀ o ∈ made, ∃ o' ∈ kept, o'.Replaces o) ∧
      (∀ err, dropCoincident [] (made.mergeSort notAfter) = .error err →
        ∃ a ∈ made, ∃ b ∈ made, SameHand a b ∧
          |b.event.time - a.event.time| < timeTolerance ∧ ¬a.Replaces b ∧
          err = .eventCollision b.event.juggler b.event.hand b.event.time) ∧
      ∀ a ∈ made, ∀ b ∈ made, SameHand a b → a.event.time = b.event.time → ¬a.Replaces b →
        ∃ j h t, dropCoincident [] (made.mergeSort notAfter) = .error (.eventCollision j h t)) ∧
    (Lossless seeds g ↔ ∀ i e, seeds[i]? = some e → ∀ k l,
      Replaces ⟨i, k, (g.image k).apply e⟩ ⟨i, l, (g.image l).apply e⟩ →
      ((g.image k).apply e).transitions.Perm ((g.image l).apply e).transitions) := by
  have hg := SymmetryGroup.ofSymmetries_ok hfits hok
  refine ⟨fun made hmade ↦ ⟨fun kept hkept ↦ ?_, fun err herr ↦ exists_collision herr,
    fun a ha b hb hhand htime hdiffer ↦ ?_⟩, lossless_iff hg hseeds⟩
  · obtain ⟨hsub, -, hall⟩ := exists_replaces hg hseeds hmade hkept
    refine ⟨hsub, fun o ho ↦ ?_⟩
    obtain ⟨o', ho', hreplaces, -⟩ := hall o ho
    exact ⟨o', ho', hreplaces⟩
  · cases hdrop : dropCoincident [] (made.mergeSort notAfter) with
    | ok kept => exact absurd (replaces_of_ok hg hseeds hmade hdrop ha hb hhand htime) hdiffer
    | error err =>
      obtain ⟨-, -, c, -, -, -, -, rfl⟩ := exists_collision hdrop
      exact ⟨_, _, _, rfl⟩
end Made

end Generated

namespace Declarations

/-- One hand throws two props differently, and a symmetry exchanges them. -/
def uneven : Declarations ℚ where
  jugglers := 1
  paths := 2
  symmetries := [⟨.delay, ⟨true, #[1]⟩, ⟨true, #[1, 2]⟩, some 1⟩,
    ⟨.switch, ⟨true, #[1]⟩, ⟨true, #[2, 1]⟩, none⟩]
  events := [⟨0, ⟨10, 0, 0⟩, 1, .right,
      [⟨.throwing, 1, .toss, "g=980"⟩, ⟨.throwing, 2, .toss, "g=490"⟩]⟩,
    ⟨0, ⟨-10, 0, 0⟩, 1, .left, []⟩,
    ⟨1 / 2, ⟨10, 0, 0⟩, 1, .right,
      [{ kind := .catching, path := 1 }, { kind := .catching, path := 2 }]⟩]
  positions := []

def unevenGroup : SymmetryGroup ℚ :=
  ⟨⟨1, ⟨true, #[1]⟩, ⟨true, #[1, 2]⟩⟩,
    #[⟨0, ⟨true, #[1]⟩, ⟨true, #[1, 2]⟩⟩, ⟨0, ⟨true, #[1]⟩, ⟨true, #[2, 1]⟩⟩]⟩

theorem not_lossless_uneven :
    (∀ s ∈ uneven.symmetries, (SymmetryGroup.ofShift s (0 : ℚ)).Fits 1 2) ∧
    SymmetryGroup.ofSymmetries uneven.symmetries 1 2 = .ok unevenGroup ∧
    (∀ e ∈ uneven.events, Placed 1 2 e) ∧ ¬Generated.Lossless uneven.events unevenGroup := by
  have hfits : ∀ s ∈ uneven.symmetries, (SymmetryGroup.ofShift s (0 : ℚ)).Fits 1 2 := by
    decide +kernel
  have hok : SymmetryGroup.ofSymmetries uneven.symmetries 1 2 = .ok unevenGroup :=
    SymmetryGroup.ofSymmetries_of_ordered uneven.symmetries 1 2 _ unevenGroup.representatives rfl
      (by decide +kernel) (by decide +kernel) (by decide +kernel) (by decide +kernel)
  have hseeds : ∀ e ∈ uneven.events, Placed 1 2 e := by decide +kernel
  refine ⟨hfits, hok, hseeds, fun h ↦ ?_⟩
  have hperm := (Generated.dropCoincident_lossless_iff hfits hok hseeds).2.mp h 0 _ rfl 0 1
    ⟨rfl, ⟨by decide +kernel, by decide +kernel⟩, by decide +kernel, by decide +kernel,
      by decide +kernel⟩
  -- The exchanged throws are those of the same paths, but of other gravity.
  revert hperm
  decide +kernel

end Declarations

end Juggling
