import Juggling.Layout.Timeline
import Juggling.Proofs.Coincidence
import Juggling.Proofs.Expansion

namespace Juggling.Moment

variable {α : Type}

theorem mem_numbered {made : List (Generated α)} {m : Moment α} (hm : m ∈ numbered made) :
    m.toGenerated ∈ made := by
  obtain ⟨i, hi, rfl⟩ := List.mem_mapIdx.mp hm
  exact List.getElem_mem hi

theorem exists_mem_numbered {made : List (Generated α)} {o : Generated α} (ho : o ∈ made) :
    ∃ m ∈ numbered made, m.toGenerated = o := by
  obtain ⟨i, hi, rfl⟩ := List.getElem_of_mem ho
  exact ⟨_, List.mem_mapIdx.mpr ⟨i, hi, rfl⟩, rfl⟩

variable [Exact α]

/-- How the moments of a timeline come about: images are made, put in order, and of those that
coincide one is kept. -/
structure Expanded (seeds : List (Event α)) (g : SymmetryGroup α) (J N : ℕ) (loop : Window α)
    (moments : List (Moment α)) where
  coverage : Coverage
  scan_eq : Coverage.scan seeds g J N = .ok coverage
  made : List (Generated α)
  run : (Expansion.mk seeds g coverage loop).Made N made
  kept : List (Generated α)
  moments_eq : moments = numbered kept
  sublist : kept.Sublist (made.mergeSort Generated.notAfter)
  apart : kept.Pairwise Generated.Apart
  stands : ∀ g ∈ made, g ∈ kept ∨
    ∃ o ∈ kept, Generated.StandsFor (made.mergeSort Generated.notAfter) o g

variable {seeds : List (Event α)} {g : SymmetryGroup α} {J N : ℕ} {loop : Window α}
  {moments : List (Moment α)} {symmetries : List (Symmetry α)}

theorem exists_expanded (hg : g.IsGroupOf symmetries J N)
    (hok : expand seeds g J N loop = .ok moments) :
    seeds ≠ [] ∧ ∃ x : Expanded seeds g J N loop moments,
      Expansion.run ⟨seeds, g, x.coverage, loop⟩ N = .ok x.made := by
  unfold expand at hok
  by_cases hseeds : seeds = []
  · subst hseeds
    simp at hok
  · have hempty : seeds.isEmpty = false := by simpa using hseeds
    rw [hempty] at hok
    simp only [Bool.false_eq_true, if_false] at hok
    obtain ⟨coverage, hscan, hok⟩ := bind_eq_ok.mp hok
    obtain ⟨made, hrun, hok⟩ := bind_eq_ok.mp hok
    obtain ⟨kept, hdrop, hok⟩ := bind_eq_ok.mp hok
    obtain ⟨m⟩ := Expansion.run_ok (x := ⟨seeds, g, coverage, loop⟩) hg hseeds hrun
    have hsorted := List.pairwise_mergeSort Generated.notAfter_trans Generated.notAfter_total made
    obtain ⟨⟨rest, hrest, hsub⟩, hapart, hall⟩ :=
      @Generated.dropCoincident_ok _ _ [] _ _ (by
        simp only [List.reverse_nil, List.nil_append]
        exact hsorted.imp fun h ↦ ((Generated.notAfter_iff _ _).mp h).1) (by simp) hdrop
    simp only [List.reverse_nil, List.nil_append] at hrest hall
    exact ⟨hseeds, {
      coverage, made, kept
      scan_eq := hscan
      run := m
      moments_eq := (pure_eq_ok.mp hok).symm
      sublist := hrest ▸ hsub
      apart := hapart
      stands := fun g hg ↦ hall g (List.mem_mergeSort.mpr hg) }, hrun⟩

theorem expand_ok (hg : g.IsGroupOf symmetries J N)
    (hok : expand seeds g J N loop = .ok moments) :
    seeds ≠ [] ∧ Nonempty (Expanded seeds g J N loop moments) := by
  obtain ⟨hseeds, x, -⟩ := exists_expanded hg hok
  exact ⟨hseeds, ⟨x⟩⟩

deriving instance DecidableEq for Numbered, Coverage, Generated

/-- Images in strict order need not be sorted to follow an expansion. -/
theorem expand_of_ordered {coverage : Coverage} {made ordered kept : List (Generated α)}
    (hseeds : seeds ≠ []) (hscan : (Coverage.scan seeds g J N).toOption = some coverage)
    (hrun : (Expansion.run ⟨seeds, g, coverage, loop⟩ N).toOption = some made)
    (hperm : made.Perm ordered)
    (hordered : ordered.Pairwise fun a b ↦ Generated.notAfter b a = false)
    (hdrop : (Generated.dropCoincident [] ordered).toOption = some kept) :
    expand seeds g J N loop = .ok (numbered kept) := by
  have hempty : seeds.isEmpty = false := by simpa using hseeds
  simp [expand, hempty, toOption_eq_some.mp hscan, toOption_eq_some.mp hrun,
    Generated.mergeSort_eq hperm hordered, toOption_eq_some.mp hdrop, bind, Except.bind, pure,
    Except.pure]

namespace Expanded

variable (x : Expanded seeds g J N loop moments)

include x

theorem mem_made_of_kept {o : Generated α} (ho : o ∈ x.kept) : o ∈ x.made :=
  List.mem_mergeSort.mp (x.sublist.subset ho)

theorem eq_image_of_seed {i : ℕ} {e : Event α} (he : seeds[i]? = some e) {o : Generated α}
    (ho : o ∈ x.kept) (hseed : o.seed = i) : o = ⟨i, o.image, (g.image o.image).apply e⟩ := by
  obtain ⟨e', he', heq⟩ := x.run.generated (x.mem_made_of_kept ho)
  rw [hseed] at he' heq
  obtain rfl : e = e' := Option.some.inj (he.symm.trans he')
  exact heq

theorem sorted : x.kept.Pairwise fun a b ↦ Generated.notAfter a b = true :=
  (List.pairwise_mergeSort Generated.notAfter_trans Generated.notAfter_total x.made).sublist
    x.sublist

theorem nodup_sorted : (x.made.mergeSort Generated.notAfter).Nodup :=
  (List.mergeSort_perm _ _).nodup_iff.mpr x.run.nodup

theorem nodup : x.kept.Nodup := x.nodup_sorted.sublist x.sublist

/-- The image that is kept for one that was made is on the same hand at most the tolerance
earlier. -/
theorem exists_kept {o : Generated α} (ho : o ∈ x.made) : ∃ k ∈ x.kept,
    Generated.SameHand k o ∧ k.seed = o.seed ∧ k.event.time ≤ o.event.time ∧
      o.event.time - k.event.time < timeTolerance ∧
      (k.event.transitions.map fun t ↦ (t.path, t.kind)).Perm
        (o.event.transitions.map fun t ↦ (t.path, t.kind)) := by
  rcases x.stands o ho with h | ⟨k, hk, hs⟩
  · exact ⟨o, h, ⟨rfl, rfl⟩, rfl, le_rfl, by simpa using timeTolerance_pos, List.Perm.refl _⟩
  · have hle := (List.pairwise_mergeSort Generated.notAfter_trans Generated.notAfter_total
      x.made).forall_sublist hs.before
    exact ⟨k, hk, hs.hand, hs.seed, ((Generated.notAfter_iff _ _).mp hle).1, hs.near,
      List.isPerm_iff.mp hs.transitions⟩

/-- On one hand two images that are kept are the same or apart in time. -/
theorem eq_of_near {a b : Generated α} (ha : a ∈ x.kept) (hb : b ∈ x.kept)
    (hhand : Generated.SameHand a b) (hnear : |b.event.time - a.event.time| < timeTolerance) :
    a = b :=
  Generated.eq_of_near x.apart ha hb hhand hnear

end Expanded

end Juggling.Moment
