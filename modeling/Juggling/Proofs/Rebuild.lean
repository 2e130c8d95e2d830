import Juggling.Proofs.Validation

namespace Juggling

variable {α : Type} [Scalar α] {J N : ℕ}

namespace SymmetryGroup

section Close

variable {P : Transform α → Prop} {delay : Transform α} {generators : List (Transform α)}

theorem all_adjoin {f h : Transform α} {known known' : Array (Transform α)}
    (hP : P (normalize delay (f.andThen h))) (hk : ∀ r ∈ known, P r)
    (hok : adjoin delay f known h = .ok known') : ∀ r ∈ known', P r := by
  unfold adjoin at hok
  simp only at hok
  split_ifs at hok
  · obtain rfl := Except.ok.inj hok
    exact hk
  · obtain rfl := Except.ok.inj hok
    intro r hr
    rcases Array.mem_push.mp hr with hr | rfl
    · exact hk r hr
    · exact hP

/-- What products with generators inherit holds of all that a closure makes. -/
theorem all_close (hstep : ∀ f, P f → ∀ h ∈ generators, P (normalize delay (f.andThen h)))
    {fuel next : ℕ} {known out : Array (Transform α)} (hk : ∀ r ∈ known, P r)
    (hok : close delay generators fuel next known = .ok out) : ∀ r ∈ out, P r := by
  induction fuel generalizing next known with
  | zero =>
    obtain rfl := Except.ok.inj hok
    exact hk
  | succ fuel ih =>
    cases hf : known[next]? with
    | none =>
      unfold close at hok
      rw [hf] at hok
      obtain rfl := Except.ok.inj hok
      exact hk
    | some f =>
      unfold close at hok
      rw [hf] at hok
      obtain ⟨mid, hmid, hok⟩ := bind_eq_ok.mp hok
      have hPf := hk f (Array.mem_of_getElem? hf)
      exact ih (foldlM_induction (Q := fun known ↦ ∀ r ∈ known, P r)
        (fun _ h hh _ hk ↦ all_adjoin (hstep f hPf h hh) hk) hk hmid) hok

/-- A closure only adds to what it starts from. -/
theorem size_pos_close {fuel next : ℕ} {known out : Array (Transform α)} (hk : 0 < known.size)
    (hok : close delay generators fuel next known = .ok out) : 0 < out.size := by
  induction fuel generalizing next known with
  | zero =>
    obtain rfl := Except.ok.inj hok
    exact hk
  | succ fuel ih =>
    cases hf : known[next]? with
    | none =>
      unfold close at hok
      rw [hf] at hok
      obtain rfl := Except.ok.inj hok
      exact hk
    | some f =>
      unfold close at hok
      rw [hf] at hok
      obtain ⟨mid, hmid, hok⟩ := bind_eq_ok.mp hok
      refine ih (foldlM_induction (Q := fun known ↦ 0 < known.size) ?_ hk hmid) hok
      intro known h _ known' hk hok
      unfold adjoin at hok
      simp only at hok
      split_ifs at hok
      · obtain rfl := Except.ok.inj hok
        exact hk
      · obtain rfl := Except.ok.inj hok
        simp

end Close

/-- The delay and the representatives, of which there are some, fit when all symmetries do. -/
theorem fits_of_ofSymmetries {symmetries : List (Symmetry α)} {g : SymmetryGroup α}
    (hfits : ∀ s ∈ symmetries, (ofShift s (0 : α)).Fits J N)
    (hok : ofSymmetries symmetries J N = .ok g) :
    g.delay.Fits J N ∧ (∀ r ∈ g.representatives, r.Fits J N) ∧ 0 < g.size := by
  have hshift (shift : α) : ∀ s ∈ symmetries, (ofShift s shift).Fits J N := fun s hs ↦
    ⟨(hfits s hs).rearranges_jugglers, (hfits s hs).size_jugglers,
      (hfits s hs).rearranges_paths, (hfits s hs).size_paths⟩
  unfold ofSymmetries at hok
  obtain ⟨d, hd, hok⟩ := bind_eq_ok.mp hok
  have hdelay (shift : α) : (ofShift d shift).Fits J N := by
    refine hshift shift d (List.mem_of_mem_filter (p := (·.kind == .delay)) ?_)
    rw [delayOf_eq_ok.mp hd]
    exact List.mem_singleton_self d
  simp only at hok
  split_ifs at hok
  · simp at hok
  · simp at hok
  · simp at hok
  · obtain ⟨known, hclose, hok⟩ := bind_eq_ok.mp hok
    obtain rfl := pure_eq_ok.mp hok
    have hknown : ∀ r ∈ known, r.Fits J N := by
      refine all_close (fun f hf h hh ↦ fits_normalize (hdelay _) (hf.andThen ?_)) ?_ hclose
      · obtain ⟨s, hs, hsome⟩ := List.mem_filterMap.mp hh
        unfold generator? at hsome
        split at hsome
        · cases hsome
        · exact Option.some.inj hsome ▸ hshift _ s hs
        · exact Option.some.inj hsome ▸ hshift _ s hs
      · intro r hr
        rw [List.mem_singleton.mp (List.mem_toArray.mp hr)]
        exact .identity J N
    refine ⟨hdelay _, fun r hr ↦ hknown r ?_, ?_⟩
    · exact Array.mem_toList_iff.mp (List.mem_mergeSort.mp (List.mem_toArray.mp hr))
    · rw [size, List.size_toArray, List.length_mergeSort, Array.length_toList]
      exact size_pos_close (by simp) hclose

theorem fits_image {symmetries : List (Symmetry α)} {g : SymmetryGroup α}
    (hfits : ∀ s ∈ symmetries, (ofShift s (0 : α)).Fits J N)
    (hok : ofSymmetries symmetries J N = .ok g) (k : ℤ) : (g.image k).Fits J N := by
  obtain ⟨hdelay, hrepresentatives, -⟩ := fits_of_ofSymmetries hfits hok
  -- An image is a representative, or else the delay, followed by a power of the delay.
  refine .andThen ?_ (hdelay.power _)
  unfold representative
  unfold Array.getD
  split_ifs with hlt
  · exact hrepresentatives _ (Array.getElem_mem hlt)
  · exact hdelay

theorem isIdentity_of_ofSymmetries {symmetries : List (Symmetry α)} {g : SymmetryGroup α}
    (hok : ofSymmetries symmetries J N = .ok g) {s : Symmetry α} (hs : s ∈ symmetries)
    (hkind : s.kind = .delay) : s.jugglers.isIdentity = true := by
  unfold ofSymmetries at hok
  obtain ⟨d, hd, hok⟩ := bind_eq_ok.mp hok
  have hmem : s ∈ symmetries.filter (·.kind == .delay) := by simp [hs, hkind]
  rw [delayOf_eq_ok.mp hd, List.mem_singleton] at hmem
  rw [hmem]
  by_contra hmoves
  simp only [Bool.not_eq_true] at hmoves
  rw [hmoves] at hok
  simp only [Bool.not_false, if_true] at hok
  split_ifs at hok <;> simp at hok

end SymmetryGroup

/-- A choice made again and again is among what it was made from. -/
theorem foldl_mem {β : Type} {pick : β → β → β} (hpick : ∀ a b, pick a b = a ∨ pick a b = b)
    (a : β) (xs : List β) : xs.foldl pick a ∈ a :: xs := by
  induction xs generalizing a with
  | nil => exact List.mem_cons_self
  | cons b xs ih =>
    rw [List.foldl_cons]
    rcases hpick a b with h | h <;> rw [h]
    · exact List.mem_cons.mpr ((List.mem_cons.mp (ih a)).imp_right (List.mem_cons_of_mem _))
    · exact List.mem_cons_of_mem _ (ih b)

namespace Front

variable {g : SymmetryGroup α} {seeds : List (Event α)} {fs : List (Front α)} {f : Front α}

theorem latest?_mem (h : latest? g fs = some f) : f ∈ fs := by
  cases fs with
  | nil => cases h
  | cons a fs =>
    obtain rfl := Option.some.inj h
    exact foldl_mem (fun a b ↦ by split_ifs <;> simp) a fs

theorem earliest?_mem (h : earliest? g fs = some f) : f ∈ fs := by
  cases fs with
  | nil => cases h
  | cons a fs =>
    obtain rfl := Option.some.inj h
    exact foldl_mem (fun a b ↦ by split_ifs <;> simp) a fs

omit [Scalar α] in
theorem origin_move (hfs : ∀ f ∈ fs, f.origin ∈ seeds) (seed : ℕ) (offset : ℤ) :
    ∀ f ∈ move seed offset fs, f.origin ∈ seeds := by
  intro f hf
  obtain ⟨h, hh, rfl⟩ := List.mem_map.mp hf
  split_ifs <;> exact hfs h hh

theorem origin_before {t : α} {offset : ℤ} : ∀ f ∈ before g seeds t offset, f.origin ∈ seeds := by
  intro f hf
  obtain ⟨i, hi, rfl⟩ := List.mem_mapIdx.mp hf
  exact List.getElem_mem hi

end Front

/-- Whether an image is one of the images of some events. -/
def Generated.IsImageOf (seeds : List (Event α)) (g : SymmetryGroup α) (x : Generated α) : Prop :=
  ∃ e ∈ seeds, x.event = (g.image x.image).apply e

namespace Expansion

variable {x : Expansion α} {fs : List (Front α)} {made : List (Generated α)}

theorem isImageOf_backward (hfs : ∀ f ∈ fs, f.origin ∈ x.seeds) {budget : ℕ} {n : Needs}
    (hok : x.backward budget n fs = .ok made) : ∀ y ∈ made, y.IsImageOf x.seeds x.group := by
  induction budget generalizing n fs made with
  | zero =>
    unfold backward at hok
    split at hok
    · simp_all
    · split_ifs at hok
      simp_all
  | succ budget ih =>
    unfold backward at hok
    split at hok
    · obtain rfl := Except.ok.inj hok
      simp
    · rename_i f hf
      split_ifs at hok
      · obtain rfl := Except.ok.inj hok
        simp
      · obtain ⟨rest, hrest, rfl⟩ := map_eq_ok.mp hok
        refine List.forall_mem_cons.mpr ⟨⟨f.origin, hfs f (Front.latest?_mem hf), rfl⟩, ?_⟩
        exact ih (Front.origin_move hfs f.seed (-1)) hrest

theorem isImageOf_forward (hfs : ∀ f ∈ fs, f.origin ∈ x.seeds) {budget : ℕ} {n : Needs}
    (hok : x.forward budget n fs = .ok made) : ∀ y ∈ made, y.IsImageOf x.seeds x.group := by
  induction budget generalizing n fs made with
  | zero =>
    unfold forward at hok
    split_ifs at hok
    · simp_all
    · split at hok <;> simp_all
  | succ budget ih =>
    unfold forward at hok
    split_ifs at hok
    · obtain rfl := Except.ok.inj hok
      simp
    · split at hok
      · obtain rfl := Except.ok.inj hok
        simp
      · rename_i f hf
        obtain ⟨rest, hrest, rfl⟩ := map_eq_ok.mp hok
        refine List.forall_mem_cons.mpr ⟨⟨f.origin, hfs f (Front.earliest?_mem hf), rfl⟩, ?_⟩
        exact ih (Front.origin_move hfs f.seed 1) hrest

theorem isImageOf_run {paths : ℕ} (hok : x.run paths = .ok made) :
    ∀ y ∈ made, y.IsImageOf x.seeds x.group := by
  obtain ⟨back, hback, hok⟩ := bind_eq_ok.mp hok
  obtain ⟨forth, hforth, hok⟩ := bind_eq_ok.mp hok
  obtain rfl := pure_eq_ok.mp hok
  exact List.forall_mem_append.mpr ⟨isImageOf_backward Front.origin_before hback,
    isImageOf_forward Front.origin_before hforth⟩

end Expansion

theorem Generated.mem_dropCoincident {kept made out : List (Generated α)}
    (hok : dropCoincident kept made = .ok out) : ∀ y ∈ out, y ∈ kept ∨ y ∈ made := by
  induction made generalizing kept with
  | nil =>
    obtain rfl := Except.ok.inj hok
    exact fun y hy ↦ .inl (List.mem_reverse.mp hy)
  | cons a made ih =>
    unfold dropCoincident at hok
    split at hok
    · intro y hy
      rcases ih hok y hy with hy | hy
      · rcases List.mem_cons.mp hy with rfl | hy
        · exact .inr List.mem_cons_self
        · exact .inl hy
      · exact .inr (List.mem_cons_of_mem _ hy)
    · split_ifs at hok
      exact fun y hy ↦ (ih hok y hy).imp_right (List.mem_cons_of_mem _)

namespace Moment

variable {seeds : List (Event α)} {g : SymmetryGroup α} {loop : Window α}
  {moments ms : List (Moment α)} {m : Moment α}

omit [Scalar α] in
theorem toGenerated_mem {made : List (Generated α)} (hm : m ∈ numbered made) :
    m.toGenerated ∈ made := by
  obtain ⟨i, hi, rfl⟩ := List.mem_mapIdx.mp hm
  exact List.getElem_mem hi

/-- Every moment is an image of a seed. -/
theorem isImageOf_expand (hok : expand seeds g J N loop = .ok moments) :
    seeds ≠ [] ∧ ∀ m ∈ moments, m.IsImageOf seeds g := by
  unfold expand at hok
  split_ifs at hok with hempty
  · simp at hok
  · obtain ⟨coverage, -, hok⟩ := bind_eq_ok.mp hok
    obtain ⟨made, hmade, hok⟩ := bind_eq_ok.mp hok
    obtain ⟨kept, hkept, hok⟩ := bind_eq_ok.mp hok
    obtain rfl := pure_eq_ok.mp hok
    refine ⟨by simpa using hempty, fun m hm ↦ ?_⟩
    have hmem := Generated.mem_dropCoincident hkept _ (toGenerated_mem hm)
    refine Expansion.isImageOf_run hmade _ ?_
    simpa using hmem

theorem earliest?_mem (h : earliest? moments = some m) : m ∈ moments := by
  cases moments with
  | nil => cases h
  | cons a moments =>
    obtain rfl := Option.some.inj h
    exact foldl_mem (fun a b ↦ by unfold earlier; simp only; split_ifs <;> simp) a moments

theorem master?_mem (h : master? loop moments = some m) : m ∈ moments := by
  unfold master? at h
  rcases Option.or_eq_some_iff.mp h with h | ⟨-, h⟩
  · exact List.mem_of_mem_filter (earliest?_mem h)
  · exact earliest?_mem h

theorem masters_mem {n : ℕ} (hok : masters loop n moments = .ok ms) (hm : m ∈ ms) :
    m ∈ moments := by
  obtain ⟨i, -, h⟩ := exists_of_forall₂ (mapM_eq_ok.mp hok) hm
  split at h
  · rename_i heq
    obtain rfl := Except.ok.inj h
    exact List.mem_of_mem_filter (master?_mem heq)
  · cases h

end Moment

namespace Timeline

variable {g : SymmetryGroup α} {loop : Window α} {t : Timeline α}

/-- Whether every seed of a timeline is its own master. -/
structure IsSettled (g : SymmetryGroup α) (J N : ℕ) (loop : Window α) (t : Timeline α) : Prop where
  nonempty : t.seeds ≠ []
  placed : ∀ e ∈ t.seeds, Placed J N e
  expand : Moment.expand t.seeds g J N loop = .ok t.moments
  masters : ∃ ms, Moment.masters loop t.seeds.length t.moments = .ok ms ∧
    ms.all (·.image == 0) = true ∧ t.masters = ms.map (·.index)

theorem settle_ok (hfits : ∀ k, (g.image k).Fits J N) {fuel : ℕ} {seeds : List (Event α)}
    (hplaced : ∀ e ∈ seeds, Placed J N e) (hok : settle g J N loop fuel seeds = .ok t) :
    t.IsSettled g J N loop := by
  induction fuel generalizing seeds with
  | zero => cases hok
  | succ fuel ih =>
    unfold settle at hok
    simp only [bind_eq_ok, lift_eq_ok] at hok
    obtain ⟨moments, hmoments, ms, hms, hok⟩ := hok
    obtain ⟨hnonempty, himages⟩ := Moment.isImageOf_expand hmoments
    split_ifs at hok with hall
    · obtain rfl := pure_eq_ok.mp hok
      exact ⟨hnonempty, hplaced, hmoments, ms, hms, hall, rfl⟩
    · refine ih (fun e he ↦ ?_) hok
      obtain ⟨m, hm, rfl⟩ := List.mem_map.mp he
      obtain ⟨e, he, heq⟩ := himages m (Moment.masters_mem hms hm)
      rw [heq]
      exact (hfits m.image).placed (hplaced e he)

/-- Seeds that are their own masters stay what they are. -/
theorem IsSettled.settle_eq (h : t.IsSettled g J N loop) (fuel : ℕ) :
    settle g J N loop (fuel + 1) t.seeds = .ok t := by
  obtain ⟨ms, hms, hall, heq⟩ := h.masters
  unfold settle
  refine bind_eq_ok.mpr ⟨_, lift_eq_ok.mpr h.expand, bind_eq_ok.mpr
    ⟨ms, lift_eq_ok.mpr hms, ?_⟩⟩
  rw [if_pos hall, ← heq]
  rfl

end Timeline

namespace Layout

variable [Numeral α] {d : Declarations α} {l : Layout α}

/-- The masters of a layout, and what they are laid out as. -/
theorem build_masters (hperms : ∀ s ∈ d.symmetries, s.jugglers.Rearranges ∧ s.paths.Rearranges)
    (hok : build d = .ok l) : build { d with events := l.masters } = .ok l := by
  obtain ⟨⟨⟩, hvalid, hok⟩ := bind_eq_ok.mp hok
  obtain ⟨g, hg, hok⟩ := bind_eq_ok.mp hok
  obtain ⟨t, ht, hok⟩ := bind_eq_ok.mp hok
  obtain ⟨-, hplaced, hpositions, hsizes⟩ := Declarations.validate_eq_ok.mp (lift_eq_ok.mp hvalid)
  have hfits := SymmetryGroup.fits_image (J := d.jugglers) (N := d.paths) (fun s hs ↦
    ⟨(hperms s hs).1, (hsizes s hs).1, (hperms s hs).2, (hsizes s hs).2⟩) (lift_eq_ok.mp hg)
  have hsettled := Timeline.settle_ok hfits hplaced ht
  have hmasters : l.masters = t.seeds := by
    unfold ofTimeline at hok
    simp only [bind_eq_ok] at hok
    obtain ⟨tracks, -, paths, -, links, -, ⟨curves, hands⟩, -, hok⟩ := hok
    obtain rfl := pure_eq_ok.mp hok
    rfl
  rw [hmasters]
  refine bind_eq_ok.mpr ⟨(), lift_eq_ok.mpr (Declarations.validate_eq_ok.mpr
    ⟨hsettled.nonempty, hsettled.placed, hpositions, hsizes⟩), bind_eq_ok.mpr ⟨g, hg, ?_⟩⟩
  exact bind_eq_ok.mpr ⟨t, hsettled.settle_eq 3, hok⟩

end Layout

end Juggling
