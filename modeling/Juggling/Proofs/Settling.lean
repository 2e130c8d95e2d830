import Juggling.Proofs.Masters
import Juggling.Proofs.Validation

namespace Juggling

variable {α : Type} [Exact α] {symmetries : List (Symmetry α)} {J N : ℕ} {g : SymmetryGroup α}

namespace SymmetryGroup

/-- Whether a representative besides the first leaves a juggler where he is, at the same moment. -/
def Shadowed (g : SymmetryGroup α) (j : ℕ) : Prop :=
  ∃ r ∈ g.representatives.toList.tail, r.shift = 0 ∧ r.jugglers.apply j = j

instance [DecidableEq α] (g : SymmetryGroup α) (j : ℕ) : Decidable (g.Shadowed j) :=
  inferInstanceAs (Decidable (∃ r ∈ g.representatives.toList.tail, _))

namespace IsGroupOf

variable (hg : g.IsGroupOf symmetries J N)

include hg

theorem shadowed_iff {j : ℕ} (hj : j ≤ J) : g.Shadowed j ↔ g.Shadows j := by
  obtain ⟨rest, hrest⟩ := hg.first
  have hnodup := hg.nodup
  rw [hrest, List.map_cons, Transform.motion_identity, List.nodup_cons] at hnodup
  simp only [SymmetryGroup.Shadowed, hrest, List.tail_cons]
  constructor
  · rintro ⟨r, hr, hshift, hfix⟩
    have hmem : r ∈ g.representatives := by
      rw [← Array.mem_toList_iff, hrest]
      exact List.mem_cons_of_mem _ hr
    refine ⟨⟨r.motion, mem_motions.mpr ⟨r, hmem, rfl⟩⟩, fun h ↦ ?_, hshift, ?_⟩
    · exact hnodup.1 (h ▸ List.mem_map_of_mem hr)
    · exact ((hg.fits r hmem).motion_jugglers hj).trans hfix
  · rintro ⟨r, hne, hshift, hfix⟩
    obtain ⟨r', hr', hm⟩ := mem_motions.mp r.2
    have hcons := hrest ▸ Array.mem_toList_iff.mpr hr'
    rcases List.mem_cons.mp hcons with rfl | hmem
    · exact absurd (hm.symm.trans (Transform.motion_identity J N)) hne
    · refine ⟨r', hmem, ?_, ?_⟩
      · exact (congrArg Motion.shift hm).trans hshift
      · rw [← (hg.fits r' hr').motion_jugglers hj, hm]
        exact hfix

theorem shadows_neg {j : ℤ} (h : g.Shadows j) : g.Shadows (-j) := by
  obtain ⟨r, hne, hshift, hfix⟩ := h
  obtain ⟨r', hr', hm⟩ := mem_motions.mp r.2
  refine ⟨r, hne, hshift, ?_⟩
  have := (hg.fits r' hr').motion_mem_signed.1 j
  rw [hm, hfix] at this
  exact this

theorem shadows_natAbs {j : ℤ} : g.Shadows j.natAbs ↔ g.Shadows j := by
  rcases Int.natAbs_eq j with h | h
  · rw [← h]
  · rw [h, Int.natAbs_neg, Int.natAbs_natCast]
    exact ⟨hg.shadows_neg, fun hneg ↦ neg_neg (j.natAbs : ℤ) ▸ hg.shadows_neg hneg⟩

theorem juggler_image {e : Event α} (hj : 1 ≤ e.juggler ∧ e.juggler ≤ J) (k : ℤ) :
    1 ≤ ((g.image k).apply e).juggler ∧ ((g.image k).apply e).juggler ≤ J := by
  have hfits := hg.image_fits k
  have := hfits.rearranges_jugglers.isElement_apply (i := e.juggler)
    (by simpa [Permutation.IsElement, hfits.size_jugglers] using hj)
  rw [Permutation.IsElement, hfits.size_jugglers] at this
  rwa [Transform.apply_eq_moved, Event.juggler_moved]

theorem shadows_image (hs : Separated g.period symmetries) {e : Event α}
    (hj : 1 ≤ e.juggler ∧ e.juggler ≤ J) (k : ℤ) :
    g.Shadows ((g.image k).apply e).juggler ↔ g.Shadows e.juggler := by
  rw [Transform.apply_eq_moved, Event.juggler_moved, hg.shadows_natAbs,
    ← (hg.image_fits k).motion_jugglers hj.2, hg.jugglers_image]
  exact hg.shadows_iff_of_rep hs
    ⟨_, mem_motions.mpr ⟨_, hg.representative_mem k, rfl⟩⟩ e.juggler

end IsGroupOf

end SymmetryGroup

section Masters

variable {seeds : List (Event α)} {moments : List (Moment α)}
  {x : Moment.Expanded seeds g J N ⟨0, g.period⟩ moments} {i : ℕ} {e : Event α} {m : Moment α}

namespace IsMaster

variable (hm : IsMaster g x i e m)

include hm

theorem event_eq : m.event = (g.image m.image).apply e := congrArg Generated.event hm.generated

theorem time_eq : m.time = g.imageTime e m.image := time_eq_imageTime hm.generated

variable (hg : g.IsGroupOf symmetries J N) (hs : SymmetryGroup.Separated g.period symmetries)

include hg hs

theorem isEarliest : IsEarliest g m.event m.event.time := by
  obtain ⟨hlow, hhigh, hbest⟩ := hm.earliest
  refine ⟨hlow, hhigh, fun l hl ↦ ?_⟩
  obtain ⟨l', hl'⟩ := hg.exists_imageTime_image hs e m.image l
  rw [hm.event_eq, hl'] at hl ⊢
  rw [← hm.event_eq]
  exact hbest l' hl

/-- A shadowed seed is never its own master. -/
theorem image_ne_zero (he : seeds[i]? = some e) (hj : 1 ≤ e.juggler ∧ e.juggler ≤ J)
    (hshadow : g.Shadows e.juggler) : m.image ≠ 0 := by
  intro hzero
  have htol := timeTolerance_pos (α := α)
  have htime : m.time = e.time := by rw [hm.time_eq, hzero, hg.imageTime_zero]
  have hkept := hm.kept
  rw [hm.generated, hzero] at hkept
  exact (self_mem_kept_iff hg x hs he hj (htime ▸ hm.earliest.1)
    (by linarith [hm.earliest.2.1])).mp hkept hshadow

/-- A seed that is earliest among its images and in nobody's shadow is its own master. -/
theorem image_eq_zero (he : seeds[i]? = some e) (hj : 1 ≤ e.juggler ∧ e.juggler ≤ J)
    (hearliest : IsEarliest g e e.time) (hfree : ¬g.Shadows e.juggler) : m.image = 0 := by
  have htol := timeTolerance_pos (α := α)
  obtain ⟨hlow, hhigh, hbest⟩ := hearliest
  refine hm.self ((self_mem_kept_iff hg x hs he hj hlow (by linarith)).mpr hfree) ?_
  have hle := hbest m.image (hm.time_eq ▸ hm.earliest.1)
  have hge := hm.earliest.2.2 0 (by rwa [hg.imageTime_zero])
  rw [← hm.time_eq] at hle
  rw [hg.imageTime_zero] at hge
  exact le_antisymm hle hge

end IsMaster

end Masters

/-- One round of the choice of masters. -/
def Round (g : SymmetryGroup α) (J N : ℕ) (seeds : List (Event α)) (moments ms : List (Moment α)) :
    Prop :=
  ∃ x : Moment.Expanded seeds g J N ⟨0, g.period⟩ moments,
    List.Forall₂ (fun i m ↦ ∃ e, seeds[i]? = some e ∧ IsMaster g x i e m)
      (List.range seeds.length) ms

namespace Round

variable {seeds : List (Event α)} {moments ms : List (Moment α)}

theorem of_mem (hr : Round g J N seeds moments ms) {m : Moment α} (hm : m ∈ ms) :
    ∃ x : Moment.Expanded seeds g J N ⟨0, g.period⟩ moments, ∃ i e, seeds[i]? = some e ∧
      IsMaster g x i e m := by
  obtain ⟨x, hall⟩ := hr
  obtain ⟨i, -, e, he, hmaster⟩ := exists_of_forall₂ hall hm
  exact ⟨x, i, e, he, hmaster⟩

theorem exists_of_mem (hr : Round g J N seeds moments ms) {e : Event α} (he : e ∈ seeds) :
    ∃ m ∈ ms, ∃ x : Moment.Expanded seeds g J N ⟨0, g.period⟩ moments, ∃ i, seeds[i]? = some e ∧
      IsMaster g x i e m := by
  obtain ⟨x, hall⟩ := hr
  obtain ⟨n, hn, rfl⟩ := List.getElem_of_mem he
  obtain ⟨m, hm, e, he, hmaster⟩ := exists_of_forall₂ hall.flip (List.mem_range.mpr hn)
  rw [List.getElem?_eq_getElem hn] at he
  obtain rfl := Option.some.inj he
  exact ⟨m, hm, x, n, List.getElem?_eq_getElem hn, hmaster⟩

variable (hr : Round g J N seeds moments ms) (hg : g.IsGroupOf symmetries J N)
  (hs : SymmetryGroup.Separated g.period symmetries)
  (hj : ∀ e ∈ seeds, 1 ≤ e.juggler ∧ e.juggler ≤ J)

include hr hg hj

theorem placed : ∀ e ∈ ms.map (·.event), 1 ≤ e.juggler ∧ e.juggler ≤ J := by
  intro e he
  obtain ⟨m, hm, rfl⟩ := List.mem_map.mp he
  obtain ⟨x, i, e, he, hmaster⟩ := hr.of_mem hm
  rw [hmaster.event_eq]
  exact hg.juggler_image (hj e (List.mem_of_getElem? he)) m.image

include hs

theorem free (hfree : ∀ e ∈ seeds, ¬g.Shadows e.juggler) :
    ∀ e ∈ ms.map (·.event), ¬g.Shadows e.juggler ∧ IsEarliest g e e.time := by
  intro e he
  obtain ⟨m, hm, rfl⟩ := List.mem_map.mp he
  obtain ⟨x, i, e, he, hmaster⟩ := hr.of_mem hm
  have hmem := List.mem_of_getElem? he
  refine ⟨?_, hmaster.isEarliest hg hs⟩
  rw [hmaster.event_eq, hg.shadows_image hs (hj e hmem)]
  exact hfree e hmem

theorem shadowed (h : ∃ e ∈ seeds, g.Shadows e.juggler) :
    ms.all (·.image == 0) = false ∧ ∃ e ∈ ms.map (·.event), g.Shadows e.juggler := by
  obtain ⟨e, he, hshadow⟩ := h
  obtain ⟨m, hm, x, i, hi, hmaster⟩ := hr.exists_of_mem he
  constructor
  · rw [← Bool.not_eq_true, List.all_eq_true]
    intro hall
    exact hmaster.image_ne_zero hg hs hi (hj e he) hshadow (by simpa using hall m hm)
  · refine ⟨m.event, List.mem_map_of_mem hm, ?_⟩
    rwa [hmaster.event_eq, hg.shadows_image hs (hj e he)]

theorem settled (h : ∀ e ∈ seeds, ¬g.Shadows e.juggler ∧ IsEarliest g e e.time) :
    ms.all (·.image == 0) = true := by
  rw [List.all_eq_true]
  intro m hm
  obtain ⟨x, i, e, he, hmaster⟩ := hr.of_mem hm
  have hmem := List.mem_of_getElem? he
  simpa using hmaster.image_eq_zero hg hs he (hj e hmem) (h e hmem).2 (h e hmem).1

end Round

namespace Timeline

section Settle

variable (hg : g.IsGroupOf symmetries J N) (hs : SymmetryGroup.Separated g.period symmetries)

include hg hs

/-- A round fails with an error of the user's, or it settles, or its masters go on to the next. -/
theorem settle_succ (seeds : List (Event α)) :
    (∃ err, Moment.expand seeds g J N ⟨0, g.period⟩ = .error err ∧
      ∀ fuel, settle g J N ⟨0, g.period⟩ (fuel + 1) seeds = .error (.user err)) ∨
    ∃ moments ms, Round g J N seeds moments ms ∧ ∀ fuel,
      settle g J N ⟨0, g.period⟩ (fuel + 1) seeds =
        if ms.all (·.image == 0) then .ok ⟨seeds, moments, ms.map (·.index)⟩
        else settle g J N ⟨0, g.period⟩ fuel (ms.map (·.event)) := by
  cases hexp : Moment.expand seeds g J N ⟨0, g.period⟩ with
  | error err => exact .inl ⟨err, rfl, fun fuel ↦ by simp [settle, hexp, lift, bind, Except.bind]⟩
  | ok moments =>
    obtain ⟨-, ⟨x⟩⟩ := Moment.expand_ok hg hexp
    -- Every seed has a master, so the choice itself never fails.
    obtain ⟨ms, hmasters, hall⟩ : ∃ ms, Moment.masters ⟨0, g.period⟩ seeds.length moments = .ok ms ∧
        List.Forall₂ (fun i m ↦ ∃ e, seeds[i]? = some e ∧ IsMaster g x i e m)
          (List.range seeds.length) ms := by
      refine exists_mapM_ok fun i hi ↦ ?_
      have he := List.getElem?_eq_getElem (List.mem_range.mp hi)
      obtain ⟨m, hm, hmaster⟩ := master_ok hg x hs he
      exact ⟨m, by rw [hm], _, he, hmaster⟩
    refine .inr ⟨moments, ms, ⟨x, hall⟩, fun fuel ↦ ?_⟩
    simp only [settle, hexp, lift, hmasters, bind, Except.bind]
    rfl

/-- A shadowed seed keeps the choice of masters from settling. -/
theorem settle_of_shadows (fuel : ℕ) {seeds : List (Event α)}
    (hj : ∀ e ∈ seeds, 1 ≤ e.juggler ∧ e.juggler ≤ J)
    (h : ∃ e ∈ seeds, g.Shadows e.juggler) :
    (∃ err, settle g J N ⟨0, g.period⟩ fuel seeds = .error (.user err)) ∨
      settle g J N ⟨0, g.period⟩ fuel seeds =
        .error (.internal (.masterSelectionUnstable rounds)) := by
  induction fuel generalizing seeds with
  | zero => exact .inr rfl
  | succ fuel ih =>
    rcases settle_succ hg hs seeds with ⟨err, -, herr⟩ | ⟨moments, ms, hr, hstep⟩
    · exact .inl ⟨err, herr fuel⟩
    · obtain ⟨hall, hnext⟩ := hr.shadowed hg hs hj h
      rw [hstep, hall]
      exact ih (hr.placed hg hj) hnext

/-- Without a shadowed seed one rebuild is enough. -/
theorem settle_of_free {seeds : List (Event α)} (hj : ∀ e ∈ seeds, 1 ≤ e.juggler ∧ e.juggler ≤ J)
    (h : ∀ e ∈ seeds, ¬g.Shadows e.juggler) :
    (∃ err, ∀ fuel, settle g J N ⟨0, g.period⟩ (fuel + 2) seeds = .error (.user err)) ∨
      ∃ t, ∀ fuel, settle g J N ⟨0, g.period⟩ (fuel + 2) seeds = .ok t := by
  rcases settle_succ hg hs seeds with ⟨err, -, herr⟩ | ⟨moments, ms, hr, hstep⟩
  · exact .inl ⟨err, fun fuel ↦ herr (fuel + 1)⟩
  · cases hall : ms.all (·.image == 0) with
    | true => exact .inr ⟨_, fun fuel ↦ by rw [hstep, hall]; rfl⟩
    | false =>
      have hnext (fuel : ℕ) : settle g J N ⟨0, g.period⟩ (fuel + 2) seeds =
          settle g J N ⟨0, g.period⟩ (fuel + 1) (ms.map (·.event)) := by
        rw [hstep, hall]
        rfl
      -- The masters of the first round are masters again in the second.
      rcases settle_succ hg hs (ms.map (·.event)) with ⟨err, -, herr⟩ | ⟨moments', ms', hr', hstep'⟩
      · exact .inl ⟨err, fun fuel ↦ (hnext fuel).trans (herr fuel)⟩
      · have hall' := hr'.settled hg hs (hr.placed hg hj) (hr.free hg hs hj h)
        exact .inr ⟨_, fun fuel ↦ by rw [hnext, hstep', hall']; rfl⟩

end Settle

/-- Without a shadowed seed the choice of masters settles after at most one rebuild; with one it
never does. In neither case does a seed have no image. -/
theorem settles_iff {d : Declarations α}
    (hperms : ∀ s ∈ d.symmetries, s.jugglers.Rearranges ∧ s.paths.Rearranges)
    (hvalid : d.validate = .ok ())
    (hok : SymmetryGroup.ofSymmetries d.symmetries d.jugglers d.paths = .ok g)
    (hs : SymmetryGroup.Separated g.period d.symmetries)
    (hexpand : ∀ err, build d.events g d.jugglers d.paths ⟨0, g.period⟩ ≠ .error (.user err)) :
    (∀ i, build d.events g d.jugglers d.paths ⟨0, g.period⟩ ≠ .error (.internal (.emptyOrbit i))) ∧
    ((∃ t, build d.events g d.jugglers d.paths ⟨0, g.period⟩ = .ok t ∧
      settle g d.jugglers d.paths ⟨0, g.period⟩ 2 d.events = .ok t) ↔
        ∀ e ∈ d.events, ¬g.Shadowed e.juggler) ∧
    (build d.events g d.jugglers d.paths ⟨0, g.period⟩ =
      .error (.internal (.masterSelectionUnstable rounds)) ↔
        ∃ e ∈ d.events, g.Shadowed e.juggler) := by
  have hg := d.isGroupOf hperms hvalid hok
  have hj : ∀ e ∈ d.events, 1 ≤ e.juggler ∧ e.juggler ≤ d.jugglers := fun e he ↦
    ((d.validate_ok hvalid).1 e he).juggler
  have hiff : ∀ e ∈ d.events, (g.Shadowed e.juggler ↔ g.Shadows e.juggler) := fun e he ↦
    hg.shadowed_iff (hj e he).2
  by_cases h : ∃ e ∈ d.events, g.Shadows e.juggler
  · have hnot : ¬∀ e ∈ d.events, ¬g.Shadowed e.juggler := by
      obtain ⟨e, he, hshadow⟩ := h
      exact fun hall ↦ hall e he ((hiff e he).mpr hshadow)
    have hunstable : build d.events g d.jugglers d.paths ⟨0, g.period⟩ =
        .error (.internal (.masterSelectionUnstable rounds)) :=
      (settle_of_shadows hg hs rounds hj h).resolve_left fun ⟨err, herr⟩ ↦ hexpand err herr
    rw [hunstable]
    refine ⟨fun i h ↦ ?_, ⟨?_, fun hall ↦ (hnot hall).elim⟩, fun _ ↦ ?_, fun _ ↦ rfl⟩
    · cases h
    · rintro ⟨t, ht, -⟩
      cases ht
    · simpa only [not_forall, not_not, exists_prop] using hnot
  · have hfree : ∀ e ∈ d.events, ¬g.Shadowed e.juggler := fun e he hshadow ↦
      h ⟨e, he, (hiff e he).mp hshadow⟩
    obtain ⟨t, ht⟩ := (settle_of_free hg hs hj fun e he ↦
      (hiff e he).not.mp (hfree e he)).resolve_left fun ⟨err, herr⟩ ↦ hexpand err (herr 2)
    have hbuild : build d.events g d.jugglers d.paths ⟨0, g.period⟩ = .ok t := ht 2
    rw [hbuild]
    refine ⟨fun i h ↦ ?_, ⟨fun _ ↦ hfree, fun _ ↦ ⟨t, rfl, ht 0⟩⟩, fun h ↦ ?_, ?_⟩
    · cases h
    · cases h
    · rintro ⟨e, he, hshadow⟩
      exact (hfree e he hshadow).elim

/-- Seeds that are their own masters at once make a timeline. -/
theorem build_of_masters {seeds : List (Event α)} {loop : Window α} {moments : List (Moment α)}
    {indices : List ℕ} (hexpand : Moment.expand seeds g J N loop = .ok moments)
    (hmasters : (Moment.masters loop seeds.length moments).toOption.map
      (·.map fun m ↦ (m.image, m.index)) = some (indices.map fun i ↦ (0, i))) :
    build seeds g J N loop = .ok ⟨seeds, moments, indices⟩ := by
  obtain ⟨ms, hms, himages⟩ := Option.map_eq_some_iff.mp hmasters
  have hall : ms.all (·.image == 0) = true := by
    have := congrArg (·.all (·.1 == 0)) himages
    rw [List.all_map, List.all_map] at this
    exact this.trans (List.all_eq_true.mpr fun _ _ ↦ rfl)
  have hindex : ms.map (·.index) = indices := by
    have := congrArg (·.map Prod.snd) himages
    simpa [List.map_map, Function.comp_def] using this
  unfold build rounds settle
  refine bind_eq_ok.mpr ⟨_, lift_eq_ok.mpr hexpand, bind_eq_ok.mpr
    ⟨ms, lift_eq_ok.mpr (toOption_eq_some.mp hms), ?_⟩⟩
  rw [if_pos hall, hindex]
  rfl

/-- One prop that is thrown from hand to hand. -/
def exchange : Declarations ℚ where
  jugglers := 1
  paths := 1
  symmetries := [⟨.delay, ⟨true, #[1]⟩, ⟨true, #[1]⟩, some 1⟩,
    ⟨.switchDelay, ⟨true, #[-1]⟩, ⟨true, #[1]⟩, none⟩]
  events := [⟨0, ⟨20, 0, 0⟩, 1, .right, [{ kind := .throwing, path := 1 }]⟩,
    ⟨1 / 4, ⟨-30, 0, 0⟩, 1, .left, [{ kind := .catching, path := 1 }]⟩]
  positions := []

def exchangeGroup : SymmetryGroup ℚ :=
  ⟨⟨1, ⟨true, #[1]⟩, ⟨true, #[1]⟩⟩,
    #[⟨0, ⟨true, #[1]⟩, ⟨true, #[1]⟩⟩, ⟨1 / 2, ⟨true, #[-1]⟩, ⟨true, #[1]⟩⟩]⟩

theorem rearranges_exchange :
    ∀ s ∈ exchange.symmetries, s.jugglers.Rearranges ∧ s.paths.Rearranges := by
  decide +kernel

theorem validate_exchange : exchange.validate = .ok () := toOption_eq_some.mp (by decide +kernel)

theorem ofSymmetries_exchange :
    SymmetryGroup.ofSymmetries exchange.symmetries 1 1 = .ok exchangeGroup :=
  SymmetryGroup.ofSymmetries_of_ordered exchange.symmetries 1 1 _ exchangeGroup.representatives rfl
    (by decide +kernel) (by decide +kernel) (by decide +kernel) (by decide +kernel)

theorem multiples_exchange : ∀ s ∈ exchange.symmetries,
    ∃ n : ℤ, (SymmetryGroup.declared exchangeGroup.period s).shift = n * (1 / 2) := by
  intro s hs
  rcases List.mem_pair.mp hs with rfl | rfl
  · exact ⟨2, by decide +kernel⟩
  · exact ⟨1, by decide +kernel⟩

def exchangeImages (images : List (ℕ × ℤ)) : List (Generated ℚ) :=
  images.filterMap fun (i, k) ↦
    exchange.events[i]?.map fun e ↦ ⟨i, k, (exchangeGroup.image k).apply e⟩

/-- The images that are needed of the exchange, in order of time. -/
def exchangeOrder : List (Generated ℚ) :=
  exchangeImages [(0, -1), (1, -1), (0, 0), (1, 0), (0, 1), (1, 1), (0, 2), (1, 2), (0, 3), (1, 3)]

def exchangeCoverage : Coverage :=
  ⟨⟨#[⟨⟨true, true⟩, ⟨true, true⟩⟩]⟩, ⟨#[⟨true, true, true⟩]⟩⟩

theorem scan_exchange :
    Coverage.scan exchange.events exchangeGroup 1 1 = .ok exchangeCoverage :=
  toOption_eq_some.mp (by decide +kernel)

theorem expand_exchange :
    Moment.expand exchange.events exchangeGroup 1 1 ⟨0, exchangeGroup.period⟩ =
      .ok (Moment.numbered exchangeOrder) := by
  let made := exchangeImages [(1, 1), (0, 1), (1, 0), (0, 0), (1, -1), (0, -1), (0, 2), (1, 2),
    (0, 3), (1, 3)]
  have hperm : made.Perm exchangeOrder := by
    decide +kernel
  have hdrop : (Generated.dropCoincident [] exchangeOrder).toOption = some exchangeOrder := by
    decide +kernel
  exact Moment.expand_of_ordered (by decide) (toOption_eq_some.mpr scan_exchange)
    (by decide +kernel) hperm (by decide +kernel) hdrop

theorem settles_exchange :
    (∀ s ∈ exchange.symmetries, s.jugglers.Rearranges ∧ s.paths.Rearranges) ∧
    exchange.validate = .ok () ∧
    SymmetryGroup.ofSymmetries exchange.symmetries 1 1 = .ok exchangeGroup ∧
    SymmetryGroup.Separated exchangeGroup.period exchange.symmetries ∧
    (∀ err, build exchange.events exchangeGroup 1 1 ⟨0, exchangeGroup.period⟩ ≠
      .error (.user err)) ∧
    ∃ t, build exchange.events exchangeGroup 1 1 ⟨0, exchangeGroup.period⟩ = .ok t ∧
      settle exchangeGroup 1 1 ⟨0, exchangeGroup.period⟩ 2 exchange.events = .ok t := by
  have hperms := rearranges_exchange
  have hvalid := validate_exchange
  have hok := ofSymmetries_exchange
  have hs : SymmetryGroup.Separated exchangeGroup.period exchange.symmetries :=
    SymmetryGroup.separated_of_multiples (1 / 2) (by rw [timeTolerance_eq]; norm_num)
      multiples_exchange
  have hexpand : ∀ err, build exchange.events exchangeGroup 1 1 ⟨0, exchangeGroup.period⟩ ≠
      .error (.user err) := by
    have hg : exchangeGroup.IsGroupOf exchange.symmetries 1 1 :=
      exchange.isGroupOf hperms hvalid hok
    have hj : ∀ e ∈ exchange.events, 1 ≤ e.juggler ∧ e.juggler ≤ 1 := by
      decide +kernel
    have hbest : ∀ e ∈ exchange.events,
        ¬exchangeGroup.Shadows e.juggler ∧ IsEarliest exchangeGroup e e.time := by
      intro e he
      rw [← hg.shadowed_iff (hj e he).2]
      refine ⟨?_, isEarliest_of_before hg ?_ ?_ ?_⟩ <;> revert e <;> decide +kernel
    intro err
    rcases settle_succ hg hs exchange.events with ⟨err', herr, -⟩ | ⟨moments, ms, hr, hstep⟩
    · cases expand_exchange.symm.trans herr
    · rw [build, rounds, hstep 3, hr.settled hg hs hj hbest]
      simp
  exact ⟨hperms, hvalid, hok, hs, hexpand,
    (settles_iff hperms hvalid hok hs hexpand).2.1.mpr (by decide +kernel)⟩

end Timeline

end Juggling
