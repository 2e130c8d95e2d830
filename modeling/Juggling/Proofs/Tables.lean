import Juggling.Proofs.Needs
import Juggling.Proofs.Scan

namespace Juggling

namespace Numbered

variable {β : Type} {v : Numbered β} {i n : ℕ}

/-- A table has an entry for a number. -/
def Has (v : Numbered β) (i : ℕ) : Prop := ∃ x, v.get? i = some x

theorem has_iff (hv : v.size = n) : v.Has i ↔ 1 ≤ i ∧ i ≤ n := by
  constructor
  · rintro ⟨x, hx⟩
    cases i with
    | zero => cases hx
    | succ i =>
      obtain ⟨hi, -⟩ := Array.getElem?_eq_some_iff.mp hx
      exact ⟨Nat.succ_pos i, hv ▸ hi⟩
  · intro hi
    exact exists_get? (hv.symm ▸ hi)

end Numbered

section Served

variable {α β γ : Type}

/-- A table of jugglers and one of paths have entries for all that an event names. -/
structure Event.ServedBy (e : Event α) (jugglers : Numbered β) (paths : Numbered γ) : Prop where
  juggler : jugglers.Has e.juggler
  path : ∀ t ∈ e.transitions, paths.Has t.path

theorem Placed.servedBy {J N : ℕ} {e : Event α} {jugglers : Numbered β} {paths : Numbered γ}
    (he : Placed J N e) (hjugglers : jugglers.size = J) (hpaths : paths.size = N) :
    e.ServedBy jugglers paths :=
  ⟨(Numbered.has_iff hjugglers).mpr he.juggler,
    fun t ht ↦ (Numbered.has_iff hpaths).mpr (he.path t ht)⟩

end Served

variable {α : Type} [Scalar α] {J N : ℕ}

namespace SymmetryGroup

/-- The transforms of a group rename jugglers and paths among those that there are, and each image
has its representative. -/
structure Bounded (g : SymmetryGroup α) (J N : ℕ) : Prop where
  delay : g.delay.Fits J N
  representative : ∀ k : ℤ,
    g.representatives[(k % (g.size : ℤ)).toNat]? = some (g.representative k)
  fits : ∀ k, (g.representative k).Fits J N
  image : ∀ k, (g.image k).Fits J N
  placed : ∀ k e, Placed J N e → Placed J N ((g.image k).apply e)

theorem bounded_of_ofSymmetries {symmetries : List (Symmetry α)} {g : SymmetryGroup α}
    (hfits : ∀ s ∈ symmetries, (ofShift s (0 : α)).Fits J N)
    (hok : ofSymmetries symmetries J N = .ok g) : g.Bounded J N := by
  obtain ⟨hdelay, hrepresentatives, hsize⟩ := fits_of_ofSymmetries hfits hok
  have hlt (k : ℤ) : (k % (g.size : ℤ)).toNat < g.representatives.size := by
    have hnonneg := Int.emod_nonneg k (b := g.size) (by omega)
    have hbound := Int.emod_lt_of_pos k (b := g.size) (by omega)
    rw [size] at hnonneg hbound ⊢
    omega
  have hget (k : ℤ) : g.representatives[(k % (g.size : ℤ)).toNat]? = some (g.representative k) := by
    rw [representative, Array.getD_eq_getD_getElem?, Array.getElem?_eq_getElem (hlt k)]
    rfl
  have himage := fits_image hfits hok
  exact ⟨hdelay, hget, fun k ↦ hrepresentatives _ (Array.mem_of_getElem? (hget k)), himage,
    fun k _ he ↦ (himage k).placed he⟩

end SymmetryGroup

/-- An event is an image of one of the seeds. -/
def Event.IsImageOf (seeds : List (Event α)) (g : SymmetryGroup α) (e : Event α) : Prop :=
  ∃ s ∈ seeds, ∃ k : ℤ, e = (g.image k).apply s

namespace Front

variable {g : SymmetryGroup α} {seeds : List (Event α)} {fs : List (Front α)}

/-- A front belongs to one of the seeds, at the place where it says. -/
def Of (seeds : List (Event α)) (f : Front α) : Prop := seeds[f.seed]? = some f.origin

omit [Scalar α] in
theorem of_move (h : ∀ f ∈ fs, f.Of seeds) (seed : ℕ) (offset : ℤ) :
    ∀ f ∈ move seed offset fs, f.Of seeds := by
  intro f hf
  obtain ⟨f', hf', rfl⟩ := List.mem_map.mp hf
  split_ifs
  · exact h f' hf'
  · exact h f' hf'

theorem of_before (t : α) (offset : ℤ) : ∀ f ∈ before g seeds t offset, f.Of seeds := by
  intro f hf
  obtain ⟨i, hi, rfl⟩ := List.mem_mapIdx.mp hf
  exact List.getElem?_eq_getElem hi

end Front

namespace Expansion

/-- What is needed and where the fronts are after some images, made one after another. Nothing says
that the images end: runs that fail come to the same states as long as they last. -/
inductive Reaches (x : Expansion α) (pick : List (Front α) → Option (Front α))
    (note : Needs → Event α → Needs) (dir : ℤ) (start : Needs) (fronts : List (Front α)) :
    Needs → List (Front α) → Prop
  | start : Reaches x pick note dir start fronts start fronts
  | step {n : Needs} {fs : List (Front α)} {f : Front α}
      (h : Reaches x pick note dir start fronts n fs) (hpick : pick fs = some f) :
      Reaches x pick note dir start fronts (note n (f.generate x.group).event)
        (Front.move f.seed dir fs)

variable {x : Expansion α}

theorem Reaches.head {pick : List (Front α) → Option (Front α)} {note : Needs → Event α → Needs}
    {dir : ℤ} {start n : Needs} {fronts fs : List (Front α)} {f : Front α}
    (hpick : pick fronts = some f)
    (h : x.Reaches pick note dir (note start (f.generate x.group).event)
      (Front.move f.seed dir fronts) n fs) :
    x.Reaches pick note dir start fronts n fs := by
  induction h with
  | start => exact .step .start hpick
  | step _ hpick ih => exact .step ih hpick

/-- Only images around the start of the loop and before it are taken note of. -/
def ReachesBackward (x : Expansion α) : Needs → List (Front α) → Needs → List (Front α) → Prop :=
  x.Reaches (Front.latest? x.group) (fun n e ↦
    if e.time ≤ x.loop.low + timeTolerance then n.recordBackward x.coverage e else n) (-1)

def ReachesForward (x : Expansion α) : Needs → List (Front α) → Needs → List (Front α) → Prop :=
  x.Reaches (Front.earliest? x.group) (fun n e ↦ n.recordForward x.coverage x.freeUntil e) 1

/-- Each image of a pass is made at a state that is reached. -/
theorem reaches_of_backward {budget : ℕ} {n : Needs} {fs : List (Front α)}
    {made : List (Generated α)} (hok : x.backward budget n fs = .ok made) :
    ∀ y ∈ made, ∃ n' fs' f, x.ReachesBackward n fs n' fs' ∧
      Front.latest? x.group fs' = some f ∧ y = f.generate x.group := by
  induction budget generalizing n fs made with
  | zero =>
    unfold backward at hok
    split at hok
    · simp_all
    · split_ifs at hok
      simp_all
  | succ budget ih =>
    unfold backward at hok
    split at hok
    · obtain rfl := Except.ok.inj hok
      simp
    · rename_i f hf
      split_ifs at hok
      · obtain rfl := Except.ok.inj hok
        simp
      · obtain ⟨rest, hrest, rfl⟩ := map_eq_ok.mp hok
        refine List.forall_mem_cons.mpr ⟨⟨n, fs, f, .start, hf, rfl⟩, fun y hy ↦ ?_⟩
        obtain ⟨n', fs', f', hreaches, hlatest, heq⟩ := ih hrest y hy
        exact ⟨n', fs', f', hreaches.head hf, hlatest, heq⟩

theorem reaches_of_forward {budget : ℕ} {n : Needs} {fs : List (Front α)}
    {made : List (Generated α)} (hok : x.forward budget n fs = .ok made) :
    ∀ y ∈ made, ∃ n' fs' f, x.ReachesForward n fs n' fs' ∧
      Front.earliest? x.group fs' = some f ∧ y = f.generate x.group := by
  induction budget generalizing n fs made with
  | zero =>
    unfold forward at hok
    split_ifs at hok
    · simp_all
    · split at hok <;> simp_all
  | succ budget ih =>
    unfold forward at hok
    split_ifs at hok
    · obtain rfl := Except.ok.inj hok
      simp
    · split at hok
      · obtain rfl := Except.ok.inj hok
        simp
      · rename_i f hf
        obtain ⟨rest, hrest, rfl⟩ := map_eq_ok.mp hok
        refine List.forall_mem_cons.mpr ⟨⟨n, fs, f, .start, hf, rfl⟩, fun y hy ↦ ?_⟩
        obtain ⟨n', fs', f', hreaches, hearliest, heq⟩ := ih hrest y hy
        exact ⟨n', fs', f', hreaches.head hf, hearliest, heq⟩

/-- All that is looked up when the next image is made and taken note of is there. -/
structure Finds (x : Expansion α) (n : Needs) (f : Front α) : Prop where
  seed : f.Of x.seeds
  coverage : (f.generate x.group).event.ServedBy x.coverage.hands x.coverage.paths
  needs : (f.generate x.group).event.ServedBy n.hands n.paths

/-- All that an expansion looks up is there: backwards from the end of the loop, then for the last
transition on each path, then forwards. -/
structure Safe (x : Expansion α) (N : ℕ) : Prop where
  backward : ∀ n fs, x.ReachesBackward (.ofCoverage x.coverage)
    (Front.before x.group x.seeds x.loop.high 0) n fs →
    ∀ f, Front.latest? x.group fs = some f → x.Finds n f
  last : ∀ (made : List (Generated α)) (e : Event α), e.IsImageOf x.seeds x.group →
    ∀ t ∈ e.transitions, (lastOnPaths N made).Has t.path
  partner : ∀ made : List (Generated α), ∀ p ∈ (lastOnPaths N made).numbers,
    x.coverage.paths.Has p ∧ (x.needsAfter N made).paths.Has p
  forward : ∀ made n fs, x.ReachesForward (x.needsAfter N made)
    (Front.before x.group x.seeds x.loop.high 1) n fs →
    ∀ f, Front.earliest? x.group fs = some f → x.Finds n f

variable (hg : x.group.Bounded J N) (hx : x.Sound J N)

include hg hx

theorem Sound.placed_generate {f : Front α} (hf : f.Of x.seeds) :
    Placed J N (f.generate x.group).event :=
  hg.placed f.image _ (hx.seeds _ (List.mem_of_getElem? hf))

/-- The tables keep their sizes and the fronts their seeds, image after image. -/
theorem Reaches.keeps {pick : List (Front α) → Option (Front α)}
    {note : Needs → Event α → Needs} {dir : ℤ} {start n : Needs} {fronts fs : List (Front α)}
    (hpick : ∀ fs f, pick fs = some f → f ∈ fs)
    (hnote : ∀ n e, n.Sized J N → Placed J N e → (note n e).Sized J N)
    (hstart : start.Sized J N) (hfronts : ∀ f ∈ fronts, f.Of x.seeds)
    (h : x.Reaches pick note dir start fronts n fs) :
    n.Sized J N ∧ ∀ f ∈ fs, f.Of x.seeds := by
  induction h with
  | start => exact ⟨hstart, hfronts⟩
  | @step n fs f h hf ih =>
    obtain ⟨hn, hfs⟩ := ih
    have hof := hfs f (hpick fs f hf)
    exact ⟨hnote n _ hn (hx.placed_generate hg hof), Front.of_move hfs f.seed dir⟩

theorem ReachesBackward.keeps {start n : Needs} {fronts fs : List (Front α)}
    (hstart : start.Sized J N) (hfronts : ∀ f ∈ fronts, f.Of x.seeds)
    (h : x.ReachesBackward start fronts n fs) : n.Sized J N ∧ ∀ f ∈ fs, f.Of x.seeds := by
  refine Reaches.keeps hg hx (fun _ _ ↦ Front.latest?_mem) (fun n e hn he ↦ ?_) hstart hfronts h
  split_ifs
  · exact (Needs.recordBackward_spec (p := 0) hn he).1
  · exact hn

theorem ReachesForward.keeps {start n : Needs} {fronts fs : List (Front α)}
    (hstart : start.Sized J N) (hfronts : ∀ f ∈ fronts, f.Of x.seeds)
    (h : x.ReachesForward start fronts n fs) : n.Sized J N ∧ ∀ f ∈ fs, f.Of x.seeds := by
  refine Reaches.keeps hg hx (fun _ _ ↦ Front.earliest?_mem) (fun n e hn he ↦ ?_) hstart hfronts h
  exact (Needs.recordForward_transitions (p := 0) _ (hn.modifyHand _ _ _) he.path).1

theorem Sound.finds {n : Needs} {f : Front α} (hn : n.Sized J N) (hf : f.Of x.seeds) :
    x.Finds n f :=
  have hplaced := hx.placed_generate hg hf
  ⟨hf, hplaced.servedBy hx.hands hx.paths, hplaced.servedBy hn.hands hn.paths⟩

theorem Sound.safe : x.Safe N where
  backward n fs h f hf := by
    obtain ⟨hn, hfs⟩ := ReachesBackward.keeps hg hx hx.sized_ofCoverage (Front.of_before _ _) h
    exact hx.finds hg hn (hfs f (Front.latest?_mem hf))
  last made e he t ht := by
    obtain ⟨s, hs, k, rfl⟩ := he
    exact (Numbered.has_iff (size_lastOnPaths made)).mpr
      ((hg.placed k s (hx.seeds s hs)).path t ht)
  partner made p hp := by
    rw [Numbered.mem_numbers, size_lastOnPaths] at hp
    exact ⟨(Numbered.has_iff hx.paths).mpr hp,
      (Numbered.has_iff (hx.needsAfter made).1.paths).mpr hp⟩
  forward made n fs h f hf := by
    obtain ⟨hn, hfs⟩ := ReachesForward.keeps hg hx (hx.needsAfter made).1 (Front.of_before _ _) h
    exact hx.finds hg hn (hfs f (Front.earliest?_mem hf))

/-- What an expansion makes comes from a seed and names what exists. -/
theorem Sound.placed_of_run {made : List (Generated α)} (hok : x.run N = .ok made) :
    ∀ y ∈ made, y.seed < x.seeds.length ∧ Placed J N y.event := by
  obtain ⟨back, hback, hok⟩ := bind_eq_ok.mp hok
  obtain ⟨forth, hforth, hok⟩ := bind_eq_ok.mp hok
  obtain rfl := pure_eq_ok.mp hok
  have hof {f : Front α} (hf : f.Of x.seeds) : (f.generate x.group).seed < x.seeds.length ∧
      Placed J N (f.generate x.group).event :=
    ⟨(List.getElem?_eq_some_iff.mp hf).1, hx.placed_generate hg hf⟩
  intro y hy
  rcases List.mem_append.mp hy with hy | hy
  · obtain ⟨n, fs, f, h, hf, rfl⟩ := reaches_of_backward hback y hy
    exact hof ((hx.safe hg).backward n fs h f hf).seed
  · obtain ⟨n, fs, f, h, hf, rfl⟩ := reaches_of_forward hforth y hy
    exact hof ((hx.safe hg).forward back n fs h f hf).seed

end Expansion

theorem Coverage.sized_of_scan {seeds : List (Event α)} {g : SymmetryGroup α} {c : Coverage}
    (hok : scan seeds g J N = .ok c) : c.Sized J N := by
  unfold scan at hok
  simp only at hok
  split at hok
  · cases hok
  · cases hok
  · obtain rfl := Except.ok.inj hok
    refine List.foldlRecOn (motive := fun c : Coverage ↦ c.Sized J N) seeds _
      ⟨Numbered.size_replicate _ _, Numbered.size_replicate _ _⟩ fun c hc e _ ↦ ?_
    exact List.foldlRecOn (motive := fun c : Coverage ↦ c.Sized J N) g.orbit _ hc
      fun c hc f _ ↦ hc.record (f.apply e)

/-- A moment stands where its index says, names what exists, and comes from one of some seeds. -/
structure Moment.Located (J N seeds : ℕ) (moments : List (Moment α)) (m : Moment α) : Prop where
  index : moments[m.index]? = some m
  placed : Placed J N m.event
  seed : m.seed < seeds

namespace Timeline

/-- The seeds of all attempts to choose masters. -/
inductive Attempt (g : SymmetryGroup α) (J N : ℕ) (loop : Window α) (events : List (Event α)) :
    List (Event α) → Prop
  | first : Attempt g J N loop events events
  | next {seeds : List (Event α)} {moments ms : List (Moment α)}
      (h : Attempt g J N loop events seeds)
      (hexpand : Moment.expand seeds g J N loop = .ok moments)
      (hmasters : Moment.masters loop seeds.length moments = .ok ms) :
      Attempt g J N loop events (ms.map (·.event))

/-- All that is looked up while seeds are expanded and masters chosen is there, and so is all that
the resulting moments name. -/
structure Supplied (g : SymmetryGroup α) (J N : ℕ) (loop : Window α) (seeds : List (Event α)) :
    Prop where
  placed : ∀ e ∈ seeds, Placed J N e
  scan : ∀ (es : List (Event α)) (e : Event α), (∀ f ∈ e :: es, f.IsImageOf seeds g) →
    e.ServedBy (es.foldl Coverage.record (.empty J N)).hands
      (es.foldl Coverage.record (.empty J N)).paths
  expansion : ∀ c, Coverage.scan seeds g J N = .ok c → Expansion.Safe ⟨seeds, g, c, loop⟩ N
  moments : ∀ moments, Moment.expand seeds g J N loop = .ok moments →
    ∀ m ∈ moments, m.Located J N seeds.length moments
  masters : ∀ moments ms, Moment.expand seeds g J N loop = .ok moments →
    Moment.masters loop seeds.length moments = .ok ms →
      ms.length = seeds.length ∧ ∀ m ∈ ms, m ∈ moments

variable {g : SymmetryGroup α} {loop : Window α} {events seeds : List (Event α)}
  (hg : g.Bounded J N)

include hg

omit hg in
theorem sound_of_scan (hseeds : ∀ e ∈ seeds, Placed J N e) {c : Coverage}
    (hok : Coverage.scan seeds g J N = .ok c) : Expansion.Sound ⟨seeds, g, c, loop⟩ J N :=
  have hsized := Coverage.sized_of_scan hok
  ⟨hseeds, hsized.hands, hsized.paths⟩

theorem located_of_expand (hseeds : ∀ e ∈ seeds, Placed J N e) {moments : List (Moment α)}
    (hok : Moment.expand seeds g J N loop = .ok moments) :
    ∀ m ∈ moments, m.Located J N seeds.length moments := by
  unfold Moment.expand at hok
  split_ifs at hok
  · simp at hok
  · obtain ⟨coverage, hscan, hok⟩ := bind_eq_ok.mp hok
    obtain ⟨made, hmade, hok⟩ := bind_eq_ok.mp hok
    obtain ⟨kept, hkept, hok⟩ := bind_eq_ok.mp hok
    obtain rfl := pure_eq_ok.mp hok
    intro m hm
    have hmem := Generated.mem_dropCoincident hkept _ (Moment.toGenerated_mem hm)
    rw [List.mem_mergeSort, or_iff_right List.not_mem_nil] at hmem
    obtain ⟨hseed, hplaced⟩ := (sound_of_scan hseeds hscan).placed_of_run hg hmade _ hmem
    obtain ⟨i, hi, rfl⟩ := List.mem_mapIdx.mp hm
    exact ⟨by rw [Moment.numbered, List.getElem?_mapIdx, List.getElem?_eq_getElem hi]; rfl,
      hplaced, hseed⟩

namespace IsSettled

variable {t : Timeline α} (h : t.IsSettled g J N loop)

include h

theorem located : ∀ m ∈ t.moments, m.Located J N t.masters.length t.moments := by
  obtain ⟨ms, hms, -, hmasters⟩ := h.masters
  have hlength : t.masters.length = t.seeds.length := by
    rw [hmasters, List.length_map, ← (mapM_eq_ok.mp hms).length_eq, List.length_range]
  rw [hlength]
  exact located_of_expand hg h.placed h.expand

theorem masterOf_lt {m : Moment α} (hm : m ∈ t.moments) : t.masterOf m < t.moments.length := by
  have hlocated := h.located hg
  obtain ⟨ms, hms, -, hmasters⟩ := h.masters
  have hseed := (hlocated m hm).seed
  have hmem : t.masterOf m ∈ t.masters := by
    rw [masterOf, List.getD_eq_getElem?_getD, List.getElem?_eq_getElem hseed, Option.getD_some]
    exact List.getElem_mem hseed
  obtain ⟨n, hn, heq⟩ := List.mem_map.mp (hmasters ▸ hmem)
  have hindex := (hlocated n (Moment.masters_mem hms hn)).index
  exact heq ▸ (List.getElem?_eq_some_iff.mp hindex).1

end IsSettled

theorem Attempt.placed (hevents : ∀ e ∈ events, Placed J N e)
    (h : Attempt g J N loop events seeds) : ∀ e ∈ seeds, Placed J N e := by
  induction h with
  | first => exact hevents
  | next _ hexpand hmasters ih =>
    intro e he
    obtain ⟨m, hm, rfl⟩ := List.mem_map.mp he
    exact (located_of_expand hg ih hexpand m (Moment.masters_mem hmasters hm)).placed

theorem Attempt.supplied (hevents : ∀ e ∈ events, Placed J N e)
    (h : Attempt g J N loop events seeds) : Supplied g J N loop seeds where
  placed := h.placed hg hevents
  scan es e hes := by
    have hplaced (f : Event α) (hf : f ∈ e :: es) : Placed J N f := by
      obtain ⟨s, hs, k, rfl⟩ := hes f hf
      exact hg.placed k s (h.placed hg hevents s hs)
    have hempty : (Coverage.empty J N).Sized J N :=
      ⟨Numbered.size_replicate _ _, Numbered.size_replicate _ _⟩
    have hsized := (Coverage.foldl_record hempty (List.forall_mem_cons.mp hplaced).2).1
    exact (hplaced e List.mem_cons_self).servedBy hsized.hands hsized.paths
  expansion c hc := (sound_of_scan (h.placed hg hevents) hc).safe hg
  moments moments hok := located_of_expand hg (h.placed hg hevents) hok
  masters moments ms hexpand hmasters :=
    ⟨(mapM_eq_ok.mp hmasters).length_eq.symm.trans List.length_range,
      fun m hm ↦ Moment.masters_mem hmasters hm⟩

end Timeline

end Juggling
