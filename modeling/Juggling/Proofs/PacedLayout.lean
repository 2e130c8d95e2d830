import Juggling.Proofs.PacedCurves

namespace Juggling

variable {α : Type} [Exact α] {f : α}

namespace Declarations

def stretch (f : α) (d : Declarations α) : Declarations α :=
  { d with
    symmetries := d.symmetries.map (Symmetry.scaleTime f)
    events := d.events.map (·.stretch f)
    positions := d.positions.map (·.stretch f) }

variable {d : Declarations α}

theorem validate_stretch (hok : d.validate = .ok ()) : (d.stretch f).validate = .ok () := by
  obtain ⟨hevents, hplaced, hpositions, hsizes⟩ := validate_eq_ok.mp hok
  refine validate_eq_ok.mpr ⟨by simpa [stretch] using hevents, ?_, ?_, ?_⟩
  · exact List.forall_mem_map.mpr fun e he ↦ ⟨(hplaced e he).juggler, (hplaced e he).path⟩
  · exact List.forall_mem_map.mpr hpositions
  · exact List.forall_mem_map.mpr hsizes

theorem tracks_stretch {S : Set α} (h : Pace f S) {loop : Window α} (hlow : loop.low ∈ S)
    (hhigh : loop.high ∈ S) (hpositions : ∀ p ∈ d.positions, p.time ∈ S)
    {tracks : Numbered (Track α)} (hok : d.tracks loop = .ok tracks) :
    (d.stretch f).tracks (loop.stretch f) = .ok (tracks.map (·.stretch f)) := by
  obtain ⟨ks, hks, hok⟩ := bind_eq_ok.mp hok
  obtain rfl := pure_eq_ok.mp hok
  refine bind_eq_ok.mpr ⟨ks.map (·.stretch f), ?_, by simp [Numbered.ofList, Numbered.map]⟩
  refine mapM_eq_ok.mpr (List.forall₂_map_right_iff.mpr ((mapM_eq_ok.mp hks).imp fun j k hk ↦ ?_))
  have hfilter : (d.stretch f).positions.filter (·.juggler == j) =
      (d.positions.filter (·.juggler == j)).map (·.stretch f) := List.filter_map
  rw [hfilter]
  exact Track.build_stretch h hlow hhigh (fun p hp ↦ hpositions p (List.mem_of_mem_filter hp)) hk

end Declarations

/-- What holds of the seeds and of their images holds of all moments. -/
theorem Timeline.moment_induction {P : Event α → Prop} {g : SymmetryGroup α} {J N : ℕ}
    {loop : Window α} (hP : ∀ e, P e → ∀ k, P ((g.image k).apply e)) {fuel : ℕ}
    {seeds : List (Event α)} (hseeds : ∀ e ∈ seeds, P e) {l : Timeline α}
    (hok : settle g J N loop fuel seeds = .ok l) : ∀ m ∈ l.moments, P m.event := by
  induction fuel generalizing seeds with
  | zero => cases hok
  | succ fuel ih =>
    unfold settle at hok
    simp only [bind_eq_ok, lift_eq_ok] at hok
    obtain ⟨moments, hmoments, ms, hms, hok⟩ := hok
    have hall : ∀ m ∈ moments, P m.event := by
      intro m hm
      obtain ⟨e, he, heq⟩ := (Moment.isImageOf_expand hmoments).2 m hm
      rw [heq]
      exact hP e (hseeds e he) m.image
    split_ifs at hok
    · obtain rfl := pure_eq_ok.mp hok
      exact hall
    · refine ih (fun e he ↦ ?_) hok
      obtain ⟨m, hm, rfl⟩ := List.mem_map.mp he
      exact hall m (Moment.masters_mem hms hm)

theorem Event.Tosses.apply {e : Event α} (h : e.Tosses) (a : Transform α) : (a.apply e).Tosses :=
  List.forall_mem_map.mpr h

omit [Exact α] in
theorem HandLink.mem_of_buildAll {paths : Numbered (PathHistory α)} {moments : List (Moment α)}
    {J : ℕ} {all : Numbered (Hands (List (HandLink α)))} (hok : buildAll paths moments J = .ok all)
    {hs : Hands (List (HandLink α))} (hhs : hs ∈ all.toList) (hand : Hand) {k : HandLink α}
    (hk : k ∈ hs.get hand) : k.start ∈ moments ∧ k.stop ∈ moments := by
  obtain ⟨built, hbuilt, hok⟩ := bind_eq_ok.mp hok
  obtain rfl := pure_eq_ok.mp hok
  obtain ⟨j, -, hboth⟩ := exists_of_forall₂ (mapM_eq_ok.mp hbuilt)
    (show hs ∈ built by simpa [Numbered.ofList, Numbered.toList] using hhs)
  obtain ⟨stops, hstops, hlinks⟩ := build_ok (build_of_both hboth hand)
  rw [hlinks] at hk
  obtain ⟨hstart, hstop⟩ := List.of_mem_zip (hstops.step_of_link hk)
  exact ⟨List.mem_of_mem_filter hstart, List.mem_of_mem_filter (List.mem_of_mem_tail hstop)⟩

namespace Layout

theorem globalPlace_stretch (hf : 0 < f) (tracks : Numbered (Track α)) (e : Event α) :
    globalPlace (tracks.map (·.stretch f)) (e.stretch f) = globalPlace tracks e := by
  have hget := Numbered.get?_map (·.stretch f) tracks e.juggler
  unfold globalPlace
  rw [show (e.stretch f).juggler = e.juggler from rfl, hget]
  cases tracks.get? e.juggler with
  | none => rfl
  | some k =>
    simp only [Option.map_some]
    rw [show (e.stretch f).time = e.time * f from rfl, Track.placement_stretch hf]
    rfl

/-- A layout of the same motion at another pace. Flights and what follows them need not be the
same. -/
structure IsStretch (f : α) (l l' : Layout α) : Prop where
  group : l'.group = l.group.stretch f
  loop : l'.loop = l.loop.stretch f
  timeline : l'.timeline = l.timeline.stretch f
  tracks : l'.tracks = l.tracks.map (·.stretch f)
  paths : ∀ p, PathHistory.Paced f (l.paths.getD p .empty) (l'.paths.getD p .empty)

variable {d : Declarations α} {l : Layout α}

/-- Times of all images, and of all positions, that no tolerance confuses at either pace. -/
structure Times (d : Declarations α) (g : SymmetryGroup α) (f : α) (T S : Set α) : Prop where
  offsets : Pace f (SymmetryGroup.offsets g.period d.symmetries : Set α)
  images : Pace f T
  image : ∀ e ∈ d.events, ∀ k, g.imageTime e k ∈ T
  zero : 0 ∈ T
  later : ∀ t ∈ T, t + g.period ∈ T
  positions : Pace f S
  position : ∀ p ∈ d.positions, p.time ∈ S
  low : 0 ∈ S
  high : g.period ∈ S

namespace Times

variable {g : SymmetryGroup α} {T S : Set α} (ht : Times d g f T S)
include ht

theorem spaced : SymmetryGroup.Spaced g.period d.symmetries := fun x hx hne ↦ by
  have hfar := (ht.offsets.discerned x hx 0 (AddSubgroup.zero_mem _)).resolve_left hne
  rwa [sub_zero] at hfar

theorem moment {J N : ℕ} (hg : g.IsGroupOf d.symmetries J N) {loop : Window α}
    {timeline : Timeline α} (hok : Timeline.build d.events g J N loop = .ok timeline) :
    ∀ m ∈ timeline.moments, m.time ∈ T := by
  intro m hm
  have hall := Timeline.moment_induction (P := fun e ↦ ∀ k, g.imageTime e k ∈ T)
    (fun e he ↦ hg.imageTime_image_mem ht.spaced.separated he) ht.image hok m hm 0
  rwa [hg.imageTime_zero] at hall

end Times

/-- At another pace a layout is made as before. -/
theorem IsBuilt.exists_paced [Numeral α] (h : IsBuilt d l)
    (hperms : ∀ s ∈ d.symmetries, s.jugglers.Rearranges ∧ s.paths.Rearranges) {T S : Set α}
    (ht : Times d l.group f T S) (htoss : ∀ e ∈ d.events, e.Tosses) :
    ∃ l', IsBuilt (d.stretch f) l' ∧ IsStretch f l l' := by
  have hf := ht.images.pos
  have hg := h.isGroupOf hperms
  have hloop : l.loop = ⟨0, l.group.period⟩ := by
    rw [← h.low, ← h.high]
  have htimes := ht.moment hg h.timeline
  have htosses := Timeline.moment_induction (fun e (he : e.Tosses) k ↦ he.apply (l.group.image k))
    htoss h.timeline
  obtain ⟨links, hlinks, hsolve⟩ := h.hands
  have hgroup := SymmetryGroup.ofSymmetries_stretch hg ht.offsets h.group
  have htimeline : Timeline.build (d.stretch f).events (l.group.stretch f) d.jugglers d.paths
      (l.loop.stretch f) = .ok (l.timeline.stretch f) := by
    rw [hloop]
    exact Timeline.settle_stretch ht.images ht.zero ht.later hg ht.spaced.separated ht.image
      (hloop ▸ h.timeline)
  have htracks := Declarations.tracks_stretch ht.positions
    (show l.loop.low ∈ _ from h.low ▸ ht.low) (h.high ▸ ht.high) ht.position h.tracks
  obtain ⟨paths, hpaths, hpaced⟩ := PathHistory.exists_buildAll_stretch hf
    (globalPlace l.tracks) (globalPlace (l.tracks.map (·.stretch f)))
    htosses h.paths
  have hlinks' := HandLink.buildAll_stretch hpaced hlinks
  obtain ⟨⟨curves, hands⟩, hfrom, -⟩ := bind_eq_ok.mp hsolve
  have hcurves : HandCurve.Paced f ⟨globalPlace l.tracks, l.paths, l.loop⟩
      ⟨globalPlace (l.tracks.map (·.stretch f)), paths, l.loop.stretch f⟩ :=
    ⟨globalPlace_stretch hf l.tracks, hpaced, rfl⟩
  have hperiod : l.loop.high - l.loop.low = l.group.period := by rw [h.low, h.high, sub_zero]
  obtain ⟨⟨curves', hands'⟩, hfrom'⟩ := hcurves.exists_solveFrom ht.images
    (show l.loop.low ∈ T from h.low ▸ ht.zero)
    (fun t htime ↦ by
      rw [HandCurve.period, hperiod]
      exact ht.later t htime)
    (fun hs hmem hand k hk ↦ by
      obtain ⟨hstart, hstop⟩ := HandLink.mem_of_buildAll hlinks hmem hand hk
      exact ⟨htimes _ hstart, htimes _ hstop⟩) hfrom #[]
  rw [show (links.toList.map (·.map (·.map (·.stretch f)))) =
    (links.map (·.map (·.map (·.stretch f)))).toList from by simp [Numbered.toList, Numbered.map]]
    at hfrom'
  refine ⟨⟨l.group.stretch f, l.loop.stretch f, l.timeline.stretch f, l.tracks.map (·.stretch f),
    paths, .ofList hands', curves'⟩, ?_, rfl, rfl, rfl, rfl, hpaced⟩
  exact ⟨Declarations.validate_stretch h.valid, hgroup,
    show l.loop.low * f = 0 by rw [h.low, zero_mul], congrArg (· * f) h.high, htimeline, htracks,
    hpaths, _, hlinks', bind_eq_ok.mpr ⟨_, hfrom', rfl⟩⟩

end Layout

end Juggling
