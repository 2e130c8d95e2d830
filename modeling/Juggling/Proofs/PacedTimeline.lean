import Juggling.Proofs.PacedExpansion

namespace Juggling

variable {α : Type} [Exact α] {f : α}

namespace Moment

def stretch (f : α) (m : Moment α) : Moment α :=
  { m with toGenerated := m.toGenerated.stretch f }

theorem numbered_stretch (made : List (Generated α)) :
    numbered (made.map (·.stretch f)) = (numbered made).map (·.stretch f) := by
  simp only [numbered, List.mapIdx_eq_zipIdx_map, List.zipIdx_map, List.map_map]
  rfl

section Masters

variable {T : Set α} (h : Pace f T) {loop : Window α} (hlow : loop.low ∈ T) (hhigh : loop.high ∈ T)
include h

include hlow hhigh in
theorem isWithin_stretch {m : Moment α} (hm : m.time ∈ T) :
    isWithin (loop.stretch f) (m.stretch f) = isWithin loop m := by
  have hstart : (loop.stretch f).low - timeTolerance ≤ (m.stretch f).time ↔
      loop.low - timeTolerance ≤ m.time := h.sub_le hlow hm
  have hend : (m.stretch f).time < (loop.stretch f).high - timeTolerance ↔
      m.time < loop.high - timeTolerance := h.lt_sub hm hhigh
  simp only [isWithin, hstart, hend]

theorem earlier_stretch {m n : Moment α} (hm : m.time ∈ T) (hn : n.time ∈ T) :
    earlier (m.stretch f) (n.stretch f) = (earlier m n).stretch f := by
  have hnear : Scalar.abs ((m.stretch f).time - (n.stretch f).time) < timeTolerance ↔
      Scalar.abs (m.time - n.time) < timeTolerance := by
    rw [Scalar.abs_eq, Scalar.abs_eq]
    exact h.abs_lt hm hn timeTolerance_pos SymmetryGroup.timeTolerance_lt.le
  have hprecedes : Scalar.precedes (m.stretch f).time (n.stretch f).time =
      Scalar.precedes m.time n.time := by
    rw [Bool.eq_iff_iff, Scalar.precedes_iff, Scalar.precedes_iff]
    exact h.mul_le
  have hm' : (m.stretch f).image = m.image := rfl
  have hn' : (n.stretch f).image = n.image := rfl
  simp only [earlier, hnear, hprecedes, hm', hn']
  split_ifs <;> rfl

theorem earliest?_stretch {ms : List (Moment α)} (hms : ∀ m ∈ ms, m.time ∈ T) :
    earliest? (ms.map (·.stretch f)) = (earliest? ms).map (·.stretch f) := by
  cases ms with
  | nil => rfl
  | cons m ms =>
    have hfold (a : Moment α) (ha : a.time ∈ T) (ns : List (Moment α))
        (hns : ∀ n ∈ ns, n.time ∈ T) :
        (ns.map (·.stretch f)).foldl earlier (a.stretch f) = (ns.foldl earlier a).stretch f := by
      induction ns generalizing a with
      | nil => rfl
      | cons n ns ih =>
        have hn := hns n List.mem_cons_self
        rw [List.map_cons, List.foldl_cons, List.foldl_cons, earlier_stretch h ha hn]
        refine ih _ ?_ fun b hb ↦ hns b (List.mem_cons_of_mem _ hb)
        unfold earlier
        simp only
        split_ifs <;> assumption
    simp only [List.map_cons, earliest?, Option.map_some]
    rw [hfold m (hms m List.mem_cons_self) ms fun n hn ↦ hms n (List.mem_cons_of_mem _ hn)]

include hlow hhigh

theorem master?_stretch {ms : List (Moment α)} (hms : ∀ m ∈ ms, m.time ∈ T) :
    master? (loop.stretch f) (ms.map (·.stretch f)) = (master? loop ms).map (·.stretch f) := by
  have hfilter : (ms.map (·.stretch f)).filter (isWithin (loop.stretch f)) =
      (ms.filter (isWithin loop)).map (·.stretch f) := by
    rw [List.filter_map]
    congr 1
    exact List.filter_congr fun m hm ↦ isWithin_stretch h hlow hhigh (hms m hm)
  rw [master?, hfilter, earliest?_stretch h fun m hm ↦ hms m (List.mem_of_mem_filter hm),
    earliest?_stretch h hms, master?]
  cases earliest? (ms.filter (isWithin loop)) <;> rfl

theorem masters_stretch {moments ms : List (Moment α)} (hmoments : ∀ m ∈ moments, m.time ∈ T)
    {n : ℕ} (hok : masters loop n moments = .ok ms) :
    masters (loop.stretch f) n (moments.map (·.stretch f)) = .ok (ms.map (·.stretch f)) := by
  have hfilter (seed : ℕ) : (moments.map (·.stretch f)).filter (·.seed == seed) =
      (moments.filter (·.seed == seed)).map (·.stretch f) := List.filter_map
  refine mapM_eq_ok.mpr
    (List.forall₂_map_right_iff.mpr ((mapM_eq_ok.mp hok).imp fun seed m hm ↦ ?_))
  simp only [hfilter] at hm ⊢
  rw [master?_stretch h hlow hhigh fun m hm ↦ hmoments m (List.mem_of_mem_filter hm)]
  cases hmaster : master? loop (moments.filter (·.seed == seed)) with
  | none =>
    rw [hmaster] at hm
    cases hm
  | some m' =>
    rw [hmaster] at hm
    obtain rfl := Except.ok.inj hm
    rfl

end Masters

end Moment

def Timeline.stretch (f : α) (l : Timeline α) : Timeline α :=
  ⟨l.seeds.map (·.stretch f), l.moments.map (·.stretch f), l.masters⟩

theorem SymmetryGroup.IsGroupOf.imageTime_image_mem {symmetries : List (Symmetry α)} {J N : ℕ}
    {g : SymmetryGroup α} (hg : g.IsGroupOf symmetries J N) (hs : Separated g.period symmetries)
    {T : Set α} {e : Event α} (he : ∀ k, g.imageTime e k ∈ T) (j k : ℤ) :
    g.imageTime ((g.image j).apply e) k ∈ T := by
  obtain ⟨m, hm⟩ := hg.exists_imageTime_image hs e j k
  rw [hm]
  exact he m

section Timeline

variable {J N : ℕ} {g : SymmetryGroup α} {T : Set α} (h : Pace f T) (hzero : 0 ∈ T)
  (hlater : ∀ t ∈ T, t + g.period ∈ T)
include h hzero hlater

/-- At another pace images are expanded, merged and dropped alike. -/
theorem Moment.expand_stretch {seeds : List (Event α)}
    (hseeds : ∀ e ∈ seeds, ∀ k, g.imageTime e k ∈ T) {moments : List (Moment α)}
    (hok : expand seeds g J N ⟨0, g.period⟩ = .ok moments) :
    expand (seeds.map (·.stretch f)) (g.stretch f) J N (Window.stretch f ⟨0, g.period⟩) =
      .ok (moments.map (·.stretch f)) := by
  obtain ⟨hnonempty, -⟩ := isImageOf_expand hok
  have hempty : seeds.isEmpty = false := by simpa using hnonempty
  unfold expand at hok ⊢
  rw [hempty] at hok
  rw [List.isEmpty_map, hempty]
  simp only [Bool.false_eq_true, if_false, bind_eq_ok, pure_eq_ok] at hok ⊢
  obtain ⟨coverage, hscan, made, hrun, kept, hdrop, rfl⟩ := hok
  have hfree : Expansion.freeUntil ⟨seeds, g, coverage, ⟨0, g.period⟩⟩ ∈ T := by
    simpa [Expansion.freeUntil, two_mul] using hlater _ (hlater _ hzero)
  have hrun' := Expansion.run_stretch ⟨seeds, g, coverage, ⟨0, g.period⟩⟩ h hseeds hzero hfree hrun
  have hmade : ∀ o ∈ made, o.event.time ∈ T := by
    intro o ho
    obtain ⟨e, he, hevent⟩ := Expansion.isImageOf_run hrun o ho
    rw [hevent, SymmetryGroup.time_image]
    exact hseeds e he o.image
  have hsorted : (made.map (·.stretch f)).mergeSort Generated.notAfter =
      (made.mergeSort Generated.notAfter).map (·.stretch f) :=
    (List.map_mergeSort fun a _ b _ ↦ (Generated.notAfter_stretch h.pos a b).symm).symm
  have hdrop' := Generated.dropCoincident_stretch h (by simp)
    (fun o ho ↦ hmade o (List.mem_mergeSort.mp ho)) hdrop
  rw [List.map_nil, ← hsorted] at hdrop'
  exact ⟨coverage, (Coverage.scan_stretch seeds g J N).trans hscan, _, hrun', _, hdrop',
    numbered_stretch kept⟩

/-- At another pace the same masters are chosen after the same number of attempts. -/
theorem Timeline.settle_stretch {symmetries : List (Symmetry α)}
    (hg : g.IsGroupOf symmetries J N) (hs : SymmetryGroup.Separated g.period symmetries) {fuel : ℕ}
    {seeds : List (Event α)} (hseeds : ∀ e ∈ seeds, ∀ k, g.imageTime e k ∈ T) {l : Timeline α}
    (hok : settle g J N ⟨0, g.period⟩ fuel seeds = .ok l) :
    settle (g.stretch f) J N (Window.stretch f ⟨0, g.period⟩) fuel (seeds.map (·.stretch f)) =
      .ok (l.stretch f) := by
  have hhigh : g.period ∈ T := by simpa using hlater _ hzero
  induction fuel generalizing seeds with
  | zero => cases hok
  | succ fuel ih =>
    unfold settle at hok ⊢
    simp only [bind_eq_ok, lift_eq_ok] at hok ⊢
    obtain ⟨moments, hmoments, ms, hms, hok⟩ := hok
    have himages : ∀ m ∈ moments, ∀ k, g.imageTime m.event k ∈ T := by
      intro m hm
      obtain ⟨e, he, hevent⟩ := (Moment.isImageOf_expand hmoments).2 m hm
      rw [hevent]
      exact hg.imageTime_image_mem hs (hseeds e he) m.image
    have htimes : ∀ m ∈ moments, m.time ∈ T := by
      intro m hm
      rw [Moment.time, ← hg.imageTime_zero m.event]
      exact himages m hm 0
    refine ⟨_, Moment.expand_stretch h hzero hlater hseeds hmoments, ms.map (·.stretch f), ?_, ?_⟩
    · rw [List.length_map]
      exact Moment.masters_stretch h hzero hhigh htimes hms
    · have hall : (ms.map (·.stretch f)).all (·.image == 0) = ms.all (·.image == 0) :=
        List.all_map
      rw [hall]
      split_ifs at hok ⊢ with hsettled
      · obtain rfl := pure_eq_ok.mp hok
        rw [pure_eq_ok]
        simp [stretch, Moment.stretch]
      · have hnext := ih (List.forall_mem_map.mpr fun m hm ↦
          himages m (Moment.masters_mem hms hm)) hok
        rw [List.map_map] at hnext ⊢
        exact hnext

end Timeline

end Juggling
