import Juggling.Proofs.Orbit
import Juggling.Proofs.Timeline

namespace Juggling

variable {α : Type} [Exact α] {symmetries : List (Symmetry α)} {J N : ℕ} {g : SymmetryGroup α}

namespace SymmetryGroup.IsGroupOf

variable (hg : g.IsGroupOf symmetries J N)

include hg

/-- Image times of one event are offsets apart. -/
theorem imageTime_sub_mem (e : Event α) (k l : ℤ) :
    g.imageTime e k - g.imageTime e l ∈ offsets g.period symmetries := by
  have hk := hg.shift_mem_offsets _ (hg.representative_mem k)
  have hl := hg.rest_mem (hg.shift_mem_offsets _ (hg.representative_mem l))
    (k / (g.size : ℤ) - l / (g.size : ℤ))
  have := (offsets g.period symmetries).sub_mem hk hl
  rw [imageTime_eq, imageTime_eq]
  convert this using 1
  push_cast
  ring

theorem imageTime_eq_of_near (hs : Separated g.period symmetries) (e : Event α) {k l : ℤ}
    (hnear : |g.imageTime e k - g.imageTime e l| < timeTolerance) :
    g.imageTime e k = g.imageTime e l :=
  sub_eq_zero.mp (hs.eq_zero (hg.imageTime_sub_mem e k l) hnear)

theorem exists_imageTime_mem (e : Event α) (t : α) :
    ∃ k, t - g.period ≤ g.imageTime e k ∧ g.imageTime e k < t := by
  obtain ⟨hlt, hle⟩ := hg.lastImageBefore_spec e t
  refine ⟨_, ?_, hlt⟩
  have hsize : (1 : ℤ) ≤ g.size := by exact_mod_cast hg.size_pos
  have := hle.trans (hg.imageTime_mono e (show g.lastImageBefore e t + 1 ≤
    g.lastImageBefore e t + 1 * g.size by omega))
  rw [hg.imageTime_add_size] at this
  push_cast at this
  linarith

/-- Later images at the time of the event itself come from representatives without a shift. -/
theorem lt_size_of_imageTime_eq (e : Event α) {k : ℤ} (hk : g.imageTime e k = e.time) :
    0 ≤ k ∧ k < g.size ∧ (g.representative k).shift = 0 := by
  have hmem := hg.shift_mem _ (hg.representative_mem k)
  rw [imageTime_eq] at hk
  obtain ⟨hq, hshift⟩ := period_unique (m := k / (g.size : ℤ)) (n := 0) hmem.1 hmem.2 le_rfl
    hg.period_pos (by push_cast; linarith)
  have hpos : (0 : ℤ) < g.size := by exact_mod_cast hg.size_pos
  have h1 := Int.emod_add_mul_ediv k g.size
  have h2 := Int.emod_nonneg k hpos.ne'
  have h3 := Int.emod_lt_of_pos k hpos
  rw [hq, mul_zero, add_zero] at h1
  exact ⟨by omega, by omega, hshift⟩

/-- Images of an image are at times of images of the event itself. -/
theorem exists_imageTime_image (hs : Separated g.period symmetries) (e : Event α) (k l : ℤ) :
    ∃ m, g.imageTime ((g.image k).apply e) l = g.imageTime e m := by
  let rep (k : ℤ) : g.Rep := ⟨_, mem_motions.mpr ⟨_, hg.representative_mem k, rfl⟩⟩
  obtain ⟨r, y, hr⟩ := hg.exists_shift_add hs (rep k) (rep l)
  obtain ⟨r', hr', hm⟩ := mem_motions.mp r.2
  obtain ⟨m, himage⟩ := hg.exists_image hr' (y + k / (g.size : ℤ) + l / (g.size : ℤ))
  refine ⟨m, ?_⟩
  rw [imageTime_eq_add_shift e m, himage, hm, imageTime_eq, time_image, imageTime_eq]
  simp only [Motion.shift_mul, Motion.shift_zpow, Transform.shift_motion, shift_delay, rep] at hr ⊢
  push_cast
  linarith

theorem representative_zero : g.representative 0 = Transform.identity J N := by
  obtain ⟨rest, hrest⟩ := hg.first
  rw [SymmetryGroup.representative, Int.zero_emod, Int.toNat_zero, Array.getD_eq_getD_getElem?,
    ← Array.getElem?_toList, hrest]
  rfl

/-- The jugglers of an image are those of its representative: the delay finds all where they
were. -/
theorem jugglers_image (k j : ℤ) :
    (g.image k).motion.jugglers j = (g.representative k).motion.jugglers j := by
  rw [hg.motion_image, Motion.jugglers_mul, hg.jugglers_delay_zpow]

/-- Only the first representative is the identity. -/
theorem motion_representative_ne_one {k : ℤ} (hk : 0 < k) (hk' : k < g.size) :
    (g.representative k).motion ≠ 1 := by
  intro h
  obtain ⟨i, hi, hik, heq⟩ := hg.exists_representative k
  rw [Int.emod_eq_of_lt hk.le hk'] at hik
  have h0 : 0 < g.representatives.size := by omega
  have hzero : (g.representatives[0]).motion = 1 := by
    have := SymmetryGroup.representative_natCast h0
    rw [← this, Nat.cast_zero, hg.representative_zero, Transform.motion_identity]
  have hnodup := List.pairwise_iff_getElem.mp hg.nodup 0 i (by simpa using h0) (by simpa using hi)
    (by omega)
  simp only [List.getElem_map, Array.getElem_toList] at hnodup
  exact hnodup (by rw [hzero, ← heq, h])

theorem shadows_iff {j : ℤ} : g.Shadows j ↔ ∃ k : ℤ, 0 < k ∧ k < g.size ∧
    (g.representative k).shift = 0 ∧ (g.representative k).motion.jugglers j = j := by
  constructor
  · rintro ⟨r, hne, hshift, hfix⟩
    obtain ⟨r', hr', hm⟩ := SymmetryGroup.mem_motions.mp r.2
    obtain ⟨i, hi, rfl⟩ := Array.getElem_of_mem hr'
    have hrep := SymmetryGroup.representative_natCast hi
    refine ⟨i, ?_, by exact_mod_cast hi, ?_, by rw [hrep, hm]; exact hfix⟩
    swap
    · rw [hrep]
      exact (congrArg Motion.shift hm).trans hshift
    rcases Nat.eq_zero_or_pos i with rfl | hpos
    · refine absurd ?_ hne
      rw [← hm, ← hrep, Nat.cast_zero, hg.representative_zero, Transform.motion_identity]
    · exact_mod_cast hpos
  · rintro ⟨k, hk, hk', hshift, hfix⟩
    exact ⟨⟨_, SymmetryGroup.mem_motions.mpr ⟨_, hg.representative_mem k, rfl⟩⟩,
      hg.motion_representative_ne_one hk hk', hshift, hfix⟩

end SymmetryGroup.IsGroupOf

/-- Two transforms take an event to the same hand when they agree on its juggler. -/
theorem Transform.sameHand_iff {f h : Transform α} (hf : f.Fits J N) (hh : h.Fits J N) {e : Event α}
    (hj : 1 ≤ e.juggler ∧ e.juggler ≤ J) (i i' : ℕ) (k k' : ℤ) :
    Generated.SameHand ⟨i, k, f.apply e⟩ ⟨i', k', h.apply e⟩ ↔
      f.motion.jugglers e.juggler = h.motion.jugglers e.juggler := by
  rw [hf.motion_jugglers hj.2, hh.motion_jugglers hj.2]
  simp only [Generated.SameHand, Transform.apply_eq_moved, Event.moved]
  have hne {f : Transform α} (hf : f.Fits J N) : f.jugglers.apply e.juggler ≠ 0 := by
    have := hf.rearranges_jugglers.isElement_apply (i := e.juggler)
      (by simpa [Permutation.IsElement, hf.size_jugglers] using hj)
    intro h0
    rw [h0] at this
    exact absurd this.1 (by decide)
  have hother : e.hand.other ≠ e.hand := by cases e.hand <;> decide
  have hf0 := hne hf
  have hh0 := hne hh
  constructor
  · rintro ⟨habs, hhand⟩
    split_ifs at hhand with h1 h2 h2
    · omega
    · exact absurd hhand hother
    · exact absurd hhand.symm hother
    · omega
  · intro heq
    rw [heq]
    exact ⟨rfl, rfl⟩

theorem not_sublist_of_nodup {β : Type} {xs : List β} (hxs : xs.Nodup) {a b : β}
    (hab : [a, b].Sublist xs) : ¬[b, a].Sublist xs := by
  classical
  have hord : xs.Pairwise fun a b ↦ xs.idxOf a < xs.idxOf b := by
    refine List.pairwise_iff_getElem.mpr fun i j hi hj hij ↦ ?_
    rwa [hxs.idxOf_getElem i hi, hxs.idxOf_getElem j hj]
  intro hba
  exact lt_asymm (hord.forall_sublist hab) (hord.forall_sublist hba)

/-- A time in the loop before which no image of an event is in the loop. -/
def IsEarliest (g : SymmetryGroup α) (e : Event α) (t : α) : Prop :=
  -timeTolerance ≤ t ∧ t < g.period - timeTolerance ∧
    ∀ k, -timeTolerance ≤ g.imageTime e k → t ≤ g.imageTime e k

/-- No image of an event is earlier in the loop when the last image before it is not. -/
theorem isEarliest_of_before (hg : g.IsGroupOf symmetries J N) {e : Event α} (ht : 0 ≤ e.time)
    (ht' : e.time < g.period - timeTolerance) (hbefore : g.imageTime e (-1) < -timeTolerance) :
    IsEarliest g e e.time := by
  have htol := timeTolerance_pos (α := α)
  refine ⟨by linarith, ht', fun k hk ↦ ?_⟩
  have hpos : 0 ≤ k := by
    by_contra hneg
    have := hg.imageTime_mono e (show k ≤ -1 by omega)
    linarith
  have := hg.imageTime_mono e hpos
  rwa [hg.imageTime_zero] at this

section Round

variable {seeds : List (Event α)} {moments : List (Moment α)}

theorem time_eq_imageTime {i : ℕ} {e : Event α} {o : Generated α}
    (ho : o = ⟨i, o.image, (g.image o.image).apply e⟩) :
    o.event.time = g.imageTime e o.image := by
  rw [← SymmetryGroup.time_image]
  exact congrArg (fun o ↦ o.event.time) ho

/-- A moment of one seed is at least as good a master as another: earlier, or at the same time and
the seed itself if the other is. -/
def Moment.Precedes (m n : Moment α) : Prop :=
  m.time < n.time ∨ m.time = n.time ∧ (n.image = 0 → m.image = 0)

variable (hg : g.IsGroupOf symmetries J N)

section Earliest

variable (hs : SymmetryGroup.Separated g.period symmetries)

include hg hs

theorem earliest?_eq_some {i : ℕ} {e : Event α} {ms : List (Moment α)} {m : Moment α}
    (hms : ∀ m ∈ ms, m.toGenerated = ⟨i, m.image, (g.image m.image).apply e⟩)
    (h : Moment.earliest? ms = some m) : m ∈ ms ∧ ∀ n ∈ ms, m.Precedes n := by
  cases ms with
  | nil => cases h
  | cons a ms =>
    obtain rfl := Option.some.inj h
    refine foldl_pick (fun a b ↦ b.Precedes a) (fun m ↦ .inr ⟨rfl, id⟩) ?_ Moment.earlier ?_ a ms
      hms
    · rintro a b c (hab | ⟨hab, hab'⟩) (hbc | ⟨hbc, hbc'⟩)
      · exact .inl (hbc.trans hab)
      · exact .inl (hbc ▸ hab)
      · exact .inl (hab ▸ hbc)
      · exact .inr ⟨hbc.trans hab, hbc' ∘ hab'⟩
    · intro a b ha hb
      unfold Moment.earlier
      simp only [Scalar.abs_eq]
      -- Near times of images of one event are the same, so the tolerance only decides ties.
      by_cases hnear : |a.time - b.time| < timeTolerance
      · have heq : a.time = b.time := by
          rw [Moment.time, Moment.time, time_eq_imageTime ha, time_eq_imageTime hb] at hnear ⊢
          exact hg.imageTime_eq_of_near hs e hnear
        rw [if_pos hnear]
        by_cases hstay : (a.image == 0 || b.image != 0) = true
        · rw [if_pos hstay]
          refine .inl ⟨rfl, .inr ⟨heq, fun hb0 ↦ ?_⟩⟩
          simpa [hb0] using hstay
        · rw [if_neg hstay]
          refine .inr ⟨rfl, .inr ⟨heq.symm, fun _ ↦ ?_⟩⟩
          simp only [Bool.or_eq_true, bne_iff_ne, not_or, not_not] at hstay
          exact hstay.2
      · have hne : a.time ≠ b.time := by
          intro heq
          rw [heq, sub_self, abs_zero] at hnear
          exact hnear timeTolerance_pos
        rw [if_neg hnear]
        by_cases hle : Scalar.precedes a.time b.time = true
        · rw [if_pos hle]
          exact .inl ⟨rfl, .inl (lt_of_le_of_ne ((Scalar.precedes_iff _ _).mp hle) hne)⟩
        · rw [if_neg hle]
          exact .inr ⟨rfl, .inl (not_le.mp fun h ↦ hle ((Scalar.precedes_iff _ _).mpr h))⟩

end Earliest

section Images

variable (x : Moment.Expanded seeds g J N ⟨0, g.period⟩ moments)

include x

theorem of_mem_images {i : ℕ} {e : Event α} (he : seeds[i]? = some e) {m : Moment α}
    (hm : m ∈ moments.filter (·.seed == i)) :
    m.toGenerated ∈ x.kept ∧ m.toGenerated = ⟨i, m.image, (g.image m.image).apply e⟩ := by
  obtain ⟨hm, hseed⟩ := List.mem_filter.mp hm
  rw [x.moments_eq] at hm
  have hkept := Moment.mem_numbered hm
  exact ⟨hkept, x.eq_image_of_seed he hkept (by simpa using hseed)⟩

theorem exists_mem_within {i : ℕ} {o : Generated α} (ho : o ∈ x.kept) (hseed : o.seed = i)
    (ht : -timeTolerance ≤ o.event.time) (ht' : o.event.time < g.period - timeTolerance) :
    ∃ m ∈ (moments.filter (·.seed == i)).filter (Moment.isWithin ⟨0, g.period⟩),
      m.toGenerated = o := by
  obtain ⟨m, hm, rfl⟩ := Moment.exists_mem_numbered ho
  refine ⟨m, List.mem_filter.mpr ⟨List.mem_filter.mpr ⟨x.moments_eq ▸ hm, by simpa using hseed⟩,
    ?_⟩, rfl⟩
  simp only [Moment.isWithin, Bool.and_eq_true, decide_eq_true_eq, zero_sub]
  exact ⟨ht, ht'⟩

end Images

variable (x : Moment.Expanded seeds g J N ⟨0, g.period⟩ moments)

include hg x

theorem low_lt {i : ℕ} {e : Event α} (he : seeds[i]? = some e) {k : ℤ}
    (ht : -timeTolerance ≤ g.imageTime e k) : x.run.low i < k := by
  by_contra hle
  have hmono := hg.imageTime_mono e (not_lt.mp hle)
  have hlow : g.imageTime e (x.run.low i) < 0 - timeTolerance := x.run.low_spec i e he
  linarith

theorem le_last {i : ℕ} {e : Event α} (he : seeds[i]? = some e) {k : ℤ}
    (ht : g.imageTime e k < g.period) : k ≤ x.run.last i := by
  by_contra hlt
  have hmono := hg.imageTime_mono e (show x.run.last i + 1 ≤ k by omega)
  have hlast : g.period ≤ g.imageTime e (x.run.last i + 1) := (x.run.last_spec i e he).2
  linarith

/-- All images in the loop are made. -/
theorem mem_made_of_within {i : ℕ} {e : Event α} (he : seeds[i]? = some e) {k : ℤ}
    (ht : -timeTolerance ≤ g.imageTime e k) (ht' : g.imageTime e k < g.period) :
    ⟨i, k, (g.image k).apply e⟩ ∈ x.made :=
  (x.run.mem_iff he k).mpr
    ⟨low_lt hg x he ht, (le_last hg x he ht').trans_lt (x.run.last_lt_high i)⟩

/-- An image that is later in the count but at the same time on the same hand takes the place of
the event. -/
theorem self_not_mem_kept {i : ℕ} {e : Event α} (he : seeds[i]? = some e)
    (ht : -timeTolerance ≤ e.time) (ht' : e.time < g.period) {k : ℤ} (hk : 0 < k)
    (htime : g.imageTime e k = e.time)
    (hhand : Generated.SameHand ⟨i, k, (g.image k).apply e⟩ ⟨i, 0, (g.image 0).apply e⟩) :
    ⟨i, 0, (g.image 0).apply e⟩ ∉ x.kept := by
  intro hkept
  have hzero : g.imageTime e 0 = e.time := hg.imageTime_zero e
  have hsorted := List.pairwise_mergeSort Generated.notAfter_trans Generated.notAfter_total x.made
  have hnear (t : α) (ht : t ≤ e.time) (ht' : e.time - t < timeTolerance) :
      |((g.image 0).apply e).time - t| < timeTolerance := by
    rwa [SymmetryGroup.time_image, hzero, abs_of_nonneg (by linarith)]
  -- The other image is made first, and so it is the one that is kept.
  have hbefore : [(⟨i, k, (g.image k).apply e⟩ : Generated α), ⟨i, 0, (g.image 0).apply e⟩].Sublist
      (x.made.mergeSort Generated.notAfter) := by
    refine List.pair_sublist_mergeSort Generated.notAfter_trans Generated.notAfter_total ?_
      (x.run.later_first he (low_lt hg x he (hzero ▸ ht)) hk (le_last hg x he (htime ▸ ht')))
    rw [Generated.notAfter_iff, SymmetryGroup.time_image, SymmetryGroup.time_image, htime, hzero]
    exact ⟨le_rfl, .inr (.inr ⟨hhand.1, by rw [hhand.2]⟩)⟩
  have hmade : ⟨i, k, (g.image k).apply e⟩ ∈ x.made :=
    List.mem_mergeSort.mp (hbefore.subset List.mem_cons_self)
  -- It is kept, or another in its place, and neither can be kept beside the event.
  rcases x.stands _ hmade with hmem | ⟨o, ho, hstands⟩
  · have heq := x.eq_of_near hmem hkept hhand
      (hnear _ (by rw [SymmetryGroup.time_image, htime]) (by
        rw [SymmetryGroup.time_image, htime, sub_self]
        exact timeTolerance_pos))
    exact hk.ne' (congrArg Generated.image heq)
  · have hle := ((Generated.notAfter_iff _ _).mp (hsorted.forall_sublist hstands.before)).1
    have hlt := hstands.near
    rw [SymmetryGroup.time_image, htime] at hle hlt
    have heq := x.eq_of_near ho hkept
      ⟨hstands.hand.1.trans hhand.1, hstands.hand.2.trans hhand.2⟩ (hnear _ hle hlt)
    rw [heq] at hstands
    exact not_sublist_of_nodup x.nodup_sorted hbefore hstands.before

variable (hs : SymmetryGroup.Separated g.period symmetries)

include hs

/-- An event in the loop is kept among its images unless another lies in its place. -/
theorem self_mem_kept_iff {i : ℕ} {e : Event α} (he : seeds[i]? = some e)
    (hj : 1 ≤ e.juggler ∧ e.juggler ≤ J) (ht : -timeTolerance ≤ e.time) (ht' : e.time < g.period) :
    ⟨i, 0, (g.image 0).apply e⟩ ∈ x.kept ↔ ¬g.Shadows e.juggler := by
  have hzero : g.imageTime e 0 = e.time := hg.imageTime_zero e
  constructor
  · intro hkept hshadow
    obtain ⟨k, hk, hk', hshift, hfix⟩ := hg.shadows_iff.mp hshadow
    refine self_not_mem_kept hg x he ht ht' hk ?_ ?_ hkept
    · rw [SymmetryGroup.imageTime_eq, hshift, Int.ediv_eq_zero_of_lt hk.le hk']
      simp
    · rw [Transform.sameHand_iff (hg.image_fits k) (hg.image_fits 0) hj, hg.jugglers_image,
        hg.jugglers_image, hfix, hg.representative_zero, Transform.motion_identity]
      rfl
  · intro hfree
    rcases x.stands _ (mem_made_of_within hg x he (hzero ▸ ht) (hzero ▸ ht')) with
      hmem | ⟨o, ho, hstands⟩
    · exact hmem
    · -- What stands for the event is another image at the same time on the same hand.
      have hseed : o.seed = i := hstands.seed
      have heq := x.eq_image_of_seed he ho hseed
      have hhand := hstands.hand
      have hlt := hstands.near
      have hle := ((Generated.notAfter_iff _ _).mp ((List.pairwise_mergeSort
        Generated.notAfter_trans Generated.notAfter_total x.made).forall_sublist hstands.before)).1
      rw [heq] at hhand hlt hle
      rw [Transform.sameHand_iff (hg.image_fits _) (hg.image_fits 0) hj, hg.jugglers_image,
        hg.jugglers_image, hg.representative_zero, Transform.motion_identity] at hhand
      rw [SymmetryGroup.time_image, SymmetryGroup.time_image] at hlt hle
      have htime := hg.imageTime_eq_of_near hs e
        (by rwa [abs_of_nonneg (sub_nonneg.mpr hle)] :
          |g.imageTime e 0 - g.imageTime e o.image| < _)
      rw [hzero] at htime
      obtain ⟨h0, hsize, hshift⟩ := hg.lt_size_of_imageTime_eq e htime.symm
      refine absurd (hg.shadows_iff.mpr ⟨o.image, ?_, hsize, hshift, hhand⟩) hfree
      rcases h0.lt_or_eq with h | h
      · exact h
      · refine absurd hstands.before fun hsub ↦ ?_
        rw [heq, ← h] at hsub
        exact not_sublist_of_nodup x.nodup_sorted hsub hsub

/-- At the time of every image in the loop an image of the same event is kept. -/
theorem exists_kept_at {i : ℕ} {e : Event α} (he : seeds[i]? = some e) {k : ℤ}
    (ht : -timeTolerance ≤ g.imageTime e k) (ht' : g.imageTime e k < g.period - timeTolerance) :
    ∃ o ∈ x.kept, o.seed = i ∧ o.event.time = g.imageTime e k := by
  have htol := timeTolerance_pos (α := α)
  obtain ⟨o, ho, -, hseed, hle, hnear, -⟩ := x.exists_kept
    (mem_made_of_within hg x he ht (by linarith))
  refine ⟨o, ho, hseed, ?_⟩
  have htime := time_eq_imageTime (x.eq_image_of_seed he ho hseed)
  rw [SymmetryGroup.time_image] at hle hnear
  rw [htime] at hle hnear ⊢
  exact (hg.imageTime_eq_of_near hs e (by rwa [abs_of_nonneg (sub_nonneg.mpr hle)])).symm

/-- The master of one seed. -/
structure IsMaster (g : SymmetryGroup α) (x : Moment.Expanded seeds g J N ⟨0, g.period⟩ moments)
    (i : ℕ) (e : Event α) (m : Moment α) : Prop where
  kept : m.toGenerated ∈ x.kept
  generated : m.toGenerated = ⟨i, m.image, (g.image m.image).apply e⟩
  earliest : IsEarliest g e m.time
  /-- The seed itself is chosen wherever it can be. -/
  self : ⟨i, 0, (g.image 0).apply e⟩ ∈ x.kept → e.time = m.time → m.image = 0

/-- The best of the images in the loop is a master. -/
theorem isMaster_of_best {i : ℕ} {e : Event α} (he : seeds[i]? = some e) {m : Moment α}
    (hm : m ∈ (moments.filter (·.seed == i)).filter (Moment.isWithin ⟨0, g.period⟩))
    (hbest : ∀ n ∈ (moments.filter (·.seed == i)).filter (Moment.isWithin ⟨0, g.period⟩),
      m.Precedes n) : IsMaster g x i e m := by
  obtain ⟨hmem, hwin⟩ := List.mem_filter.mp hm
  obtain ⟨hkept, hgen⟩ := of_mem_images x he hmem
  simp only [Moment.isWithin, Bool.and_eq_true, decide_eq_true_eq, zero_sub] at hwin
  refine ⟨hkept, hgen, ⟨hwin.1, hwin.2, fun l hl ↦ ?_⟩, fun hself htime ↦ ?_⟩
  · by_cases hlt : g.imageTime e l < g.period - timeTolerance
    · obtain ⟨o, ho, hseed, htime⟩ := exists_kept_at hg x hs he hl hlt
      obtain ⟨n, hn, rfl⟩ := exists_mem_within x ho hseed (htime ▸ hl) (htime ▸ hlt)
      rw [← htime]
      rcases hbest n hn with h | h
      · exact h.le
      · exact h.1.le
    · exact hwin.2.le.trans (not_lt.mp hlt)
  · have htime' : ((g.image 0).apply e).time = m.time := by
      rw [SymmetryGroup.time_image, hg.imageTime_zero, htime]
    obtain ⟨n, hn, hn0⟩ := exists_mem_within x hself rfl (htime' ▸ hwin.1) (htime' ▸ hwin.2)
    have hntime : n.time = m.time := by
      rw [← htime', Moment.time, hn0]
    rcases hbest n hn with h | h
    · exact absurd (hntime ▸ h) (lt_irrefl _)
    · exact h.2 (by rw [hn0])

theorem master_ok {i : ℕ} {e : Event α} (he : seeds[i]? = some e) :
    ∃ m, Moment.master? ⟨0, g.period⟩ (moments.filter (·.seed == i)) = some m ∧
      IsMaster g x i e m := by
  obtain ⟨k, hk, hk'⟩ := hg.exists_imageTime_mem e (g.period - timeTolerance)
  obtain ⟨o, ho, hseed, htime⟩ := exists_kept_at hg x hs he (by linarith) hk'
  obtain ⟨m₀, hm₀, -⟩ := exists_mem_within x ho hseed (by rw [htime]; linarith) (htime ▸ hk')
  cases hm : Moment.earliest?
      ((moments.filter (·.seed == i)).filter (Moment.isWithin ⟨0, g.period⟩)) with
  | none =>
    cases hnil : (moments.filter (·.seed == i)).filter (Moment.isWithin ⟨0, g.period⟩) with
    | nil => simp [hnil] at hm₀
    | cons a ms =>
      rw [hnil] at hm
      cases hm
  | some m =>
    obtain ⟨hmem, hbest⟩ := earliest?_eq_some hg hs
      (fun m hm ↦ (of_mem_images x he (List.mem_filter.mp hm).1).2) hm
    exact ⟨m, by rw [Moment.master?, hm]; rfl, isMaster_of_best hg x hs he hmem hbest⟩

end Round

end Juggling
