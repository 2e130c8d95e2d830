import Juggling.Proofs.Lossless
import Juggling.Proofs.Settling
import Juggling.Proofs.Supply

namespace Juggling

variable {α : Type}

/-- Lists in different order have the same entries in other places. -/
theorem exists_index_of_perm {β : Type} {xs ys : List β} (h : xs.Perm ys) :
    ∃ σ : ℕ → ℕ, σ.Injective ∧ ∀ i, ys[i]? = xs[σ i]? := by
  induction h with
  | nil => exact ⟨id, Function.injective_id, fun _ ↦ rfl⟩
  | cons x _ ih =>
    obtain ⟨σ, hσ, hget⟩ := ih
    refine ⟨fun i ↦ i.casesOn 0 fun i ↦ σ i + 1, ?_, ?_⟩
    · rintro (_ | i) (_ | j) h
      · rfl
      · simp at h
      · simp at h
      · simpa using hσ (by simpa using h)
    · rintro (_ | i)
      · rfl
      · simpa using hget i
  | swap x y xs =>
    refine ⟨Equiv.swap 0 1, (Equiv.swap 0 1).injective, ?_⟩
    rintro (_ | _ | i)
    · rw [Equiv.swap_apply_left]
      rfl
    · rw [Equiv.swap_apply_right]
      rfl
    · rw [Equiv.swap_apply_of_ne_of_ne (by omega) (by omega)]
      rfl
  | trans _ _ ih ih' =>
    obtain ⟨σ, hσ, hget⟩ := ih
    obtain ⟨τ, hτ, hget'⟩ := ih'
    exact ⟨σ ∘ τ, hσ.comp hτ, fun i ↦ (hget' i).trans (hget (τ i))⟩

theorem Numbered.modify_comm {β : Type} {f g : β → β} {i j : ℕ}
    (h : i = j → ∀ x, f (g x) = g (f x)) (v : Numbered β) :
    (v.modify i f).modify j g = (v.modify j g).modify i f := by
  cases i with
  | zero => rfl
  | succ i =>
    cases j with
    | zero => rfl
    | succ j =>
      simp only [modify, Numbered.mk.injEq]
      refine Array.ext_getElem? fun k ↦ ?_
      simp only [Array.getElem?_modify]
      by_cases hi : i = k <;> by_cases hj : j = k
      · subst hi hj
        simp only [if_true, Option.map_map]
        exact congrFun (congrArg _ (funext fun x ↦ (h rfl x).symm)) _
      · simp [hi, hj]
      · simp [hi, hj]
      · simp [hi, hj]

namespace Coverage

instance : RightCommutative (record : Coverage → Event α → Coverage) where
  right_comm c e f := by
    have hpaths : RightCommutative fun (ps : Numbered PathUse) (t : Transition) ↦
        ps.modify t.path (recordPath t.kind) :=
      ⟨fun ps t t' ↦ Numbered.modify_comm (fun _ x ↦ by
        simp [recordPath, Bool.or_assoc, Bool.or_comm, Bool.or_left_comm]) ps⟩
    refine congrArg₂ Coverage.mk (Numbered.modify_comm (fun _ hs ↦ ?_) _) ?_
    · cases e.hand <;> cases f.hand <;>
        simp [Hands.set, Hands.get, recordHand, Bool.or_right_comm]
    · simp only [record]
      rw [← List.foldl_append, ← List.foldl_append]
      exact List.perm_append_comm.foldl_eq _

theorem scan_perm [Scalar α] {seeds seeds' : List (Event α)} (h : seeds.Perm seeds')
    (g : SymmetryGroup α) (J N : ℕ) : scan seeds g J N = scan seeds' g J N := by
  have hflat (es : List (Event α)) (c : Coverage) :
      es.foldl (fun c e ↦ g.orbit.foldl (fun c f ↦ c.record (f.apply e)) c) c =
        (es.flatMap fun e ↦ g.orbit.map (·.apply e)).foldl record c := by
    rw [List.foldl_flatMap]
    simp only [List.foldl_map]
  simp only [scan, hflat]
  rw [(h.flatMap_right _).foldl_eq]

end Coverage

variable [Exact α]

namespace Expansion

variable {x : Expansion α}

theorem Pass.error_eq {dir : ℤ} {note : Needs → Event α → Needs} {stops : Needs → (ℕ → ℤ) → Prop}
    {pass : ℕ → Needs → (ℕ → ℤ) → Except (UserError α) (List (Generated α))}
    (hpass : x.Pass dir note stops pass) {budget : ℕ} {n : Needs} {c : ℕ → ℤ} {err : UserError α}
    (herr : pass budget n c = .error err) : err = .expansionLimit limit := by
  induction budget generalizing n c with
  | zero =>
    by_cases hstop : stops n c
    · rw [hpass.stop 0 n c hstop] at herr
      cases herr
    · obtain ⟨i, e, -, -, hzero, -⟩ := hpass.go n c hstop
      rw [hzero] at herr
      exact (Except.error.inj herr).symm
  | succ budget ih =>
    by_cases hstop : stops n c
    · rw [hpass.stop _ n c hstop] at herr
      cases herr
    · obtain ⟨i, e, -, -, -, hstep⟩ := hpass.go n c hstop
      rw [hstep budget] at herr
      cases hrest : pass budget (note n ((x.group.image (c i)).apply e))
          (Function.update c i (c i + dir)) with
      | ok made =>
        rw [hrest] at herr
        cases herr
      | error err' =>
        rw [hrest] at herr
        obtain rfl : err' = err := Except.error.inj herr
        exact ih hrest

/-- Expansion fails only where it takes too many images. -/
theorem run_error {N : ℕ} {err : UserError α} (herr : x.run N = .error err) :
    err = .expansionLimit limit := by
  unfold run at herr
  rw [before_eq_lastInLoop, before_eq_lastInLoop] at herr
  cases hback : x.backward limit (.ofCoverage x.coverage)
      (Front.atCursor x.seeds fun i ↦ x.lastInLoop i + 0) with
  | error err' =>
    rw [hback] at herr
    obtain rfl : err' = err := Except.error.inj herr
    exact x.pass_backward.error_eq hback
  | ok back =>
    rw [hback] at herr
    cases hforth : x.forward (limit - back.length) (x.needsAfter N back)
        (Front.atCursor x.seeds fun i ↦ x.lastInLoop i + 1) with
    | error err' =>
      have herr' := herr
      simp only [bind, Except.bind, hforth] at herr'
      obtain rfl : err' = err := Except.error.inj herr'
      exact x.pass_forward.error_eq hforth
    | ok forth =>
      simp only [bind, Except.bind, hforth] at herr
      cases herr

end Expansion

namespace SymmetryGroup

/-- Whether times of different images, and times of images and the ends of loops, are further apart
than the tolerance. -/
structure Discrete (period : α) (symmetries : List (Symmetry α)) (es : List (Event α)) : Prop where
  apart : ∀ e ∈ es, ∀ f ∈ es, ∀ x ∈ offsets period symmetries,
    e.time + x = f.time ∨ timeTolerance < |e.time + x - f.time|
  clear : ∀ e ∈ es, ∀ x ∈ offsets period symmetries,
    e.time + x = 0 ∨ timeTolerance < |e.time + x|

namespace Discrete

variable {symmetries : List (Symmetry α)} {J N : ℕ} {g : SymmetryGroup α} {es : List (Event α)}
  (hd : Discrete g.period symmetries es)
include hd

theorem separated (hne : es ≠ []) : Separated g.period symmetries := by
  obtain ⟨e, he⟩ := List.exists_mem_of_ne_nil es hne
  intro x hx hzero
  have hfar := (hd.apart e he e he x hx).resolve_left (by simpa using hzero)
  rw [add_sub_cancel_left] at hfar
  exact hfar.le

variable (hg : g.IsGroupOf symmetries J N)
include hg

omit hd in
theorem shift_mem (e : Event α) (k : ℤ) :
    g.imageTime e k - e.time ∈ offsets g.period symmetries := by
  have := hg.imageTime_sub_mem e k 0
  rwa [hg.imageTime_zero] at this

theorem image {es' : List (Event α)}
    (himage : ∀ e ∈ es', ∃ f ∈ es, ∃ k, e = (g.image k).apply f) :
    Discrete g.period symmetries es' := by
  constructor
  · intro e he f hf x hx
    obtain ⟨e₀, he₀, k, rfl⟩ := himage e he
    obtain ⟨f₀, hf₀, k', rfl⟩ := himage f hf
    rw [time_image, time_image]
    refine (hd.apart e₀ he₀ f₀ hf₀ _ (AddSubgroup.sub_mem _ (AddSubgroup.add_mem _ hx
      (shift_mem hg e₀ k)) (shift_mem hg f₀ k'))).imp (fun heq ↦ by linarith) fun hfar ↦ ?_
    convert hfar using 2
    ring
  · intro e he x hx
    obtain ⟨e₀, he₀, k, rfl⟩ := himage e he
    rw [time_image]
    refine (hd.clear e₀ he₀ _ (AddSubgroup.add_mem _ hx (shift_mem hg e₀ k))).imp
      (fun heq ↦ by linarith) fun hfar ↦ ?_
    convert hfar using 2
    ring

theorem imageTime_eq {e e' : Event α} (he : e ∈ es)
    (he' : e' ∈ es) {k k' : ℤ} (hnear : |g.imageTime e k - g.imageTime e' k'| < timeTolerance) :
    g.imageTime e k = g.imageTime e' k' := by
  have hx := AddSubgroup.sub_mem _ (shift_mem hg e k) (shift_mem hg e' k')
  rcases hd.apart e he e' he' _ hx with heq | hfar
  · linarith
  · have : e.time + (g.imageTime e k - e.time - (g.imageTime e' k' - e'.time)) - e'.time =
        g.imageTime e k - g.imageTime e' k' := by ring
    rw [this] at hfar
    exact absurd hnear (not_lt.mpr hfar.le)

end Discrete

end SymmetryGroup

namespace Moment

variable {symmetries : List (Symmetry α)} {J N : ℕ} {g : SymmetryGroup α}
  {seeds seeds' : List (Event α)} {moments moments' : List (Moment α)}

section Free

variable (hg : g.IsGroupOf symmetries J N) (hs : SymmetryGroup.Separated g.period symmetries)
  (hseeds : ∀ e ∈ seeds, Placed J N e) (hfree : ∀ e ∈ seeds, ¬g.Shadows e.juggler)
include hg hs hseeds hfree

/-- No two images fall on one hand at one moment, inside the loop or not. -/
theorem Expanded.image_unique (x : Expanded seeds g J N ⟨0, g.period⟩ moments) {i i' : ℕ}
    {e e' : Event α} (he : seeds[i]? = some e) (he' : seeds[i']? = some e') {k k' : ℤ}
    (hhand : Generated.SameHand ⟨i, k, (g.image k).apply e⟩ ⟨i', k', (g.image k').apply e'⟩)
    (htime : g.imageTime e k = g.imageTime e' k') : i = i' ∧ k = k' := by
  have hp := hg.period_pos
  -- A whole number of periods later both are in the loop.
  obtain ⟨q, hlow, hhigh⟩ := exists_period hp (g.imageTime e k)
  have hmade {i : ℕ} {e : Event α} (he : seeds[i]? = some e) {k : ℤ}
      (hlow : 0 ≤ g.imageTime e k + q * g.period)
      (hhigh : g.imageTime e k + q * g.period < g.period) :
      ⟨i, k + q * g.size, (g.image (k + q * g.size)).apply e⟩ ∈ x.kept := by
    rw [← hg.imageTime_add_size] at hlow hhigh
    exact x.mem_kept hg hs hseeds hfree
      (mem_made_of_within hg x he (by linarith [timeTolerance_pos (α := α)]) hhigh)
  have hplaced {i : ℕ} {e : Event α} (he : seeds[i]? = some e) :=
    hseeds e (List.mem_of_getElem? he)
  have heq := x.eq_of_near (hmade he hlow hhigh) (hmade he' (htime ▸ hlow) (htime ▸ hhigh))
    ⟨by
      rw [hg.image_add_size (hplaced he), hg.image_add_size (hplaced he')]
      exact hhand.1, by
      rw [hg.image_add_size (hplaced he), hg.image_add_size (hplaced he')]
      exact hhand.2⟩ (by
      rw [SymmetryGroup.time_image, SymmetryGroup.time_image, hg.imageTime_add_size,
        hg.imageTime_add_size, htime, sub_self, abs_zero]
      exact timeTolerance_pos)
  simp only [Generated.mk.injEq, add_left_inj] at heq
  exact ⟨heq.1, heq.2.1⟩

/-- In another order the seeds expand as well, unless that takes too many images. -/
theorem exists_expand_of_perm (hd : SymmetryGroup.Discrete g.period symmetries seeds)
    (hperm : seeds.Perm seeds') (hok : expand seeds g J N ⟨0, g.period⟩ = .ok moments)
    (hlimit : expand seeds' g J N ⟨0, g.period⟩ ≠ .error (.expansionLimit Expansion.limit)) :
    ∃ moments', expand seeds' g J N ⟨0, g.period⟩ = .ok moments' := by
  obtain ⟨hne, ⟨x⟩⟩ := expand_ok hg hok
  have hne' : seeds' ≠ [] := fun h ↦ hne (h ▸ hperm).eq_nil
  have hempty : seeds'.isEmpty = false := by simpa using hne'
  have hscan := Coverage.scan_perm hperm g J N ▸ x.scan_eq
  simp only [expand, hempty, Bool.false_eq_true, if_false, hscan] at hlimit ⊢
  cases hrun : Expansion.run ⟨seeds', g, x.coverage, ⟨0, g.period⟩⟩ N with
  | error err =>
    rw [Expansion.run_error hrun] at hrun
    exact absurd (by simp [hrun, bind, Except.bind]) hlimit
  | ok made =>
    obtain ⟨m⟩ := Expansion.run_ok hg hne' hrun
    obtain ⟨σ, hσ, hget⟩ := exists_index_of_perm hperm
    cases hdrop : Generated.dropCoincident [] (made.mergeSort Generated.notAfter) with
    | ok kept => exact ⟨numbered kept, by simp [hrun, hdrop, bind, Except.bind, pure, Except.pure]⟩
    | error err =>
      obtain ⟨a, ha, b, hb, hhand, hnear, hdiffer, -⟩ := Generated.exists_collision hdrop
      obtain ⟨e, he, heq⟩ := m.generated ha
      obtain ⟨e', he', heq'⟩ := m.generated hb
      rw [heq, heq', SymmetryGroup.time_image, SymmetryGroup.time_image, abs_sub_comm] at hnear
      rw [heq, heq'] at hhand
      have hmem {i : ℕ} {e : Event α} (he : seeds'[i]? = some e) : e ∈ seeds :=
        hperm.mem_iff.mpr (List.mem_of_getElem? he)
      obtain ⟨hseed, himage⟩ := x.image_unique hg hs hseeds hfree
        ((hget a.seed).symm.trans he) ((hget b.seed).symm.trans he') hhand
        (hd.imageTime_eq hg (hmem he) (hmem he') hnear)
      obtain rfl : a = b := by
        rw [heq, heq', himage]
        rw [hσ hseed] at he ⊢
        rw [Option.some.inj (he.symm.trans he')]
      exact absurd (Generated.Replaces.refl a) hdiffer

end Free

end Moment

/-- The strict order of a timeline: by time, then by juggler, then the left hand first. -/
def Event.Before (e f : Event α) : Prop :=
  e.time < f.time ∨ e.time = f.time ∧
    (e.juggler < f.juggler ∨ e.juggler = f.juggler ∧ e.hand.index < f.hand.index)

theorem Event.Before.asymm {e f : Event α} (h : e.Before f) : ¬f.Before e := by
  rcases h with h | ⟨h, h'⟩ <;> rintro (h₁ | ⟨h₁, h₁'⟩)
  · exact lt_asymm h h₁
  · exact h.ne' h₁
  · exact h₁.ne' h
  · omega

namespace Moment

variable {symmetries : List (Symmetry α)} {J N : ℕ} {g : SymmetryGroup α}
  {seeds seeds' : List (Event α)} {moments moments' : List (Moment α)}

theorem Expanded.before {loop : Window α} (x : Expanded seeds g J N loop moments) :
    moments.Pairwise fun m n ↦ m.event.Before n.event := by
  have hkept : x.kept.Pairwise fun a b ↦ a.event.Before b.event := by
    refine (x.sorted.and x.apart).imp fun {a b} ⟨hle, hapart⟩ ↦ ?_
    obtain ⟨htime, horder⟩ := (Generated.notAfter_iff a b).mp hle
    rcases htime.lt_or_eq with hlt | heq
    · exact .inl hlt
    · refine .inr ⟨heq, ?_⟩
      rcases horder with hlt | hlt | ⟨hj, hhand⟩
      · exact absurd heq hlt.ne
      · exact .inl hlt
      · refine .inr ⟨hj, hhand.lt_of_ne fun h ↦ ?_⟩
        have hsame : Generated.SameHand a b := ⟨hj, by
          cases ha : a.event.hand <;> cases hb : b.event.hand <;> simp_all [Hand.index]⟩
        have := hapart hsame
        rw [heq, sub_self] at this
        exact absurd this (not_le.mpr timeTolerance_pos)
  rw [x.moments_eq]
  have hmap : (numbered x.kept).map (·.event) = x.kept.map (·.event) := by
    conv_rhs => rw [← List.zipIdx_map_fst 0 x.kept, List.map_map]
    simp only [numbered, List.mapIdx_eq_zipIdx_map, List.map_map]
    rfl
  exact List.pairwise_map.mp (hmap ▸ List.pairwise_map.mpr hkept)

/-- What the choice of a master looks at. -/
def key (m : Moment α) : ℤ × Event α := (m.image, m.event)

/-- All images of one event within the loop, in order. -/
structure Lists (g : SymmetryGroup α) (e : Event α) (ms : List (Moment α)) : Prop where
  ordered : ms.Pairwise fun m n ↦ m.event.Before n.event
  mem : ∀ k f, (k, f) ∈ ms.map key ↔ f = (g.image k).apply e ∧
    -timeTolerance ≤ f.time ∧ f.time < g.period - timeTolerance

theorem Lists.key_eq {e : Event α} {ms ms' : List (Moment α)} (h : Lists g e ms)
    (h' : Lists g e ms') : ms.map key = ms'.map key := by
  let R : ℤ × Event α → ℤ × Event α → Prop := fun p q ↦ p.2.Before q.2
  have : Std.Antisymm R := ⟨fun _ _ hab hba ↦ absurd hba hab.asymm⟩
  have : Std.Irrefl R := ⟨fun _ haa ↦ haa.asymm haa⟩
  exact List.Pairwise.eq_of_mem_iff (r := R) (List.pairwise_map.mpr h.ordered)
    (List.pairwise_map.mpr h'.ordered) fun ⟨k, f⟩ ↦ (h.mem k f).trans (h'.mem k f).symm

theorem earliest?_of_key {ms ms' : List (Moment α)} (h : ms.map key = ms'.map key) :
    (earliest? ms).map key = (earliest? ms').map key := by
  have hearlier {m n m' n' : Moment α} (hm : m.key = m'.key) (hn : n.key = n'.key) :
      (earlier m n).key = (earlier m' n').key := by
    obtain ⟨him, hem⟩ := Prod.mk.inj hm
    obtain ⟨hin, hen⟩ := Prod.mk.inj hn
    have hstays : (if Scalar.abs (m.time - n.time) < timeTolerance then m.image == 0 || n.image != 0
        else Scalar.precedes m.time n.time) =
        if Scalar.abs (m'.time - n'.time) < timeTolerance then m'.image == 0 || n'.image != 0
        else Scalar.precedes m'.time n'.time := by
      rw [time, time, time, time, him, hem, hin, hen]
    unfold earlier
    simp only [hstays]
    split_ifs <;> assumption
  have hfold (ms ms' : List (Moment α)) (h : ms.map key = ms'.map key) (m m' : Moment α)
      (hm : m.key = m'.key) : (ms.foldl earlier m).key = (ms'.foldl earlier m').key := by
    induction ms generalizing ms' m m' with
    | nil =>
      obtain rfl := List.map_eq_nil_iff.mp h.symm
      exact hm
    | cons n ns ih =>
      obtain ⟨n', ns', rfl, hn, hns⟩ := List.map_eq_cons_iff.mp h.symm
      exact ih _ hns.symm _ _ (hearlier hm hn.symm)
  cases ms with
  | nil =>
    obtain rfl := List.map_eq_nil_iff.mp h.symm
    rfl
  | cons m ms =>
    obtain ⟨m', ms', rfl, hm, hms⟩ := List.map_eq_cons_iff.mp h.symm
    exact congrArg some (hfold _ _ hms.symm _ _ hm.symm)

/-- The image of an event that is chosen as its master. -/
def Chosen (g : SymmetryGroup α) (e : Event α) (p : ℤ × Event α) : Prop :=
  ∃ ms m, Lists g e ms ∧ earliest? ms = some m ∧ m.key = p

theorem chosen_unique (g : SymmetryGroup α) : Relator.RightUnique (Chosen g) := by
  rintro e _ _ ⟨ms, m, hms, hm, rfl⟩ ⟨ms', m', hms', hm', rfl⟩
  have := earliest?_of_key (hms.key_eq hms')
  rwa [hm, hm', Option.map_some, Option.map_some, Option.some.injEq] at this

section Free

variable (hg : g.IsGroupOf symmetries J N) (hs : SymmetryGroup.Separated g.period symmetries)
  (hseeds : ∀ e ∈ seeds, Placed J N e) (hfree : ∀ e ∈ seeds, ¬g.Shadows e.juggler)
  (x : Expanded seeds g J N ⟨0, g.period⟩ moments)
include hg hs hseeds hfree x

theorem Expanded.lists {i : ℕ} {e : Event α} (he : seeds[i]? = some e) :
    Lists g e ((moments.filter (·.seed == i)).filter (isWithin ⟨0, g.period⟩)) := by
  refine ⟨(x.before.filter _).filter _, fun k f ↦ ?_⟩
  constructor
  · intro hmem
    obtain ⟨m, hm, hkey⟩ := List.mem_map.mp hmem
    obtain ⟨rfl, rfl⟩ := Prod.mk.inj hkey
    obtain ⟨hm, hwithin⟩ := List.mem_filter.mp hm
    simp only [isWithin, Bool.and_eq_true, decide_eq_true_eq, zero_sub] at hwithin
    exact ⟨congrArg Generated.event (of_mem_images x he hm).2, hwithin⟩
  · rintro ⟨rfl, hlow, hhigh⟩
    have hkept := x.mem_kept hg hs hseeds hfree (mem_made_of_within hg x he (k := k)
      (by rwa [SymmetryGroup.time_image] at hlow)
      (by
        rw [SymmetryGroup.time_image] at hhigh
        linarith [timeTolerance_pos (α := α)]))
    obtain ⟨m, hm, heq⟩ := exists_mem_within x hkept rfl hlow hhigh
    exact List.mem_map.mpr ⟨m, hm, by rw [key, heq]⟩

/-- Masters are chosen seed by seed. -/
theorem Expanded.forall₂_chosen {ms : List (Moment α)}
    (hok : masters ⟨0, g.period⟩ seeds.length moments = .ok ms) :
    List.Forall₂ (Chosen g) seeds (ms.map key) := by
  obtain ⟨hlength, hall⟩ := List.forall₂_iff_get.mp (mapM_eq_ok.mp hok)
  refine List.forall₂_map_right_iff.mpr (List.forall₂_iff_get.mpr
    ⟨by simpa using hlength, fun i hi hi' ↦ ?_⟩)
  have he := List.getElem?_eq_getElem hi
  have hm := hall i (by simpa using hi) hi'
  simp only [List.get_eq_getElem, List.getElem_range] at hm ⊢
  obtain ⟨m, hmaster, hm'⟩ := master_ok hg x hs he
  rw [hmaster] at hm
  obtain rfl := Except.ok.inj hm
  obtain ⟨n, hn, -⟩ := exists_mem_within x hm'.kept (congrArg Generated.seed hm'.generated)
    hm'.earliest.1 hm'.earliest.2.1
  refine ⟨_, _, x.lists hg hs hseeds hfree he, ?_, rfl⟩
  rw [master?] at hmaster
  cases hfirst : earliest? ((moments.filter (·.seed == i)).filter (isWithin ⟨0, g.period⟩)) with
  | some m' =>
    rw [hfirst] at hmaster
    exact hmaster
  | none =>
    cases hnil : (moments.filter (·.seed == i)).filter (isWithin ⟨0, g.period⟩) with
    | nil => simp [hnil] at hn
    | cons a ms =>
      rw [hnil] at hfirst
      cases hfirst

end Free

end Moment

namespace Timeline

variable {symmetries : List (Symmetry α)} {J N : ℕ} {g : SymmetryGroup α}

/-- In another order the same masters are found, unless that takes too many images. -/
theorem settle_perm (hg : g.IsGroupOf symmetries J N) {fuel : ℕ} {seeds seeds' : List (Event α)}
    (hperm : seeds.Perm seeds') (hseeds : ∀ e ∈ seeds, Placed J N e)
    (hfree : ∀ e ∈ seeds, ¬g.Shadows e.juggler)
    (hd : SymmetryGroup.Discrete g.period symmetries seeds) {t : Timeline α}
    (hok : settle g J N ⟨0, g.period⟩ fuel seeds = .ok t)
    (hlimit : settle g J N ⟨0, g.period⟩ fuel seeds' ≠
      .error (.user (.expansionLimit Expansion.limit))) :
    ∃ t', settle g J N ⟨0, g.period⟩ fuel seeds' = .ok t' ∧ t.seeds.Perm t'.seeds ∧
      SymmetryGroup.Discrete g.period symmetries t.seeds := by
  induction fuel generalizing seeds seeds' with
  | zero => cases hok
  | succ fuel ih =>
    unfold settle at hok hlimit ⊢
    simp only [bind_eq_ok, lift_eq_ok] at hok
    obtain ⟨moments, hmoments, ms, hms, hok⟩ := hok
    obtain ⟨hne, ⟨x⟩⟩ := Moment.expand_ok hg hmoments
    have hs := hd.separated hne
    have hmem {e : Event α} (he : e ∈ seeds') : e ∈ seeds := hperm.mem_iff.mpr he
    obtain ⟨moments', hmoments'⟩ := Moment.exists_expand_of_perm hg hs hseeds hfree hd hperm
      hmoments fun herr ↦ hlimit (by simp [herr, lift, bind, Except.bind])
    obtain ⟨-, ⟨x'⟩⟩ := Moment.expand_ok hg hmoments'
    obtain ⟨ms', hms'⟩ : ∃ ms', Moment.masters ⟨0, g.period⟩ seeds'.length moments' = .ok ms' := by
      refine exists_mapM_ok_iff.mpr fun i hi ↦ ?_
      obtain ⟨m, hm, -⟩ :=
        master_ok hg x' hs (List.getElem?_eq_getElem (List.mem_range.mp hi))
      exact ⟨m, by rw [hm]⟩
    have hkeys : (ms.map Moment.key).Perm (ms'.map Moment.key) :=
      List.rel_perm_imp (Moment.chosen_unique g) (x.forall₂_chosen hg hs hseeds hfree hms)
        (x'.forall₂_chosen hg hs (fun e he ↦ hseeds e (hmem he))
          (fun e he ↦ hfree e (hmem he)) hms') hperm
    have hall : ms'.all (·.image == 0) = ms.all (·.image == 0) := by
      have hmap (ms : List (Moment α)) :
          ms.all (·.image == 0) = (ms.map Moment.key).all (·.1 == 0) := by
        rw [List.all_map]
        rfl
      rw [hmap, hmap, hkeys.all_eq]
    have hevents : (ms.map (·.event)).Perm (ms'.map (·.event)) := by
      simpa [List.map_map, Function.comp_def, Moment.key] using hkeys.map Prod.snd
    simp only [hmoments', hms', lift, bind, Except.bind, hall] at hlimit ⊢
    split_ifs at hok hlimit ⊢ with hdone
    · obtain rfl := pure_eq_ok.mp hok
      exact ⟨_, rfl, hperm, hd⟩
    · have himage : ∀ e ∈ ms.map (·.event), ∃ f ∈ seeds, ∃ k, e = (g.image k).apply f := by
        intro e he
        obtain ⟨m, hm, rfl⟩ := List.mem_map.mp he
        have hm := Moment.masters_mem hms hm
        rw [x.moments_eq] at hm
        obtain ⟨f, hf, heq⟩ := x.run.generated (x.mem_made_of_kept (Moment.mem_numbered hm))
        exact ⟨f, List.mem_of_getElem? hf, _, congrArg Generated.event heq⟩
      refine ih hevents (fun e he ↦ ?_) (fun e he ↦ ?_) (hd.image hg himage) hok hlimit
      · obtain ⟨f, hf, k, rfl⟩ := himage e he
        exact hg.placed_image (hseeds f hf) k
      · obtain ⟨f, hf, k, rfl⟩ := himage e he
        rw [hg.shadows_image hs (hseeds f hf).juggler]
        exact hfree f hf

end Timeline

end Juggling
