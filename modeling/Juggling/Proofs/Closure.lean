import Juggling.Proofs.Motion
import Juggling.Proofs.Outcome

namespace Juggling.SymmetryGroup

variable {α : Type}

@[simp] theorem shift_delay (g : SymmetryGroup α) : g.delay.shift = g.period := rfl

theorem delayOf_eq_ok {symmetries : List (Symmetry α)} {s : Symmetry α} :
    delayOf symmetries = .ok s ↔ symmetries.filter (·.kind == .delay) = [s] := by
  unfold delayOf
  split
  · rename_i heq
    rw [heq, Except.ok.injEq, List.cons.injEq, and_iff_left rfl]
  · rename_i hne
    simpa using hne s

section Fits

variable [Scalar α] {delay f : Transform α} {J N : ℕ}

theorem fits_normalize (hd : delay.Fits J N) (hf : f.Fits J N) : (normalize delay f).Fits J N := by
  have hg := hf.andThen (hd.power (-wholePeriods delay.shift f.shift))
  unfold normalize
  simp only
  split_ifs
  · exact ⟨hg.rearranges_jugglers, hg.size_jugglers, hg.rearranges_paths, hg.size_paths⟩
  · exact hg

end Fits

variable [Exact α]

section Close

variable {delay : Transform α} {generators : List (Transform α)}

theorem adjoin_ok {f h : Transform α} {known known' : Array (Transform α)}
    (hok : adjoin delay f known h = .ok known') :
    known' = known ∧ known.any (same · (normalize delay (f.andThen h))) = true ∨
      known' = known.push (normalize delay (f.andThen h)) ∧ known.size < sizeLimit ∧
        known.any (same · (normalize delay (f.andThen h))) = false := by
  unfold adjoin at hok
  simp only at hok
  split_ifs at hok with hany hsize
  · exact .inl ⟨(Except.ok.inj hok).symm, hany⟩
  · exact .inr ⟨(Except.ok.inj hok).symm, Nat.lt_of_not_le hsize, by simpa using hany⟩

/-- What is known while the closure is taken: no two are the same, and there are not too many. -/
structure Known (P : Transform α → Prop) (known : Array (Transform α)) : Prop where
  holds : ∀ f ∈ known, P f
  apart : known.toList.Pairwise fun f g ↦ same f g = false
  size : known.size ≤ sizeLimit

theorem Known.push {P : Transform α → Prop} {known : Array (Transform α)} (hk : Known P known)
    {f : Transform α} (hf : P f) (hsize : known.size < sizeLimit)
    (hnew : known.any (same · f) = false) : Known P (known.push f) where
  holds g hg := by
    rcases Array.mem_push.mp hg with hg | rfl
    · exact hk.holds g hg
    · exact hf
  apart := by
    rw [Array.toList_push, List.pairwise_append]
    refine ⟨hk.apart, List.pairwise_singleton _ _, fun g hg f' hf' ↦ ?_⟩
    rw [List.mem_singleton.mp hf']
    by_contra hsame
    rw [Bool.not_eq_false] at hsame
    rw [← Bool.not_eq_true, Array.any_eq_true'] at hnew
    exact hnew ⟨g, Array.mem_toList_iff.mp hg, hsame⟩
  size := by
    rw [Array.size_push]
    exact hsize

theorem same_self (f : Transform α) : same f f = true := by
  simp [same, Permutation.agrees, timeTolerance_pos]

theorem foldlM_adjoin_ok {P : Transform α → Prop} {f : Transform α} (hs : List (Transform α))
    (hstep : ∀ h ∈ hs, P (normalize delay (f.andThen h))) {known known' : Array (Transform α)}
    (hk : Known P known) (hok : hs.foldlM (adjoin delay f) known = .ok known') :
    Known P known' ∧ known.toList <+: known'.toList ∧
      ∀ h ∈ hs, ∃ r ∈ known', same r (normalize delay (f.andThen h)) = true := by
  induction hs generalizing known with
  | nil =>
    obtain rfl : known = known' := Except.ok.inj hok
    exact ⟨hk, List.prefix_refl _, by simp⟩
  | cons h hs ih =>
    rw [List.foldlM_cons] at hok
    cases hadj : adjoin delay f known h with
    | error e =>
      rw [hadj] at hok
      cases hok
    | ok mid =>
      rw [hadj] at hok
      -- The product of this generator is in `mid`, and stays from there on.
      have hmid : Known P mid ∧ known.toList <+: mid.toList ∧
          ∃ r ∈ mid, same r (normalize delay (f.andThen h)) = true := by
        rcases adjoin_ok hadj with ⟨rfl, hany⟩ | ⟨rfl, hsize, hnew⟩
        · refine ⟨hk, List.prefix_refl _, ?_⟩
          rwa [Array.any_eq_true'] at hany
        · refine ⟨hk.push (hstep h List.mem_cons_self) hsize hnew, ?_, _, Array.mem_push_self,
            same_self _⟩
          rw [Array.toList_push]
          exact List.prefix_append _ _
      obtain ⟨hk', hpre, r, hr, hsame⟩ := hmid
      obtain ⟨hout, hpre', hall⟩ := ih (fun k hk ↦ hstep k (List.mem_cons_of_mem _ hk)) hk' hok
      refine ⟨hout, hpre.trans hpre', fun k hk ↦ ?_⟩
      rcases List.mem_cons.mp hk with rfl | hk
      · exact ⟨r, Array.mem_toList_iff.mp (hpre'.subset (Array.mem_toList_iff.mpr hr)), hsame⟩
      · exact hall k hk

theorem close_none {next : ℕ} {known : Array (Transform α)} (hnone : known[next]? = none)
    (fuel : ℕ) : close delay generators fuel next known = .ok known := by
  unfold close
  rw [hnone]
  cases fuel <;> rfl

theorem close_some {next : ℕ} {known : Array (Transform α)} {f : Transform α}
    (hsome : known[next]? = some f) (fuel : ℕ) :
    close delay generators (fuel + 1) next known =
      (generators.foldlM (adjoin delay f) known).bind
        (close delay generators fuel (next + 1)) := by
  conv_lhs => unfold close
  rw [hsome]
  rfl

/-- The closure keeps what was known, has every property that products inherit, holds nothing
twice, and holds all products with the generators. -/
theorem close_ok {P : Transform α → Prop}
    (hstep : ∀ f h, P f → h ∈ generators → P (normalize delay (f.andThen h))) {fuel next : ℕ}
    {known out : Array (Transform α)} (hk : Known P known) (hfuel : sizeLimit < fuel + next)
    (hdone : ∀ i f, i < next → known[i]? = some f → ∀ h ∈ generators,
      ∃ r ∈ known, same r (normalize delay (f.andThen h)) = true)
    (hok : close delay generators fuel next known = .ok out) :
    Known P out ∧ known.toList <+: out.toList ∧ ∀ f ∈ out, ∀ h ∈ generators,
      ∃ r ∈ out, same r (normalize delay (f.andThen h)) = true := by
  induction fuel generalizing next known with
  | zero =>
    obtain rfl : known = out := by simpa [close] using hok
    refine ⟨hk, List.prefix_refl _, fun f hf ↦ ?_⟩
    obtain ⟨i, hi, rfl⟩ := Array.getElem_of_mem hf
    exact hdone i _ (by have := hk.size; omega) (Array.getElem?_eq_getElem hi)
  | succ fuel ih =>
    cases hf : known[next]? with
    | none =>
      rw [close_none hf] at hok
      obtain rfl : known = out := Except.ok.inj hok
      refine ⟨hk, List.prefix_refl _, fun f hf' ↦ ?_⟩
      obtain ⟨i, hi, rfl⟩ := Array.getElem_of_mem hf'
      exact hdone i _ (hi.trans_le (Array.getElem?_eq_none_iff.mp hf))
        (Array.getElem?_eq_getElem hi)
    | some f =>
      rw [close_some hf] at hok
      cases hfold : generators.foldlM (adjoin delay f) known with
      | error e =>
        rw [hfold] at hok
        cases hok
      | ok mid =>
        rw [hfold] at hok
        have hfP : P f := hk.holds f (Array.mem_of_getElem? hf)
        obtain ⟨hmid, hpre, hall⟩ := foldlM_adjoin_ok generators (fun h ↦ hstep f h hfP) hk hfold
        -- What was known before `next` had its turn earlier, and `f` had it just now.
        have hturn : ∀ i g, i < next + 1 → mid[i]? = some g → ∀ h ∈ generators,
            ∃ r ∈ mid, same r (normalize delay (g.andThen h)) = true := by
          intro i g hi hg h hh
          have hlt : next < known.size := (Array.getElem?_eq_some_iff.mp hf).1
          have hsame : known[i]? = some g := by
            have hi' : i < known.toList.length := hi.trans_le hlt
            rw [← hg, ← Array.getElem?_toList, ← Array.getElem?_toList,
              List.getElem?_eq_getElem hi', List.getElem?_eq_getElem (hi'.trans_le hpre.length_le),
              hpre.getElem hi']
          rcases Nat.lt_succ_iff_lt_or_eq.mp hi with hi | rfl
          · obtain ⟨r, hr, hs⟩ := hdone i g hi hsame h hh
            exact ⟨r, Array.mem_toList_iff.mp (hpre.subset (Array.mem_toList_iff.mpr hr)), hs⟩
          · obtain rfl : f = g := Option.some.inj (hf.symm.trans hsame)
            exact hall h hh
        obtain ⟨hout, hpre', hclosed⟩ := ih hmid (by omega) hturn hok
        exact ⟨hout, hpre.trans hpre', hclosed⟩

end Close

def declared (period : α) (s : Symmetry α) : Transform α :=
  ofShift s <| match s.kind with
    | .delay => s.delay.getD 0
    | .switch => 0
    | .switchDelay => s.delay.getD (period / 2)

def generators (period : α) (symmetries : List (Symmetry α)) : List (Transform α) :=
  symmetries.filterMap (generator? period)

theorem mem_generators {period : α} {symmetries : List (Symmetry α)} {h : Transform α} :
    h ∈ generators period symmetries ↔
      ∃ s ∈ symmetries, s.kind ≠ .delay ∧ declared period s = h := by
  rw [generators, List.mem_filterMap]
  refine exists_congr fun s ↦ and_congr_right fun _ ↦ ?_
  unfold generator? declared
  cases s.kind <;> simp

section Normalize

variable {delay f : Transform α} {J N : ℕ}

theorem shift_normalize (delay f : Transform α) :
    (normalize delay f).shift =
      if |f.shift - wholePeriods delay.shift f.shift * delay.shift| < timeTolerance then 0
      else f.shift - wholePeriods delay.shift f.shift * delay.shift := by
  have hshift : (f.andThen (delay.power (-wholePeriods delay.shift f.shift))).shift =
      f.shift - wholePeriods delay.shift f.shift * delay.shift := by
    rw [Transform.shift_andThen, Transform.shift_power]
    push_cast
    ring
  unfold normalize
  simp only [hshift, Scalar.abs_eq]
  split_ifs
  · simp
  · exact hshift

/-- The shift left over is within the period, or falls short of it by less than the tolerance. -/
theorem wholePeriods_spec {period : α} (hp : 0 < period) (shift : α) :
    shift - wholePeriods period shift * period < period ∧
      (0 ≤ shift - wholePeriods period shift * period ∨
        |shift - wholePeriods period shift * period| < timeTolerance) := by
  have hlow := Int.sub_floor_div_mul_nonneg shift hp
  have hhigh := Int.sub_floor_div_mul_lt shift hp
  unfold wholePeriods
  simp only [Scalar.floorInt_eq, Scalar.ofInt_eq, Scalar.abs_eq]
  split_ifs with h
  · push_cast
    constructor
    · linarith
    · right
      rw [abs_sub_comm]
      simpa using h
  · exact ⟨hhigh, .inl hlow⟩

theorem shift_normalize_mem (hp : 0 < delay.shift) (f : Transform α) :
    0 ≤ (normalize delay f).shift ∧ (normalize delay f).shift < delay.shift := by
  obtain ⟨hlt, hle⟩ := wholePeriods_spec hp f.shift
  rw [shift_normalize]
  split_ifs with h
  · exact ⟨le_rfl, hp⟩
  · exact ⟨hle.resolve_right h, hlt⟩

theorem same_of_motion_eq {g : Transform α} (hf : f.Fits J N) (hg : g.Fits J N)
    (h : f.motion = g.motion) : same f g = true := by
  have hshift : f.shift = g.shift := congrArg Motion.shift h
  have hj : f.jugglers.agrees g.jugglers = true := by
    rw [Permutation.agrees, List.all_eq_true]
    intro j hj
    have hj' := (Permutation.mem_elements.mp hj).2
    rw [hf.size_jugglers] at hj'
    rw [beq_iff_eq, ← hf.motion_jugglers hj', ← hg.motion_jugglers hj', h]
  have hp : f.paths.agrees g.paths = true := by
    rw [Permutation.agrees, List.all_eq_true]
    intro p hp
    have hp' := (Permutation.mem_elements.mp hp).2
    rw [hf.size_paths] at hp'
    rw [beq_iff_eq, ← hf.motion_paths hp', ← hg.motion_paths hp', h]
  simp [same, hj, hp, hshift, timeTolerance_pos]

end Normalize

/-- What puts the images of an event in order of time. -/
structure InOrder (J N : ℕ) (g : SymmetryGroup α) : Prop where
  period_pos : 0 < g.period
  first : ∃ rest, g.representatives.toList = Transform.identity J N :: rest
  ordered : g.representatives.toList.Pairwise fun f h ↦ f.shift ≤ h.shift
  shift_mem : ∀ r ∈ g.representatives, 0 ≤ r.shift ∧ r.shift < g.period

/-- What makes a group the one that symmetries of so many jugglers and paths generate. -/
structure IsGroupOf (symmetries : List (Symmetry α)) (J N : ℕ) (g : SymmetryGroup α) : Prop
    extends InOrder J N g where
  delay_mem : ∃ s ∈ symmetries, s.kind = .delay
  delay_eq : ∀ s ∈ symmetries, s.kind = .delay → declared g.period s = g.delay
  delay_fits : g.delay.Fits J N
  declared_fits : ∀ s ∈ symmetries, (declared g.period s).Fits J N
  delay_jugglers : g.delay.motion.jugglers = 1
  nodup : (g.representatives.toList.map Transform.motion).Nodup
  fits : ∀ r ∈ g.representatives, r.Fits J N
  /-- Every property that products inherit holds of all representatives. -/
  holds : ∀ P : Transform α → Prop, P (Transform.identity J N) →
    (∀ f, ∀ h ∈ generators g.period symmetries, P f → P (normalize g.delay (f.andThen h))) →
    ∀ r ∈ g.representatives, P r
  closed : ∀ r ∈ g.representatives, ∀ h ∈ generators g.period symmetries,
    ∃ r' ∈ g.representatives, same r' (normalize g.delay (r.andThen h)) = true

theorem ofSymmetries_inv {symmetries : List (Symmetry α)} {J N : ℕ} {g : SymmetryGroup α}
    (hok : ofSymmetries symmetries J N = .ok g) : ∃ d known,
      symmetries.filter (·.kind == .delay) = [d] ∧ 0 < d.delay.getD 0 ∧
      d.jugglers.isIdentity = true ∧
      close (ofShift d (d.delay.getD 0)) (generators (d.delay.getD 0) symmetries) (sizeLimit + 1) 0
        #[Transform.identity J N] = .ok known ∧
      g = ⟨ofShift d (d.delay.getD 0),
        (known.toList.mergeSort fun f h ↦ Scalar.precedes f.shift h.shift).toArray⟩ := by
  unfold ofSymmetries at hok
  obtain ⟨d, hd, hok⟩ := bind_eq_ok.mp hok
  refine ⟨d, ?_⟩
  simp only [Scalar.ofNat_eq, Nat.cast_zero] at hok
  split_ifs at hok with hp hid hid
  · simp at hok
  · simp at hok
  · simp at hok
  · obtain ⟨known, hclose, hg⟩ := bind_eq_ok.mp hok
    refine ⟨known, delayOf_eq_ok.mp hd, by simpa using hp, by simpa using hid, hclose, ?_⟩
    exact (pure_eq_ok.mp hg).symm

theorem precedes_trans (f g h : Transform α) (hfg : Scalar.precedes f.shift g.shift = true)
    (hgh : Scalar.precedes g.shift h.shift = true) : Scalar.precedes f.shift h.shift = true := by
  simp only [Scalar.precedes_iff] at *
  exact hfg.trans hgh

theorem precedes_total (f g : Transform α) :
    (Scalar.precedes f.shift g.shift || Scalar.precedes g.shift f.shift) = true := by
  simp only [Bool.or_eq_true, Scalar.precedes_iff]
  exact le_total _ _

/-- Sorting leaves the identity in front of what has no negative shift. -/
theorem mergeSort_identity {rest : List (Transform α)} (hrest : ∀ f ∈ rest, 0 ≤ f.shift)
    (J N : ℕ) : ∃ sorted, ((Transform.identity J N :: rest).mergeSort fun f h ↦
      Scalar.precedes f.shift h.shift) = Transform.identity J N :: sorted := by
  obtain ⟨before, after, hsort, hsort', hbefore⟩ := List.mergeSort_cons precedes_trans
    precedes_total (Transform.identity J N : Transform α) rest
  have hnil : before = [] := by
    rw [List.eq_nil_iff_forall_not_mem]
    intro f hf
    have hmem : f ∈ rest := by
      have : f ∈ rest.mergeSort fun f h ↦ Scalar.precedes f.shift h.shift := by
        simp [hsort', hf]
      exact List.mem_mergeSort.mp this
    have hlater := hbefore f hf
    rw [(Scalar.precedes_iff _ _).mpr (by simpa [Transform.identity] using hrest f hmem)] at hlater
    cases hlater
  exact ⟨after, by rw [hsort, hnil, List.nil_append]⟩

theorem nodup_motions {J N : ℕ} {fs : List (Transform α)} (hfits : ∀ f ∈ fs, f.Fits J N)
    (hapart : fs.Pairwise fun f h ↦ same f h = false) : (fs.map Transform.motion).Nodup := by
  refine List.pairwise_map.mpr (hapart.imp_of_mem fun {f h} hf hh hfh heq ↦ ?_)
  rw [same_of_motion_eq (hfits f hf) (hfits h hh) heq] at hfh
  cases hfh

/-- Whatever the symmetries rename, the images of their group are in order. -/
theorem ofSymmetries_inOrder {symmetries : List (Symmetry α)} {J N : ℕ} {g : SymmetryGroup α}
    (hok : ofSymmetries symmetries J N = .ok g) : g.InOrder J N := by
  obtain ⟨d, known, -, hp, -, hclose, rfl⟩ := ofSymmetries_inv hok
  obtain ⟨hknown, ⟨rest, hrest⟩, -⟩ := close_ok
    (P := fun f ↦ 0 ≤ f.shift ∧ f.shift < d.delay.getD 0)
    (fun f h _ _ ↦ @shift_normalize_mem _ _ (ofShift d (d.delay.getD 0)) hp (f.andThen h))
    ⟨by simpa [Transform.identity] using hp, by simp, by simp [sizeLimit]⟩ (by omega) (by omega)
    hclose
  exact {
    period_pos := hp
    first := by
      rw [List.toList_toArray, ← hrest]
      refine mergeSort_identity (fun f hf ↦ (hknown.holds f ?_).1) J N
      rw [← Array.mem_toList_iff, ← hrest]
      exact List.mem_append_right _ hf
    ordered := by
      rw [List.toList_toArray]
      refine (List.pairwise_mergeSort precedes_trans precedes_total _).imp fun h ↦ ?_
      exact (Scalar.precedes_iff _ _).mp h
    shift_mem := by
      intro r hr
      rw [List.mem_toArray, List.mem_mergeSort, Array.mem_toList_iff] at hr
      exact hknown.holds r hr }

theorem ofSymmetries_ok {symmetries : List (Symmetry α)} {J N : ℕ} {g : SymmetryGroup α}
    (hfits : ∀ s ∈ symmetries, (ofShift s (0 : α)).Fits J N)
    (hok : ofSymmetries symmetries J N = .ok g) : g.IsGroupOf symmetries J N := by
  obtain ⟨d, known, hd, -, hid, hclose, rfl⟩ := ofSymmetries_inv hok
  have hdmem : d ∈ symmetries ∧ d.kind = .delay := by
    have : d ∈ symmetries.filter (·.kind == .delay) := by simp [hd]
    simpa using this
  have hfits' (shift : α) : ∀ s ∈ symmetries, (ofShift s shift).Fits J N := fun s hs ↦
    let h := hfits s hs
    ⟨h.rearranges_jugglers, h.size_jugglers, h.rearranges_paths, h.size_paths⟩
  have hdfits : (ofShift d (d.delay.getD 0)).Fits J N := hfits' _ d hdmem.1
  have hgfits : ∀ h ∈ generators (d.delay.getD 0) symmetries, h.Fits J N := by
    intro h hh
    obtain ⟨s, hs, -, rfl⟩ := mem_generators.mp hh
    exact hfits' _ s hs
  -- All that is asked of the representatives holds of what the closure knows.
  have hclosure (P : Transform α → Prop) (h1 : P (Transform.identity J N))
      (hstep : ∀ f, ∀ h ∈ generators (d.delay.getD 0) symmetries, P f →
        P (normalize (ofShift d (d.delay.getD 0)) (f.andThen h))) :=
    close_ok (P := P) (fun f h hf hh ↦ hstep f h hh hf)
      ⟨by simpa using h1, by simp, by simp [sizeLimit]⟩ (by omega) (by omega) hclose
  have hmem (r : Transform α) : r ∈ (known.toList.mergeSort fun f h ↦
      Scalar.precedes f.shift h.shift).toArray ↔ r ∈ known := by
    rw [List.mem_toArray, List.mem_mergeSort, Array.mem_toList_iff]
  have hknown (P : Transform α → Prop) (h1 : P (Transform.identity J N))
      (hstep : ∀ f, ∀ h ∈ generators (d.delay.getD 0) symmetries, P f →
        P (normalize (ofShift d (d.delay.getD 0)) (f.andThen h))) : ∀ r ∈ known, P r :=
    (hclosure P h1 hstep).1.holds
  have hrfits : ∀ r ∈ known, r.Fits J N :=
    hknown _ (.identity J N) fun f h hh hf ↦ fits_normalize hdfits (hf.andThen (hgfits h hh))
  obtain ⟨hall, -, hclosed⟩ := hclosure (fun _ ↦ True) trivial fun _ _ _ _ ↦ trivial
  exact {
    toInOrder := ofSymmetries_inOrder hok
    delay_mem := ⟨d, hdmem⟩
    delay_eq := by
      intro s hs hk
      have : s ∈ symmetries.filter (·.kind == .delay) := by simp [hs, hk]
      obtain rfl : s = d := by simpa [hd] using this
      simp [declared, hk]
    delay_fits := hdfits
    declared_fits := fun s hs ↦ hfits' _ s hs
    delay_jugglers := hdfits.motion_jugglers_eq_one hid
    nodup := by
      rw [List.toList_toArray]
      exact ((List.mergeSort_perm _ _).map _).nodup_iff.mpr
        (nodup_motions (fun f hf ↦ hrfits f (Array.mem_toList_iff.mp hf)) hall.apart)
    fits := fun r hr ↦ hrfits r ((hmem r).mp hr)
    holds := fun P h1 hstep r hr ↦ hknown P h1 hstep r ((hmem r).mp hr)
    closed := by
      intro r hr h hh
      obtain ⟨r', hr', hs⟩ := hclosed r ((hmem r).mp hr) h hh
      exact ⟨r', (hmem r').mpr hr', hs⟩ }

deriving instance DecidableEq for Transform

/-- Where the closure ends in order of the shifts, there is nothing left to sort. -/
theorem ofSymmetries_of_ordered (symmetries : List (Symmetry α)) (J N : ℕ) (d : Symmetry α)
    (known : Array (Transform α)) (hd : symmetries.filter (·.kind == .delay) = [d])
    (hp : 0 < d.delay.getD 0) (hid : d.jugglers.isIdentity = true)
    (hclose : (close (ofShift d (d.delay.getD 0)) (generators (d.delay.getD 0) symmetries)
      (sizeLimit + 1) 0 #[Transform.identity J N]).toOption = some known)
    (hordered : known.toList.Pairwise fun f h ↦ f.shift ≤ h.shift) :
    ofSymmetries symmetries J N = .ok ⟨ofShift d (d.delay.getD 0), known⟩ := by
  have hdelay : delayOf symmetries = .ok d := by
    unfold delayOf
    rw [hd]
  have hok := toOption_eq_some.mp hclose
  have hsort : (known.toList.mergeSort fun f h ↦ Scalar.precedes f.shift h.shift) = known.toList :=
    List.mergeSort_of_pairwise (hordered.imp fun h ↦ (Scalar.precedes_iff _ _).mpr h)
  unfold generators at hok
  unfold ofSymmetries
  rw [hdelay]
  simp [bind, Except.bind, hp, hid, hok, hsort, pure, Except.pure]

end Juggling.SymmetryGroup
