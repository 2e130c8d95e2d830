import Juggling.Layout.Expansion
import Juggling.Proofs.Outcome
import Juggling.Proofs.Search

namespace Juggling

theorem pair_sublist_getElem {β : Type} {xs : List β} {a b : ℕ} (hab : a < b)
    (hb : b < xs.length) : [xs[a], xs[b]].Sublist xs := by
  have ha : [xs[a]].Sublist (xs.take b) := by
    refine List.singleton_sublist.mpr (List.mem_iff_getElem.mpr ⟨a, ?_, List.getElem_take⟩)
    rw [List.length_take]
    omega
  have hb' : [xs[b]].Sublist (xs.drop b) := by
    rw [List.drop_eq_getElem_cons hb]
    exact List.singleton_sublist.mpr List.mem_cons_self
  have := ha.append hb'
  rwa [List.take_append_drop] at this

theorem pair_sublist_of_pairwise {β : Type} {R : β → β → Prop} {xs : List β} (hxs : xs.Pairwise R)
    {x y : β} (hx : x ∈ xs) (hy : y ∈ xs) (hne : x ≠ y) (hR : ¬R y x) : [x, y].Sublist xs := by
  obtain ⟨a, ha, rfl⟩ := List.getElem_of_mem hx
  obtain ⟨b, hb, rfl⟩ := List.getElem_of_mem hy
  rcases Nat.lt_trichotomy a b with h | rfl | h
  · exact pair_sublist_getElem h hb
  · exact absurd rfl hne
  · exact absurd (List.pairwise_iff_getElem.mp hxs b a hb ha h) hR

/-- Going through a list and always keeping the better of two finds the best. -/
theorem foldl_pick {β : Type} {P : β → Prop} (le : β → β → Prop) (hrefl : ∀ a, le a a)
    (htrans : ∀ {a b c}, le a b → le b c → le a c) (pick : β → β → β)
    (hpick : ∀ a b, P a → P b → pick a b = a ∧ le b a ∨ pick a b = b ∧ le a b) (a : β)
    (bs : List β) (hP : ∀ b ∈ a :: bs, P b) :
    bs.foldl pick a ∈ a :: bs ∧ ∀ b ∈ a :: bs, le b (bs.foldl pick a) := by
  induction bs generalizing a with
  | nil => simpa using hrefl a
  | cons b bs ih =>
    have ha := hP a List.mem_cons_self
    have hb := hP b (List.mem_cons_of_mem _ List.mem_cons_self)
    have hbs : ∀ c ∈ bs, P c := fun c hc ↦
      hP c (List.mem_cons_of_mem _ (List.mem_cons_of_mem _ hc))
    rw [List.foldl_cons]
    rcases hpick a b ha hb with ⟨h, hba⟩ | ⟨h, hab⟩ <;> rw [h]
    · obtain ⟨hmem, hbest⟩ := ih a (List.forall_mem_cons.mpr ⟨ha, hbs⟩)
      have hle := hbest _ List.mem_cons_self
      refine ⟨?_, fun c hc ↦ ?_⟩
      · rcases List.mem_cons.mp hmem with h' | h'
        · rw [h']
          exact List.mem_cons_self
        · exact List.mem_cons_of_mem _ (List.mem_cons_of_mem _ h')
      · rcases List.mem_cons.mp hc with rfl | hc
        · exact hle
        · rcases List.mem_cons.mp hc with rfl | hc
          · exact htrans hba hle
          · exact hbest c (List.mem_cons_of_mem _ hc)
    · obtain ⟨hmem, hbest⟩ := ih b (List.forall_mem_cons.mpr ⟨hb, hbs⟩)
      have hle := hbest _ List.mem_cons_self
      refine ⟨List.mem_cons_of_mem _ hmem, fun c hc ↦ ?_⟩
      rcases List.mem_cons.mp hc with rfl | hc
      · exact htrans hab hle
      · exact hbest c hc

variable {α : Type}

namespace Front

/-- One front for every seed, at the image that a cursor gives. -/
def atCursor (seeds : List (Event α)) (c : ℕ → ℤ) : List (Front α) :=
  seeds.mapIdx fun i e ↦ ⟨i, e, c i⟩

theorem mem_atCursor {seeds : List (Event α)} {c : ℕ → ℤ} {f : Front α} :
    f ∈ atCursor seeds c ↔ seeds[f.seed]? = some f.origin ∧ f.image = c f.seed := by
  rw [atCursor, List.mem_mapIdx]
  constructor
  · rintro ⟨i, hi, rfl⟩
    exact ⟨List.getElem?_eq_getElem hi, rfl⟩
  · rintro ⟨he, hc⟩
    obtain ⟨hi, hf⟩ := List.getElem?_eq_some_iff.mp he
    exact ⟨f.seed, hi, by rw [hf, ← hc]⟩

theorem atCursor_eq_nil {seeds : List (Event α)} {c : ℕ → ℤ} :
    atCursor seeds c = [] ↔ seeds = [] := List.mapIdx_eq_nil_iff

theorem move_atCursor (seeds : List (Event α)) (c : ℕ → ℤ) (i : ℕ) (offset : ℤ) :
    move i offset (atCursor seeds c) =
      atCursor seeds (Function.update c i (c i + offset)) := by
  apply List.ext_getElem?
  intro j
  simp only [move, atCursor, List.getElem?_map, List.getElem?_mapIdx, Option.map_map]
  refine congrArg (fun f ↦ Option.map f seeds[j]?) (funext fun e ↦ ?_)
  by_cases hj : j = i
  · subst hj
    simp
  · simp [hj]

variable [Exact α]

theorem before_eq {g : SymmetryGroup α} {seeds : List (Event α)} {t : α} {offset : ℤ}
    {c : ℕ → ℤ} (hc : ∀ i e, seeds[i]? = some e → c i = g.lastImageBefore e t + offset) :
    before g seeds t offset = atCursor seeds c := by
  apply List.ext_getElem?
  intro i
  simp only [before, atCursor, List.getElem?_mapIdx]
  cases he : seeds[i]? with
  | none => rfl
  | some e => simp [hc i e he]

theorem latest?_eq_some {g : SymmetryGroup α} {fs : List (Front α)} {f : Front α}
    (h : latest? g fs = some f) : f ∈ fs ∧ ∀ k ∈ fs, k.time g ≤ f.time g := by
  cases fs with
  | nil => cases h
  | cons a fs =>
    obtain rfl := Option.some.inj h
    refine foldl_pick (P := fun _ ↦ True) (fun a b ↦ a.time g ≤ b.time g) (fun _ ↦ le_rfl)
      (fun h ↦ h.trans) _ (fun a b _ _ ↦ ?_) a fs fun _ _ ↦ trivial
    split_ifs with hab
    · exact .inr ⟨rfl, (Scalar.precedes_iff _ _).mp hab⟩
    · exact .inl ⟨rfl, le_of_not_ge fun hle ↦ hab ((Scalar.precedes_iff _ _).mpr hle)⟩

theorem earliest?_eq_some {g : SymmetryGroup α} {fs : List (Front α)} {f : Front α}
    (h : earliest? g fs = some f) : f ∈ fs ∧ ∀ k ∈ fs, f.time g ≤ k.time g := by
  cases fs with
  | nil => cases h
  | cons a fs =>
    obtain rfl := Option.some.inj h
    refine foldl_pick (P := fun _ ↦ True) (fun a b ↦ b.time g ≤ a.time g) (fun _ ↦ le_rfl)
      (fun h h' ↦ h'.trans h) _ (fun a b _ _ ↦ ?_) a fs fun _ _ ↦ trivial
    split_ifs with hab
    · exact .inl ⟨rfl, (Scalar.precedes_iff _ _).mp hab⟩
    · exact .inr ⟨rfl, le_of_not_ge fun hle ↦ hab ((Scalar.precedes_iff _ _).mpr hle)⟩

theorem exists_latest {seeds : List (Event α)} (hseeds : seeds ≠ []) (g : SymmetryGroup α)
    (c : ℕ → ℤ) : ∃ i e, seeds[i]? = some e ∧
      latest? g (atCursor seeds c) = some ⟨i, e, c i⟩ ∧
      ∀ j e', seeds[j]? = some e' → g.imageTime e' (c j) ≤ g.imageTime e (c i) := by
  cases h : latest? g (atCursor seeds c) with
  | none =>
    cases hfs : atCursor seeds c with
    | nil => exact absurd (atCursor_eq_nil.mp hfs) hseeds
    | cons a fs =>
      rw [hfs] at h
      cases h
  | some f =>
    obtain ⟨hmem, hlast⟩ := latest?_eq_some h
    obtain ⟨he, hc⟩ := mem_atCursor.mp hmem
    refine ⟨f.seed, f.origin, he, by rw [← hc], fun j e' he' ↦ ?_⟩
    have := hlast ⟨j, e', c j⟩ (mem_atCursor.mpr ⟨he', rfl⟩)
    rwa [time, time, hc] at this

theorem exists_earliest {seeds : List (Event α)} (hseeds : seeds ≠ []) (g : SymmetryGroup α)
    (c : ℕ → ℤ) : ∃ i e, seeds[i]? = some e ∧
      earliest? g (atCursor seeds c) = some ⟨i, e, c i⟩ ∧
      ∀ j e', seeds[j]? = some e' → g.imageTime e (c i) ≤ g.imageTime e' (c j) := by
  cases h : earliest? g (atCursor seeds c) with
  | none =>
    cases hfs : atCursor seeds c with
    | nil => exact absurd (atCursor_eq_nil.mp hfs) hseeds
    | cons a fs =>
      rw [hfs] at h
      cases h
  | some f =>
    obtain ⟨hmem, hfirst⟩ := earliest?_eq_some h
    obtain ⟨he, hc⟩ := mem_atCursor.mp hmem
    refine ⟨f.seed, f.origin, he, by rw [← hc], fun j e' he' ↦ ?_⟩
    have := hfirst ⟨j, e', c j⟩ (mem_atCursor.mpr ⟨he', rfl⟩)
    rwa [time, time, hc] at this

end Front

namespace Expansion

variable [Exact α] (x : Expansion α)

/-- Images generated one after another from a cursor on, forwards or backwards in time: each is
the first that is left. What they leave needed is noted on the way. -/
inductive Run (dir : ℤ) (note : Needs → Event α → Needs) :
    (ℕ → ℤ) → Needs → List (Generated α) → (ℕ → ℤ) → Needs → Prop
  | done (c : ℕ → ℤ) (n : Needs) : Run dir note c n [] c n
  | step {c : ℕ → ℤ} {n : Needs} {i : ℕ} {e : Event α} {made : List (Generated α)}
      {c' : ℕ → ℤ} {n' : Needs} (he : x.seeds[i]? = some e)
      (hfirst : ∀ j e', x.seeds[j]? = some e' →
        0 ≤ (dir : α) * (x.group.imageTime e' (c j) - x.group.imageTime e (c i)))
      (hrun : Run dir note (Function.update c i (c i + dir))
        (note n ((x.group.image (c i)).apply e)) made c' n') :
      Run dir note c n (⟨i, c i, (x.group.image (c i)).apply e⟩ :: made) c' n'

/-- Only images around the start of the loop and before it are taken note of. -/
def noteBackward (n : Needs) (e : Event α) : Needs :=
  if e.time ≤ x.loop.low + timeTolerance then n.recordBackward x.coverage e else n

def noteForward (n : Needs) (e : Event α) : Needs := n.recordForward x.coverage x.freeUntil e

/-- A recursion that makes images one after another from a cursor on until it stops, and fails when
that takes more images than there is budget for. -/
structure Pass (dir : ℤ) (note : Needs → Event α → Needs)
    (stops : Needs → (ℕ → ℤ) → Prop)
    (pass : ℕ → Needs → (ℕ → ℤ) → Except (UserError α) (List (Generated α))) : Prop where
  stop : ∀ budget n c, stops n c → pass budget n c = .ok []
  go : ∀ n c, ¬stops n c → ∃ i e, x.seeds[i]? = some e ∧
    (∀ j e', x.seeds[j]? = some e' →
      0 ≤ (dir : α) * (x.group.imageTime e' (c j) - x.group.imageTime e (c i))) ∧
    pass 0 n c = .error (.expansionLimit limit) ∧
    ∀ budget, pass (budget + 1) n c =
      (pass budget (note n ((x.group.image (c i)).apply e))
        (Function.update c i (c i + dir))).map (⟨i, c i, (x.group.image (c i)).apply e⟩ :: ·)

def StopsBackward (n : Needs) (c : ℕ → ℤ) : Prop :=
  x.seeds = [] ∨ n.pending = false ∧ ∀ i e, x.seeds[i]? = some e →
    x.group.imageTime e (c i) < x.loop.low - timeTolerance

def StopsForward (n : Needs) (_ : ℕ → ℤ) : Prop := x.seeds = [] ∨ n.pending = false

theorem pass_backward : x.Pass (-1) x.noteBackward x.StopsBackward fun budget n c ↦
    x.backward budget n (Front.atCursor x.seeds c) := by
  constructor
  · intro budget n c hstop
    by_cases hseeds : x.seeds = []
    · have hnone : Front.latest? x.group (Front.atCursor x.seeds c) = none := by
        rw [Front.atCursor_eq_nil.mpr hseeds, Front.latest?]
      unfold backward
      rw [hnone]
    · obtain ⟨hpending, hbefore⟩ := hstop.resolve_left hseeds
      obtain ⟨i, e, he, hlatest, -⟩ := Front.exists_latest hseeds x.group c
      have hpast : (decide (Front.time x.group ⟨i, e, c i⟩ < x.loop.low - timeTolerance) &&
          !n.pending) = true := by
        rw [Bool.and_eq_true, decide_eq_true_eq, hpending]
        exact ⟨hbefore i e he, rfl⟩
      unfold backward
      rw [hlatest]
      simp only [hpast, if_true]
  · intro n c hstop
    obtain ⟨hseeds, hgo⟩ := not_or.mp hstop
    obtain ⟨i, e, he, hlatest, hlast⟩ := Front.exists_latest hseeds x.group c
    have hpast : (decide (Front.time x.group ⟨i, e, c i⟩ < x.loop.low - timeTolerance) &&
        !n.pending) = false := by
      by_contra hpast
      rw [Bool.not_eq_false, Bool.and_eq_true, decide_eq_true_eq, Bool.not_eq_true'] at hpast
      exact hgo ⟨hpast.2, fun j e' he' ↦ (hlast j e' he').trans_lt hpast.1⟩
    refine ⟨i, e, he, fun j e' he' ↦ ?_, ?_, fun budget ↦ ?_⟩
    · push_cast
      linarith [hlast j e' he']
    · unfold backward
      rw [hlatest]
      simp only [hpast, Bool.false_eq_true, if_false]
    · conv_lhs => unfold backward
      rw [hlatest]
      simp only [hpast, Bool.false_eq_true, if_false, Front.move_atCursor]
      rfl

theorem pass_forward : x.Pass 1 x.noteForward x.StopsForward fun budget n c ↦
    x.forward budget n (Front.atCursor x.seeds c) := by
  constructor
  · intro budget n c hstop
    unfold forward
    rcases hstop with hseeds | hpending
    · rw [Front.atCursor_eq_nil.mpr hseeds, Front.earliest?]
      split_ifs <;> rfl
    · rw [hpending]
      rfl
  · intro n c hstop
    obtain ⟨hseeds, hgo⟩ := not_or.mp hstop
    rw [Bool.not_eq_false] at hgo
    obtain ⟨i, e, he, hearliest, hfirst⟩ := Front.exists_earliest hseeds x.group c
    refine ⟨i, e, he, fun j e' he' ↦ ?_, ?_, fun budget ↦ ?_⟩
    · push_cast
      linarith [hfirst j e' he']
    · unfold forward
      rw [hearliest, hgo]
      rfl
    · conv_lhs => unfold forward
      rw [hearliest, hgo]
      simp only [Bool.not_true, Bool.false_eq_true, if_false, Front.move_atCursor]
      rfl

variable {x}

/-- A recursion that succeeds has made images until it stops. -/
theorem Pass.run_of_ok {dir : ℤ} {note : Needs → Event α → Needs} {stops : Needs → (ℕ → ℤ) → Prop}
    {pass : ℕ → Needs → (ℕ → ℤ) → Except (UserError α) (List (Generated α))}
    (hpass : x.Pass dir note stops pass) {budget : ℕ} {n : Needs} {c : ℕ → ℤ}
    {made : List (Generated α)} (hok : pass budget n c = .ok made) :
    ∃ c' n', x.Run dir note c n made c' n' ∧ stops n' c' := by
  induction budget generalizing n c made with
  | zero =>
    by_cases hstop : stops n c
    · obtain rfl := Except.ok.inj ((hpass.stop 0 n c hstop).symm.trans hok)
      exact ⟨c, n, .done c n, hstop⟩
    · obtain ⟨-, -, -, -, hlimit, -⟩ := hpass.go n c hstop
      cases hlimit.symm.trans hok
  | succ budget ih =>
    by_cases hstop : stops n c
    · obtain rfl := Except.ok.inj ((hpass.stop (budget + 1) n c hstop).symm.trans hok)
      exact ⟨c, n, .done c n, hstop⟩
    · obtain ⟨i, e, he, hfirst, -, hgo⟩ := hpass.go n c hstop
      obtain ⟨made', hmade, rfl⟩ := map_eq_ok.mp ((hgo budget).symm.trans hok)
      obtain ⟨c', n', hrun, hrest⟩ := ih hmade
      exact ⟨c', n', .step he hfirst hrun, hrest⟩

namespace Run

variable {dir : ℤ} {note : Needs → Event α → Needs} {c c' : ℕ → ℤ} {n n' : Needs}
  {made : List (Generated α)}

theorem generated (h : x.Run dir note c n made c' n') : ∀ g ∈ made, ∃ e,
    x.seeds[g.seed]? = some e ∧ g.event = (x.group.image g.image).apply e := by
  induction h with
  | done => simp
  | step he _ _ ih =>
    intro g hg
    rcases List.mem_cons.mp hg with rfl | hg
    · exact ⟨_, he, rfl⟩
    · exact ih g hg

theorem needs_eq (h : x.Run dir note c n made c' n') :
    n' = made.foldl (fun n g ↦ note n g.event) n := by
  induction h with
  | done => rfl
  | step _ _ _ ih => exact ih

/-- The images of one seed are made one after another without gaps. -/
theorem block (h : x.Run dir note c n made c' n') (i : ℕ) : ∃ m : ℕ,
    c' i = c i + dir * m ∧ (made.filter (·.seed == i)).map (·.image) =
      (List.range m).map fun a : ℕ ↦ c i + dir * a := by
  induction h with
  | done => exact ⟨0, by simp, rfl⟩
  | @step c n j e made c' n' _ _ _ ih =>
    obtain ⟨m, hc', hm⟩ := ih
    by_cases hj : j = i
    · subst hj
      rw [Function.update_self] at hc' hm
      refine ⟨m + 1, by rw [hc']; push_cast; ring, ?_⟩
      rw [List.filter_cons_of_pos (by simp), List.map_cons, hm, List.range_succ_eq_map]
      simp only [List.map_cons, List.map_map, Function.comp_def, Nat.cast_succ]
      refine congrArg₂ List.cons (by simp) (List.map_congr_left fun a _ ↦ by ring)
    · rw [Function.update_of_ne (Ne.symm hj)] at hc' hm
      exact ⟨m, hc', by rw [List.filter_cons_of_neg (by simpa using hj), hm]⟩

theorem mem_iff_mem_block (h : x.Run dir note c n made c' n') {i : ℕ} {e : Event α}
    (he : x.seeds[i]? = some e) (k : ℤ) :
    ⟨i, k, (x.group.image k).apply e⟩ ∈ made ↔
      k ∈ (made.filter (·.seed == i)).map (·.image) := by
  rw [List.mem_map]
  constructor
  · intro hmem
    exact ⟨_, List.mem_filter.mpr ⟨hmem, by simp⟩, rfl⟩
  · rintro ⟨g, hmem, rfl⟩
    obtain ⟨hmem, hseed⟩ := List.mem_filter.mp hmem
    rw [beq_iff_eq] at hseed
    obtain ⟨e', he', hevent⟩ := h.generated g hmem
    obtain rfl : e = e' := Option.some.inj (he.symm.trans (hseed ▸ he'))
    rw [← hevent, ← hseed]
    exact hmem

theorem mem_backward_iff (h : x.Run (-1) note c n made c' n') {i : ℕ} {e : Event α}
    (he : x.seeds[i]? = some e) (k : ℤ) :
    ⟨i, k, (x.group.image k).apply e⟩ ∈ made ↔ c' i < k ∧ k ≤ c i := by
  obtain ⟨m, hm, hblock⟩ := h.block i
  rw [h.mem_iff_mem_block he, hblock, List.mem_map]
  constructor
  · rintro ⟨a, ha, rfl⟩
    have := List.mem_range.mp ha
    omega
  · intro hk
    exact ⟨(c i - k).toNat, List.mem_range.mpr (by omega), by omega⟩

theorem mem_forward_iff (h : x.Run 1 note c n made c' n') {i : ℕ} {e : Event α}
    (he : x.seeds[i]? = some e) (k : ℤ) :
    ⟨i, k, (x.group.image k).apply e⟩ ∈ made ↔ c i ≤ k ∧ k < c' i := by
  obtain ⟨m, hm, hblock⟩ := h.block i
  rw [h.mem_iff_mem_block he, hblock, List.mem_map]
  constructor
  · rintro ⟨a, ha, rfl⟩
    have := List.mem_range.mp ha
    omega
  · intro hk
    exact ⟨(k - c i).toNat, List.mem_range.mpr (by omega), by omega⟩

/-- All fronts are at a time or further on in the direction of the run. -/
def Beyond (x : Expansion α) (dir : ℤ) (c : ℕ → ℤ) (t : α) : Prop :=
  ∀ j e, x.seeds[j]? = some e → 0 ≤ (dir : α) * (x.group.imageTime e (c j) - t)

section Order

variable {symmetries : List (Symmetry α)} {J N : ℕ} (hg : x.group.IsGroupOf symmetries J N)
  (hdir : dir = 1 ∨ dir = -1)

include hg hdir

theorem beyond_update {t : α} (h : Beyond x dir c t) (i : ℕ) :
    Beyond x dir (Function.update c i (c i + dir)) t := by
  intro j e he
  have hj := h j e he
  by_cases hji : j = i
  · subst hji
    rw [Function.update_self]
    rcases hdir with rfl | rfl
    · have := hg.imageTime_mono e (show c j ≤ c j + 1 by omega)
      push_cast at hj ⊢
      linarith
    · have := hg.imageTime_mono e (show c j + -1 ≤ c j by omega)
      push_cast at hj ⊢
      linarith
  · rwa [Function.update_of_ne hji]

theorem beyond (h : x.Run dir note c n made c' n') {t : α} (ht : Beyond x dir c t) :
    (∀ g ∈ made, 0 ≤ (dir : α) * (g.event.time - t)) ∧ Beyond x dir c' t := by
  induction h with
  | done => exact ⟨by simp, ht⟩
  | @step c n i e made c' n' he _ _ ih =>
    obtain ⟨hmade, hend⟩ := ih (beyond_update hg hdir ht i)
    refine ⟨fun g hmem ↦ ?_, hend⟩
    rcases List.mem_cons.mp hmem with rfl | hmem
    · rw [SymmetryGroup.time_image]
      exact ht i e he
    · exact hmade g hmem

/-- Images are made in order of time, and those that are left come later still. -/
theorem ordered (h : x.Run dir note c n made c' n') :
    made.Pairwise (fun f g ↦ 0 ≤ (dir : α) * (g.event.time - f.event.time)) ∧
      ∀ g ∈ made, Beyond x dir c' g.event.time := by
  induction h with
  | done => simp
  | @step c n i e made c' n' he hfirst hrun ih =>
    have hnext : Beyond x dir (Function.update c i (c i + dir))
        ((x.group.image (c i)).apply e).time := by
      rw [SymmetryGroup.time_image]
      exact beyond_update hg hdir hfirst i
    obtain ⟨hmade, hend⟩ := hrun.beyond hg hdir hnext
    refine ⟨List.pairwise_cons.mpr ⟨hmade, ih.1⟩, fun g hmem ↦ ?_⟩
    rcases List.mem_cons.mp hmem with rfl | hmem
    · exact hend
    · exact ih.2 g hmem

end Order

end Run

/-- The last image of a seed before the end of the loop. -/
def lastInLoop (x : Expansion α) (i : ℕ) : ℤ :=
  (x.seeds[i]?.map (x.group.lastImageBefore · x.loop.high)).getD 0

theorem lastInLoop_eq {i : ℕ} {e : Event α} (he : x.seeds[i]? = some e) :
    x.lastInLoop i = x.group.lastImageBefore e x.loop.high := by
  rw [lastInLoop, he]
  rfl

theorem before_eq_lastInLoop (offset : ℤ) : Front.before x.group x.seeds x.loop.high offset =
    Front.atCursor x.seeds fun i ↦ x.lastInLoop i + offset :=
  Front.before_eq fun _ _ he ↦ by rw [lastInLoop_eq he]

theorem lastInLoop_spec {symmetries : List (Symmetry α)} {J N : ℕ}
    (hg : x.group.IsGroupOf symmetries J N) {i : ℕ} {e : Event α}
    (he : x.seeds[i]? = some e) : x.group.imageTime e (x.lastInLoop i) < x.loop.high ∧
      x.loop.high ≤ x.group.imageTime e (x.lastInLoop i + 1) := by
  rw [lastInLoop_eq he]
  exact hg.lastImageBefore_spec e x.loop.high

/-- What a successful expansion has made: for every seed the images between two cursors. Those
before the end of the loop were made backwards, the others forwards. -/
structure Made (x : Expansion α) (paths : ℕ) (made : List (Generated α)) where
  back : List (Generated α)
  forth : List (Generated α)
  made_eq : made = back ++ forth
  /-- The last image of each seed before the end of the loop. -/
  last : ℕ → ℤ
  low : ℕ → ℤ
  high : ℕ → ℤ
  needsBack : Needs
  needsForth : Needs
  last_spec : ∀ i e, x.seeds[i]? = some e →
    x.group.imageTime e (last i) < x.loop.high ∧ x.loop.high ≤ x.group.imageTime e (last i + 1)
  runBack : x.Run (-1) x.noteBackward last (.ofCoverage x.coverage) back low needsBack
  runForth : x.Run 1 x.noteForward (fun i ↦ last i + 1) (x.needsAfter paths back) forth high
    needsForth
  low_spec : ∀ i e, x.seeds[i]? = some e →
    x.group.imageTime e (low i) < x.loop.low - timeTolerance
  settled : needsBack.pending = false ∧ needsForth.pending = false

theorem run_ok {symmetries : List (Symmetry α)} {J N : ℕ} (hg : x.group.IsGroupOf symmetries J N)
    (hseeds : x.seeds ≠ []) {paths : ℕ} {made : List (Generated α)}
    (hok : x.run paths = .ok made) : Nonempty (x.Made paths made) := by
  unfold run at hok
  obtain ⟨back, hback, hok⟩ := bind_eq_ok.mp hok
  obtain ⟨forth, hforth, hmade⟩ := bind_eq_ok.mp hok
  rw [before_eq_lastInLoop] at hback hforth
  simp only [add_zero] at hback
  obtain ⟨low, needsBack, hrunBack, hstopBack⟩ := x.pass_backward.run_of_ok hback
  obtain ⟨high, needsForth, hrunForth, hstopForth⟩ := x.pass_forward.run_of_ok hforth
  obtain ⟨hsettledBack, hlow⟩ := hstopBack.resolve_left hseeds
  exact ⟨{
    back, forth, low, high, needsBack, needsForth
    last := x.lastInLoop
    made_eq := (pure_eq_ok.mp hmade).symm
    last_spec := fun _ _ he ↦ lastInLoop_spec hg he
    runBack := hrunBack
    runForth := hrunForth
    low_spec := hlow
    settled := ⟨hsettledBack, hstopForth.resolve_left hseeds⟩ }⟩

namespace Made

variable {paths : ℕ} {made : List (Generated α)} (m : x.Made paths made)

include m

theorem generated {g : Generated α} (hg : g ∈ made) : ∃ e, x.seeds[g.seed]? = some e ∧
    g = ⟨g.seed, g.image, (x.group.image g.image).apply e⟩ := by
  rw [m.made_eq, List.mem_append] at hg
  obtain ⟨e, he, hevent⟩ := hg.elim (m.runBack.generated g) (m.runForth.generated g)
  exact ⟨e, he, by rw [← hevent]⟩

theorem low_le_last (i : ℕ) : m.low i ≤ m.last i := by
  obtain ⟨k, hk, -⟩ := m.runBack.block i
  omega

theorem last_lt_high (i : ℕ) : m.last i < m.high i := by
  obtain ⟨k, hk, -⟩ := m.runForth.block i
  omega

theorem mem_made {g : Generated α} : g ∈ made ↔ g ∈ m.back ∨ g ∈ m.forth :=
  (Eq.to_iff (congrArg (g ∈ ·) m.made_eq)).trans List.mem_append

theorem mem_iff {i : ℕ} {e : Event α} (he : x.seeds[i]? = some e) (k : ℤ) :
    ⟨i, k, (x.group.image k).apply e⟩ ∈ made ↔ m.low i < k ∧ k < m.high i := by
  have h := m.last_lt_high i
  have h' := m.low_le_last i
  rw [m.mem_made, m.runBack.mem_backward_iff he, m.runForth.mem_forward_iff he]
  omega

theorem later_first {i : ℕ} {e : Event α} (he : x.seeds[i]? = some e) {k l : ℤ}
    (hk : m.low i < k) (hkl : k < l) (hl : l ≤ m.last i) :
    [(⟨i, l, (x.group.image l).apply e⟩ : Generated α),
      ⟨i, k, (x.group.image k).apply e⟩].Sublist made := by
  have hmem {k : ℤ} (hk : m.low i < k ∧ k ≤ m.last i) :
      ⟨i, k, (x.group.image k).apply e⟩ ∈ m.back.filter (·.seed == i) :=
    List.mem_filter.mpr ⟨(m.runBack.mem_backward_iff he k).mpr hk, by simp⟩
  have hsub : (m.back.filter (·.seed == i)).Sublist made := by
    have : m.back.Sublist made := by
      conv_rhs => rw [m.made_eq]
      exact List.sublist_append_left _ _
    exact List.filter_sublist.trans this
  have hdown : (m.back.filter (·.seed == i)).Pairwise fun f g ↦ g.image < f.image := by
    obtain ⟨n, -, hblock⟩ := m.runBack.block i
    have : ((m.back.filter (·.seed == i)).map (·.image)).Pairwise fun a b ↦ b < a := by
      rw [hblock, List.pairwise_map]
      exact List.pairwise_lt_range.imp fun h ↦ by omega
    exact List.pairwise_map.mp this
  refine (pair_sublist_of_pairwise hdown (hmem (by omega)) (hmem (by omega)) ?_ ?_).trans hsub
  · intro heq
    have := congrArg Generated.image heq
    simp only at this
    omega
  · simp only
    omega

theorem nodup : made.Nodup := by
  refine List.pairwise_iff_forall_sublist.mpr fun {f g} hsub heq ↦ ?_
  subst heq
  obtain ⟨n, -, hback⟩ := m.runBack.block f.seed
  obtain ⟨n', -, hforth⟩ := m.runForth.block f.seed
  have hblock : ((made.filter (·.seed == f.seed)).map (·.image)).Nodup := by
    have heq : (made.filter (·.seed == f.seed)).map (·.image) =
        (List.range n).map (fun a : ℕ ↦ m.last f.seed + -1 * a) ++
          (List.range n').map fun a : ℕ ↦ m.last f.seed + 1 + 1 * a := by
      rw [← hback, ← hforth, ← List.map_append, ← List.filter_append, ← m.made_eq]
    rw [heq, List.nodup_append]
    refine ⟨List.nodup_range.map fun a b h ↦ by omega, List.nodup_range.map fun a b h ↦ by omega,
      ?_⟩
    intro k hk l hl
    obtain ⟨a, -, rfl⟩ := List.mem_map.mp hk
    obtain ⟨b, -, rfl⟩ := List.mem_map.mp hl
    omega
  have hpair := (hsub.filter (·.seed == f.seed)).map (·.image)
  simp only [List.filter_cons, beq_self_eq_true, if_true, List.filter_nil, List.map_cons,
    List.map_nil] at hpair
  exact List.pairwise_iff_forall_sublist.mp hblock hpair rfl

end Made

end Expansion

end Juggling
