import Juggling.Proofs.Fulfilment

namespace Juggling

variable {α : Type} [Exact α] {symmetries : List (Symmetry α)} {J N : ℕ}

namespace SymmetryGroup.IsGroupOf

variable {g : SymmetryGroup α} (hg : g.IsGroupOf symmetries J N)

include hg

/-- Within so many periods, seen in either direction of time from some moment on, there is an image
as many periods or a multiple of them away. -/
theorem exists_image_within {dir : ℤ} (hdir : dir = 1 ∨ dir = -1) (e : Event α) (k : ℤ) {s : ℕ}
    (hs : 0 < s) (base a : α) : ∃ q : ℤ,
      a ≤ (dir : α) * (g.imageTime e (k + s * q * g.size) - base) ∧
      (dir : α) * (g.imageTime e (k + s * q * g.size) - base) < a + s * g.period := by
  have hpos : 0 < (s : α) * g.period := mul_pos (by exact_mod_cast hs) hg.period_pos
  obtain ⟨q, hlow, hhigh⟩ := exists_period hpos ((dir : α) * (g.imageTime e k - base) - a)
  refine ⟨dir * q, ?_⟩
  rw [hg.imageTime_add_size]
  have hsquare : (dir : α) * dir = 1 := by rcases hdir with rfl | rfl <;> simp
  have heq : (dir : α) * (g.imageTime e k + ((s * (dir * q) : ℤ) : α) * g.period - base) =
      (dir : α) * (g.imageTime e k - base) + q * (s * g.period) := by
    push_cast
    linear_combination (s * q * g.period : α) * hsquare
  rw [heq]
  constructor <;> linarith

end SymmetryGroup.IsGroupOf

namespace Expansion

variable {x : Expansion α}

namespace Run

variable {dir : ℤ} {note : Needs → Event α → Needs} {c c' : ℕ → ℤ} {n n' : Needs}
  {made : List (Generated α)} {base T : α}

section Window

variable (hg : x.group.IsGroupOf symmetries J N) (hdir : dir = 1 ∨ dir = -1)
  (h : x.Run dir note c n made c' n')
  (hstart : ∀ i e, x.seeds[i]? = some e →
    (dir : α) * (x.group.imageTime e (c i - dir) - base) < 0)
  (hend : Beyond x dir c' (base + dir * T))

include hg hdir h hstart hend

/-- A run from some moment on that has come to another has made all images in between. -/
theorem mem_of_window {i : ℕ} {e : Event α} (he : x.seeds[i]? = some e) {k : ℤ}
    (hlow : 0 ≤ (dir : α) * (x.group.imageTime e k - base))
    (hhigh : (dir : α) * (x.group.imageTime e k - base) < T) :
    ⟨i, k, (x.group.image k).apply e⟩ ∈ made := by
  have hstart := hstart i e he
  have hend := hend i e he
  rcases hdir with rfl | rfl
  · refine (h.mem_forward_iff he k).mpr ⟨?_, ?_⟩
    · by_contra! hlt
      have := hg.imageTime_mono e (show k ≤ c i - 1 by omega)
      push_cast at hstart hlow
      linarith
    · by_contra! hle
      have := hg.imageTime_mono e hle
      push_cast at hend hhigh
      linarith
  · refine (h.mem_backward_iff he k).mpr ⟨?_, ?_⟩
    · by_contra! hle
      have := hg.imageTime_mono e hle
      push_cast at hend hhigh
      linarith
    · by_contra! hlt
      have := hg.imageTime_mono e (show c i - -1 ≤ k by omega)
      push_cast at hstart hlow
      linarith

/-- What some image does, one that is made in a given stretch of time does, when images so many
periods apart do the same. -/
theorem exists_made {P : Event α → Prop} {s : ℕ} (hs : 0 < s)
    (hshift : ∀ e ∈ x.seeds, ∀ k q : ℤ, P ((x.group.image k).apply e) →
      P ((x.group.image (k + s * q * x.group.size)).apply e))
    (hex : ∃ f, (∃ e ∈ x.seeds, ∃ k, f = (x.group.image k).apply e) ∧ P f) {a : α} (ha : 0 ≤ a)
    (haT : a + s * x.group.period ≤ T) : ∃ g ∈ made, P g.event ∧
      a ≤ (dir : α) * (g.event.time - base) ∧
      (dir : α) * (g.event.time - base) < a + s * x.group.period := by
  obtain ⟨-, ⟨e, he, k, rfl⟩, hP⟩ := hex
  obtain ⟨i, hi, rfl⟩ := List.getElem_of_mem he
  obtain ⟨q, hlow, hhigh⟩ := hg.exists_image_within hdir x.seeds[i] k hs base a
  refine ⟨_, h.mem_of_window hg hdir hstart hend (List.getElem?_eq_getElem hi) (ha.trans hlow)
    (hhigh.trans_le haT), hshift _ he k q hP, ?_⟩
  rw [SymmetryGroup.time_image]
  exact ⟨hlow, hhigh⟩

end Window

end Run

section Fulfilled

variable (hg : x.group.IsGroupOf symmetries J N) (hseeds : ∀ e ∈ x.seeds, Placed J N e)

include hg hseeds

theorem hand_shift {j : ℕ} {h : Hand} {P : Event α → Prop}
    (hP : ∀ (e : Event α) (s : α) (r : ℕ → ℕ), P e → P (e.later s r)) :
    ∀ e ∈ x.seeds, ∀ k q : ℤ,
      (((x.group.image k).apply e).juggler = j ∧ ((x.group.image k).apply e).hand = h ∧
        P ((x.group.image k).apply e)) →
      (((x.group.image (k + (1 : ℕ) * q * x.group.size)).apply e).juggler = j ∧
        ((x.group.image (k + (1 : ℕ) * q * x.group.size)).apply e).hand = h ∧
        P ((x.group.image (k + (1 : ℕ) * q * x.group.size)).apply e)) := by
  intro e he k q hk
  rw [hg.image_add_size (hseeds e he)]
  exact ⟨hk.1, hk.2.1, hP _ _ _ hk.2.2⟩

/-- What an image does to a path, the images do to it that are a multiple of so many periods
away. -/
def Recurs (x : Expansion α) (s : ℕ) : Prop :=
  ∀ e ∈ x.seeds, ∀ k q : ℤ, ∀ t ∈ ((x.group.image k).apply e).transitions,
    ∃ t' ∈ ((x.group.image (k + s * q * x.group.size)).apply e).transitions,
      t'.path = t.path ∧ t'.kind = t.kind

theorem recurs_order : x.Recurs x.group.delay.paths.order := by
  intro e he k q t ht
  rw [← (hg.alike_image (hseeds e he) k q).2.2]
  exact ⟨t, ht, rfl, rfl⟩

omit hg hseeds in
theorem Recurs.shift {s : ℕ} (h : x.Recurs s) (P : ℕ → TransitionKind → Prop) :
    ∀ e ∈ x.seeds, ∀ k q : ℤ,
      (∃ t ∈ ((x.group.image k).apply e).transitions, P t.path t.kind) →
      ∃ t ∈ ((x.group.image (k + s * q * x.group.size)).apply e).transitions,
        P t.path t.kind := by
  rintro e he k q ⟨t, ht, hP⟩
  obtain ⟨t', ht', hpath, hkind⟩ := h e he k q t ht
  exact ⟨t', ht', by rwa [hpath, hkind]⟩

variable (hscan : Coverage.scan x.seeds x.group J N = .ok x.coverage)

include hscan

theorem sound_of_scan : x.Sound J N := by
  obtain ⟨hsized, -⟩ := Coverage.scan_ok hg hseeds hscan
  exact ⟨hseeds, hsized.hands, hsized.paths⟩

/-- Transitions of one kind or another that some image has. -/
def Occurs (x : Expansion α) (P : ℕ → TransitionKind → Prop) : Prop :=
  ∃ f, (∃ e ∈ x.seeds, ∃ k, f = (x.group.image k).apply e) ∧
    ∃ t ∈ f.transitions, P t.path t.kind

variable {dir : ℤ} {note : Needs → Event α → Needs} {c c' : ℕ → ℤ} {n n' : Needs}
  {made : List (Generated α)}

/-- Nothing is needed any more one period after everything recurs, be it forwards or backwards in
time. -/
theorem Run.fulfilled {s : ℕ} (hrounds : 0 < s) (hrecurs : x.Recurs s) {u : Needs.Uses α}
    {ever : ℕ → Bool} (base : α) (hdir : dir = 1 ∨ dir = -1)
    (hnote : Needs.Lowers J N note u ever) (hn : n.Sized J N)
    (h : x.Run dir note c n made c' n')
    (hstart : ∀ i e, x.seeds[i]? = some e →
      (dir : α) * (x.group.imageTime e (c i - dir) - base) < 0)
    (hend : Beyond x dir c' (base + dir * ((s + 1) * x.group.period)))
    (hneeds : (∀ j, 1 ≤ j ∧ j ≤ J → ∀ k, (n.hand j k).velocity = true →
        (x.coverage.hand j k).determinesVelocity = true) ∧
      ∀ p, 1 ≤ p ∧ p ≤ N → (n.path p).partner = true → ever p = true)
    (hevent : ∀ e, x.group.period ≤ (dir : α) * (e.time - base) → u.event e)
    (hvelocity : ∀ e, 0 ≤ (dir : α) * (e.time - base) → e.determinesVelocity = true →
      u.velocity e)
    (htouch : ∀ p, 1 ≤ p ∧ p ≤ N → ∃ P, x.Occurs P ∧
      ∀ e, 0 ≤ (dir : α) * (e.time - base) → (∃ t ∈ e.transitions, P t.path t.kind) →
        u.touch p e)
    (hpartner : ∀ p, 1 ≤ p ∧ p ≤ N → ever p = true → ∃ P, x.Occurs P ∧
      ∀ e, 0 ≤ (dir : α) * (e.time - base) → (∃ t ∈ e.transitions, P t.path t.kind) →
        u.partner p e) :
    n'.pending = false := by
  obtain ⟨hfounded, hhands, -⟩ := Coverage.scan_founded hg hseeds hscan
  have hpos := hg.period_pos
  have horder : (1 : α) ≤ s := by exact_mod_cast hrounds
  have hplaced : ∀ g ∈ made, Placed J N g.event := by
    intro g hmem
    obtain ⟨e, he, hevent⟩ := h.generated g hmem
    exact hevent ▸ hg.placed_image (hseeds e (List.mem_of_getElem? he)) g.image
  rw [h.needs_eq]
  refine hnote.not_pending hn hplaced (τ := fun e ↦ (dir : α) * (e.time - base))
    (T := x.group.period) ?_ hneeds.2 ?_ ?_ ?_ ?_
  · refine (h.ordered hg hdir).1.imp fun {f g} hfg ↦ ?_
    linarith
  · intro j hj k
    obtain ⟨f, hf, hfj, hfk⟩ := hfounded.hand j k (hhands j hj k)
    obtain ⟨g, hmem, ⟨hgj, hgk, -⟩, hlow, -⟩ := h.exists_made hg hdir hstart hend
      (P := fun e ↦ e.juggler = j ∧ e.hand = k ∧ True) Nat.one_pos
      (hand_shift hg hseeds (P := fun _ ↦ True) fun _ _ _ ↦ id) ⟨f, hf, hfj, hfk, trivial⟩ hpos.le
      (by push_cast; nlinarith)
    exact ⟨g, hmem, hgj, hgk, hevent g.event hlow⟩
  · intro j hj k hneed
    obtain ⟨g, hmem, ⟨hgj, hgk, hdet⟩, hlow, hhigh⟩ := h.exists_made hg hdir hstart hend
      Nat.one_pos (hand_shift hg hseeds (P := fun e ↦ e.determinesVelocity = true)
        fun _ _ _ h ↦ by rwa [Event.determinesVelocity_later])
      (hfounded.velocity j k (hneeds.1 j hj k hneed)) le_rfl (by push_cast; nlinarith)
    exact ⟨g, hmem, by simpa using hhigh, hgj, hgk, hvelocity g.event hlow hdet⟩
  · intro p hp
    obtain ⟨P, hP, huse⟩ := htouch p hp
    obtain ⟨g, hmem, ht, hlow, -⟩ := h.exists_made hg hdir hstart hend hrounds
      (hrecurs.shift P) hP le_rfl (by nlinarith)
    exact ⟨g, hmem, huse g.event hlow ht⟩
  · intro p hp hever
    obtain ⟨P, hP, huse⟩ := hpartner p hp hever
    obtain ⟨g, hmem, ht, hlow, -⟩ := h.exists_made hg hdir hstart hend hrounds
      (hrecurs.shift P) hP hpos.le (by nlinarith)
    exact ⟨g, hmem, hlow, huse g.event (hpos.le.trans hlow) ht⟩

/-- The images up to a moment at the start of the loop meet all needs backwards. -/
theorem fulfilled_backward {s : ℕ} (hrounds : 0 < s) (hrecurs : x.Recurs s) (base : α)
    (hbase : base ≤ x.loop.low + timeTolerance)
    (h : x.Run (-1) x.noteBackward c (.ofCoverage x.coverage) made c' n')
    (hstart : ∀ i e, x.seeds[i]? = some e → base < x.group.imageTime e (c i + 1))
    (hend : ∀ i e, x.seeds[i]? = some e →
      x.group.imageTime e (c' i) ≤ base - (s + 1) * x.group.period) :
    n'.pending = false := by
  have hx := x.sound_of_scan hg hseeds hscan
  obtain ⟨hfounded, -, hpaths⟩ := Coverage.scan_founded hg hseeds hscan
  have hheed {t : α} (ht : 0 ≤ ((-1 : ℤ) : α) * (t - base)) : t ≤ x.loop.low + timeTolerance := by
    push_cast at ht
    linarith
  refine Run.fulfilled hg hseeds hscan hrounds hrecurs base (.inr rfl) (x.lowers_noteBackward J N)
    hx.sized_ofCoverage h (fun i e he ↦ ?_) (fun i e he ↦ ?_)
    ⟨fun j hj k hneed ↦ ?_, fun p hp hneed ↦ ?_⟩ (fun e ht ↦ hheed (hg.period_pos.le.trans ht))
    (fun e ht hdet ↦ ⟨hheed ht, hdet⟩) (fun p hp ↦ ?_) fun p _ hthrown ↦
    ⟨fun q kind ↦ q = p ∧ kind = .throwing, hfounded.thrown p hthrown,
      fun e ht huse ↦ ⟨hheed ht, huse⟩⟩
  · have := hstart i e he
    rw [sub_neg_eq_add]
    push_cast
    linarith
  · have := hend i e he
    push_cast
    linarith
  · rwa [hx.hand_ofCoverage hj] at hneed
  · rw [hx.path_ofCoverage hp] at hneed
    cases hneed
  · cases hthrown : (x.coverage.path p).thrown with
    | true =>
      exact ⟨fun q kind ↦ q = p ∧ kind = .throwing, hfounded.thrown p hthrown,
        fun e ht ⟨t, hmem, htp, hthrow⟩ ↦ ⟨hheed ht, t, hmem, htp, .inl hthrow⟩⟩
    | false =>
      exact ⟨fun q _ ↦ q = p, hfounded.path p (hpaths p hp), fun e ht ⟨t, hmem, htp⟩ ↦
        ⟨hheed ht, t, hmem, htp, .inr hthrown⟩⟩

theorem fulfilled_forward (hloop : x.loop.high = x.loop.low + x.group.period)
    {back : List (Generated α)}
    (h : x.Run 1 x.noteForward c (x.needsAfter N back) made c' n')
    (hstart : ∀ i e, x.seeds[i]? = some e → x.group.imageTime e (c i - 1) < x.loop.high)
    (hend : ∀ i e, x.seeds[i]? = some e → x.loop.high +
      (x.group.delay.paths.order + 1) * x.group.period ≤ x.group.imageTime e (c' i)) :
    n'.pending = false := by
  have hx := x.sound_of_scan hg hseeds hscan
  obtain ⟨hfounded, -, hpaths⟩ := Coverage.scan_founded hg hseeds hscan
  obtain ⟨hsized, hhand, -⟩ := hx.needsAfter back
  refine Run.fulfilled hg hseeds hscan (Permutation.order_pos _) (recurs_order hg hseeds)
    x.loop.high (.inl rfl) (x.lowers_noteForward J N) hsized h
    (fun i e he ↦ ?_) (fun i e he ↦ ?_)
    ⟨fun j hj k hneed ↦ ?_, fun p hp hneed ↦ hx.partner_needsAfter back hp hneed⟩
    (fun e ht ↦ .inr ?_) (fun e _ hdet ↦ hdet)
    (fun p hp ↦ ⟨fun q _ ↦ q = p, hfounded.path p (hpaths p hp), fun e _ huse ↦ huse⟩)
    fun p _ hcaught ↦ ⟨fun q kind ↦ q = p ∧ kind.isCatch = true, hfounded.caught p hcaught,
      fun e _ huse ↦ huse⟩
  · have := hstart i e he
    push_cast
    linarith
  · have := hend i e he
    push_cast
    linarith
  · rwa [hhand, hx.hand_ofCoverage hj] at hneed
  · have hfree : x.freeUntil = x.loop.high + x.group.period := by
      rw [freeUntil_eq, hloop]
      ring
    push_cast at ht
    linarith [timeTolerance_pos (α := α)]

end Fulfilled

end Expansion

end Juggling
