import Juggling.Proofs.Reorder
import Juggling.Proofs.Recurrence
import Juggling.Proofs.Sufficient

namespace Juggling

section Steps

variable {β γ : Type} {a b x y : β} {xs ys : List β}

theorem mem_steps_cons : (a, b) ∈ steps (x :: xs) ↔
    a = x ∧ xs.head? = some b ∨ (a, b) ∈ steps xs := by
  cases xs with
  | nil => simp [steps]
  | cons y ys => simp [steps_cons_cons, eq_comm]

/-- A step through one list and then another stays in one of them or leads across. -/
theorem mem_steps_append_iff : (a, b) ∈ steps (xs ++ ys) ↔
    (a, b) ∈ steps xs ∨ (xs.getLast? = some a ∧ ys.head? = some b) ∨ (a, b) ∈ steps ys := by
  induction xs with
  | nil => simp [steps]
  | cons x xs ih =>
    rw [List.cons_append, mem_steps_cons, ih, mem_steps_cons]
    cases xs with
    | nil => simp [steps, eq_comm]
    | cons x' xs => simp [or_assoc]

theorem exists_step_across {P : β → Prop} (hxs : xs.Pairwise fun a b ↦ P b → P a) (hx : x ∈ xs)
    (hy : y ∈ xs) (hPx : P x) (hPy : ¬P y) : ∃ a b, (a, b) ∈ steps xs ∧ P a ∧ ¬P b := by
  induction xs generalizing x with
  | nil => cases hx
  | cons z zs ih =>
    obtain ⟨hz, hzs⟩ := List.pairwise_cons.mp hxs
    have hPz : P z := by
      rcases List.mem_cons.mp hx with rfl | hx
      · exact hPx
      · exact hz x hx hPx
    have hy' : y ∈ zs := (List.mem_cons.mp hy).resolve_left fun h ↦ hPy (h ▸ hPz)
    cases zs with
    | nil => cases hy'
    | cons w ws =>
      by_cases hPw : P w
      · obtain ⟨a, b, hab, h⟩ := ih hzs List.mem_cons_self hy' hPw
        exact ⟨a, b, mem_steps_cons.mpr (.inr hab), h⟩
      · exact ⟨z, w, mem_steps_cons.mpr (.inl ⟨rfl, rfl⟩), hPz, hPw⟩

end Steps

namespace Touch

variable {α : Type} {moments : List (Moment α)} {p : ℕ}

theorem step_within (hmoments : moments.Nodup) {a b : Touch α}
    (hab : (a, b) ∈ steps (ofPath moments p)) (heq : a.moment = b.moment) :
    (a.transition, b.transition) ∈
      steps (a.moment.event.transitions.filter (·.path == p)) := by
  induction moments with
  | nil => cases hab
  | cons m ms ih =>
    obtain ⟨hm, hms⟩ := List.nodup_cons.mp hmoments
    rw [ofPath, List.flatMap_cons, mem_steps_append_iff] at hab
    rcases hab with hab | ⟨ha, hb⟩ | hab
    · rw [steps_map] at hab
      obtain ⟨⟨t, t'⟩, ht, hab⟩ := List.mem_map.mp hab
      cases hab
      exact ht
    · obtain ⟨t, -, rfl⟩ := List.mem_map.mp (List.mem_of_getLast? ha)
      have hb' := (mem_ofPath.mp (List.mem_of_head? hb)).1
      exact absurd ((show m = b.moment from heq) ▸ hb') hm
    · exact ih hms hab

theorem step_of_within {m : Moment α} (hm : m ∈ moments) {t t' : Transition}
    (ht : (t, t') ∈ steps (m.event.transitions.filter (·.path == p))) :
    (⟨m, t⟩, ⟨m, t'⟩) ∈ steps (ofPath moments p) := by
  obtain ⟨ms, ns, rfl⟩ := List.append_of_mem hm
  rw [ofPath, List.flatMap_append, List.flatMap_cons, mem_steps_append_iff, mem_steps_append_iff,
    steps_map]
  exact .inr (.inr (.inl (List.mem_map_of_mem (f := Prod.map _ _) ht)))

end Touch


namespace Event

/-- Whether an event does something to a path. -/
def Touches {α : Type} (e : Event α) (p : ℕ) : Prop := ∃ t ∈ e.transitions, t.path = p

end Event

variable {α : Type} [Exact α]

/-- Events on hands, each of which happens again every period, to renamed paths. -/
structure SymmetryGroup.Family (g : SymmetryGroup α) (J N : ℕ) (I : Set (Event α)) : Prop where
  placed : ∀ e ∈ I, Placed J N e
  later : ∀ e ∈ I, ∀ q : ℤ, e.later (q * g.period) (g.rename q) ∈ I
  unique : ∀ e ∈ I, ∀ f ∈ I, e.juggler = f.juggler → e.hand = f.hand → e.time = f.time → e = f

/-- Moments at which events happen: all of those within the loop, and of the others all that lie
between two of these moments. -/
structure Moment.Shows (g : SymmetryGroup α) (I : Set (Event α)) (moments : List (Moment α)) :
    Prop where
  listed : Listed moments
  image : ∀ m ∈ moments, m.event ∈ I
  once : ∀ m ∈ moments, ∀ n ∈ moments, m.event = n.event → m = n
  within : ∀ e ∈ I, 0 ≤ e.time → e.time < g.period → ∃ m ∈ moments, m.event = e
  between : ∀ e ∈ I, ∀ m ∈ moments, ∀ n ∈ moments, m.time < e.time → e.time < n.time →
    ∃ o ∈ moments, o.event = e

/-- Events that touch a path, with none in between. -/
structure Event.Adjacent (I : Set (Event α)) (p : ℕ) (e f : Event α) : Prop where
  mem : e ∈ I ∧ f ∈ I
  touch : e.Touches p ∧ f.Touches p
  lt : e.time < f.time
  apart : ∀ o ∈ I, o.Touches p → o.time ≤ e.time ∨ f.time ≤ o.time

variable {symmetries : List (Symmetry α)} {J N : ℕ} {g : SymmetryGroup α} {I : Set (Event α)}

namespace Moment.Listed

variable {moments : List (Moment α)} (h : Listed moments)

include h

theorem nodup : moments.Nodup :=
  h.sorted.imp fun h heq ↦ absurd (congrArg Moment.index heq) h.1.ne

/-- Between an earlier touch of a path and a later one there is a step from before to after. -/
theorem exists_step {p : ℕ} {m n : Moment α} (hm : m ∈ moments) (hn : n ∈ moments)
    (htouch : m.Touches p) (htouch' : n.Touches p) {P : α → Prop} (hP : ∀ s t, s ≤ t → P t → P s)
    (hPm : P m.time) (hPn : ¬P n.time) :
    ∃ a b, (a, b) ∈ steps (Touch.ofPath moments p) ∧ P a.time ∧ ¬P b.time := by
  obtain ⟨t, ht, hpath⟩ := htouch
  obtain ⟨t', ht', hpath'⟩ := htouch'
  exact exists_step_across (P := fun a : Touch α ↦ P a.time)
    ((h.sorted_time_ofPath p).imp fun hle ↦ hP _ _ hle)
    (Touch.mem_ofPath (t := ⟨m, t⟩).mpr ⟨hm, ht, hpath⟩)
    (Touch.mem_ofPath (t := ⟨n, t'⟩).mpr ⟨hn, ht', hpath'⟩) hPm hPn

end Moment.Listed

namespace SymmetryGroup.Family

variable (h : g.Family J N I) (hg : g.IsGroupOf symmetries J N)

include h hg

theorem later_neg {e : Event α} (he : e ∈ I) (q : ℤ) :
    (e.later (q * g.period) (g.rename q)).later ((-q : ℤ) * g.period) (g.rename (-q)) = e := by
  rw [Event.later_later]
  refine Event.later_eq_self (by push_cast; ring) fun t ht ↦ ?_
  exact hg.rename_neg q ((h.placed e he).path t ht)

theorem touches_later {e : Event α} (he : e ∈ I) {s : α} {q : ℤ} {p : ℕ} (hp : 1 ≤ p ∧ p ≤ N) :
    (e.later s (g.rename q)).Touches (g.rename q p) ↔ e.Touches p := by
  have hfilter := hg.filter_later (h.placed e he) (s := s) q hp
  have hne (f : Event α) (p : ℕ) : f.Touches p ↔ f.transitions.filter (·.path == p) ≠ [] := by
    simp [Event.Touches, List.filter_eq_nil_iff]
  rw [hne, hne, hfilter, ne_eq, ne_eq, List.map_eq_nil_iff]

/-- Some periods later, or earlier, an event is in the loop. -/
theorem exists_in_loop {e : Event α} (he : e ∈ I) : ∃ q : ℤ, ∃ f ∈ I,
    e = f.later (q * g.period) (g.rename q) ∧ 0 ≤ f.time ∧ f.time < g.period := by
  obtain ⟨q, hlow, hhigh⟩ := exists_period hg.period_pos e.time
  refine ⟨-q, _, h.later e he q, (h.later_neg hg he q).symm, hlow, hhigh⟩

end SymmetryGroup.Family

namespace Event.Adjacent

variable {p : ℕ} {e f e' f' : Event α} {t : α}

/-- There is one pair of touches around every time. -/
theorem unique (halone : ∀ e ∈ I, ∀ f ∈ I, e.Touches p → f.Touches p → e.time = f.time → e = f)
    (h : Adjacent I p e f) (h' : Adjacent I p e' f') (hlt : e.time < f'.time)
    (hlt' : e'.time < f.time) : e = e' ∧ f = f' := by
  have hle := (h.apart e' h'.mem.1 h'.touch.1).resolve_right (not_le.mpr hlt')
  have hle' := (h'.apart e h.mem.1 h.touch.1).resolve_right (not_le.mpr hlt)
  have hge := (h.apart f' h'.mem.2 h'.touch.2).resolve_left (not_le.mpr hlt)
  have hge' := (h'.apart f h.mem.2 h.touch.2).resolve_left (not_le.mpr hlt')
  exact ⟨halone e h.mem.1 e' h'.mem.1 h.touch.1 h'.touch.1 (le_antisymm hle' hle),
    halone f h.mem.2 f' h'.mem.2 h.touch.2 h'.touch.2 (le_antisymm hge hge')⟩

theorem later (hI : g.Family J N I) (hg : g.IsGroupOf symmetries J N) (hp : 1 ≤ p ∧ p ≤ N)
    (h : Adjacent I p e f) (q : ℤ) :
    Adjacent I (g.rename q p) (e.later (q * g.period) (g.rename q))
      (f.later (q * g.period) (g.rename q)) := by
  refine ⟨⟨hI.later e h.mem.1 q, hI.later f h.mem.2 q⟩,
    ⟨(hI.touches_later hg h.mem.1 hp).mpr h.touch.1,
      (hI.touches_later hg h.mem.2 hp).mpr h.touch.2⟩, by simpa using h.lt, fun o ho htouch ↦ ?_⟩
  rw [← hI.later_neg hg ho (-q), neg_neg, hI.touches_later hg (hI.later o ho (-q)) hp] at htouch
  refine (h.apart _ (hI.later o ho (-q)) htouch).imp (fun hle ↦ ?_) fun hle ↦ ?_
  all_goals
    simp only [Event.time_later] at hle ⊢
    push_cast at hle
    linarith

end Event.Adjacent

namespace Moment.Shows

variable {moments : List (Moment α)} (h : Shows g I moments)

include h

/-- A step of a path that takes time leads from one touch to the next. -/
theorem adjacent_of_step {p : ℕ} {a b : Touch α}
    (hab : (a, b) ∈ steps (Touch.ofPath moments p)) (hlt : a.time < b.time) :
    Event.Adjacent I p a.moment.event b.moment.event := by
  obtain ⟨ha, hb⟩ := mem_steps hab
  obtain ⟨ham, hat, hap⟩ := Touch.mem_ofPath.mp ha
  obtain ⟨hbm, hbt, hbp⟩ := Touch.mem_ofPath.mp hb
  refine ⟨⟨h.image _ ham, h.image _ hbm⟩, ⟨⟨_, hat, hap⟩, ⟨_, hbt, hbp⟩⟩, hlt,
    fun e he htouch ↦ ?_⟩
  by_contra hnot
  push Not at hnot
  obtain ⟨o, ho, rfl⟩ := h.between e he _ ham _ hbm hnot.1 hnot.2
  obtain ⟨t, ht, hp⟩ := htouch
  rcases rel_of_step (h.listed.sorted_time_ofPath p) (fun a ↦ le_refl a.time) hab
    (Touch.mem_ofPath (t := ⟨o, t⟩).mpr ⟨ho, ht, hp⟩) with hle | hle
  · exact absurd hle (not_le.mpr hnot.1)
  · exact absurd hle (not_le.mpr hnot.2)

/-- A path that is touched once at a time within the loop is so at all times. -/
theorem alone (hI : g.Family J N I) (hg : g.IsGroupOf symmetries J N) {p : ℕ}
    (hp : 1 ≤ p ∧ p ≤ N)
    (halone : ∀ p, 1 ≤ p ∧ p ≤ N → ∀ m ∈ moments, ∀ n ∈ moments, m.Touches p → n.Touches p →
      m.time = n.time → m = n) :
    ∀ e ∈ I, ∀ f ∈ I, e.Touches p → f.Touches p → e.time = f.time → e = f := by
  intro e he f hf htouch htouch' htime
  obtain ⟨q, hlow, hhigh⟩ := exists_period hg.period_pos e.time
  obtain ⟨m, hm, hmeq⟩ := h.within _ (hI.later e he q) hlow hhigh
  obtain ⟨n, hn, hneq⟩ := h.within _ (hI.later f hf q) (by rwa [Event.time_later, ← htime])
    (by rwa [Event.time_later, ← htime])
  have hmn := halone (g.rename q p) (hg.rename_mem q hp) m hm n hn
    (show m.event.Touches _ from hmeq ▸ (hI.touches_later hg he hp).mpr htouch)
    (show n.event.Touches _ from hneq ▸ (hI.touches_later hg hf hp).mpr htouch')
    (by rw [time, time, hmeq, hneq, Event.time_later, Event.time_later, htime])
  rw [← hI.later_neg hg he q, ← hI.later_neg hg hf q, ← hmeq, ← hneq, hmn]

end Moment.Shows

/-- The images of some events, at all times. -/
def SymmetryGroup.imagesOf (g : SymmetryGroup α) (es : List (Event α)) : Set (Event α) :=
  {e | ∃ f ∈ es, ∃ k, e = (g.image k).apply f}

/-- Whether two events are images of one. -/
def SymmetryGroup.Related (g : SymmetryGroup α) (es : List (Event α)) (e f : Event α) : Prop :=
  ∃ s ∈ es, (∃ k, e = (g.image k).apply s) ∧ ∃ k, f = (g.image k).apply s

section Perm

variable {seeds seeds' : List (Event α)} (hperm : seeds.Perm seeds')

include hperm

theorem SymmetryGroup.imagesOf_perm : g.imagesOf seeds = g.imagesOf seeds' := by
  simp only [imagesOf, hperm.mem_iff]

theorem SymmetryGroup.related_perm : g.Related seeds = g.Related seeds' := by
  funext e f
  simp only [Related, hperm.mem_iff]

end Perm

namespace Moment.Expanded

variable {seeds : List (Event α)} {moments : List (Moment α)}

section Free

variable (hg : g.IsGroupOf symmetries J N) (hs : SymmetryGroup.Separated g.period symmetries)
  (hseeds : ∀ e ∈ seeds, Placed J N e) (hfree : ∀ e ∈ seeds, ¬g.Shadows e.juggler)
  (x : Expanded seeds g J N ⟨0, g.period⟩ moments)
include hg hs hseeds hfree x

theorem family : g.Family J N (g.imagesOf seeds) := by
  refine ⟨?_, ?_, ?_⟩
  · rintro _ ⟨s, hmem, k, rfl⟩
    exact hg.placed_image (hseeds s hmem) k
  · rintro _ ⟨s, hmem, k, rfl⟩ q
    exact ⟨s, hmem, k + q * g.size, (hg.image_add_size (hseeds s hmem) k q).symm⟩
  · rintro _ ⟨s, hmem, k, rfl⟩ _ ⟨s', hmem', k', rfl⟩ hj hhand htime
    obtain ⟨i, hi⟩ := List.getElem?_of_mem hmem
    obtain ⟨i', hi'⟩ := List.getElem?_of_mem hmem'
    rw [SymmetryGroup.time_image, SymmetryGroup.time_image] at htime
    obtain ⟨rfl, rfl⟩ := x.image_unique hg hs hseeds hfree hi hi' ⟨hj, hhand⟩ htime
    rw [Option.some.inj (hi.symm.trans hi')]

theorem shows : Shows g (g.imagesOf seeds) moments := by
  have f := Expansion.Filled.ofExpanded x hg hseeds fun o ho ↦ x.mem_kept hg hs hseeds hfree ho
  have hmade {i : ℕ} {e : Event α} (he : seeds[i]? = some e) {k : ℤ}
      (hmem : f.run.low i < k ∧ k < f.run.high i) :
      ∃ m ∈ moments, m.event = (g.image k).apply e := by
    obtain ⟨m, hm, heq⟩ := f.moment _ ((f.run.mem_iff he k).mpr hmem)
    exact ⟨m, hm, congrArg Generated.event heq⟩
  refine ⟨x.listed, fun m hm ↦ ?_, fun m hm n hn heq ↦ ?_, ?_, ?_⟩
  · obtain ⟨e, he, heq⟩ := f.run.generated (f.of_moment m hm)
    exact ⟨e, List.mem_of_getElem? he, _, congrArg Generated.event heq⟩
  · exact x.unique hm hn ⟨by rw [heq], by rw [heq]⟩ (by rw [time, time, heq])
  · rintro _ ⟨s, hmem, k, rfl⟩ hlow hhigh
    obtain ⟨i, hi⟩ := List.getElem?_of_mem hmem
    rw [SymmetryGroup.time_image] at hlow hhigh
    have := x.mem_kept hg hs hseeds hfree (mem_made_of_within hg x hi
      (by linarith [timeTolerance_pos (α := α)]) hhigh)
    obtain ⟨m, hm, heq⟩ := Moment.exists_mem_numbered this
    exact ⟨m, x.moments_eq ▸ hm, congrArg Generated.event heq⟩
  · rintro _ ⟨s, hmem, k, rfl⟩ m hm n hn hlow hhigh
    obtain ⟨i, hi⟩ := List.getElem?_of_mem hmem
    rw [SymmetryGroup.time_image] at hlow hhigh
    exact hmade hi ⟨f.low_lt_of_lt hg hg.period_pos.le hi hm hlow,
      f.lt_high_of_lt hg hi hn hhigh⟩

theorem related_iff {m n : Moment α} (hm : m ∈ moments) (hn : n ∈ moments) :
    m.seed = n.seed ↔ g.Related seeds m.event n.event := by
  have himage {m : Moment α} (hm : m ∈ moments) : ∃ e, seeds[m.seed]? = some e ∧
      m.event = (g.image m.image).apply e := by
    rw [x.moments_eq] at hm
    obtain ⟨e, he, heq⟩ := x.run.generated (x.mem_made_of_kept (Moment.mem_numbered hm))
    exact ⟨e, he, congrArg Generated.event heq⟩
  obtain ⟨e, he, heq⟩ := himage hm
  obtain ⟨e', he', heq'⟩ := himage hn
  constructor
  · intro hseed
    obtain rfl := Option.some.inj (he.symm.trans (hseed ▸ he'))
    exact ⟨e, List.mem_of_getElem? he, ⟨_, heq⟩, _, heq'⟩
  · rintro ⟨s, hmem, ⟨k, hk⟩, k', hk'⟩
    obtain ⟨i, hi⟩ := List.getElem?_of_mem hmem
    have hseed {e : Event α} {i' : ℕ} {l l' : ℤ} (he : seeds[i']? = some e)
        (heq : (g.image l').apply e = (g.image l).apply s) : i' = i :=
      (x.image_unique hg hs hseeds hfree he hi
        (show Generated.SameHand ⟨i', l', (g.image l').apply e⟩ ⟨i, l, (g.image l).apply s⟩ from
          ⟨by rw [heq], by rw [heq]⟩) (by
          rw [← SymmetryGroup.time_image, ← SymmetryGroup.time_image, heq])).1
    exact (hseed he (heq.symm.trans hk)).trans (hseed he' (heq'.symm.trans hk')).symm

end Free

end Moment.Expanded

end Juggling
