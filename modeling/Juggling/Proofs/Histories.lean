import Mathlib.Data.List.Chain
import Juggling.Proofs.Lookup
import Juggling.Proofs.Timeline

namespace Juggling

section Steps

variable {β : Type} {x y a b : β} {xs : List β} {R : β → β → Prop}

theorem steps_cons_cons : steps (x :: y :: xs) = (x, y) :: steps (y :: xs) := rfl

theorem steps_map {γ : Type} (f : β → γ) : steps (xs.map f) = (steps xs).map (Prod.map f f) := by
  rw [steps, steps, ← List.map_tail, List.zip_map]

theorem mem_steps {p : β × β} (hp : p ∈ steps xs) : p.1 ∈ xs ∧ p.2 ∈ xs :=
  ⟨(List.of_mem_zip hp).1, List.mem_of_mem_tail (List.of_mem_zip hp).2⟩

theorem mem_steps_append (pre post : List β) (a b : β) :
    (a, b) ∈ steps (pre ++ a :: b :: post) := by
  induction pre with
  | nil => exact List.mem_cons_self
  | cons x pre ih =>
    cases pre with
    | nil => exact List.mem_cons_of_mem _ ih
    | cons y pre => exact List.mem_cons_of_mem _ ih

theorem exists_append_of_mem_steps (h : (a, b) ∈ steps xs) :
    ∃ pre post, xs = pre ++ a :: b :: post := by
  induction xs with
  | nil => cases h
  | cons x xs ih =>
    cases xs with
    | nil => cases h
    | cons y xs =>
      rcases List.mem_cons.mp h with heq | h
      · cases heq
        exact ⟨[], xs, rfl⟩
      · obtain ⟨pre, post, heq⟩ := ih h
        exact ⟨x :: pre, post, by rw [heq]; rfl⟩

theorem isChain_of_steps (h : ∀ s ∈ steps xs, R s.1 s.2) : xs.IsChain R := by
  induction xs with
  | nil => exact .nil
  | cons x xs ih =>
    cases xs with
    | nil => exact .singleton _
    | cons y xs =>
      rw [steps_cons_cons] at h
      obtain ⟨hxy, hxs⟩ := List.forall_mem_cons.mp h
      exact List.isChain_cons_cons.mpr ⟨hxy, ih hxs⟩

/-- Each step starts where the one before it ends. -/
theorem isChain_steps (xs : List β) : (steps xs).IsChain fun s s' ↦ s.2 = s'.1 := by
  induction xs with
  | nil => exact .nil
  | cons x xs ih =>
    cases xs with
    | nil => exact .nil
    | cons y xs =>
      cases xs with
      | nil => exact .singleton _
      | cons z xs => exact List.isChain_cons_cons.mpr ⟨rfl, ih⟩

section Order

variable (hxs : xs.Pairwise R)

include hxs

theorem steps_of_pairwise (hab : (a, b) ∈ steps xs) : R a b := by
  obtain ⟨pre, post, rfl⟩ := exists_append_of_mem_steps hab
  exact (List.pairwise_cons.mp (List.pairwise_append.mp hxs).2.1).1 b List.mem_cons_self

/-- Nothing in a list lies between the ends of a step. -/
theorem rel_of_step (hrefl : ∀ a, R a a) (hab : (a, b) ∈ steps xs) (hx : x ∈ xs) :
    R x a ∨ R b x := by
  obtain ⟨pre, post, rfl⟩ := exists_append_of_mem_steps hab
  obtain ⟨-, htail, hpre⟩ := List.pairwise_append.mp hxs
  rcases List.mem_append.mp hx with hx | hx
  · exact .inl (hpre x hx a List.mem_cons_self)
  · rcases List.mem_cons.mp hx with rfl | hx
    · exact .inl (hrefl x)
    · rcases List.mem_cons.mp hx with rfl | hx
      · exact .inr (hrefl x)
      · exact .inr ((List.pairwise_cons.mp (List.pairwise_cons.mp htail).2).1 x hx)

theorem exists_step_to (hx : x ∈ xs) (hy : y ∈ xs) (hne : x ≠ y) (hnot : ¬R x y) :
    ∃ a, (a, x) ∈ steps xs := by
  obtain ⟨pre, post, rfl⟩ := List.append_of_mem hx
  rcases pre.eq_nil_or_concat with rfl | ⟨pre, a, rfl⟩
  · rcases List.mem_cons.mp hy with rfl | hy
    · exact absurd rfl hne
    · exact absurd ((List.pairwise_cons.mp hxs).1 y hy) hnot
  · exact ⟨a, by simpa using mem_steps_append pre post a x⟩

theorem exists_step_from (hx : x ∈ xs) (hy : y ∈ xs) (hne : x ≠ y) (hnot : ¬R y x) :
    ∃ b, (x, b) ∈ steps xs := by
  obtain ⟨pre, post, rfl⟩ := List.append_of_mem hx
  cases post with
  | nil =>
    rcases List.mem_append.mp hy with hy | hy
    · exact absurd ((List.pairwise_append.mp hxs).2.2 y hy x List.mem_cons_self) hnot
    · exact absurd (List.mem_singleton.mp hy).symm hne
  | cons b post => exact ⟨b, mem_steps_append pre post x b⟩

theorem rel_getLast (hrefl : ∀ a, R a a) (hx : x ∈ xs) (hy : xs.getLast? = some y) : R x y := by
  obtain ⟨ys, rfl⟩ := List.getLast?_eq_some_iff.mp hy
  rcases List.mem_append.mp hx with hx | hx
  · exact (List.pairwise_append.mp hxs).2.2 x hx y List.mem_cons_self
  · rw [List.mem_singleton.mp hx]
    exact hrefl y

theorem head_rel (hrefl : ∀ a, R a a) (hx : x ∈ xs) (hy : xs.head? = some y) : R y x := by
  obtain ⟨ys, rfl⟩ := List.head?_eq_some_iff.mp hy
  rcases List.mem_cons.mp hx with rfl | hx
  · exact hrefl x
  · exact (List.pairwise_cons.mp hxs).1 x hx

end Order

variable {α γ : Type} [Exact α] {range : γ → Window α} {time : β → α} {ys : List γ}

/-- Links over the steps of a list in order of time. -/
theorem linked_of_steps (hsorted : (x :: xs).Pairwise fun a b ↦ time a ≤ time b)
    (h : List.Forall₂ (fun p y ↦ range y = ⟨time p.1, time p.2⟩) (steps (x :: xs)) ys) :
    Linked range (time x) ys (time ((x :: xs).getLast (List.cons_ne_nil _ _))) := by
  induction xs generalizing x ys with
  | nil =>
    cases h
    rfl
  | cons x' xs ih =>
    rw [steps_cons_cons] at h
    cases h with
    | @cons _ y _ ys hy hys =>
      obtain ⟨hx, hsorted⟩ := List.pairwise_cons.mp hsorted
      rw [List.getLast_cons (List.cons_ne_nil _ _)]
      refine ⟨by rw [hy], ?_, ?_⟩
      · rw [hy]
        exact hx x' List.mem_cons_self
      · rw [hy]
        exact ih hsorted hys

end Steps

namespace Touch

variable {α : Type} {moments : List (Moment α)}

theorem mem_ofPath {p : ℕ} {t : Touch α} : t ∈ ofPath moments p ↔
    t.moment ∈ moments ∧ t.transition ∈ t.moment.event.transitions ∧ t.transition.path = p := by
  simp only [ofPath, List.mem_flatMap, List.mem_map, List.mem_filter, beq_iff_eq]
  constructor
  · rintro ⟨m, hm, t, ⟨ht, hp⟩, rfl⟩
    exact ⟨hm, ht, hp⟩
  · rintro ⟨hm, ht, hp⟩
    exact ⟨t.moment, hm, t.transition, ⟨ht, hp⟩, rfl⟩

end Touch

section Build

variable {α : Type} [Scalar α] [Numeral α] {place : Event α → Coordinate α} {p : ℕ}

theorem PathHistory.build_ok {moments : List (Moment α)} {h : PathHistory α}
    (hok : build place moments p = .ok h) : h.touches = Touch.ofPath moments p ∧
    List.Forall₂ (fun s l ↦ PathLink.build place p s.1 s.2 = .ok l) (steps h.touches) h.links := by
  obtain ⟨links, hlinks, hh⟩ := bind_eq_ok.mp hok
  obtain rfl := pure_eq_ok.mp hh
  exact ⟨rfl, mapM_eq_ok.mp hlinks⟩

theorem PathLink.build_ok {a b : Touch α} {l : PathLink α} (hok : build place p a b = .ok l) :
    ∃ passage, passage? place p a b = .ok passage ∧ l = ⟨p, a, b, passage⟩ := by
  obtain ⟨passage, hpassage, rfl⟩ := map_eq_ok.mp hok
  exact ⟨passage, hpassage, rfl⟩

end Build

variable {α : Type} [Exact α] {moments : List (Moment α)}

/-- Moments in order of time, each with its place in the list as its index. -/
structure Moment.Listed (moments : List (Moment α)) : Prop where
  sorted : moments.Pairwise fun m n ↦ m.index < n.index ∧ m.time ≤ n.time
  index : ∀ (i : ℕ) (m : Moment α), moments[i]? = some m → m.index = i

namespace Moment

theorem listed_numbered {kept : List (Generated α)}
    (h : kept.Pairwise fun a b ↦ a.event.time ≤ b.event.time) : Listed (numbered kept) := by
  constructor
  · rw [List.pairwise_iff_getElem] at h ⊢
    intro i j hi hj hij
    simp only [numbered, List.length_mapIdx] at hi hj
    simp only [numbered, List.getElem_mapIdx]
    exact ⟨hij, h i j hi hj hij⟩
  · intro i m hm
    simp only [numbered, List.getElem?_mapIdx, Option.map_eq_some_iff] at hm
    obtain ⟨o, -, rfl⟩ := hm
    rfl

namespace Listed

variable (h : Listed moments)

include h

theorem eq_of_index_eq {m n : Moment α} (hm : m ∈ moments) (hn : n ∈ moments)
    (heq : m.index = n.index) : m = n := by
  obtain ⟨i, hi, rfl⟩ := List.getElem_of_mem hm
  obtain ⟨j, hj, rfl⟩ := List.getElem_of_mem hn
  rw [h.index i _ (List.getElem?_eq_getElem hi), h.index j _ (List.getElem?_eq_getElem hj)] at heq
  subst heq
  rfl

theorem time_le_of_index_le {m n : Moment α} (hm : m ∈ moments) (hn : n ∈ moments)
    (hle : m.index ≤ n.index) : m.time ≤ n.time := by
  obtain ⟨i, hi, rfl⟩ := List.getElem_of_mem hm
  obtain ⟨j, hj, rfl⟩ := List.getElem_of_mem hn
  rw [h.index i _ (List.getElem?_eq_getElem hi), h.index j _ (List.getElem?_eq_getElem hj)] at hle
  rcases hle.lt_or_eq with hlt | rfl
  · exact (List.pairwise_iff_getElem.mp h.sorted i j hi hj hlt).2
  · exact le_rfl

theorem sorted_ofPath (p : ℕ) :
    (Touch.ofPath moments p).Pairwise fun a b ↦ a.moment.index ≤ b.moment.index := by
  rw [Touch.ofPath, List.pairwise_flatMap]
  constructor
  · intro m hm
    refine List.pairwise_map.mpr (List.pairwise_of_forall fun _ _ ↦ le_rfl)
  · refine h.sorted.imp fun {m n} hmn a ha b hb ↦ ?_
    obtain ⟨t, -, rfl⟩ := List.mem_map.mp ha
    obtain ⟨t', -, rfl⟩ := List.mem_map.mp hb
    exact hmn.1.le

theorem sorted_time_ofPath (p : ℕ) :
    (Touch.ofPath moments p).Pairwise fun a b ↦ a.time ≤ b.time := by
  refine (h.sorted_ofPath p).imp_of_mem fun {a b} ha hb hab ↦ ?_
  exact h.time_le_of_index_le (Touch.mem_ofPath.mp ha).1 (Touch.mem_ofPath.mp hb).1 hab

theorem sorted_ofHand (j : ℕ) (hand : Hand) :
    (Moment.ofHand moments j hand).Pairwise fun m n ↦ m.index < n.index ∧ m.time ≤ n.time :=
  h.sorted.sublist List.filter_sublist

end Listed

end Moment

end Juggling
