import Juggling.Proofs.Histories
import Juggling.Proofs.Settling

namespace Juggling

variable {α : Type} [Exact α]

namespace Expansion

variable {x : Expansion α} {N : ℕ} {made : List (Generated α)}

/-- Images without a gap: those of one seed follow each other, and none is left out in the loop,
from as much as the tolerance before it, or between two others. -/
structure Gapless (x : Expansion α) (made : List (Generated α)) : Prop where
  generated : ∀ o ∈ made, ∃ e, x.seeds[o.seed]? = some e ∧
    o = ⟨o.seed, o.image, (x.group.image o.image).apply e⟩
  nodup : made.Nodup
  block : ∀ i e, x.seeds[i]? = some e → ∃ low high : ℤ, ∀ k,
    (⟨i, k, (x.group.image k).apply e⟩ ∈ made ↔ low < k ∧ k < high)
  inside : ∀ i e, x.seeds[i]? = some e → ∀ k,
    x.loop.low - timeTolerance ≤ x.group.imageTime e k → x.group.imageTime e k < x.loop.high →
      ⟨i, k, (x.group.image k).apply e⟩ ∈ made
  between : ∀ a ∈ made, ∀ b ∈ made, ∀ i e, x.seeds[i]? = some e → ∀ k,
    a.event.time < x.group.imageTime e k → x.group.imageTime e k < b.event.time →
      ⟨i, k, (x.group.image k).apply e⟩ ∈ made

namespace Made

variable {symmetries : List (Symmetry α)} {J N' : ℕ} (m : x.Made N made)
  (hg : x.group.IsGroupOf symmetries J N')

include hg

theorem time_low_le {i : ℕ} {e : Event α} (he : x.seeds[i]? = some e) {o : Generated α}
    (ho : o ∈ made) : x.group.imageTime e (m.low i) ≤ o.event.time := by
  rcases m.mem_made.mp ho with ho | ho
  · have := (m.runBack.ordered hg (.inr rfl)).2 o ho i e he
    push_cast at this
    linarith
  · have hstart : Run.Beyond x 1 (fun i ↦ m.last i + 1) x.loop.high := fun j e' he' ↦ by
      have := (m.last_spec j e' he').2
      push_cast
      linarith
    have hle := (m.runForth.beyond hg (.inl rfl) hstart).1 o ho
    have hlow := (hg.imageTime_mono e (m.low_le_last i)).trans_lt (m.last_spec i e he).1
    push_cast at hle
    linarith

theorem le_time_high {i : ℕ} {e : Event α} (he : x.seeds[i]? = some e) {o : Generated α}
    (ho : o ∈ made) : o.event.time ≤ x.group.imageTime e (m.high i) := by
  rcases m.mem_made.mp ho with ho | ho
  · have hstart : Run.Beyond x (-1) m.last x.loop.high := fun j e' he' ↦ by
      have := (m.last_spec j e' he').1
      push_cast
      linarith
    have hle := (m.runBack.beyond hg (.inr rfl) hstart).1 o ho
    have hlast := m.last_lt_high i
    have hhigh := (m.last_spec i e he).2.trans
      (hg.imageTime_mono e (show m.last i + 1 ≤ m.high i by omega))
    push_cast at hle
    linarith
  · have := (m.runForth.ordered hg (.inl rfl)).2 o ho i e he
    push_cast at this
    linarith

include m in
theorem gapless : x.Gapless made := by
  refine ⟨fun o ho ↦ m.generated ho, m.nodup, fun i e he ↦ ⟨m.low i, m.high i, m.mem_iff he⟩,
    fun i e he k hlow hhigh ↦ ?_, fun a ha b hb i e he k hak hkb ↦ ?_⟩
  · refine (m.mem_iff he k).mpr ⟨?_, ?_⟩
    · by_contra! hk
      have := hg.imageTime_mono e hk
      linarith [m.low_spec i e he]
    · by_contra! hk
      have hlast := m.last_lt_high i
      have := hg.imageTime_mono e (show m.last i + 1 ≤ k by omega)
      linarith [(m.last_spec i e he).2]
  · refine (m.mem_iff he k).mpr ⟨?_, ?_⟩
    · by_contra! hk
      have := hg.imageTime_mono e hk
      linarith [m.time_low_le hg he ha]
    · by_contra! hk
      have := hg.imageTime_mono e hk
      linarith [m.le_time_high hg he hb]

end Made

end Expansion

namespace Moment

variable {seeds : List (Event α)} {g : SymmetryGroup α} {J N : ℕ} {loop : Window α}
  {moments : List (Moment α)}

/-- A timeline in order, in which every image that was made is there or has another in its place,
and on each hand the images are apart. -/
structure Arranged (made : List (Generated α)) (moments : List (Moment α)) : Prop where
  of_made : ∀ m ∈ moments, m.toGenerated ∈ made
  stands : ∀ o ∈ made, ∃ m ∈ moments, m.toGenerated = o ∨
    Generated.StandsFor (made.mergeSort Generated.notAfter) m.toGenerated o
  sorted : moments.Pairwise fun m n ↦ Generated.notAfter m.toGenerated n.toGenerated = true
  apart : moments.Pairwise fun m n ↦ Generated.Apart m.toGenerated n.toGenerated
  neighbours : ∀ l : Timeline α, l.moments = moments → ∀ m ∈ moments, ∀ n,
    (l.next? m = some n ↔ (m, n) ∈ steps moments) ∧
    (l.prev? m = some n ↔ (n, m) ∈ steps moments)

omit [Exact α] in
theorem pairwise_numbered {R : Generated α → Generated α → Prop} {kept : List (Generated α)}
    (h : kept.Pairwise R) : (numbered kept).Pairwise fun m n ↦ R m.toGenerated n.toGenerated := by
  rw [List.pairwise_iff_getElem] at h ⊢
  intro i j hi hj hij
  simp only [numbered, List.length_mapIdx] at hi hj
  simp only [numbered, List.getElem_mapIdx]
  exact h i j hi hj hij

theorem mem_steps_iff {β : Type} {xs : List β} {a b : β} :
    (a, b) ∈ steps xs ↔ ∃ i, xs[i]? = some a ∧ xs[i + 1]? = some b := by
  rw [steps, List.mem_iff_getElem?]
  refine exists_congr fun i ↦ ?_
  rw [List.getElem?_zip_eq_some, List.getElem?_tail]

namespace Listed

variable (h : Listed moments) {l : Timeline α}

include h

theorem next?_eq_some (hl : l.moments = moments) {m n : Moment α} (hm : m ∈ moments) :
    l.next? m = some n ↔ (m, n) ∈ steps moments := by
  rw [Timeline.next?, hl, mem_steps_iff]
  obtain ⟨i, hi⟩ := List.mem_iff_getElem?.mp hm
  constructor
  · intro hn
    rw [h.index i m hi] at hn
    exact ⟨i, hi, hn⟩
  · rintro ⟨j, hj, hn⟩
    rwa [h.index j m hj]

theorem prev?_eq_some (hl : l.moments = moments) {m n : Moment α} (hm : m ∈ moments) :
    l.prev? m = some n ↔ (n, m) ∈ steps moments := by
  rw [Timeline.prev?, hl, mem_steps_iff]
  obtain ⟨i, hi⟩ := List.mem_iff_getElem?.mp hm
  constructor
  · intro hn
    split_ifs at hn with hzero
    rw [h.index i m hi] at hn hzero
    exact ⟨i - 1, hn, by rwa [Nat.sub_add_cancel (by omega)]⟩
  · rintro ⟨j, hj, hn⟩
    rw [h.index (j + 1) m hn, if_neg (by omega)]
    exact hj

end Listed

theorem Expanded.arranged (x : Expanded seeds g J N loop moments) : Arranged x.made moments := by
  suffices h : Arranged x.made (numbered x.kept) by rwa [← x.moments_eq] at h
  have hlisted := listed_numbered (x.sorted.imp fun h ↦ ((Generated.notAfter_iff _ _).mp h).1)
  refine ⟨fun m hm ↦ x.mem_made_of_kept (mem_numbered hm), fun o ho ↦ ?_,
    pairwise_numbered x.sorted, pairwise_numbered x.apart,
    fun l hl m hm n ↦ ⟨hlisted.next?_eq_some hl hm, hlisted.prev?_eq_some hl hm⟩⟩
  rcases x.stands o ho with hkept | ⟨k, hk, hstands⟩
  · obtain ⟨m, hm, heq⟩ := exists_mem_numbered hkept
    exact ⟨m, hm, .inl heq⟩
  · obtain ⟨m, hm, heq⟩ := exists_mem_numbered hk
    exact ⟨m, hm, .inr (heq ▸ hstands)⟩

/-- The moments of a timeline come from images without a gap, and are in order with none of them
lost. -/
theorem gapless_arranged {symmetries : List (Symmetry α)}
    (hfits : ∀ s ∈ symmetries, (SymmetryGroup.ofShift s (0 : α)).Fits J N)
    (hok : SymmetryGroup.ofSymmetries symmetries J N = .ok g)
    (hexpand : expand seeds g J N loop = .ok moments) :
    ∃ coverage made, Coverage.scan seeds g J N = .ok coverage ∧
      Expansion.run ⟨seeds, g, coverage, loop⟩ N = .ok made ∧
      Expansion.Gapless ⟨seeds, g, coverage, loop⟩ made ∧ Arranged made moments := by
  have hg := SymmetryGroup.ofSymmetries_ok hfits hok
  obtain ⟨-, x, hrun⟩ := exists_expanded hg hexpand
  exact ⟨x.coverage, x.made, x.scan_eq, hrun, x.run.gapless hg, x.arranged⟩

theorem gapless_arranged_exchange :
    (∀ s ∈ Timeline.exchange.symmetries, (SymmetryGroup.ofShift s (0 : ℚ)).Fits 1 1) ∧
    SymmetryGroup.ofSymmetries Timeline.exchange.symmetries 1 1 = .ok Timeline.exchangeGroup ∧
    expand Timeline.exchange.events Timeline.exchangeGroup 1 1 ⟨0, Timeline.exchangeGroup.period⟩ =
      .ok (numbered Timeline.exchangeOrder) ∧
    ∃ made, Arranged made (numbered Timeline.exchangeOrder) := by
  have hfits := Timeline.exchange.fits Timeline.rearranges_exchange Timeline.validate_exchange
  have hok := Timeline.ofSymmetries_exchange
  have hexpand := Timeline.expand_exchange
  obtain ⟨-, made, -, -, -, harranged⟩ := gapless_arranged hfits hok hexpand
  exact ⟨hfits, hok, hexpand, made, harranged⟩

end Moment

end Juggling
