import Mathlib.Data.List.TakeWhile
import Juggling.Proofs.Exact

namespace Juggling

variable {α β : Type} [Exact α] {range : β → Window α}

/-- Links from one time to another, each of which starts where the one before it ends. -/
def Linked (range : β → Window α) (a : α) : List β → α → Prop
  | [], b => a = b
  | k :: ks, b =>
    (range k).low = a ∧ (range k).low ≤ (range k).high ∧ Linked range (range k).high ks b

namespace Linked

variable {a b c : α} {k k' : β} {xs ys : List β}

theorem le (h : Linked range a xs b) : a ≤ b := by
  induction xs generalizing a with
  | nil => exact h.le
  | cons x xs ih =>
    obtain ⟨rfl, hle, hxs⟩ := h
    exact hle.trans (ih hxs)

theorem append (h : Linked range a xs b) (h' : Linked range b ys c) :
    Linked range a (xs ++ ys) c := by
  induction xs generalizing a with
  | nil =>
    cases h
    exact h'
  | cons x xs ih =>
    obtain ⟨rfl, hle, hxs⟩ := h
    exact ⟨rfl, hle, ih hxs⟩

theorem split (h : Linked range a (xs ++ ys) c) :
    ∃ b, Linked range a xs b ∧ Linked range b ys c := by
  induction xs generalizing a with
  | nil => exact ⟨a, rfl, h⟩
  | cons x xs ih =>
    obtain ⟨rfl, hle, h⟩ := h
    obtain ⟨b, hxs, hys⟩ := ih h
    exact ⟨b, ⟨rfl, hle, hxs⟩, hys⟩

theorem of_mem (h : Linked range a xs b) (hk : k ∈ xs) :
    a ≤ (range k).low ∧ (range k).low ≤ (range k).high ∧ (range k).high ≤ b := by
  induction xs generalizing a with
  | nil => cases hk
  | cons x xs ih =>
    obtain ⟨rfl, hle, hxs⟩ := h
    rcases List.mem_cons.mp hk with rfl | hk
    · exact ⟨le_rfl, hle, hxs.le⟩
    · exact ⟨hle.trans (ih hxs hk).1, (ih hxs hk).2⟩

/-- Two links are the same, or one is over when the other starts. -/
theorem disjoint (h : Linked range a xs b) (hk : k ∈ xs) (hk' : k' ∈ xs) :
    k = k' ∨ (range k).high ≤ (range k').low ∨ (range k').high ≤ (range k).low := by
  induction xs generalizing a with
  | nil => cases hk
  | cons x xs ih =>
    obtain ⟨-, -, hxs⟩ := h
    rcases List.mem_cons.mp hk, List.mem_cons.mp hk' with ⟨rfl | hmem, rfl | hmem'⟩
    · exact .inl rfl
    · exact .inr (.inl (hxs.of_mem hmem').1)
    · exact .inr (.inr (hxs.of_mem hmem).1)
    · exact ih hxs hmem hmem'

/-- Some link leads up to each time after the first. -/
theorem exists_up_to {t : α} (h : Linked range a xs b) (ha : a < t) (hb : t ≤ b) :
    ∃ k ∈ xs, (range k).low < t ∧ t ≤ (range k).high := by
  induction xs generalizing a with
  | nil => exact absurd (ha.trans_le hb) (not_lt.mpr h.ge)
  | cons x xs ih =>
    obtain ⟨rfl, -, hxs⟩ := h
    by_cases hle : t ≤ (range x).high
    · exact ⟨x, List.mem_cons_self, ha, hle⟩
    · obtain ⟨k, hk, hspan⟩ := ih hxs (not_le.mp hle)
      exact ⟨k, List.mem_cons_of_mem x hk, hspan⟩

end Linked

namespace Layout

variable {a b c t : α} {k k' : β} {xs ys : List β}

theorem linkAt?_eq_some (h : linkAt? range t xs = some k) :
    k ∈ xs ∧ (range k).low ≤ t ∧ t ≤ (range k).high := by
  unfold linkAt? at h
  obtain ⟨hlast, hhigh⟩ := Option.filter_eq_some_iff.mp h
  have hmem := List.mem_of_getLast? hlast
  have hlow := List.mem_takeWhile_imp hmem
  exact ⟨List.takeWhile_subset _ hmem, by simpa using hlow, by simpa using hhigh⟩

theorem linkAt?_singleton (hlow : (range k).low ≤ t) (hhigh : t ≤ (range k).high) :
    linkAt? range t [k] = some k := by
  simp [linkAt?, hlow, hhigh]

theorem linkAt?_cons_of_lt (hlow : (range k).low ≤ t) (hhigh : t ≤ (range k).high)
    (hlt : t < (range k').low) : linkAt? range t (k :: k' :: xs) = some k := by
  simp [linkAt?, hlow, hhigh, hlt]

theorem linkAt?_cons_of_le (hlow : (range k).low ≤ t) (hlow' : (range k').low ≤ t) :
    linkAt? range t (k :: k' :: xs) = linkAt? range t (k' :: xs) := by
  simp [linkAt?, hlow, hlow', List.getLast?_cons_cons]

/-- Links that are over when a time comes play no part. -/
theorem linkAt?_append_left (h : Linked range a xs b) (h' : Linked range b ys c) (hys : ys ≠ [])
    (ht : b ≤ t) : linkAt? range t (xs ++ ys) = linkAt? range t ys := by
  induction xs generalizing a with
  | nil => rfl
  | cons x xs ih =>
    obtain ⟨-, hle, hxs⟩ := h
    have hlow : (range x).low ≤ t := hle.trans (hxs.le.trans ht)
    rw [← ih hxs]
    cases xs with
    | nil =>
      cases ys with
      | nil => exact absurd rfl hys
      | cons y ys => exact linkAt?_cons_of_le hlow (h'.1.symm ▸ ht)
    | cons x' xs => exact linkAt?_cons_of_le hlow (hxs.2.1.trans (hxs.2.2.le.trans ht))

/-- Nor do links that have not started. -/
theorem linkAt?_append_right (h : Linked range a xs b) (h' : Linked range b ys c) (ha : a ≤ t)
    (ht : t < b) : linkAt? range t (xs ++ ys) = linkAt? range t xs := by
  induction xs generalizing a with
  | nil =>
    cases h
    exact absurd ht (not_lt.mpr ha)
  | cons x xs ih =>
    obtain ⟨rfl, hle, hxs⟩ := h
    by_cases hnext : (range x).high ≤ t
    · have hstep := ih hxs hnext
      cases xs with
      | nil =>
        cases hxs
        exact absurd ht (not_lt.mpr hnext)
      | cons x' xs =>
        rw [List.cons_append, List.cons_append, linkAt?_cons_of_le ha (hxs.1.symm ▸ hnext),
          linkAt?_cons_of_le ha (hxs.1.symm ▸ hnext)]
        exact hstep
    · rw [not_le] at hnext
      cases xs with
      | nil =>
        rw [linkAt?_singleton ha hnext.le]
        cases ys with
        | nil => exact linkAt?_singleton ha hnext.le
        | cons y ys =>
          cases hxs
          exact linkAt?_cons_of_lt ha hnext.le (h'.1.symm ▸ hnext)
      | cons x' xs =>
        rw [List.cons_append, List.cons_append, linkAt?_cons_of_lt ha hnext.le (hxs.1.symm ▸ hnext),
          linkAt?_cons_of_lt ha hnext.le (hxs.1.symm ▸ hnext)]

theorem exists_linkAt? (h : Linked range a xs b) (hxs : xs ≠ []) (ha : a ≤ t) (hb : t ≤ b) :
    ∃ k, linkAt? range t xs = some k := by
  induction xs generalizing a with
  | nil => exact absurd rfl hxs
  | cons x xs ih =>
    obtain ⟨rfl, hle, hxs⟩ := h
    cases xs with
    | nil =>
      cases hxs
      exact ⟨x, linkAt?_singleton ha hb⟩
    | cons x' xs =>
      by_cases hnext : (range x).high ≤ t
      · rw [linkAt?_cons_of_le ha (hxs.1.symm ▸ hnext)]
        exact ih hxs (List.cons_ne_nil _ _) hnext
      · rw [not_le] at hnext
        exact ⟨x, linkAt?_cons_of_lt ha hnext.le (hxs.1.symm ▸ hnext)⟩

theorem lt_of_linkAt? (h : Linked range a xs b) (hb : t < b) (hk : linkAt? range t xs = some k) :
    t < (range k).high := by
  induction xs generalizing a with
  | nil => simp [linkAt?] at hk
  | cons x xs ih =>
    obtain ⟨rfl, hle, hxs⟩ := h
    obtain ⟨-, hlow, hhigh⟩ := linkAt?_eq_some hk
    by_cases hstart : (range x).low ≤ t
    · cases xs with
      | nil =>
        cases hxs
        have hmem := (linkAt?_eq_some hk).1
        rw [List.mem_singleton.mp hmem]
        exact hb
      | cons x' xs =>
        by_cases hnext : (range x).high ≤ t
        · rw [linkAt?_cons_of_le hstart (hxs.1.symm ▸ hnext)] at hk
          exact ih hxs hk
        · rw [not_le] at hnext
          rw [linkAt?_cons_of_lt hstart hnext.le (hxs.1.symm ▸ hnext)] at hk
          obtain rfl := Option.some.inj hk
          exact hnext
    · simp [linkAt?, hstart] at hk

/-- While a link lasts it is the one looked up. -/
theorem linkAt?_of_mem (h : Linked range a xs b) (hk : k ∈ xs) (hlow : (range k).low ≤ t)
    (hhigh : t < (range k).high) : linkAt? range t xs = some k := by
  obtain ⟨ha, -, hb⟩ := h.of_mem hk
  obtain ⟨k', hk'⟩ :=
    exists_linkAt? h (List.ne_nil_of_mem hk) (ha.trans hlow) (hhigh.le.trans hb)
  obtain ⟨hmem, hlow', -⟩ := linkAt?_eq_some hk'
  have hhigh' := lt_of_linkAt? h (hhigh.trans_le hb) hk'
  rcases h.disjoint hmem hk with rfl | hend | hend
  · exact hk'
  · exact absurd (hhigh'.trans_le hend) (not_lt.mpr hlow)
  · exact absurd (hhigh.trans_le hend) (not_lt.mpr hlow')

end Layout

end Juggling
