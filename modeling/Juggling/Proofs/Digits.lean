import Mathlib.Algebra.Group.Nat.Defs
import Mathlib.Data.List.TakeWhile
import Mathlib.Data.Nat.Notation
import Juggling.Text

namespace Juggling.Text

theorem toList_toString (n : ℕ) : (toString n).toList = Nat.toDigits 10 n := Nat.toList_repr

theorem digitsValue_toDigits (n : ℕ) : digitsValue (Nat.toDigits 10 n) = n :=
  Nat.ofDigitChars_toDigits (by decide) (by decide)

theorem isDigit_of_mem {n : ℕ} {c : Char} (hc : c ∈ Nat.toDigits 10 n) : c.isDigit = true :=
  Nat.isDigit_of_mem_toDigits (by decide) (by decide) hc

theorem isBlank_of_isDigit {c : Char} (hc : c.isDigit = true) : isBlank c = false := by
  simp only [Char.isDigit, Bool.and_eq_true, decide_eq_true_eq, UInt32.le_iff_toNat_le] at hc
  have hlow : 48 ≤ c.toNat := hc.1
  have hhigh : c.toNat ≤ 57 := hc.2
  simp only [isBlank, Bool.or_eq_false_iff, Bool.and_eq_false_iff, beq_eq_false_iff_ne,
    decide_eq_false_iff_not]
  omega

/-- White space only. -/
def Blank (s : List Char) : Prop := ∀ c ∈ s, isBlank c = true

theorem blank_nil : Blank [] := fun _ h ↦ absurd h List.not_mem_nil

theorem Blank.append {s t : List Char} (hs : Blank s) (ht : Blank t) : Blank (s ++ t) :=
  List.forall_mem_append.mpr ⟨hs, ht⟩

section Trim

variable {s t w : List Char} {c : Char}

theorem exists_trimLeft (s : List Char) : ∃ w, Blank w ∧ s = w ++ trimLeft s :=
  ⟨s.takeWhile isBlank, fun _ hc ↦ List.mem_takeWhile_imp hc,
    List.takeWhile_append_dropWhile.symm⟩

theorem exists_trimRight (s : List Char) : ∃ w, Blank w ∧ s = trimRight s ++ w := by
  obtain ⟨w, hw, hs⟩ := exists_trimLeft s.reverse
  refine ⟨w.reverse, fun c hc ↦ hw c (List.mem_reverse.mp hc), ?_⟩
  rw [trimRight, ← trimLeft, ← List.reverse_append, ← hs, List.reverse_reverse]

theorem exists_trim (s : List Char) :
    ∃ w w', Blank w ∧ Blank w' ∧ s = w ++ trim s ++ w' := by
  obtain ⟨w, hw, hs⟩ := exists_trimLeft s
  obtain ⟨w', hw', hs'⟩ := exists_trimRight (trimLeft s)
  refine ⟨w, w', hw, hw', ?_⟩
  rw [trim, List.append_assoc, ← hs', ← hs]

theorem trimLeft_append (hw : Blank w) (s : List Char) : trimLeft (w ++ s) = trimLeft s :=
  List.dropWhile_append_of_pos hw

theorem trimLeft_blank (hw : Blank w) : trimLeft w = [] := by
  simpa [trimLeft] using trimLeft_append hw []

theorem trimRight_append (hw : Blank w) (s : List Char) : trimRight (s ++ w) = trimRight s := by
  have hw' : Blank w.reverse := fun c hc ↦ hw c (List.mem_reverse.mp hc)
  rw [trimRight, List.reverse_append, ← trimLeft, trimLeft_append hw', trimLeft, ← trimRight]

theorem trimLeft_cons (hc : isBlank c = false) (s : List Char) : trimLeft (c :: s) = c :: s := by
  simp [trimLeft, hc]

/-- What stands before a character that is no white space stays. -/
theorem trimRight_append_cons (hc : isBlank c = false) (s t : List Char) :
    trimRight (s ++ c :: t) = s ++ c :: trimRight t := by
  have key : (t.reverse ++ c :: s.reverse).dropWhile isBlank =
      t.reverse.dropWhile isBlank ++ c :: s.reverse := by
    rw [List.dropWhile_append]
    split_ifs with hempty
    · rw [List.isEmpty_iff.mp hempty, List.nil_append]
      exact trimLeft_cons hc _
    · rfl
  simp [trimRight, key]

theorem trimLeft_eq_self (hs : ∀ c ∈ s.head?, isBlank c = false) : trimLeft s = s := by
  cases s with
  | nil => rfl
  | cons c s => exact trimLeft_cons (hs c rfl) s

theorem trimRight_eq_self (hs : ∀ c ∈ s.getLast?, isBlank c = false) : trimRight s = s := by
  rw [trimRight, ← trimLeft, trimLeft_eq_self (by simpa using hs), List.reverse_reverse]

/-- White space around a text goes when there is none at the text's own ends. -/
theorem trim_between {w' : List Char} (hw : Blank w) (hw' : Blank w')
    (hfirst : ∀ c ∈ s.head?, isBlank c = false) (hlast : ∀ c ∈ s.getLast?, isBlank c = false) :
    trim (w ++ s ++ w') = s := by
  cases s with
  | nil =>
    rw [List.append_nil, trim, trimLeft_blank (hw.append hw')]
    rfl
  | cons c s =>
    rw [trim, List.append_assoc, trimLeft_append hw, List.cons_append,
      trimLeft_cons (hfirst c rfl), ← List.cons_append, trimRight_append hw',
      trimRight_eq_self hlast]

theorem trimLeft_trim (s : List Char) : trimLeft (trim s) = trim s := by
  cases h : trimLeft s with
  | nil =>
    rw [trim, h]
    rfl
  | cons c t =>
    have hc : isBlank c = false := by
      have := List.head?_dropWhile_not isBlank s
      rw [← trimLeft, h] at this
      simpa using this
    have := trimRight_append_cons hc [] t
    rw [List.nil_append, List.nil_append] at this
    rw [trim, h, this, trimLeft_cons hc]

theorem trim_eq_self (hs : ∀ c ∈ s, isBlank c = false) : trim s = s := by
  simpa using trim_between (s := s) blank_nil blank_nil
    (fun c hc ↦ hs c (List.mem_of_mem_head? hc)) (fun c hc ↦ hs c (List.mem_of_mem_getLast? hc))

end Trim

theorem trim_toDigits (n : ℕ) : trim (Nat.toDigits 10 n) = Nat.toDigits 10 n :=
  trim_eq_self fun _ hc ↦ isBlank_of_isDigit (isDigit_of_mem hc)

/-- How a number is written: digits, after at most one plus sign, with a value that 64 bits
hold. -/
def Spells (s : List Char) (n : ℕ) : Prop :=
  ∃ ds, (s = ds ∨ s = '+' :: ds) ∧ ds ≠ [] ∧ (∀ c ∈ ds, c.isDigit = true) ∧
    Nat.ofDigitChars 10 ds 0 = n ∧ n < 2 ^ 64

section Spells

variable {s : List Char} {n : ℕ}

theorem spells_toDigits (hn : n < natLimit) : Spells (Nat.toDigits 10 n) n :=
  ⟨_, .inl rfl, Nat.toDigits_ne_nil, fun _ hc ↦ isDigit_of_mem hc, digitsValue_toDigits n, hn⟩

theorem Spells.isDigit_or (h : Spells s n) {c : Char} (hc : c ∈ s) : c.isDigit = true ∨ c = '+' := by
  obtain ⟨ds, rfl | rfl, -, hdigit, -⟩ := h
  · exact .inl (hdigit c hc)
  · rcases List.mem_cons.mp hc with rfl | hc
    · exact .inr rfl
    · exact .inl (hdigit c hc)

theorem Spells.isBlank (h : Spells s n) {c : Char} (hc : c ∈ s) : isBlank c = false := by
  rcases h.isDigit_or hc with hdigit | rfl
  · exact isBlank_of_isDigit hdigit
  · decide

theorem Spells.ne_nil (h : Spells s n) : s ≠ [] := by
  obtain ⟨ds, rfl | rfl, hne, -⟩ := h
  · exact hne
  · exact List.cons_ne_nil _ _

theorem readNat?_eq_some : readNat? s = some n ↔ Spells s n := by
  have key (ds : List Char) : (if (ds.isEmpty || ds.any fun c ↦ !c.isDigit) = true then none
      else if digitsValue ds < natLimit then some (digitsValue ds) else none) = some n ↔
      ds ≠ [] ∧ (∀ c ∈ ds, c.isDigit = true) ∧ Nat.ofDigitChars 10 ds 0 = n ∧ n < 2 ^ 64 := by
    have hvalue : digitsValue ds = Nat.ofDigitChars 10 ds 0 := rfl
    have hlimit : natLimit = 2 ^ 64 := rfl
    rw [hvalue, hlimit]
    constructor
    · intro h
      split_ifs at h with hds hlt
      obtain rfl := Option.some.inj h
      simp only [Bool.or_eq_true, List.isEmpty_iff, List.any_eq_true, Bool.not_eq_true',
        not_or, not_exists, not_and, Bool.not_eq_false] at hds
      exact ⟨hds.1, hds.2, rfl, hlt⟩
    · rintro ⟨hne, hdigit, rfl, hlt⟩
      rw [if_neg, if_pos hlt]
      simpa [hne] using hdigit
  unfold readNat?
  split
  case h_1 ds =>
    rw [key]
    constructor
    · exact fun h ↦ ⟨ds, .inr rfl, h⟩
    · rintro ⟨ds', h | h, hds⟩
      · exact absurd (hds.2.1 '+' (h ▸ List.mem_cons_self)) (by decide)
      · exact (List.cons.inj h).2 ▸ hds
  case h_2 hplus =>
    rw [key]
    constructor
    · exact fun h ↦ ⟨s, .inl rfl, h⟩
    · rintro ⟨ds', rfl | rfl, hds⟩
      · exact hds
      · exact absurd rfl (hplus ds')

theorem readNat?_toDigits (hn : n < natLimit) : readNat? (Nat.toDigits 10 n) = some n :=
  readNat?_eq_some.mpr (spells_toDigits hn)

theorem lt_of_readNat? (h : readNat? s = some n) : n < natLimit := by
  obtain ⟨-, -, -, -, -, hlt⟩ := readNat?_eq_some.mp h
  exact hlt

end Spells

theorem cut?_append {c : Char} {s t : List Char} (hs : c ∉ s) :
    cut? c (s ++ c :: t) = some (s, t) := by
  induction s with
  | nil => simp [cut?]
  | cons d s ih =>
    obtain ⟨hne, hs⟩ := not_or.mp (List.mem_cons.not.mp hs)
    simp [cut?, Ne.symm hne, ih hs]

theorem cut?_eq_some {c : Char} {s a b : List Char} (h : cut? c s = some (a, b)) :
    s = a ++ c :: b := by
  induction s generalizing a with
  | nil => cases h
  | cons d s ih =>
    rw [cut?] at h
    split_ifs at h with hd
    · obtain ⟨rfl, rfl⟩ := Prod.mk.inj (Option.some.inj h)
      rw [hd, List.nil_append]
    · obtain ⟨⟨a', b'⟩, hcut, heq⟩ := Option.map_eq_some_iff.mp h
      obtain ⟨rfl, rfl⟩ := Prod.mk.inj heq
      rw [ih hcut, List.cons_append]

theorem split_ne_nil (c : Char) (s : List Char) : split c s ≠ [] := by
  cases s with
  | nil => exact List.cons_ne_nil _ _
  | cons d s =>
    rw [split]
    split_ifs
    · exact List.cons_ne_nil _ _
    · split <;> exact List.cons_ne_nil _ _

/-- Pieces that a text is split into make the text again when they are joined. -/
theorem intercalate_split (c : Char) (s : List Char) :
    List.intercalate [c] (split c s) = s := by
  induction s with
  | nil => simp [split]
  | cons d s ih =>
    obtain ⟨p, ps, hps⟩ := List.exists_cons_of_ne_nil (split_ne_nil c s)
    rw [hps] at ih
    rw [split]
    split_ifs with hd
    · rw [hps, List.intercalate_cons_cons, ih, hd]
      rfl
    · rw [hps]
      cases ps with
      | nil => simpa using ih
      | cons q ps =>
        rw [List.intercalate_cons_cons] at ih ⊢
        rw [← ih]
        simp

theorem split_of_not_mem {c : Char} {s : List Char} (hs : c ∉ s) : split c s = [s] := by
  induction s with
  | nil => rfl
  | cons d s ih =>
    obtain ⟨hne, hs⟩ := not_or.mp (List.mem_cons.not.mp hs)
    simp [split, Ne.symm hne, ih hs]

theorem split_append {c : Char} {s t : List Char} (hs : c ∉ s) :
    split c (s ++ c :: t) = s :: split c t := by
  induction s with
  | nil => simp [split]
  | cons d s ih =>
    obtain ⟨hne, hs⟩ := not_or.mp (List.mem_cons.not.mp hs)
    simp [split, Ne.symm hne, ih hs]

/-- Pieces that are joined with a separator which none of them holds come apart again. -/
theorem split_intercalate {c : Char} {pieces : List (List Char)} (hne : pieces ≠ [])
    (hs : ∀ s ∈ pieces, c ∉ s) : split c (List.intercalate [c] pieces) = pieces := by
  induction pieces with
  | nil => exact absurd rfl hne
  | cons s pieces ih =>
    obtain ⟨hsep, hs⟩ := List.forall_mem_cons.mp hs
    cases pieces with
    | nil => simpa using split_of_not_mem hsep
    | cons t pieces =>
      rw [List.intercalate_cons_cons, List.append_assoc, List.singleton_append,
        split_append hsep, ih (by simp) hs]

theorem not_mem_intercalate {c d : Char} {pieces : List (List Char)} (hne : c ≠ d)
    (hs : ∀ s ∈ pieces, c ∉ s) : c ∉ List.intercalate [d] pieces := by
  induction pieces with
  | nil => simp
  | cons s pieces ih =>
    obtain ⟨hfirst, hs⟩ := List.forall_mem_cons.mp hs
    cases pieces with
    | nil => simpa using hfirst
    | cons t pieces =>
      rw [List.intercalate_cons_cons]
      simp only [List.mem_append, List.mem_singleton, not_or]
      exact ⟨⟨hfirst, hne⟩, ih hs⟩

end Juggling.Text
