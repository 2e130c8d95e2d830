import Juggling.Proofs.Digits
import Juggling.Proofs.Notation

namespace Juggling.Permutation

open Text (Blank Spells)

namespace Spelling

/-- How a signed element is written: a number, with a star after it where it is reversed, and
white space anywhere around the two. -/
inductive Element (signed : Bool) : List Char → ℤ → Prop
  | plain {w s w' : List Char} {n : ℕ} : Blank w → Spells s n → Blank w' →
      Element signed (w ++ s ++ w') n
  | starred {w s v w' : List Char} {n : ℕ} : signed = true → Blank w → Spells s n → Blank v →
      Blank w' → Element signed (w ++ (s ++ v ++ ['*']) ++ w') (-n)

/-- How a cycle is written: its elements in parentheses, with commas between them. -/
inductive Cycle (signed : Bool) : List Char → List ℤ → Prop
  | mk {tokens : List (List Char)} {c : List ℤ} : c ≠ [] →
      List.Forall₂ (Element signed) tokens c →
      Cycle signed ('(' :: List.intercalate [','] tokens ++ [')']) c

/-- How cycles are written: one after the other, with white space around them. -/
inductive Spec (signed : Bool) : List Char → List (List ℤ) → Prop
  | nil {w : List Char} : Blank w → Spec signed w []
  | cons {w s t : List Char} {c : List ℤ} {cs : List (List ℤ)} : Blank w → Cycle signed s c →
      Spec signed t cs → Spec signed (w ++ s ++ t) (c :: cs)

variable {signed : Bool} {s t w : List Char} {e : ℤ} {c : List ℤ} {cs : List (List ℤ)}

/-- Elements are written without the characters that stand between them. -/
theorem Element.not_mem (h : Element signed t e) {d : Char} (hblank : Text.isBlank d = false)
    (hdigit : d.isDigit = false) (hplus : d ≠ '+') (hstar : d ≠ '*') : d ∉ t := by
  have hout {w : List Char} (hw : Blank w) : d ∉ w := fun hd ↦ by simp [hw d hd] at hblank
  have hnumber {s : List Char} {n : ℕ} (hs : Spells s n) : d ∉ s := fun hd ↦ by
    simpa [hdigit, hplus] using hs.isDigit_or hd
  cases h with
  | plain hw hs hw' => simp [hout hw, hnumber hs, hout hw']
  | starred _ hw hs hv hw' => simp [hout hw, hnumber hs, hout hv, hstar, hout hw']

theorem Element.signed_of_neg (h : Element signed t e) (hneg : e < 0) : signed = true := by
  cases h with
  | plain => omega
  | starred hsigned => exact hsigned

theorem Spec.signed_of_neg (h : Spec signed s cs) {c : List ℤ} (hc : c ∈ cs) (he : e ∈ c)
    (hneg : e < 0) : signed = true := by
  induction h with
  | nil => cases hc
  | cons _ hfirst _ ih =>
    rcases List.mem_cons.mp hc with rfl | hc
    · obtain ⟨-, htokens⟩ := hfirst
      obtain ⟨t, -, ht⟩ := exists_of_forall₂ htokens he
      exact ht.signed_of_neg hneg
    · exact ih hc

theorem Spec.blank_append (h : Spec signed s cs) (hw : Blank w) : Spec signed (w ++ s) cs := by
  cases h with
  | nil hs => exact .nil (hw.append hs)
  | cons hv hc ht =>
    rw [← List.append_assoc, ← List.append_assoc]
    exact .cons (hw.append hv) hc ht

theorem Spec.append_blank (h : Spec signed s cs) (hw : Blank w) : Spec signed (s ++ w) cs := by
  induction h with
  | nil hs => exact .nil (hs.append hw)
  | cons hv hc _ ih =>
    rw [List.append_assoc]
    exact .cons hv hc ih

theorem Cycle.ends (h : Cycle signed s c) :
    (∃ t, s = '(' :: t) ∧ ∃ t, s = t ++ [')'] := by
  obtain ⟨-, -⟩ := h
  exact ⟨⟨_, rfl⟩, ⟨_, rfl⟩⟩

theorem Spec.trimRight (h : Spec signed s cs) : Spec signed (Text.trimRight s) cs := by
  induction h with
  | nil hw =>
    have := Text.trimRight_append hw []
    rw [List.nil_append] at this
    rw [this]
    exact .nil Text.blank_nil
  | @cons w s t _ _ hw hc _ ih =>
    obtain ⟨u, rfl⟩ := hc.ends.2
    have hend (t : List Char) : w ++ (u ++ [')']) ++ t = (w ++ u) ++ ')' :: t := by simp
    rw [hend, Text.trimRight_append_cons (by decide), ← hend]
    exact .cons hw hc ih

theorem Spec.trimLeft (h : Spec signed s cs) : Spec signed (Text.trimLeft s) cs := by
  cases h with
  | nil hw =>
    rw [Text.trimLeft_blank hw]
    exact .nil Text.blank_nil
  | cons hw hc ht =>
    obtain ⟨u, rfl⟩ := hc.ends.1
    rw [List.append_assoc, Text.trimLeft_append hw, List.cons_append,
      Text.trimLeft_cons (by decide)]
    exact .cons (w := []) Text.blank_nil hc ht

/-- White space around the whole text means nothing. -/
theorem spec_trim : Spec signed (Text.trim s) cs ↔ Spec signed s cs := by
  constructor
  · intro h
    obtain ⟨w, w', hw, hw', hs⟩ := Text.exists_trim s
    rw [hs]
    exact (h.blank_append hw).append_blank hw'
  · exact fun h ↦ h.trimLeft.trimRight

end Spelling

namespace Reading

variable {r : Reading} {t : List Char} {e : ℤ}

theorem trim_number {s w w' : List Char} {n : ℕ} (hw : Blank w) (hs : Spells s n)
    (hw' : Blank w') : Text.trim (w ++ s ++ w') = s :=
  Text.trim_between hw hw' (fun _ hc ↦ hs.isBlank (List.mem_of_mem_head? hc))
    fun _ hc ↦ hs.isBlank (List.mem_of_mem_getLast? hc)

/-- What is read of an element that is written well. -/
theorem element_of_spelling (h : Spelling.Element r.signed t e) : r.element t =
    if e.natAbs = 0 ∨ r.size < e.natAbs then .error (.outOfRange r.spec e.natAbs r.size)
    else .ok e := by
  unfold Reading.element
  cases h with
  | @plain w s w' n hw hs hw' =>
    have hstrip : Text.stripLast? '*' s = none := by
      refine if_neg fun hlast ↦ ?_
      rcases hs.isDigit_or (List.mem_of_getLast? hlast) with h | h <;> exact absurd h (by decide)
    simp only [trim_number hw hs hw', hstrip, Text.readNat?_eq_some.mpr hs, Bool.false_and,
      Bool.false_eq_true, if_false, Int.natAbs_natCast]
  | @starred w s v w' n hsigned hw hs hv hw' =>
    have htrim : Text.trim (w ++ (s ++ v ++ ['*']) ++ w') = s ++ v ++ ['*'] := by
      refine Text.trim_between hw hw' (fun c hc ↦ ?_) (fun c hc ↦ ?_)
      · obtain ⟨d, s, rfl⟩ := List.exists_cons_of_ne_nil hs.ne_nil
        obtain rfl : d = c := by simpa using hc
        exact hs.isBlank List.mem_cons_self
      · obtain rfl : '*' = c := by simpa using hc
        decide
    have hstrip : Text.stripLast? '*' (s ++ v ++ ['*']) = some (s ++ v) := by
      simp [Text.stripLast?]
    have htrim' : Text.trim (s ++ v) = s := trim_number (w := []) Text.blank_nil hs hv
    simp only [htrim, hstrip, htrim', hsigned, Text.readNat?_eq_some.mpr hs, Bool.not_true,
      Bool.and_false, Bool.false_eq_true, if_false, if_true, Int.natAbs_neg, Int.natAbs_natCast]

theorem element_eq_ok (h : Spelling.Element r.signed t e) {e' : ℤ} :
    r.element t = .ok e' ↔ e' = e ∧ 1 ≤ e.natAbs ∧ e.natAbs ≤ r.size := by
  rw [element_of_spelling h]
  split_ifs with hout
  · simp only [false_iff, not_and]
    omega
  · rw [Except.ok.injEq, eq_comm]
    exact ⟨fun he ↦ ⟨he, by omega⟩, And.left⟩

/-- Only what is written well is read. -/
theorem spelling_of_element (hok : r.element t = .ok e) : Spelling.Element r.signed t e := by
  have key {i : ℕ} {err : PermutationError} {k : ℤ}
      (h : (if i = 0 ∨ r.size < i then Except.error err else Except.ok k) = Except.ok e) :
      k = e := by
    split_ifs at h
    exact Except.ok.inj h
  obtain ⟨w, w', hw, hw', ht⟩ := Text.exists_trim t
  unfold Reading.element at hok
  simp only at hok
  cases hstrip : Text.stripLast? '*' (Text.trim t) with
  | none =>
    simp only [hstrip, Bool.false_and, Bool.false_eq_true, if_false] at hok
    split at hok
    · cases hok
    · rename_i i hread
      obtain rfl := key hok
      rw [ht]
      exact .plain hw (Text.readNat?_eq_some.mp hread) hw'
  | some ds =>
    simp only [hstrip, if_true] at hok
    split at hok
    · cases hok
    · rename_i hsigned
      split at hok
      · cases hok
      · rename_i i hread
        obtain rfl := key hok
        have hsigned : r.signed = true := by simpa using hsigned
        obtain ⟨v, v', hv, hv', hds⟩ := Text.exists_trim ds
        have htrim : Text.trim t = ds ++ ['*'] := by
          unfold Text.stripLast? at hstrip
          split_ifs at hstrip with hlast
          obtain rfl := Option.some.inj hstrip
          exact (List.dropLast_append_getLast? _ hlast).symm
        rw [ht, htrim, hds]
        have := Spelling.Element.starred hsigned (hw.append hv) (Text.readNat?_eq_some.mp hread)
          hv' hw'
        simpa using this

/-- What makes a cycle fit for being read after the elements of earlier ones. -/
structure Fresh (size : ℕ) (earlier c : List ℤ) : Prop where
  range : ∀ e ∈ c, 1 ≤ e.natAbs ∧ e.natAbs ≤ size
  apart : ∀ e ∈ c, ∀ f ∈ earlier, f.natAbs ≠ e.natAbs
  nodup : c.Nodup

theorem elements_eq_ok {tokens : List (List Char)} {earlier cycle c out : List ℤ}
    (h : List.Forall₂ (Spelling.Element r.signed) tokens c)
    (hcycle : Fresh r.size earlier cycle) :
    r.elements earlier cycle tokens = .ok out ↔
      out = cycle ++ c ∧ Fresh r.size earlier (cycle ++ c) := by
  induction h generalizing cycle with
  | nil => simpa [Reading.elements, eq_comm] using fun _ ↦ hcycle
  | @cons t e tokens c he _ ih =>
    rw [Reading.elements, List.append_cons, bind_eq_ok]
    simp only [element_eq_ok he]
    constructor
    · rintro ⟨_, ⟨rfl, hrange⟩, hok⟩
      split_ifs at hok with hold
      simp only [Bool.or_eq_true, List.any_eq_true, beq_iff_eq, List.contains_iff_mem, not_or,
        not_exists, not_and] at hold
      refine (ih ⟨?_, ?_, ?_⟩).mp hok
      · exact List.forall_mem_append.mpr ⟨hcycle.range, by simpa using hrange⟩
      · exact List.forall_mem_append.mpr ⟨hcycle.apart, by simpa using hold.1⟩
      · exact hcycle.nodup.append (List.nodup_singleton _) (by simpa using hold.2)
    · rintro ⟨rfl, hfresh⟩
      have hsub : cycle ++ [e] ⊆ cycle ++ [e] ++ c := List.subset_append_left _ _
      have hmem : e ∈ cycle ++ [e] := by simp
      have hnodup : (cycle ++ [e]).Nodup := (List.nodup_append.mp hfresh.nodup).1
      refine ⟨e, ⟨rfl, hfresh.range e (hsub hmem)⟩, ?_⟩
      have hold : (earlier.any (fun f ↦ f.natAbs == e.natAbs) || cycle.contains e) = false := by
        have hnew : e ∉ cycle := fun h ↦
          List.disjoint_of_nodup_append hnodup h (List.mem_singleton_self e)
        simpa [hnew] using hfresh.apart e (hsub hmem)
      rw [hold]
      exact (ih ⟨fun f hf ↦ hfresh.range f (hsub hf), fun f hf ↦ hfresh.apart f (hsub hf),
        hnodup⟩).mpr ⟨rfl, hfresh⟩

theorem spelling_of_elements {tokens : List (List Char)} {earlier cycle out : List ℤ}
    (hok : r.elements earlier cycle tokens = .ok out) :
    ∃ c, List.Forall₂ (Spelling.Element r.signed) tokens c := by
  induction tokens generalizing cycle with
  | nil => exact ⟨[], .nil⟩
  | cons t tokens ih =>
    obtain ⟨e, he, hok⟩ := bind_eq_ok.mp hok
    split_ifs at hok
    obtain ⟨c, hc⟩ := ih hok
    exact ⟨e :: c, .cons (spelling_of_element he) hc⟩

/-- Taking in cycles one after the other. -/
def Records (r : Reading) : List ℤ → List (ℕ × ℤ) → List (List ℤ) → List (ℕ × ℤ) → Prop
  | _, known, [], known' => known = known'
  | earlier, known, c :: cs, known' => Fresh r.size earlier c ∧
      ∃ mid, r.assignCycle known c = .ok mid ∧ Records r (earlier ++ c) mid cs known'

variable {s : List Char} {cs : List (List ℤ)} {earlier : List ℤ} {known known' : List (ℕ × ℤ)}
  {fuel : ℕ}

/-- Cycles are read from their text as they are taken in one after the other. -/
theorem cycles_eq_ok (h : Spelling.Spec r.signed s cs) (hfuel : s.length < fuel) :
    r.cycles fuel earlier known (Text.trimLeft s) = .ok known' ↔
      r.Records earlier known cs known' := by
  induction h generalizing earlier known fuel with
  | nil hw =>
    rw [Text.trimLeft_blank hw]
    cases fuel <;> simp [Reading.cycles, Records]
  | @cons w s t c cs hw hc ht ih =>
    obtain ⟨fuel, rfl⟩ : ∃ k, fuel = k + 1 := ⟨fuel - 1, by omega⟩
    obtain @⟨tokens, _, hne, hc⟩ := hc
    have htext : Text.trimLeft (w ++ ('(' :: List.intercalate [','] tokens ++ [')']) ++ t) =
        '(' :: (List.intercalate [','] tokens ++ ')' :: t) := by
      rw [List.append_assoc, Text.trimLeft_append hw, List.cons_append, List.cons_append,
        Text.trimLeft_cons (by decide), List.append_assoc, List.singleton_append]
    have htoken {d : Char} (hblank : Text.isBlank d = false) (hdigit : d.isDigit = false)
        (hplus : d ≠ '+') (hstar : d ≠ '*') : ∀ s ∈ tokens, d ∉ s := by
      intro s hs
      obtain ⟨e, -, he⟩ := exists_of_forall₂ hc.flip hs
      exact he.not_mem hblank hdigit hplus hstar
    have hcut := Text.cut?_append (t := t) (Text.not_mem_intercalate (d := ',') (by decide)
      (htoken (d := ')') (by decide) (by decide) (by decide) (by decide)))
    have hsplit : Text.split ',' (List.intercalate [','] tokens) = tokens :=
      Text.split_intercalate (fun hnil ↦ hne (by simpa [hnil] using hc))
        (htoken (by decide) (by decide) (by decide) (by decide))
    rw [htext]
    unfold Reading.cycles Records
    simp only [hcut, hsplit, bind_eq_ok, elements_eq_ok hc ⟨by simp, by simp, .nil⟩,
      List.nil_append]
    constructor
    · rintro ⟨_, ⟨rfl, hfresh⟩, mid, hmid, hok⟩
      exact ⟨hfresh, mid, hmid, (ih (by simp at hfuel; omega)).mp hok⟩
    · rintro ⟨hfresh, mid, hmid, hok⟩
      exact ⟨_, ⟨rfl, hfresh⟩, mid, hmid, (ih (by simp at hfuel; omega)).mpr hok⟩

/-- Only cycles are read. -/
theorem spelling_of_cycles (hfuel : s.length < fuel)
    (hok : r.cycles fuel earlier known (Text.trimLeft s) = .ok known') :
    ∃ cs, Spelling.Spec r.signed s cs := by
  induction fuel generalizing earlier known s with
  | zero => omega
  | succ fuel ih =>
    obtain ⟨w, hw, hs⟩ := Text.exists_trimLeft s
    unfold Reading.cycles at hok
    split at hok
    · rename_i hnil
      rw [hnil, List.append_nil] at hs
      exact ⟨[], hs ▸ .nil hw⟩
    · contradiction
    · rename_i hsucc hparen
      obtain rfl := Nat.succ.inj hsucc
      split at hok
      · cases hok
      · rename_i inside rest hcut
        obtain ⟨cycle, hcycle, hok⟩ := bind_eq_ok.mp hok
        obtain ⟨mid, -, hok⟩ := bind_eq_ok.mp hok
        obtain ⟨c, hc⟩ := spelling_of_elements hcycle
        have hinside := Text.cut?_eq_some hcut
        rw [hparen, hinside] at hs
        obtain ⟨cs, hcs⟩ := ih (by rw [hs] at hfuel; simp at hfuel; omega) hok
        have hne : c ≠ [] := fun hnil ↦ by
          rw [hnil, List.forall₂_nil_right_iff] at hc
          exact Text.split_ne_nil _ _ hc
        refine ⟨c :: cs, ?_⟩
        have := Spelling.Spec.cons hw (.mk hne hc) hcs
        rw [Text.intercalate_split] at this
        rw [hs]
        simpa using this
    · cases hok

end Reading

end Juggling.Permutation
