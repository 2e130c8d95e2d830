import Mathlib.Data.List.TakeWhile
import Juggling.Layout.Coincidence
import Juggling.Proofs.Exact

namespace Juggling.Generated

variable {α : Type}

def SameHand (a b : Generated α) : Prop :=
  a.event.juggler = b.event.juggler ∧ a.event.hand = b.event.hand

theorem hasHand_iff (a b : Generated α) :
    a.event.hasHand b.event.juggler b.event.hand = true ↔ SameHand a b := by
  simp only [Event.hasHand, SameHand, Bool.and_eq_true, beq_iff_eq]

variable [Exact α]

theorem notAfter_iff (a b : Generated α) : notAfter a b = true ↔
    a.event.time ≤ b.event.time ∧ (a.event.time < b.event.time ∨
      a.event.juggler < b.event.juggler ∨
      a.event.juggler = b.event.juggler ∧ a.event.hand.index ≤ b.event.hand.index) := by
  simp only [notAfter, Bool.and_eq_true, Bool.or_eq_true, Bool.not_eq_true', decide_eq_true_eq,
    beq_iff_eq, Scalar.precedes_iff, ← Bool.not_eq_true, not_le, or_assoc]

theorem notAfter_trans (a b c : Generated α) (hab : notAfter a b = true)
    (hbc : notAfter b c = true) : notAfter a c = true := by
  rw [notAfter_iff] at *
  refine ⟨hab.1.trans hbc.1, ?_⟩
  rcases hab.2 with h | h
  · exact .inl (h.trans_le hbc.1)
  · rcases hbc.2 with h' | h'
    · exact .inl (hab.1.trans_lt h')
    · exact .inr (by omega)

theorem notAfter_total (a b : Generated α) : (notAfter a b || notAfter b a) = true := by
  rw [Bool.or_eq_true, notAfter_iff, notAfter_iff]
  rcases lt_trichotomy a.event.time b.event.time with h | h | h
  · exact .inl ⟨h.le, .inl h⟩
  · rcases Nat.lt_trichotomy a.event.juggler b.event.juggler with hj | hj | hj
    · exact .inl ⟨h.le, .inr (.inl hj)⟩
    · rcases Nat.le_total a.event.hand.index b.event.hand.index with hi | hi
      · exact .inl ⟨h.le, .inr (.inr ⟨hj, hi⟩)⟩
      · exact .inr ⟨h.ge, .inr (.inr ⟨hj.symm, hi⟩)⟩
    · exact .inr ⟨h.ge, .inr (.inl hj)⟩
  · exact .inr ⟨h.le, .inl h⟩

/-- Images in strict order need only be the same ones to be what sorting gives. -/
theorem mergeSort_eq {gs ordered : List (Generated α)} (hperm : gs.Perm ordered)
    (hordered : ordered.Pairwise fun a b ↦ notAfter b a = false) :
    gs.mergeSort notAfter = ordered := by
  have hle : ordered.Pairwise fun a b ↦ notAfter a b = true := hordered.imp fun {a b} h ↦ by
    simpa [h] using notAfter_total a b
  refine ((List.mergeSort_perm _ _).trans hperm).eq_of_pairwise (fun a b ha hb hab hba ↦ ?_)
    (List.pairwise_mergeSort notAfter_trans notAfter_total gs) hle
  by_contra hne
  have hmem := hperm.subset (List.mem_mergeSort.mp ha)
  -- Of two different images in the list one is before the other.
  obtain ⟨i, hi, rfl⟩ := List.getElem_of_mem hmem
  obtain ⟨j, hj, rfl⟩ := List.getElem_of_mem hb
  rcases Nat.lt_trichotomy i j with h | rfl | h
  · exact Bool.false_ne_true ((List.pairwise_iff_getElem.mp hordered i j hi hj h).symm.trans hba)
  · exact hne rfl
  · exact Bool.false_ne_true ((List.pairwise_iff_getElem.mp hordered j i hj hi h).symm.trans hab)

/-- An image that is kept in the place of another, which comes after it in a list. -/
structure StandsFor (gs : List (Generated α)) (o g : Generated α) : Prop where
  before : [o, g].Sublist gs
  hand : SameHand o g
  near : g.event.time - o.event.time < timeTolerance
  seed : o.seed = g.seed
  transitions : sameTransitions o.event g.event = true

theorem clash?_none {kept : List (Generated α)} {g : Generated α}
    (hkept : kept.reverse.Pairwise fun a b ↦ a.event.time ≤ b.event.time)
    (h : clash? kept g = none) : ∀ o ∈ kept, SameHand o g →
      timeTolerance ≤ g.event.time - o.event.time := by
  rw [List.pairwise_reverse] at hkept
  unfold clash? at h
  induction kept with
  | nil => simp
  | cons a kept ih =>
    obtain ⟨ha, hkept⟩ := List.pairwise_cons.mp hkept
    rw [List.takeWhile_cons] at h
    split at h
    · rw [List.find?_cons] at h
      split at h
      · cases h
      · rename_i hlt hhand
        intro o ho hsame
        rcases List.mem_cons.mp ho with rfl | ho
        · exact absurd ((hasHand_iff _ _).mpr hsame) (by simpa using hhand)
        · exact ih hkept h o ho hsame
    · rename_i hlt
      have hlt' : timeTolerance ≤ g.event.time - a.event.time := by simpa using hlt
      intro o ho _
      rcases List.mem_cons.mp ho with rfl | ho
      · exact hlt'
      · linarith [ha o ho]

theorem clash?_some {kept : List (Generated α)} {g o : Generated α}
    (h : clash? kept g = some o) :
    o ∈ kept ∧ SameHand o g ∧ g.event.time - o.event.time < timeTolerance := by
  unfold clash? at h
  have hmem := List.mem_of_find?_eq_some h
  have hhand := List.find?_some h
  refine ⟨List.takeWhile_subset _ hmem, (hasHand_iff _ _).mp hhand, ?_⟩
  simpa using List.mem_takeWhile_imp hmem

/-- Images on the same hand are apart. -/
def Apart (a b : Generated α) : Prop :=
  SameHand a b → timeTolerance ≤ b.event.time - a.event.time

/-- Of images that are apart two on one hand at one moment are the same. -/
theorem eq_of_near {gs : List (Generated α)} (hapart : gs.Pairwise Apart) {a b : Generated α}
    (ha : a ∈ gs) (hb : b ∈ gs) (hhand : SameHand a b)
    (hnear : |b.event.time - a.event.time| < timeTolerance) : a = b := by
  let R (a b : Generated α) : Prop :=
    SameHand a b → timeTolerance ≤ |b.event.time - a.event.time|
  have hsymm : Std.Symm R := ⟨fun a b h hhand ↦ by
    rw [abs_sub_comm]
    exact h ⟨hhand.1.symm, hhand.2.symm⟩⟩
  by_contra hne
  exact absurd ((hapart.imp (S := R) fun h hhand ↦ (h hhand).trans (le_abs_self _)).forall ha hb
    hne hhand) (not_le.mpr hnear)

theorem dropCoincident_ok {kept gs out : List (Generated α)}
    (hsorted : (kept.reverse ++ gs).Pairwise fun a b ↦ a.event.time ≤ b.event.time)
    (hapart : kept.reverse.Pairwise Apart) (hok : dropCoincident kept gs = .ok out) :
    (∃ rest, out = kept.reverse ++ rest ∧ rest.Sublist gs) ∧ out.Pairwise Apart ∧
      ∀ g ∈ gs, g ∈ out ∨ ∃ o ∈ out, StandsFor (kept.reverse ++ gs) o g := by
  -- Going on from what is kept so far, which is in order of time and apart.
  induction gs generalizing kept with
  | nil =>
    obtain rfl : kept.reverse = out := Except.ok.inj hok
    exact ⟨⟨[], by simp⟩, hapart, by simp⟩
  | cons g gs ih =>
    have hkept : kept.reverse.Pairwise fun a b ↦ a.event.time ≤ b.event.time :=
      (List.pairwise_append.mp hsorted).1
    unfold dropCoincident at hok
    cases hc : clash? kept g with
    | none =>
      rw [hc] at hok
      have hfree := clash?_none hkept hc
      have happend : (g :: kept).reverse ++ gs = kept.reverse ++ g :: gs := by simp
      obtain ⟨⟨rest, hrest, hsub⟩, hout, hall⟩ := @ih (g :: kept) (happend ▸ hsorted)
        (by
          rw [List.reverse_cons, List.pairwise_append]
          refine ⟨hapart, List.pairwise_singleton _ _, fun o ho b hb ↦ ?_⟩
          rw [List.mem_singleton.mp hb]
          exact hfree o (List.mem_reverse.mp ho)) hok
      refine ⟨⟨g :: rest, by simpa using hrest, hsub.cons_cons g⟩, hout, fun k hk ↦ ?_⟩
      rcases List.mem_cons.mp hk with rfl | hk
      · exact .inl (by rw [hrest]; simp)
      · rw [happend] at hall
        exact hall k hk
    | some o =>
      rw [hc] at hok
      simp only at hok
      split_ifs at hok with hsame
      obtain ⟨ho, hhand, hnear⟩ := clash?_some hc
      rw [Bool.and_eq_true, decide_eq_true_eq] at hsame
      have hdrop : (kept.reverse ++ gs).Sublist (kept.reverse ++ g :: gs) :=
        List.Sublist.append_left (List.sublist_cons_self g gs) _
      obtain ⟨⟨rest, hrest, hsub⟩, hout, hall⟩ := ih (hsorted.sublist hdrop) hapart hok
      refine ⟨⟨rest, hrest, hsub.cons g⟩, hout, fun k hk ↦ ?_⟩
      rcases List.mem_cons.mp hk with rfl | hk
      · refine .inr ⟨o, by rw [hrest]; simp [ho], ?_, hhand, hnear, hsame.1, hsame.2⟩
        exact (List.singleton_sublist.mpr (List.mem_reverse.mpr ho)).append
          (List.singleton_sublist.mpr List.mem_cons_self)
      · rcases hall k hk with h | ⟨o', ho', hs⟩
        · exact .inl h
        · exact .inr ⟨o', ho', hs.before.trans hdrop, hs.hand, hs.near, hs.seed, hs.transitions⟩

end Juggling.Generated
