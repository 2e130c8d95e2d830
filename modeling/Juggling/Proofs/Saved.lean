import Juggling.Pattern.Document
import Juggling.Proofs.Written

namespace Juggling

namespace Element

variable {e : Element} {key other value : String}

@[simp] theorem tag_attr : (e.attr key value).tag = e.tag := rfl

@[simp] theorem children_attr : (e.attr key value).children = e.children := rfl

theorem lookup_cons_eq {β : Type} (a : String × β) (attributes : List (String × β)) (key : String) :
    (a :: attributes).lookup key = if key = a.1 then some a.2 else attributes.lookup key := by
  obtain ⟨k, v⟩ := a
  by_cases h : key = k
  · simp [h]
  · have hne : (key == k) = false := beq_false_of_ne h
    simp [List.lookup_cons, hne, h]

theorem lookup_insert {β : Type} (attributes : List (String × β)) (key other : String) (value : β) :
    (insert attributes key value).lookup other =
      if other = key then some value else attributes.lookup other := by
  induction attributes with
  | nil => rw [insert, lookup_cons_eq]
  | cons a attributes ih =>
    rw [insert]
    by_cases hkey : a.1 = key
    · rw [if_pos hkey, lookup_cons_eq, lookup_cons_eq, hkey]
      split_ifs <;> rfl
    · rw [if_neg hkey, lookup_cons_eq, lookup_cons_eq, ih]
      split_ifs with hfirst hsecond
      · exact absurd (hfirst.symm.trans hsecond) hkey
      · rfl
      · rfl
      · rfl

@[simp] theorem get?_attr :
    (e.attr key value).get? other = if other = key then some value else e.get? other :=
  lookup_insert e.attributes key other value

@[simp] theorem get?_nil {tag : String} {text : Option String} {children : List Element} :
    (Element.mk tag [] text children).get? key = none := rfl

theorem require_eq (h : e.get? key = some value) : e.require key = .ok value := by
  rw [require, h]

theorem readNat_toString {n : ℕ} (hn : n < Text.natLimit) :
    e.readNat key (toString n) = .ok n := by
  rw [readNat, Text.toList_toString, Text.trim_toDigits, Text.readNat?_toDigits hn]

theorem lt_of_readNat {n : ℕ} (hok : e.readNat key value = .ok n) : n < Text.natLimit := by
  unfold readNat at hok
  split at hok
  · obtain rfl := Except.ok.inj hok
    rename_i hn
    exact Text.lt_of_readNat? hn
  · cases hok

theorem lt_of_nat {n : ℕ} (hok : e.nat key = .ok n) : n < Text.natLimit := by
  obtain ⟨v, -, hok⟩ := bind_eq_ok.mp hok
  exact lt_of_readNat hok

theorem lt_of_natD {n d : ℕ} (hd : d < Text.natLimit) (hok : e.natD key d = .ok n) :
    n < Text.natLimit := by
  unfold natD at hok
  split at hok
  · obtain rfl := Except.ok.inj hok
    exact hd
  · exact lt_of_readNat hok

end Element

def Numeral.Reads {α : Type} [Numeral α] (x : α) : Prop := read? (Text.trimmed (write x)) = some x

instance {α : Type} [Numeral α] [DecidableEq α] (x : α) : Decidable (Numeral.Reads x) :=
  inferInstanceAs (Decidable (_ = _))

section Numbers

variable {α : Type} [Numeral α] {e : Element} {key : String} {x : α}

theorem Element.readNumber_write (hx : Numeral.Reads x) :
    e.readNumber key (Numeral.write x) = .ok x := by
  rw [readNumber, hx]

theorem Element.number_eq (h : e.get? key = some (Numeral.write x)) (hx : Numeral.Reads x) :
    e.number key = .ok x :=
  bind_eq_ok.mpr ⟨_, require_eq h, readNumber_write hx⟩

theorem Element.numberD_eq {default : α} (h : e.get? key = some (Numeral.write x))
    (hx : Numeral.Reads x) : e.numberD key default = .ok x := by
  rw [numberD, h]
  exact readNumber_write hx

theorem Element.nat_eq {n : ℕ} (h : e.get? key = some (toString n)) (hn : n < Text.natLimit) :
    e.nat key = .ok n :=
  bind_eq_ok.mpr ⟨_, require_eq h, readNat_toString hn⟩

theorem Element.natD_eq {n default : ℕ} (h : e.get? key = some (toString n))
    (hn : n < Text.natLimit) : e.natD key default = .ok n := by
  rw [natD, h]
  exact readNat_toString hn

end Numbers

namespace Hand

theorem ofName?_name (hand : Hand) : ofName? hand.name = some hand := by
  cases hand <;> decide +kernel

theorem parseLabel_label {j : ℕ} (hand : Hand) (hj : 1 ≤ j) (hlimit : j < Text.natLimit) :
    parseLabel (hand.label j) = .ok (j, hand) := by
  by_cases h1 : j = 1
  · have hcut : Text.cut? ':' hand.name.toList = none := by cases hand <;> decide +kernel
    simp [parseLabel, label, h1, hcut, ofName?_name]
  · have hcolon : ':' ∉ Nat.toDigits 10 j := fun hmem ↦
      absurd (Text.isDigit_of_mem hmem) (by decide)
    have hcut :
        Text.cut? ':' (hand.label j).toList = some (Nat.toDigits 10 j, hand.name.toList) := by
      rw [← Text.cut?_append hcolon]
      simp [label, h1]
      rfl
    obtain ⟨k, rfl⟩ : ∃ k, j = k + 1 := ⟨j - 1, by omega⟩
    unfold parseLabel
    simp only [hcut, Text.trim_toDigits, Text.readNat?_toDigits hlimit, String.ofList_toList,
      ofName?_name]

theorem parseLabel_ok {s : String} {j : ℕ} {hand : Hand} (hok : parseLabel s = .ok (j, hand)) :
    1 ≤ j ∧ j < Text.natLimit := by
  unfold parseLabel at hok
  simp only at hok
  split at hok
  · split at hok
    · obtain ⟨rfl, rfl⟩ := Prod.mk.inj (Except.ok.inj hok)
      exact ⟨le_rfl, by decide⟩
    · cases hok
  · split at hok
    · rename_i k hk
      split at hok
      · obtain ⟨rfl, rfl⟩ := Prod.mk.inj (Except.ok.inj hok)
        exact ⟨Nat.le_add_left 1 k, Text.lt_of_readNat? hk⟩
      · cases hok
    · cases hok

end Hand

namespace Transition

/-- Whether a transition is one that can be made: only throws have a type and a modifier. -/
def Constructed (t : Transition) : Prop :=
  t.kind = .throwing ∨ t.throwKind = .toss ∧ t.modifier = ""

instance (t : Transition) : Decidable t.Constructed := inferInstanceAs (Decidable (_ ∨ _))

theorem ofElement?_ok {e : Element} {t : Transition} (hok : ofElement? e = .ok (some t)) :
    t.Constructed ∧ t.path < Text.natLimit := by
  unfold ofElement? at hok
  split at hok
  · cases hok
  · rename_i kind hkind
    obtain ⟨path, hpath, hok⟩ := bind_eq_ok.mp hok
    have hlimit := Element.lt_of_nat hpath
    split at hok
    · obtain rfl := Option.some.inj (pure_eq_ok.mp hok)
      exact ⟨.inr ⟨rfl, rfl⟩, hlimit⟩
    · rename_i hthrow
      simp only at hok
      split at hok
      · obtain rfl := Option.some.inj (pure_eq_ok.mp hok)
        exact ⟨.inl (not_not.mp hthrow), hlimit⟩
      · exact absurd hok throw_ne_ok

theorem ofTag?_tag (kind : TransitionKind) : TransitionKind.ofTag? kind.tag = some kind := by
  cases kind <;> decide +kernel

theorem tag_toElement (t : Transition) : t.toElement.tag = t.kind.tag := by
  unfold toElement
  split_ifs <;> rfl

theorem get?_toElement (t : Transition) : t.toElement.get? "path" = some (toString t.path) ∧
    (t.kind = .throwing → t.toElement.get? "type" = some t.throwKind.name ∧
      (t.toElement.get? "mod").getD "" = t.modifier) := by
  unfold toElement
  split_ifs with hkind hempty
  · simp [hkind]
  · simp [String.isEmpty_iff.mp hempty]
  · simp

theorem ofElement?_toElement {t : Transition} (ht : t.Constructed)
    (hlimit : t.path < Text.natLimit) :
    ofElement? t.toElement = .ok (some t) := by
  obtain ⟨hpath, hthrow⟩ := get?_toElement t
  have hnat := Element.nat_eq hpath hlimit
  unfold ofElement?
  rw [tag_toElement, ofTag?_tag]
  simp only [hnat, bind, Except.bind]
  by_cases hkind : t.kind = .throwing
  · obtain ⟨htype, hmod⟩ := hthrow hkind
    have hname : ThrowKind.ofName? t.throwKind.name = some t.throwKind := by
      cases t.throwKind <;> decide +kernel
    obtain ⟨kind, path, throwKind, modifier⟩ := t
    simp only at hkind htype hmod hname
    subst hkind
    simp [htype, hmod, hname, pure, Except.pure]
  · obtain ⟨htoss, hmod⟩ := ht.resolve_left hkind
    obtain ⟨kind, path, throwKind, modifier⟩ := t
    simp only at htoss hmod hkind
    subst htoss hmod
    simp [hkind, pure, Except.pure]

end Transition

variable {α : Type} [Scalar α] [Numeral α]

def Coordinate.Legible (a : Coordinate α) : Prop :=
  Numeral.Reads a.x ∧ Numeral.Reads a.y ∧ Numeral.Reads a.z

def Event.Legible (e : Event α) : Prop := Numeral.Reads e.time ∧ e.place.Legible

def Position.Legible (x : Position α) : Prop :=
  Numeral.Reads x.time ∧ x.place.Legible ∧ Numeral.Reads x.angle

instance [DecidableEq α] (a : Coordinate α) : Decidable a.Legible :=
  inferInstanceAs (Decidable (_ ∧ _))

instance [DecidableEq α] (e : Event α) : Decidable e.Legible := inferInstanceAs (Decidable (_ ∧ _))

instance [DecidableEq α] (x : Position α) : Decidable x.Legible :=
  inferInstanceAs (Decidable (_ ∧ _))

theorem Coordinate.ofElement_of_get? {a : Coordinate α} (ha : a.Legible) {e : Element}
    (hx : e.get? "x" = some (Numeral.write a.x)) (hy : e.get? "y" = some (Numeral.write a.y))
    (hz : e.get? "z" = some (Numeral.write a.z)) : ofElement e = .ok a :=
  bind_eq_ok.mpr ⟨a.x, Element.numberD_eq hx ha.1, bind_eq_ok.mpr
    ⟨a.y, Element.numberD_eq hy ha.2.1, bind_eq_ok.mpr ⟨a.z, Element.numberD_eq hz ha.2.2, rfl⟩⟩⟩

theorem Event.ofElement_toElement {x : Event α} (hx : x.Legible)
    (hj : 1 ≤ x.juggler ∧ x.juggler < Text.natLimit)
    (ht : ∀ t ∈ x.transitions, t.Constructed ∧ t.path < Text.natLimit) :
    ofElement x.toElement = .ok x := by
  have hget (key : String) : x.toElement.get? key =
      (((x.place.attributes { tag := "event" }).attr "t" (Numeral.write x.time)).attr "hand"
        (x.hand.label x.juggler)).get? key := rfl
  have hchildren : x.toElement.children.mapM Transition.ofElement? =
      .ok (x.transitions.map some) := by
    refine mapM_eq_ok.mpr (List.forall₂_map_left_iff.mpr (List.forall₂_map_right_iff.mpr ?_))
    exact List.forall₂_same.mpr fun t hmem ↦
      Transition.ofElement?_toElement (ht t hmem).1 (ht t hmem).2
  refine bind_eq_ok.mpr ⟨x.hand.label x.juggler, Element.require_eq (by simp [hget]), ?_⟩
  refine bind_eq_ok.mpr ⟨(x.juggler, x.hand),
    lift_eq_ok.mpr (Hand.parseLabel_label x.hand hj.1 hj.2), ?_⟩
  refine bind_eq_ok.mpr ⟨x.place, Coordinate.ofElement_of_get? hx.2 ?_ ?_ ?_, ?_⟩
  · simp [hget, Coordinate.attributes]
  · simp [hget, Coordinate.attributes]
  · simp [hget, Coordinate.attributes]
  refine bind_eq_ok.mpr ⟨x.time, Element.number_eq (by simp [hget]) hx.1, ?_⟩
  refine bind_eq_ok.mpr ⟨_, hchildren, ?_⟩
  simp [pure, Except.pure]

theorem Event.ofElement_ok {e : Element} {x : Event α} (hok : ofElement e = .ok x) :
    (1 ≤ x.juggler ∧ x.juggler < Text.natLimit) ∧
      ∀ t ∈ x.transitions, t.Constructed ∧ t.path < Text.natLimit := by
  obtain ⟨label, -, hok⟩ := bind_eq_ok.mp hok
  obtain ⟨⟨j, hand⟩, hlabel, hok⟩ := bind_eq_ok.mp hok
  obtain ⟨place, -, hok⟩ := bind_eq_ok.mp hok
  obtain ⟨time, -, hok⟩ := bind_eq_ok.mp hok
  obtain ⟨transitions, htransitions, hok⟩ := bind_eq_ok.mp hok
  obtain rfl := pure_eq_ok.mp hok
  refine ⟨Hand.parseLabel_ok (lift_eq_ok.mp hlabel), fun t ht ↦ ?_⟩
  obtain ⟨o, ho, rfl⟩ := List.mem_filterMap.mp ht
  obtain ⟨c, -, hc⟩ := exists_of_forall₂ (mapM_eq_ok.mp htransitions) ho
  exact Transition.ofElement?_ok hc

theorem Position.ofElement_ok {e : Element} {x : Position α} (hok : ofElement e = .ok x) :
    x.juggler < Text.natLimit := by
  obtain ⟨place, -, hok⟩ := bind_eq_ok.mp hok
  obtain ⟨angle, -, hok⟩ := bind_eq_ok.mp hok
  obtain ⟨time, -, hok⟩ := bind_eq_ok.mp hok
  obtain ⟨juggler, hjuggler, hok⟩ := bind_eq_ok.mp hok
  obtain rfl := pure_eq_ok.mp hok
  exact Element.lt_of_natD (by decide) hjuggler

theorem Position.ofElement_toElement {x : Position α} (hx : x.Legible)
    (hj : x.juggler < Text.natLimit) : ofElement x.toElement = .ok x := by
  refine bind_eq_ok.mpr ⟨x.place, Coordinate.ofElement_of_get? hx.2.1 ?_ ?_ ?_, ?_⟩
  · simp [toElement, Coordinate.attributes]
  · simp [toElement, Coordinate.attributes]
  · simp [toElement, Coordinate.attributes]
  refine bind_eq_ok.mpr ⟨x.angle, Element.numberD_eq (by simp [toElement]) hx.2.2, ?_⟩
  refine bind_eq_ok.mpr ⟨x.time, Element.number_eq (by simp [toElement]) hx.1, ?_⟩
  exact bind_eq_ok.mpr ⟨x.juggler, Element.natD_eq (by simp [toElement]) hj, rfl⟩

theorem PropDecl.ofElement_toElement (x : PropDecl) : ofElement x.toElement = x := by
  obtain ⟨kind, modifier⟩ := x
  cases modifier <;> simp [ofElement, toElement]

namespace Symmetry

def Lawful (s : Symmetry α) : Prop := s.jugglers.Rearranges ∧ s.paths.Rearranges

/-- What holds of every symmetry that is read. -/
structure Regular (s : Symmetry α) : Prop where
  lawful : s.Lawful
  signed : s.jugglers.signed = true ∧ s.paths.signed = true
  delay_switch : s.kind = .switch → s.delay = none

omit [Scalar α] [Numeral α] in
theorem regular_parse {kind : SymmetryKind} {J N : ℕ} {jugglerSpec pathSpec : String}
    {delay : Option α} {s : Symmetry α}
    (hok : parse kind J N jugglerSpec pathSpec delay = .ok s) :
    s.Regular ∧ s.jugglers.size = J ∧ s.paths.size = N := by
  obtain ⟨js, hjs, hok⟩ := bind_eq_ok.mp hok
  obtain ⟨ps, hps, hok⟩ := bind_eq_ok.mp hok
  obtain rfl := Except.ok.inj hok
  obtain ⟨hsize, hsigned⟩ := Permutation.size_parse hjs
  obtain ⟨hsize', hsigned'⟩ := Permutation.size_parse hps
  refine ⟨⟨⟨Permutation.rearranges_parse hjs, Permutation.rearranges_parse hps⟩,
    ⟨hsigned, hsigned'⟩, fun hkind ↦ ?_⟩, hsize, hsize'⟩
  exact if_pos hkind

theorem parse_name (kind : SymmetryKind) : SymmetryKind.parse kind.name = .ok kind := by
  cases kind <;> rfl

omit [Scalar α] in
theorem tag_toElement (s : Symmetry α) : s.toElement.tag = "symmetry" := by
  unfold toElement
  cases s.delay <;> by_cases hkind : s.kind = .delay <;> simp [hkind]

omit [Scalar α] in
theorem get?_toElement (s : Symmetry α) : s.toElement.get? "type" = some s.kind.name ∧
    s.toElement.get? "jperm" = (if s.kind = .delay then none else some s.jugglers.toText) ∧
    s.toElement.get? "pperm" = some s.paths.toText ∧
    s.toElement.get? "delay" = s.delay.map Numeral.write := by
  unfold toElement
  cases s.delay <;> by_cases hkind : s.kind = .delay <;> simp [hkind]

omit [Scalar α] in
/-- What a delay that moves no jugglers, or another symmetry, is written as reads back. -/
theorem ofElement_toElement {s : Symmetry α} (hs : s.Regular)
    (hlimit : s.jugglers.size < Text.natLimit ∧ s.paths.size < Text.natLimit)
    (hreads : ∀ d ∈ s.delay, Numeral.Reads d)
    (hdelay : s.kind = .delay → s.jugglers.isIdentity = true) :
    ofElement s.jugglers.size s.paths.size s.toElement = .ok s := by
  obtain ⟨htype, hjperm, hpperm, hshift⟩ := get?_toElement s
  have hjugglers : Permutation.parse s.jugglers.size ((s.toElement.get? "jperm").getD "") true =
      .ok s.jugglers := by
    rw [hjperm]
    split_ifs with hkind
    · rw [← Permutation.toText_of_isIdentity (hdelay hkind)]
      exact Permutation.parse_toText_of_signed hs.lawful.1 hs.signed.1 hlimit.1
    · exact Permutation.parse_toText_of_signed hs.lawful.1 hs.signed.1 hlimit.1
  have hpaths : Permutation.parse s.paths.size ((s.toElement.get? "pperm").getD "") true =
      .ok s.paths := by
    rw [hpperm]
    exact Permutation.parse_toText_of_signed hs.lawful.2 hs.signed.2 hlimit.2
  refine bind_eq_ok.mpr ⟨s.kind, ?_, bind_eq_ok.mpr ⟨s.delay, ?_, ?_⟩⟩
  · exact lift_eq_ok.mpr (bind_eq_ok.mpr ⟨_, Element.require_eq htype, parse_name s.kind⟩)
  · rw [hshift, lift_eq_ok]
    cases hd : s.delay with
    | none => rfl
    | some d => exact map_eq_ok.mpr ⟨d, Element.readNumber_write (hreads d hd), rfl⟩
  · refine lift_eq_ok.mpr (bind_eq_ok.mpr ⟨_, hjugglers, bind_eq_ok.mpr ⟨_, hpaths, ?_⟩⟩)
    refine congrArg Except.ok ?_
    -- A switch has no delay, which is what reading makes of it.
    obtain ⟨kind, jugglers, paths, delay⟩ := s
    unfold ofParts
    split_ifs with hkind
    · have hnone : delay = none := hs.delay_switch hkind
      rw [hnone]
    · rfl

omit [Scalar α] in
theorem regular_ofElement {J N : ℕ} {e : Element} {s : Symmetry α} (hok : ofElement J N e = .ok s) :
    s.Regular := by
  obtain ⟨kind, -, hok⟩ := bind_eq_ok.mp hok
  obtain ⟨delay, -, hok⟩ := bind_eq_ok.mp hok
  exact (regular_parse (lift_eq_ok.mp hok)).1

/-- Whether a document of so many jugglers and paths says all there is to a symmetry. -/
def Kept (J N : ℕ) (s : Symmetry α) : Prop :=
  (s.jugglers.size = J ∧ s.paths.size = N) ∧ (s.kind = .delay → s.jugglers.isIdentity = true)

omit [Scalar α] in
theorem kept_of_ofElement {J N : ℕ} {s : Symmetry α} (hok : ofElement J N s.toElement = .ok s) :
    s.Kept J N := by
  obtain ⟨kind, -, hok⟩ := bind_eq_ok.mp hok
  obtain ⟨delay, -, hok⟩ := bind_eq_ok.mp hok
  have hparse := lift_eq_ok.mp hok
  refine ⟨(regular_parse hparse).2, fun hkind ↦ ?_⟩
  rw [(get?_toElement s).2.1, if_pos hkind] at hparse
  obtain ⟨js, hjs, hparse⟩ := bind_eq_ok.mp hparse
  obtain ⟨ps, -, hparse⟩ := bind_eq_ok.mp hparse
  have hparts : ofParts kind js ps delay = s := Except.ok.inj hparse
  obtain rfl : Permutation.identity J true = js := Except.ok.inj hjs
  rw [← hparts]
  exact Permutation.isIdentity_identity J true

end Symmetry

end Juggling
