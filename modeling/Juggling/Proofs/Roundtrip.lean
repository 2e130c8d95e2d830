import Juggling.Proofs.Coherence
import Juggling.Proofs.Labels

namespace Juggling.Pattern

variable {α : Type} [Scalar α] [Numeral α] {p q : Pattern α}

/-- Whether the numbers of a pattern read back as they are written. -/
structure Legible (p : Pattern α) : Prop where
  symmetries : ∀ s ∈ p.symmetries, ∀ d ∈ s.delay, Numeral.Reads d
  events : ∀ e ∈ p.events, e.Legible
  positions : ∀ x ∈ p.positions, x.Legible

/-- What holds of every pattern that is read: whole numbers are small, jugglers of events exist and
only throws have a type. -/
structure Recorded (p : Pattern α) : Prop where
  counts : p.jugglers < Text.natLimit ∧ p.paths < Text.natLimit
  assignment : ∀ n ∈ p.assignment, n < Text.natLimit
  symmetries : ∀ s ∈ p.symmetries, s.Regular
  events : ∀ e ∈ p.events, (1 ≤ e.juggler ∧ e.juggler < Text.natLimit) ∧
    ∀ t ∈ e.transitions, t.Constructed ∧ t.path < Text.natLimit
  positions : ∀ x ∈ p.positions, x.juggler < Text.natLimit

/-- A list of declarations is read entry by entry. -/
theorem foldlM_readChild {β : Type} {f : β → Element} {g : Pattern α → List β → Pattern α}
    {P : Pattern α → Prop} (hnil : ∀ q, g q [] = q)
    (hcons : ∀ q x xs, g q (x :: xs) = g (g q [x]) xs) {xs : List β}
    (hread : ∀ q, P q → ∀ x ∈ xs, q.readChild (f x) = .ok (g q [x]) ∧ P (g q [x])) (hq : P q) :
    (xs.map f).foldlM readChild q = .ok (g q xs) := by
  induction xs generalizing q with
  | nil => rw [hnil]; rfl
  | cons x xs ih =>
    obtain ⟨hx, hnext⟩ := hread q hq x List.mem_cons_self
    rw [List.map_cons, List.foldlM_cons, hcons]
    exact bind_eq_ok.mpr
      ⟨_, hx, ih (fun q hq y hy ↦ hread q hq y (List.mem_cons_of_mem _ hy)) hnext⟩

theorem foldlM_props (xs : List PropDecl) (hq : q.state = .dirty) :
    (xs.map PropDecl.toElement).foldlM readChild q = .ok { q with props := q.props ++ xs } := by
  refine foldlM_readChild (g := fun q xs ↦ { q with props := q.props ++ xs })
    (P := fun q ↦ q.state = .dirty) (by simp) (by simp) (fun q hq x _ ↦ ?_) hq
  have htag : x.toElement.tag = "prop" := by
    unfold PropDecl.toElement
    cases x.modifier <;> rfl
  refine ⟨?_, hq⟩
  unfold readChild
  rw [htag]
  simp only [PropDecl.ofElement_toElement, addProp, ← hq]

theorem foldlM_symmetries {xs : List (Symmetry α)}
    (hxs : ∀ s ∈ xs, Symmetry.ofElement q.jugglers q.paths s.toElement = .ok s)
    (hq : q.state = .dirty) :
    (xs.map Symmetry.toElement).foldlM readChild q =
      .ok { q with symmetries := q.symmetries ++ xs } := by
  refine foldlM_readChild (g := fun q xs ↦ { q with symmetries := q.symmetries ++ xs })
    (P := fun r ↦ r.state = .dirty ∧ r.jugglers = q.jugglers ∧ r.paths = q.paths) (by simp)
    (by simp) (fun r hr s hs ↦ ⟨?_, hr⟩) ⟨hq, rfl, rfl⟩
  unfold readChild
  rw [Symmetry.tag_toElement]
  simp only [hr.2.1, hr.2.2, hxs s hs, Except.map, addSymmetry, ← hr.1]

theorem foldlM_events {xs : List (Event α)} (hlegible : ∀ e ∈ xs, e.Legible)
    (hxs : ∀ e ∈ xs, (1 ≤ e.juggler ∧ e.juggler < Text.natLimit) ∧
      ∀ t ∈ e.transitions, t.Constructed ∧ t.path < Text.natLimit) (hq : q.state = .dirty) :
    (xs.map Event.toElement).foldlM readChild q = .ok { q with events := q.events ++ xs } := by
  refine foldlM_readChild (g := fun q xs ↦ { q with events := q.events ++ xs })
    (P := fun r ↦ r.state = .dirty) (by simp) (by simp) (fun r hr e he ↦ ⟨?_, hr⟩) hq
  have hread := Event.ofElement_toElement (hlegible e he) (hxs e he).1 (hxs e he).2
  have htag : e.toElement.tag = "event" := rfl
  unfold readChild
  rw [htag]
  simp only [hread, Except.map, lift, addEvent, ← hr]

theorem foldlM_positions {xs : List (Position α)} (hlegible : ∀ x ∈ xs, x.Legible)
    (hxs : ∀ x ∈ xs, x.juggler < Text.natLimit) (hq : q.state = .dirty) :
    (xs.map Position.toElement).foldlM readChild q =
      .ok { q with positions := q.positions ++ xs } := by
  refine foldlM_readChild (g := fun q xs ↦ { q with positions := q.positions ++ xs })
    (P := fun r ↦ r.state = .dirty) (by simp) (by simp) (fun r hr x hx ↦ ⟨?_, hr⟩) hq
  have hread := Position.ofElement_toElement (hlegible x hx) (hxs x hx)
  have htag : x.toElement.tag = "position" := rfl
  unfold readChild
  rw [htag]
  simp only [hread, Except.map, lift, addPosition, ← hr]

theorem readChild_title (t : String) :
    q.readChild { tag := "title", text := some t } = .ok { q with title := some t } := rfl

theorem readChild_setup (hp : p.Recorded) (hq : q.assignment = []) (hstate : q.state = .dirty) :
    q.readChild p.setupElement =
      .ok { q with jugglers := p.jugglers, paths := p.paths, assignment := p.assignment } := by
  have htag : p.setupElement.tag = "setup" := by
    unfold setupElement
    split_ifs <;> rfl
  have hjugglers : p.setupElement.get? "jugglers" = some (toString p.jugglers) := by
    unfold setupElement
    split_ifs <;> simp
  have hpaths : p.setupElement.get? "paths" = some (toString p.paths) := by
    unfold setupElement
    split_ifs <;> simp
  unfold readChild
  rw [htag]
  refine lift_eq_ok.mpr (bind_eq_ok.mpr ⟨_, Element.natD_eq hjugglers hp.counts.1,
    bind_eq_ok.mpr ⟨_, Element.nat_eq hpaths hp.counts.2, ?_⟩⟩)
  by_cases hempty : p.assignment = []
  · have hprops : p.setupElement.get? "props" = none := by
      simp [setupElement, hempty]
    rw [hprops]
    refine pure_eq_ok.mpr ?_
    simp [setJugglers, setPaths, hq, hempty, ← hstate]
  · have hprops : p.setupElement.get? "props" =
        some (Text.join "," (p.assignment.map toString)) := by
      simp [setupElement, hempty]
    have hsplit : Text.split ',' (Text.join "," (p.assignment.map toString)).toList =
        p.assignment.map (Nat.toDigits 10) := by
      have hpieces : (Text.join "," (p.assignment.map toString)).toList =
          List.intercalate [','] (p.assignment.map (Nat.toDigits 10)) := by
        rw [Text.join, String.toList_intercalate, List.map_map]
        exact congrArg _ (List.map_congr_left fun n _ ↦ Text.toList_toString n)
      rw [hpieces]
      refine Text.split_intercalate (by simpa using hempty) fun s hs ↦ ?_
      obtain ⟨n, -, rfl⟩ := List.mem_map.mp hs
      exact fun hmem ↦ absurd (Text.isDigit_of_mem hmem) (by decide)
    rw [hprops]
    refine bind_eq_ok.mpr ⟨p.assignment, ?_, pure_eq_ok.mpr ?_⟩
    · rw [hsplit]
      refine mapM_eq_ok.mpr (List.forall₂_map_left_iff.mpr (List.forall₂_same.mpr fun n hn ↦ ?_))
      rw [Element.readNat, String.toList_ofList, Text.trim_toDigits,
        Text.readNat?_toDigits (hp.assignment n hn)]
    · simp [setJugglers, setPaths, setAssignment, ← hstate]

def header (p : Pattern α) : List Element :=
  p.title.toList.map (fun s ↦ { tag := "title", text := some s }) ++
    p.props.map PropDecl.toElement ++ [p.setupElement]

def heading (p : Pattern α) : Pattern α :=
  { p with symmetries := [], events := [], positions := [], state := .dirty, layout := none }

theorem foldlM_header (hp : p.Recorded) :
    p.header.foldlM readChild ({ jugglers := 1, paths := 1 } : Pattern α) = .ok p.heading := by
  have hsetup (q : Pattern α) (hq : q.assignment = [] ∧ q.state = .dirty) :
      (p.props.map PropDecl.toElement ++ [p.setupElement]).foldlM readChild q =
        .ok { q with
          jugglers := p.jugglers, paths := p.paths, props := q.props ++ p.props
          assignment := p.assignment } := by
    rw [List.foldlM_append]
    refine bind_eq_ok.mpr ⟨_, foldlM_props p.props hq.2, ?_⟩
    exact bind_eq_ok.mpr ⟨_, readChild_setup hp hq.1 hq.2, rfl⟩
  unfold header heading
  rw [List.append_assoc]
  cases htitle : p.title with
  | none => exact hsetup _ ⟨rfl, rfl⟩
  | some t =>
    rw [Option.toList_some, List.map_singleton, List.singleton_append, List.foldlM_cons]
    refine bind_eq_ok.mpr ⟨_, readChild_title t, ?_⟩
    exact hsetup _ ⟨rfl, rfl⟩

theorem foldlM_rest (hp : p.Recorded) (hlegible : p.Legible) (hq : q.state = .dirty) :
    (p.events.map Event.toElement ++ p.positions.map Position.toElement).foldlM readChild q =
      .ok { q with events := q.events ++ p.events, positions := q.positions ++ p.positions } := by
  rw [List.foldlM_append]
  refine bind_eq_ok.mpr ⟨_, foldlM_events hlegible.events hp.events hq, ?_⟩
  exact foldlM_positions hlegible.positions hp.positions hq

theorem ofDocument_toDocument_eq_ok (hp : p.Recorded) :
    ofDocument p.toDocument = .ok q ↔ ∃ r,
      (p.symmetries.map Symmetry.toElement).foldlM readChild p.heading = .ok r ∧
      (p.events.map Event.toElement ++ p.positions.map Position.toElement).foldlM readChild r =
        .ok q := by
  have hchildren : p.toDocument.children = p.header ++ (p.symmetries.map Symmetry.toElement ++
      (p.events.map Event.toElement ++ p.positions.map Position.toElement)) := by
    simp [toDocument, header]
  have hroot : lift UserError.document (root p.toDocument) =
    (.ok p.toDocument : Except (UserError α) Element) := rfl
  unfold ofDocument
  simp only [hroot, hchildren, List.foldlM_append, foldlM_header hp, bind_eq_ok, Except.ok.injEq,
    exists_eq_left']

/-- What a pattern is written as reads back, apart from its layout, if its symmetries are kept. -/
theorem ofDocument_toDocument (hp : p.Recorded) (hlegible : p.Legible)
    (hkept : ∀ s ∈ p.symmetries, s.Kept p.jugglers p.paths) :
    ofDocument p.toDocument = .ok { p with state := .dirty, layout := none } := by
  have hread : ∀ s ∈ p.symmetries,
      Symmetry.ofElement p.heading.jugglers p.heading.paths s.toElement = .ok s := by
    intro s hs
    obtain ⟨⟨hj, hn⟩, hdelay⟩ := hkept s hs
    have := Symmetry.ofElement_toElement (hp.symmetries s hs)
      ⟨hj ▸ hp.counts.1, hn ▸ hp.counts.2⟩ (hlegible.symmetries s hs) hdelay
    rwa [hj, hn] at this
  exact (ofDocument_toDocument_eq_ok hp).mpr
    ⟨_, foldlM_symmetries hread rfl, foldlM_rest hp hlegible rfl⟩

theorem symmetries_of_foldlM {xs : List (Symmetry α)} {r : Pattern α}
    (hok : (xs.map Symmetry.toElement).foldlM readChild q = .ok r) : ∃ ys,
      r.symmetries = q.symmetries ++ ys ∧ (q.state = .dirty → r.state = .dirty) ∧
      List.Forall₂ (fun s s' ↦ Symmetry.ofElement q.jugglers q.paths s.toElement = .ok s') xs
        ys := by
  induction xs generalizing q with
  | nil =>
    obtain rfl := pure_eq_ok.mp hok
    exact ⟨[], by simp, id, .nil⟩
  | cons s xs ih =>
    rw [List.map_cons, List.foldlM_cons] at hok
    obtain ⟨mid, hmid, hok⟩ := bind_eq_ok.mp hok
    unfold readChild at hmid
    rw [Symmetry.tag_toElement] at hmid
    obtain ⟨s', hs', rfl⟩ := map_eq_ok.mp hmid
    obtain ⟨ys, hys, hstate, hall⟩ := ih hok
    exact ⟨s' :: ys, by simpa [addSymmetry] using hys, fun _ ↦ hstate rfl, .cons hs' hall⟩

theorem kept_of_ofDocument (hp : p.Recorded) (hlegible : p.Legible)
    (hok : ofDocument p.toDocument = .ok q) (hq : q.symmetries = p.symmetries) :
    ∀ s ∈ p.symmetries, s.Kept p.jugglers p.paths := by
  obtain ⟨r, hr, hrest⟩ := (ofDocument_toDocument_eq_ok hp).mp hok
  obtain ⟨ys, hys, hstate, hall⟩ := symmetries_of_foldlM hr
  obtain rfl := Except.ok.inj ((foldlM_rest hp hlegible (hstate rfl)).symm.trans hrest)
  obtain rfl : p.symmetries = ys := hq.symm.trans hys
  exact fun s hs ↦ Symmetry.kept_of_ofElement (List.forall₂_same.mp hall s hs)

section Read

variable {e : Element}

theorem Recorded.readChild (hp : p.Recorded) (hok : p.readChild e = .ok q) : q.Recorded := by
  rcases readChild_cases hok with rfl | ⟨t, rfl⟩ | ⟨x, rfl⟩ | hsetup | ⟨s, hs, rfl⟩ | ⟨x, hx, rfl⟩ |
    ⟨x, hx, rfl⟩
  · exact hp
  · exact ⟨hp.counts, hp.assignment, hp.symmetries, hp.events, hp.positions⟩
  · exact ⟨hp.counts, hp.assignment, hp.symmetries, hp.events, hp.positions⟩
  · obtain ⟨jugglers, paths, assignment, hcounts, hassignment, rfl⟩ := readSetup_ok hsetup
    refine ⟨hcounts, ?_, hp.symmetries, hp.events, hp.positions⟩
    rcases hassignment with rfl | hassignment
    · exact hp.assignment
    · exact hassignment
  · have hsymmetries := List.forall_mem_append.mpr ⟨hp.symmetries,
      List.forall_mem_singleton.mpr (Symmetry.regular_ofElement hs)⟩
    exact ⟨hp.counts, hp.assignment, hsymmetries, hp.events, hp.positions⟩
  · have hevents := List.forall_mem_append.mpr ⟨hp.events,
      List.forall_mem_singleton.mpr (Event.ofElement_ok hx)⟩
    exact ⟨hp.counts, hp.assignment, hp.symmetries, hevents, hp.positions⟩
  · have hpositions := List.forall_mem_append.mpr ⟨hp.positions,
      List.forall_mem_singleton.mpr (Position.ofElement_ok hx)⟩
    exact ⟨hp.counts, hp.assignment, hp.symmetries, hp.events, hpositions⟩

theorem recorded_of_ofDocument (hok : ofDocument e = .ok p) : p.Recorded := by
  obtain ⟨node, -, hok⟩ := bind_eq_ok.mp hok
  have hcounts : 1 < Text.natLimit := by decide
  exact foldlM_induction (fun _ _ _ _ hp hq ↦ hp.readChild hq)
    ⟨⟨hcounts, hcounts⟩, by simp, by simp, by simp, by simp⟩ hok

theorem fresh_of_ofDocument (hok : ofDocument e = .ok p) : p.state = .dirty ∧ p.layout = none := by
  obtain ⟨node, -, hok⟩ := bind_eq_ok.mp hok
  refine foldlM_induction (Q := fun p : Pattern α ↦ p.state = .dirty ∧ p.layout = none)
    (fun p e _ q hp hq ↦ ?_) ⟨rfl, rfl⟩ hok
  rcases readChild_cases hq with rfl | ⟨t, rfl⟩ | ⟨x, rfl⟩ | hsetup | ⟨s, -, rfl⟩ | ⟨x, -, rfl⟩ |
    ⟨x, -, rfl⟩
  · exact hp
  · exact hp
  · exact ⟨rfl, hp.2⟩
  · obtain ⟨jugglers, paths, assignment, -, -, rfl⟩ := readSetup_ok hsetup
    exact ⟨rfl, hp.2⟩
  · exact ⟨rfl, hp.2⟩
  · exact ⟨rfl, hp.2⟩
  · exact ⟨rfl, hp.2⟩

end Read

/-- The symmetries of a pattern that has a layout are kept. -/
theorem kept_of_build {l : Layout α} (hbuild : Layout.build p.declarations = .ok l) :
    ∀ s ∈ p.symmetries, s.Kept p.jugglers p.paths := by
  obtain ⟨⟨⟩, hvalid, hok⟩ := bind_eq_ok.mp hbuild
  obtain ⟨g, hg, -⟩ := bind_eq_ok.mp hok
  obtain ⟨-, -, -, hsizes⟩ := Declarations.validate_eq_ok.mp (lift_eq_ok.mp hvalid)
  exact fun s hs ↦ ⟨hsizes s hs, SymmetryGroup.isIdentity_of_ofSymmetries (lift_eq_ok.mp hg) hs⟩

theorem legible_exchange : Timeline.exchangePattern.Legible where
  symmetries := by decide +kernel
  events := by decide +kernel
  positions := by decide +kernel

theorem parsed_exchange : ∀ s ∈ Timeline.exchangePattern.symmetries,
    ∃ kind J N jugglerSpec pathSpec delay,
      Symmetry.parse kind J N jugglerSpec pathSpec delay = .ok s := by
  intro s hs
  rcases List.mem_pair.mp hs with rfl | rfl
  · exact ⟨.delay, 1, 1, "", "", some 1, toOption_eq_some.mp (by decide +kernel)⟩
  · exact ⟨.switchDelay, 1, 1, "(1,1*)", "", none, toOption_eq_some.mp (by decide +kernel)⟩

theorem constructed_exchange :
    ∀ e ∈ Timeline.exchangePattern.events, ∀ t ∈ e.transitions, t.Constructed := by
  decide +kernel

/-- Rewriting the document of a pattern keeps the pattern just when its symmetries rename as many
jugglers and paths as there are, and its delays move no jugglers. A pattern that is not kept cannot
be laid out. -/
theorem rewrite_iff {e : Element} (hok : ofDocument e = .ok p) (hlegible : p.Legible) :
    (ofDocument p.toDocument = .ok p ↔ ∀ s ∈ p.symmetries, s.Kept p.jugglers p.paths) ∧
    (ofDocument p.toDocument ≠ .ok p → ∃ err, p.layOut = (p, .error err)) := by
  have hrecorded := recorded_of_ofDocument hok
  obtain ⟨hstate, hlayout⟩ := fresh_of_ofDocument hok
  have hself : { p with state := .dirty, layout := none } = p := by
    rw [← hstate, ← hlayout]
  have hiff : ofDocument p.toDocument = .ok p ↔ ∀ s ∈ p.symmetries, s.Kept p.jugglers p.paths := by
    refine ⟨fun h ↦ kept_of_ofDocument hrecorded hlegible h rfl, fun h ↦ ?_⟩
    rw [ofDocument_toDocument hrecorded hlegible h, hself]
  refine ⟨hiff, fun hne ↦ ?_⟩
  rcases hmake : { p with state := .layingOut }.makeLayout with err | l
  · refine ⟨err, ?_⟩
    unfold layOut
    simp only [hmake]
  · exact absurd (hiff.mpr (kept_of_build (makeLayout_eq_ok.mp hmake).2)) hne

/-- The exchange is kept in its document, which therefore says what its symmetries rename. -/
theorem rewrite_exchange :
    ofDocument Timeline.exchangePattern.toDocument = .ok Timeline.exchangePattern ∧
      Timeline.exchangePattern.Legible ∧
      ∀ s ∈ Timeline.exchangePattern.symmetries, s.Kept 1 1 := by
  have hrecorded : Timeline.exchangePattern.Recorded := by
    refine ⟨by decide, by decide, fun s hs ↦ ?_, ?_, by decide⟩
    · obtain ⟨kind, J, N, jugglerSpec, pathSpec, delay, hparse⟩ := parsed_exchange s hs
      exact (Symmetry.regular_parse hparse).1
    · decide +kernel
  have hkept : ∀ s ∈ Timeline.exchangePattern.symmetries, s.Kept 1 1 := by
    obtain ⟨l, hbuild, -⟩ := Timeline.layOut_exchange
    exact kept_of_build hbuild
  have hok := ofDocument_toDocument hrecorded legible_exchange hkept
  exact ⟨hok, legible_exchange, (rewrite_iff hok legible_exchange).1.mp hok⟩

omit [Scalar α] [Numeral α] in
theorem checkProps_ok (hok : p.checkProps = .ok ()) :
    ∀ n ∈ p.assignment, n ≤ max 1 p.props.length := by
  rcases checkProps_eq_ok.mp hok with hnil | ⟨-, hdeclared⟩
  · simp [hnil]
  · exact fun n hn ↦ (hdeclared n hn).2

/-- A pattern that was laid out, saved and read again has the same declarations, and laid out once
more it is what it was. -/
theorem reload_of_layOut (hok : q.layOut = (p, .ok ())) (hlegible : p.Legible)
    (hsymmetries : ∀ s ∈ p.symmetries, ∃ kind J N jugglerSpec pathSpec delay,
      Symmetry.parse kind J N jugglerSpec pathSpec delay = .ok s)
    (htransitions : ∀ e ∈ p.events, ∀ t ∈ e.transitions, t.Constructed)
    (hcounts : p.jugglers < Text.natLimit ∧ p.paths < Text.natLimit ∧
      p.props.length < Text.natLimit) :
    ∃ copy, ofDocument p.toDocument = .ok copy ∧
      copy = { p with state := .dirty, layout := none } ∧ copy.layOut = (p, .ok ()) := by
  have hregular : ∀ s ∈ p.symmetries, s.Regular := by
    intro s hs
    obtain ⟨kind, J, N, jugglerSpec, pathSpec, delay, hparse⟩ := hsymmetries s hs
    exact (Symmetry.regular_parse hparse).1
  obtain ⟨l, hprops, hbuild, rfl⟩ : ∃ l, q.checkProps = .ok () ∧
      Layout.build q.declarations = .ok l ∧
      p = { q with events := l.masters, layout := some l, state := .clean } := by
    rcases hmake : { q with state := .layingOut }.makeLayout with err | l
    · simp only [layOut, hmake] at hok
      cases hok
    · simp only [layOut, hmake] at hok
      obtain ⟨hprops, hbuild⟩ := makeLayout_eq_ok.mp hmake
      exact ⟨l, hprops, hbuild, (Prod.mk.inj hok).1.symm⟩
  -- What is saved are the masters, and these are laid out as what they come from.
  have hagain :=
    Layout.build_masters (d := q.declarations) (fun s hs ↦ (hregular s hs).lawful) hbuild
  obtain ⟨⟨⟩, hvalid, -⟩ := bind_eq_ok.mp hagain
  obtain ⟨-, hplaced, hpositions, -⟩ := Declarations.validate_eq_ok.mp (lift_eq_ok.mp hvalid)
  -- A layout refuses jugglers and paths that do not exist, so no number is too large.
  have hrecorded : ({ q with events := l.masters, layout := some l, state := .clean } :
      Pattern α).Recorded := by
    refine ⟨⟨hcounts.1, hcounts.2.1⟩, fun n hn ↦ ?_, hregular, fun e he ↦ ?_, fun x hx ↦ ?_⟩
    · have hle := checkProps_ok hprops n hn
      have hlimit : 1 < Text.natLimit := by decide
      exact hle.trans_lt (max_lt hlimit hcounts.2.2)
    · obtain ⟨hj, hpath⟩ := hplaced e he
      exact ⟨⟨hj.1, hj.2.trans_lt hcounts.1⟩, fun t ht ↦
        ⟨htransitions e he t ht, (hpath t ht).2.trans_lt hcounts.2.1⟩⟩
    · exact (hpositions x hx).2.trans_lt hcounts.1
  refine ⟨_, ofDocument_toDocument hrecorded hlegible (kept_of_build hagain), rfl, ?_⟩
  have hmake : ({ q with events := l.masters, layout := none, state := .layingOut } :
      Pattern α).makeLayout = .ok l := makeLayout_eq_ok.mpr ⟨hprops, hagain⟩
  unfold layOut
  simp only [hmake]

theorem reload_exchange : ∃ p : Pattern ℚ, Timeline.exchangePattern.layOut = (p, .ok ()) ∧
    p.Legible ∧
    (∀ s ∈ p.symmetries, ∃ kind J N jugglerSpec pathSpec delay,
      Symmetry.parse kind J N jugglerSpec pathSpec delay = .ok s) ∧
    (∀ e ∈ p.events, ∀ t ∈ e.transitions, t.Constructed) ∧
    (p.jugglers < Text.natLimit ∧ p.paths < Text.natLimit ∧ p.props.length < Text.natLimit) ∧
    ∃ copy, ofDocument p.toDocument = .ok copy ∧
      copy = { p with state := .dirty, layout := none } ∧ copy.layOut = (p, .ok ()) := by
  obtain ⟨l, -, hok, -⟩ := Timeline.layOut_exchange
  have hlegible : ({ Timeline.exchangePattern with layout := some l, state := .clean } :
      Pattern ℚ).Legible :=
    ⟨legible_exchange.symmetries, legible_exchange.events, legible_exchange.positions⟩
  have hcounts : 1 < Text.natLimit ∧ 1 < Text.natLimit ∧ 0 < Text.natLimit := by decide
  exact ⟨_, hok, hlegible, parsed_exchange, constructed_exchange, hcounts,
    reload_of_layOut hok hlegible parsed_exchange constructed_exchange hcounts⟩

end Juggling.Pattern
