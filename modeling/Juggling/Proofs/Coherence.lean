import Juggling.Session
import Juggling.Proofs.Exchange
import Juggling.Proofs.Saved

namespace Juggling

variable {α : Type}

/-- One change of what a pattern declares. -/
inductive Edit (α : Type) where
  | title (title : Option String)
  | jugglers (jugglers : ℕ)
  | paths (paths : ℕ)
  | prop (x : PropDecl)
  | assignment (assignment : List ℕ)
  | symmetry (s : Symmetry α) (lawful : s.Lawful)
  | event (e : Event α)
  | removeEvent (i : ℕ)
  | position (x : Position α)
  | removePosition (i : ℕ)
  | scaleTime (factor : α)

def Edit.apply [Scalar α] (p : Pattern α) : Edit α → Except (UserError α) (Pattern α)
  | .title t => .ok (p.setTitle t)
  | .jugglers n => .ok (p.setJugglers n)
  | .paths n => .ok (p.setPaths n)
  | .prop x => .ok (p.addProp x)
  | .assignment xs => .ok (p.setAssignment xs)
  | .symmetry s _ => .ok (p.addSymmetry s)
  | .event e => .ok (p.addEvent e)
  | .removeEvent i => .ok (p.removeEvent i)
  | .position x => .ok (p.addPosition x)
  | .removePosition i => .ok (p.removePosition i)
  | .scaleTime x => p.scaleTime x

namespace Pattern

variable [Scalar α] [Numeral α] {p q : Pattern α}

section Read

variable {e : Element}

omit [Scalar α] [Numeral α] in
theorem readSetup_ok (hok : p.readSetup e = .ok q) : ∃ jugglers paths assignment,
    (jugglers < Text.natLimit ∧ paths < Text.natLimit) ∧
      (assignment = p.assignment ∨ ∀ n ∈ assignment, n < Text.natLimit) ∧
      q = { p with jugglers, paths, assignment, state := .dirty } := by
  obtain ⟨jugglers, hjugglers, hok⟩ := bind_eq_ok.mp hok
  obtain ⟨paths, hpaths, hok⟩ := bind_eq_ok.mp hok
  have hcounts := And.intro (Element.lt_of_natD (by decide) hjugglers) (Element.lt_of_nat hpaths)
  split at hok
  · obtain rfl := pure_eq_ok.mp hok
    exact ⟨jugglers, paths, p.assignment, hcounts, .inl rfl, rfl⟩
  · obtain ⟨assignment, hassignment, hok⟩ := bind_eq_ok.mp hok
    obtain rfl := pure_eq_ok.mp hok
    refine ⟨jugglers, paths, assignment, hcounts, .inr fun n hn ↦ ?_, rfl⟩
    obtain ⟨s, -, hs⟩ := exists_of_forall₂ (mapM_eq_ok.mp hassignment) hn
    exact Element.lt_of_readNat hs

theorem readChild_cases (hok : p.readChild e = .ok q) : q = p ∨ (∃ t, q = p.setTitle t) ∨
    (∃ x, q = p.addProp x) ∨ p.readSetup e = .ok q ∨
    (∃ s, Symmetry.ofElement p.jugglers p.paths e = .ok s ∧ q = p.addSymmetry s) ∨
    (∃ x, Event.ofElement e = .ok x ∧ q = p.addEvent x) ∨
    ∃ x, Position.ofElement e = .ok x ∧ q = p.addPosition x := by
  unfold readChild at hok
  split at hok
  · exact .inr (.inl ⟨_, (Except.ok.inj hok).symm⟩)
  · exact .inr (.inr (.inl ⟨_, (Except.ok.inj hok).symm⟩))
  · exact .inr (.inr (.inr (.inl (lift_eq_ok.mp hok))))
  · obtain ⟨s, hs, rfl⟩ := map_eq_ok.mp hok
    exact .inr (.inr (.inr (.inr (.inl ⟨s, hs, rfl⟩))))
  · obtain ⟨x, hx, rfl⟩ := map_eq_ok.mp (lift_eq_ok.mp hok)
    exact .inr (.inr (.inr (.inr (.inr (.inl ⟨x, hx, rfl⟩)))))
  · obtain ⟨x, hx, rfl⟩ := map_eq_ok.mp (lift_eq_ok.mp hok)
    exact .inr (.inr (.inr (.inr (.inr (.inr ⟨x, hx, rfl⟩)))))
  · exact .inl (Except.ok.inj hok).symm

end Read

/-- The patterns there can be: new or read from a document, edited and laid out. -/
inductive Arises : Pattern α → Prop where
  | blank (jugglers paths : ℕ) : Arises { jugglers, paths }
  | read {e : Element} {p : Pattern α} (hok : ofDocument e = .ok p) : Arises p
  | edit {p q : Pattern α} (c : Edit α) (hp : Arises p) (hok : c.apply p = .ok q) : Arises q
  | layOut {p : Pattern α} (hp : Arises p) : Arises p.layOut.1

/-- What holds of a pattern at any time: a layout that counts as clean is the one that its
declarations have. -/
structure Sound (p : Pattern α) : Prop where
  lawful : ∀ s ∈ p.symmetries, s.Lawful
  settled : p.state ≠ .layingOut
  current : p.state = .clean → p.checkProps = .ok () ∧ ∃ l, p.layout = some l ∧
    Layout.build p.declarations = .ok l ∧ l.masters = p.events

theorem makeLayout_eq_ok {l : Layout α} : p.makeLayout = .ok l ↔
    p.checkProps = .ok () ∧ Layout.build p.declarations = .ok l := by
  rw [makeLayout, bind_eq_ok]
  constructor
  · rintro ⟨⟨⟩, hprops, hbuild⟩
    exact ⟨lift_eq_ok.mp hprops, hbuild⟩
  · rintro ⟨hprops, hbuild⟩
    exact ⟨(), lift_eq_ok.mpr hprops, hbuild⟩

namespace Sound

theorem of_dirty (hlawful : ∀ s ∈ p.symmetries, s.Lawful) (hstate : p.state = .dirty) :
    p.Sound where
  lawful := hlawful
  settled h := by simp [hstate] at h
  current h := by simp [hstate] at h

theorem edit (hp : p.Sound) {c : Edit α} (hok : c.apply p = .ok q) : q.Sound := by
  cases c with
  | title t =>
    obtain rfl := Except.ok.inj hok
    exact ⟨hp.lawful, hp.settled, hp.current⟩
  | symmetry s lawful =>
    obtain rfl := Except.ok.inj hok
    refine .of_dirty (List.forall_mem_append.mpr ⟨hp.lawful, ?_⟩) rfl
    simpa using lawful
  | removeEvent i =>
    obtain rfl := Except.ok.inj hok
    unfold removeEvent
    split_ifs
    · exact .of_dirty hp.lawful rfl
    · exact hp
  | removePosition i =>
    obtain rfl := Except.ok.inj hok
    unfold removePosition
    split_ifs
    · exact .of_dirty hp.lawful rfl
    · exact hp
  | scaleTime factor =>
    simp only [Edit.apply, Pattern.scaleTime] at hok
    split_ifs at hok
    obtain rfl := Except.ok.inj hok
    refine .of_dirty (fun s hs ↦ ?_) rfl
    obtain ⟨s', hs', rfl⟩ := List.mem_map.mp hs
    exact hp.lawful s' hs'
  -- All other edits leave the symmetries alone and make the pattern dirty.
  | jugglers n | paths n | prop x | assignment xs | event e | position x =>
    obtain rfl := Except.ok.inj hok
    exact .of_dirty hp.lawful rfl

theorem layOut (hp : p.Sound) :
    p.layOut.1.Sound ∧ ∀ err, p.layOut.2 = .error err → p.layOut.1 = p := by
  rcases hmake : { p with state := .layingOut }.makeLayout with err | l
  · have hlay : p.layOut = (p, .error err) := by
      unfold Pattern.layOut
      simp only [hmake]
    rw [hlay]
    exact ⟨hp, fun _ _ ↦ rfl⟩
  · have hlay : p.layOut =
        ({ p with events := l.masters, layout := some l, state := .clean }, .ok ()) := by
      unfold Pattern.layOut
      simp only [hmake]
    obtain ⟨hprops, hbuild⟩ := makeLayout_eq_ok.mp hmake
    rw [hlay]
    refine ⟨⟨hp.lawful, by simp, fun _ ↦ ⟨hprops, l, rfl, ?_, rfl⟩⟩, fun _ h ↦ by cases h⟩
    exact Layout.build_masters (d := p.declarations) hp.lawful hbuild

theorem readChild {e : Element} (hok : p.readChild e = .ok q) (hp : p.Sound) : q.Sound := by
  rcases readChild_cases hok with rfl | ⟨t, rfl⟩ | ⟨x, rfl⟩ | hsetup | ⟨s, hs, rfl⟩ | ⟨x, hx, rfl⟩ |
    ⟨x, hx, rfl⟩
  · exact hp
  · exact ⟨hp.lawful, hp.settled, hp.current⟩
  · exact .of_dirty hp.lawful rfl
  · obtain ⟨jugglers, paths, assignment, -, -, rfl⟩ := readSetup_ok hsetup
    exact .of_dirty hp.lawful rfl
  · exact hp.edit (c := .symmetry s (Symmetry.regular_ofElement hs).lawful) rfl
  · exact .of_dirty hp.lawful rfl
  · exact .of_dirty hp.lawful rfl

theorem read {e : Element} (hok : ofDocument e = .ok p) : p.Sound := by
  obtain ⟨node, -, hok⟩ := bind_eq_ok.mp hok
  exact foldlM_induction (fun _ _ _ _ hp hq ↦ readChild hq hp) (.of_dirty (by simp) rfl) hok

end Sound

theorem Arises.sound (h : p.Arises) : p.Sound := by
  induction h with
  | blank j n => exact .of_dirty (by simp) rfl
  | read hok => exact .read hok
  | edit c _ hok ih => exact ih.edit hok
  | layOut _ ih => exact ih.layOut.1

end Pattern

namespace Session

inductive Action (α : Type) [Scalar α] [Numeral α] where
  | edit (c : Edit α)
  | replace (p : Pattern α) (arises : p.Arises)
  | relayout
  | rewrap

variable [Scalar α] [Numeral α]

def perform (s : Session α) : Action α → Session α
  | .edit c => (s.tryEdit fun p ↦ c.apply p).1
  | .replace p _ => s.edit fun _ ↦ p
  | .relayout => s.relayout.1
  | .rewrap => s.rewrap

def run (s : Session α) (actions : List (Action α)) : Session α := actions.foldl perform s

/-- What others see of a session agrees with its pattern, and a layout is shown just when it is the
one that the declarations have. -/
structure Coherent (s : Session α) : Prop where
  published : s.published = s.pattern.state ∧ (s.published = .clean ∨ s.published = .dirty)
  refused : (∃ err, s.pattern.laidOut = .error err) ↔ s.published ≠ .clean
  current : s.published = .clean → s.pattern.checkProps = .ok () ∧ ∃ l, s.pattern.laidOut = .ok l ∧
    Layout.build s.pattern.declarations = .ok l ∧ l.masters = s.pattern.events
  unchanged : ∀ err, s.relayout.2 = .error err → s.relayout.1 = s

/-- What is kept by all actions. -/
structure Sound (s : Session α) : Prop where
  pattern : s.pattern.Sound
  published : s.published = s.pattern.state

variable {s : Session α}

theorem Sound.perform (hs : s.Sound) (a : Action α) : (s.perform a).Sound := by
  cases a with
  | edit c =>
    unfold Session.perform tryEdit
    simp only
    split
    · rename_i p hp
      exact ⟨hs.pattern.edit hp, rfl⟩
    · exact ⟨hs.pattern, rfl⟩
  | replace p hp => exact ⟨hp.sound, rfl⟩
  | relayout => exact ⟨hs.pattern.layOut.1, rfl⟩
  | rewrap => exact ⟨hs.pattern, rfl⟩

theorem Sound.run (hs : s.Sound) (actions : List (Action α)) : (s.run actions).Sound := by
  induction actions generalizing s with
  | nil => exact hs
  | cons a actions ih => exact ih (hs.perform a)

theorem Sound.coherent (hs : s.Sound) : s.Coherent where
  published := by
    refine ⟨hs.published, ?_⟩
    have := hs.pattern.settled
    rw [hs.published]
    cases h : s.pattern.state <;> simp_all
  refused := by
    rw [hs.published]
    constructor
    · rintro ⟨err, herr⟩ hclean
      obtain ⟨-, l, hl, -⟩ := hs.pattern.current hclean
      simp [Pattern.laidOut, hl, hclean] at herr
    · intro hne
      refine ⟨.notLaidOut, ?_⟩
      unfold Pattern.laidOut
      split
      · contradiction
      · rfl
  current := by
    rw [hs.published]
    intro hclean
    obtain ⟨hprops, l, hl, hbuild⟩ := hs.pattern.current hclean
    exact ⟨hprops, l, by simp [Pattern.laidOut, hl, hclean], hbuild⟩
  unchanged := by
    intro err herr
    have := hs.pattern.layOut.2 err herr
    unfold relayout
    simp only [this]
    rw [← hs.published]

theorem arises_exchange : Timeline.exchangePattern.Arises := by
  have hlawful := Timeline.rearranges_exchange
  refine .edit (.event _) (.edit (.event _) (.edit (.symmetry _ ?_) (.edit (.symmetry _ ?_)
    (.blank 1 1) rfl) rfl) rfl) rfl
  · exact hlawful _ (List.mem_cons_of_mem _ List.mem_cons_self)
  · exact hlawful _ List.mem_cons_self

end Session

end Juggling
