import Mathlib.Data.List.DropRight
import Mathlib.Data.List.Forall2
import Juggling.Json.Printer
import Juggling.Json.Reader

namespace Juggling

theorem mapM_eq_some {β γ : Type} {f : β → Option γ} {xs : List β} {ys : List γ} :
    xs.mapM f = some ys ↔ List.Forall₂ (fun x y ↦ f x = some y) xs ys := by
  induction xs generalizing ys with
  | nil =>
    rw [List.mapM_nil, List.forall₂_nil_left_iff]
    exact ⟨fun h ↦ (Option.some.inj h).symm, fun h ↦ congrArg some h.symm⟩
  | cons x xs ih =>
    rw [List.mapM_cons, List.forall₂_cons_left_iff]
    constructor
    · intro h
      obtain ⟨y, hy, h⟩ := Option.bind_eq_some_iff.mp h
      obtain ⟨ys, hys, h⟩ := Option.bind_eq_some_iff.mp h
      exact ⟨y, ys, hy, ih.mp hys, (Option.some.inj h).symm⟩
    · rintro ⟨y, ys, hy, hys, rfl⟩
      rw [hy, ih.mpr hys]
      rfl

namespace Json

namespace Reader

open Printer (escape hexDigit quoted newLine)

theorem hexDigit?_hexDigit : ∀ n < 16, hexDigit? (hexDigit n) = some n := by
  decide

theorem hexValue?_control {n : ℕ} (hn : n < 32) :
    hexValue? ['0', '0', hexDigit (n / 16), hexDigit (n % 16)] = some n := by
  have h := hexDigit?_hexDigit (n / 16) (by omega)
  have h' := hexDigit?_hexDigit (n % 16) (by omega)
  have hzero : hexDigit? '0' = some 0 := rfl
  simp only [hexValue?, List.foldlM_cons, List.foldlM_nil, hzero, h, h', Option.map_some,
    Option.bind_eq_bind, Option.bind_some, Option.pure_def, Option.some.injEq]
  omega

/-- A character is read back as it was written, in one step. -/
theorem string_escape (fuel : ℕ) (c : Char) (s : List Char) : string (fuel + 1) (escape c ++ s) =
    (string fuel s).map fun (xs, s) ↦ (xs.map (c :: ·), s) := by
  unfold escape
  split
  iterate 7 rfl
  rename_i hquote hslash _ _ _ _ _
  split_ifs with hlow
  · have hunit : codeUnit? c.toNat s = some (c, s) := by
      have : ¬(0xD800 ≤ c.toNat ∧ c.toNat < 0xDC00) := by omega
      have : ¬(0xDC00 ≤ c.toNat ∧ c.toNat < 0xE000) := by omega
      simp [codeUnit?, *]
    simp only [List.cons_append, List.nil_append, string, hexValue?_control hlow, hunit,
      Option.bind_eq_bind, Option.bind_some]
  · have hne : c ≠ '\\' := hslash
    rw [List.singleton_append, string]
    · simp [hlow, hne]
    · exact hquote
    · exact fun _ _ _ _ _ h ↦ absurd h hne
    · exact fun _ _ h ↦ absurd h hne

theorem string_quoted {cs : List Char} {fuel : ℕ} (h : cs.length < fuel) (rest : List Char) :
    string fuel (cs.flatMap escape ++ '"' :: rest) = some (some cs, rest) := by
  induction cs generalizing fuel with
  | nil =>
    obtain ⟨fuel, rfl⟩ := Nat.exists_eq_add_one_of_ne_zero (Nat.ne_zero_of_lt h)
    rfl
  | cons c cs ih =>
    obtain ⟨fuel, rfl⟩ := Nat.exists_eq_add_one_of_ne_zero (Nat.ne_zero_of_lt h)
    rw [List.flatMap_cons, List.append_assoc, string_escape, ih (Nat.succ_lt_succ_iff.mp h)]
    rfl

end Reader

mutual

/-- Whether a value is made of texts alone, without a number or a word. -/
def Textual : Json → Prop
  | .string _ => True
  | .array xs => TextualItems xs
  | .object ms => TextualMembers ms
  | _ => False

def TextualItems : List Json → Prop
  | [] => True
  | x :: xs => Textual x ∧ TextualItems xs

def TextualMembers : List (String × Json) → Prop
  | [] => True
  | (_, x) :: ms => Textual x ∧ TextualMembers ms

end

namespace Reader

open Printer (escape quoted newLine)

theorem skipBlank_newLine (depth : ℕ) (s : List Char) :
    skipBlank (newLine depth ++ s) = skipBlank s := by
  have hblank : ∀ c ∈ newLine depth, isBlank c = true := by
    intro c hc
    rcases List.mem_cons.mp hc with rfl | hc
    · rfl
    · rw [List.eq_of_mem_replicate hc]
      rfl
  exact List.dropWhile_append_of_pos hblank

theorem skipBlank_of_not {c : Char} (h : isBlank c = false) (s : List Char) :
    skipBlank (c :: s) = c :: s :=
  List.dropWhile_cons_of_neg (by simp [h])

/-- Blanks before a value mean nothing. -/
theorem value_skipBlank (fuel : ℕ) {s t : List Char} (h : skipBlank s = skipBlank t) :
    value fuel s = value fuel t := by
  cases fuel with
  | zero => rfl
  | succ fuel => rw [value, value, h]

theorem items_skipBlank (fuel : ℕ) {s t : List Char} (h : skipBlank s = skipBlank t) :
    items fuel s = items fuel t := by
  cases fuel with
  | zero => rfl
  | succ fuel => rw [items, items, value_skipBlank fuel h]

theorem members_skipBlank (fuel : ℕ) {s t : List Char} (h : skipBlank s = skipBlank t) :
    members fuel s = members fuel t := by
  cases fuel with
  | zero => rfl
  | succ fuel => rw [members, members, h]

theorem length_le_escape (cs : List Char) : cs.length ≤ (cs.flatMap escape).length := by
  have hone (c : Char) : 1 ≤ (escape c).length := by
    unfold escape
    split <;> try simp
    split_ifs <;> simp
  induction cs with
  | nil => simp
  | cons c cs ih =>
    have := hone c
    simp only [List.flatMap_cons, List.length_append, List.length_cons]
    omega

theorem value_quoted {fuel : ℕ} {s : String} (h : s.toList.length < fuel) (rest : List Char) :
    value fuel (quoted s ++ rest) = some (.string s, rest) := by
  obtain ⟨fuel, rfl⟩ := Nat.exists_eq_add_one_of_ne_zero (Nat.ne_zero_of_lt h)
  have hstring := string_quoted h rest
  have hquoted : quoted s ++ rest = '"' :: (s.toList.flatMap escape ++ '"' :: rest) := by
    simp [quoted]
  rw [value, hquoted, skipBlank_of_not rfl]
  simp [hstring, ofString]

/-- A printed text, list or object shows by its first character that it is one. -/
theorem exists_opening {x : Json} (h : x.Textual) (depth : ℕ) : ∃ c s,
    Printer.value depth x = c :: s ∧ isBlank c = false ∧ c ≠ ']' := by
  cases x with
  | string s => exact ⟨'"', _, rfl, rfl, by decide⟩
  | array xs => cases xs <;> exact ⟨'[', _, rfl, rfl, by decide⟩
  | object ms => cases ms <;> exact ⟨'{', _, rfl, rfl, by decide⟩
  | _ => exact h.elim

theorem length_quoted (s : String) : s.toList.length + 2 ≤ (quoted s).length := by
  have := length_le_escape s.toList
  simp only [quoted, List.length_cons, List.length_append, List.length_nil]
  omega

@[simp] theorem length_newLine (depth : ℕ) : (newLine depth).length = 2 * depth + 1 := by
  simp [newLine]

section Steps

variable {fuel : ℕ} {s t rest : List Char} {x : Json} {xs : List Json} {key : List Char}
  {ms : List (Option (List Char) × Json)}

theorem items_last (hx : value fuel s = some (x, t)) (ht : skipBlank t = ']' :: rest) :
    items (fuel + 1) s = some ([x], rest) := by
  simp [items, hx, ht]

theorem items_next (hx : value fuel s = some (x, ',' :: t)) (ht : items fuel t = some (xs, rest)) :
    items (fuel + 1) s = some (x :: xs, rest) := by
  simp [items, hx, ht, skipBlank_of_not, isBlank]

theorem value_array (hs : items fuel s = some (xs, rest))
    (hne : ∀ u, skipBlank s ≠ ']' :: u) : value (fuel + 1) ('[' :: s) = some (.array xs, rest) := by
  have hskip : skipBlank (skipBlank s) = skipBlank s := List.dropWhile_idempotent _ _
  rw [value, skipBlank_of_not rfl]
  simp only [items_skipBlank fuel hskip, hs, Option.map_some]

theorem members_last {k : String} (hk : k.toList.length ≤ fuel)
    (hs : skipBlank s = quoted k ++ ':' :: ' ' :: t) {u : List Char}
    (hx : value fuel t = some (x, u)) (hu : skipBlank u = '}' :: rest) :
    members (fuel + 1) s = some ([(some k.toList, x)], rest) := by
  have hquoted : skipBlank s = '"' :: (k.toList.flatMap escape ++ '"' :: ':' :: ' ' :: t) := by
    rw [hs]
    simp [quoted]
  rw [← value_skipBlank fuel (s := ' ' :: t) (t := t) rfl] at hx
  simp [members, hquoted, string_quoted (Nat.lt_succ_of_le hk), skipBlank_of_not (c := ':') rfl, hx,
    hu]

theorem members_next {k : String} (hk : k.toList.length ≤ fuel)
    (hs : skipBlank s = quoted k ++ ':' :: ' ' :: t) {u : List Char}
    (hx : value fuel t = some (x, ',' :: u)) (hu : members fuel u = some (ms, rest)) :
    members (fuel + 1) s = some ((some k.toList, x) :: ms, rest) := by
  have hquoted : skipBlank s = '"' :: (k.toList.flatMap escape ++ '"' :: ':' :: ' ' :: t) := by
    rw [hs]
    simp [quoted]
  rw [← value_skipBlank fuel (s := ' ' :: t) (t := t) rfl] at hx
  simp [members, hquoted, string_quoted (Nat.lt_succ_of_le hk), skipBlank_of_not (c := ':') rfl,
    skipBlank_of_not (c := ',') rfl, hx, hu]

theorem value_object (hs : members fuel s = some (ms, rest))
    (hne : ∀ u, skipBlank s ≠ '}' :: u) :
    value (fuel + 1) ('{' :: s) = some (ofMembers ms, rest) := by
  have hskip : skipBlank (skipBlank s) = skipBlank s := List.dropWhile_idempotent _ _
  rw [value, skipBlank_of_not rfl]
  simp only [members_skipBlank fuel hskip, hs, Option.map_some]

end Steps

theorem mapM_map_eq_some {β γ δ : Type} {f : γ → Option δ} {g : β → γ} {h : β → δ}
    (hf : ∀ x, f (g x) = some (h x)) (xs : List β) : (xs.map g).mapM f = some (xs.map h) := by
  rw [mapM_eq_some, List.forall₂_map_left_iff, List.forall₂_map_right_iff, List.forall₂_same]
  exact fun x _ ↦ hf x

theorem ofMembers_map (ms : List (String × Json)) :
    ofMembers (ms.map fun m ↦ (some m.1.toList, m.2)) = .object ms := by
  rw [ofMembers, mapM_map_eq_some (h := id) (fun m ↦ ?_), List.map_id]
  simp

mutual

/-- A value that is printed, with anything after it, is read as itself. -/
theorem value_printed : ∀ (x : Json), x.Textual → ∀ (fuel depth : ℕ) (rest : List Char),
    (Printer.value depth x).length ≤ fuel →
      value fuel (Printer.value depth x ++ rest) = some (x, rest)
  | .string s, _, fuel, depth, rest, hfuel => by
    have := length_quoted s
    rw [Printer.value] at hfuel ⊢
    exact value_quoted (by omega) rest
  | .array [], _, 0, depth, rest, hfuel => by cases hfuel
  | .array [], _, fuel + 1, depth, rest, hfuel => rfl
  | .array (x :: xs), _, 0, depth, rest, hfuel => by cases hfuel
  | .array (x :: xs), h, fuel + 1, depth, rest, hfuel => by
    have hitems := items_printed x xs h fuel (depth + 1) (newLine depth ++ ']' :: rest) rest
    simp only [Printer.value, List.isEmpty_cons, Bool.false_eq_true, if_false, List.cons_append,
      List.append_assoc, List.length_cons, List.length_append, List.nil_append] at hfuel ⊢
    refine value_array (hitems (by omega) (by rw [skipBlank_newLine, skipBlank_of_not rfl]))
      fun u ↦ ?_
    obtain ⟨c, s, hopen, hblank, hne⟩ := exists_opening h.1 (depth + 1)
    simp [Printer.items, skipBlank_newLine, hopen, skipBlank_of_not hblank, hne]
  | .object [], _, 0, depth, rest, hfuel => by cases hfuel
  | .object [], _, fuel + 1, depth, rest, hfuel => rfl
  | .object (m :: ms), _, 0, depth, rest, hfuel => by cases hfuel
  | .object (m :: ms), h, fuel + 1, depth, rest, hfuel => by
    have hmembers := members_printed m ms h fuel (depth + 1) (newLine depth ++ '}' :: rest) rest
    simp only [Printer.value, List.isEmpty_cons, Bool.false_eq_true, if_false, List.cons_append,
      List.append_assoc, List.length_cons, List.length_append, List.nil_append] at hfuel ⊢
    rw [value_object (hmembers (by omega) (by rw [skipBlank_newLine, skipBlank_of_not rfl])),
      ofMembers_map]
    intro u
    simp [Printer.members, skipBlank_newLine, quoted, skipBlank_of_not (c := '"') rfl]

theorem items_printed : ∀ (x : Json) (xs : List Json), TextualItems (x :: xs) →
    ∀ (fuel depth : ℕ) (s rest : List Char), (Printer.items depth (x :: xs)).length ≤ fuel →
      skipBlank s = ']' :: rest →
        items fuel (Printer.items depth (x :: xs) ++ s) = some (x :: xs, rest)
  | x, xs, h, 0, depth, s, rest, hfuel, hs => by
    simp [Printer.items] at hfuel
  | x, [], h, fuel + 1, depth, s, rest, hfuel, hs => by
    simp only [Printer.items, List.isEmpty_nil, if_true, List.append_assoc, List.length_append,
      length_newLine, List.length_nil, List.nil_append] at hfuel ⊢
    refine items_last ?_ hs
    rw [value_skipBlank fuel (skipBlank_newLine depth _)]
    exact value_printed x h.1 fuel depth s (by omega)
  | x, y :: ys, h, fuel + 1, depth, s, rest, hfuel, hs => by
    have hys := items_printed y ys h.2 fuel depth s rest
    rw [Printer.items] at hfuel ⊢
    simp only [List.isEmpty_cons, Bool.false_eq_true, if_false, List.append_assoc,
      List.length_append, length_newLine, List.length_cons, List.nil_append,
      List.cons_append] at hfuel ⊢
    refine items_next ?_ (hys (by omega) hs)
    rw [value_skipBlank fuel (skipBlank_newLine depth _)]
    exact value_printed x h.1 fuel depth _ (by omega)

theorem members_printed : ∀ (m : String × Json) (ms : List (String × Json)),
    TextualMembers (m :: ms) → ∀ (fuel depth : ℕ) (s rest : List Char),
      (Printer.members depth (m :: ms)).length ≤ fuel → skipBlank s = '}' :: rest →
        members fuel (Printer.members depth (m :: ms) ++ s) =
          some ((m :: ms).map fun m ↦ (some m.1.toList, m.2), rest)
  | (key, x), ms, h, 0, depth, s, rest, hfuel, hs => by
    simp [Printer.members] at hfuel
  | (key, x), [], h, fuel + 1, depth, s, rest, hfuel, hs => by
    have hkey := length_quoted key
    simp only [Printer.members, List.isEmpty_nil, if_true, List.append_assoc, List.length_append,
      length_newLine, List.length_nil, List.nil_append, List.length_cons,
      List.cons_append] at hfuel ⊢
    exact members_last (k := key) (by omega) (skipBlank_newLine depth _)
      (value_printed x h.1 fuel depth s (by omega)) hs
  | (key, x), m :: ms, h, fuel + 1, depth, s, rest, hfuel, hs => by
    have hms := members_printed m ms h.2 fuel depth s rest
    have hkey := length_quoted key
    rw [Printer.members] at hfuel ⊢
    simp only [List.isEmpty_cons, Bool.false_eq_true, if_false, List.append_assoc,
      List.length_append, length_newLine, List.nil_append, List.length_cons,
      List.cons_append] at hfuel ⊢
    exact members_next (k := key) (by omega) (skipBlank_newLine depth _)
      (value_printed x h.1 fuel depth _ (by omega)) (hms (by omega) hs)

end

end Reader

/-- A printed value is read as itself. -/
theorem parse?_pretty {x : Json} (h : x.Textual) : parse? x.pretty = some x := by
  have hvalue := Reader.value_printed x h (2 * (Printer.value 0 x).length + 2) 0 [] (by omega)
  rw [List.append_nil] at hvalue
  rw [parse?, pretty, String.toList_ofList, hvalue]
  rfl

end Json

end Juggling
