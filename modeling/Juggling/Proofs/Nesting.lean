import Mathlib.Order.Lattice
import Mathlib.Tactic.SplitIfs
import Juggling.Document.Json
import Juggling.Proofs.Printed

namespace Juggling

namespace Json

/-- How many brackets are open at once at most, from a place on where some are open. Those in
strings do not count. -/
def nestingFrom : (quoted : Bool) → (depth : ℕ) → List Char → ℕ
  | _, depth, [] => depth
  | true, depth, '\\' :: _ :: s => nestingFrom true depth s
  | true, depth, c :: s => nestingFrom (c != '"') depth s
  | false, depth, c :: s =>
    if c = '"' then nestingFrom true depth s
    else if c = '[' ∨ c = '{' then nestingFrom false (depth + 1) s
    else if c = ']' ∨ c = '}' then max depth (nestingFrom false (depth - 1) s)
    else nestingFrom false depth s

/-- How many brackets of a text are open at once at most. -/
def brackets (text : String) : ℕ := nestingFrom false 0 text.toList

mutual

/-- How many lists and objects a value has inside one another. -/
def nesting : Json → ℕ
  | .array xs => nestingItems xs + 1
  | .object ms => nestingMembers ms + 1
  | _ => 0

def nestingItems : List Json → ℕ
  | [] => 0
  | x :: xs => max (nesting x) (nestingItems xs)

def nestingMembers : List (String × Json) → ℕ
  | [] => 0
  | (_, x) :: ms => max (nesting x) (nestingMembers ms)

end

section Brackets

open Printer (escape hexDigit quoted newLine)

variable (depth : ℕ) (s : List Char)

theorem le_nestingFrom (inside : Bool) : depth ≤ nestingFrom inside depth s := by
  fun_induction nestingFrom inside depth s <;> omega

theorem nestingFrom_quoted {c : Char} (hquote : c ≠ '"') (hslash : c ≠ '\\') :
    nestingFrom true depth (c :: s) = nestingFrom true depth s := by
  have hne : (c != '"') = true := by simpa using hquote
  rw [nestingFrom, hne]
  exact fun _ _ h ↦ absurd h hslash

theorem nestingFrom_escape (c : Char) :
    nestingFrom true depth (escape c ++ s) = nestingFrom true depth s := by
  have hdigit : ∀ n < 16, hexDigit n ≠ '"' ∧ hexDigit n ≠ '\\' := by decide
  unfold escape
  split
  iterate 7 rfl
  rename_i hquote hslash _ _ _ _ _
  split_ifs with hlow
  · obtain ⟨hq, hs⟩ := hdigit (c.toNat / 16) (by omega)
    obtain ⟨hq', hs'⟩ := hdigit (c.toNat % 16) (by omega)
    simp only [List.cons_append, List.nil_append]
    rw [nestingFrom, nestingFrom_quoted _ _ (by decide) (by decide),
      nestingFrom_quoted _ _ (by decide) (by decide), nestingFrom_quoted _ _ hq hs,
      nestingFrom_quoted _ _ hq' hs']
  · exact nestingFrom_quoted depth s hquote hslash

theorem nestingFrom_string (t : String) :
    nestingFrom false depth (quoted t ++ s) = nestingFrom false depth s := by
  have key (cs : List Char) : nestingFrom true depth (cs.flatMap escape ++ '"' :: s) =
      nestingFrom false depth s := by
    induction cs with
    | nil => rfl
    | cons c cs ih => rw [List.flatMap_cons, List.append_assoc, nestingFrom_escape, ih]
  have hquoted : quoted t ++ s = '"' :: (t.toList.flatMap escape ++ '"' :: s) := by simp [quoted]
  rw [hquoted, nestingFrom, if_pos rfl, key]

theorem nestingFrom_newLine (k : ℕ) :
    nestingFrom false depth (newLine k ++ s) = nestingFrom false depth s := by
  have key (n : ℕ) : nestingFrom false depth (List.replicate n ' ' ++ s) =
      nestingFrom false depth s := by
    induction n with
    | zero => rfl
    | succ n ih => exact ih
  exact key _

theorem nestingFrom_close {c : Char} (h : c = ']' ∨ c = '}') :
    nestingFrom false (depth + 1) (c :: s) = max (depth + 1) (nestingFrom false depth s) := by
  rcases h with rfl | rfl <;> rfl

variable {depth s}

mutual

theorem nestingFrom_value : ∀ (x : Json), x.Textual → ∀ (k depth : ℕ) (s : List Char),
    nestingFrom false depth (Printer.value k x ++ s) =
      max (depth + x.nesting) (nestingFrom false depth s)
  | .string t, _, k, depth, s => by
    exact (nestingFrom_string depth s t).trans (max_eq_right (le_nestingFrom depth s false)).symm
  | .array [], _, k, depth, s => by
    exact nestingFrom_close depth s (.inl rfl)
  | .array (x :: xs), h, k, depth, s => by
    have hitems := nestingFrom_items (x :: xs) h (k + 1) (depth + 1) (newLine k ++ ']' :: s)
    simp only [Printer.value, List.isEmpty_cons, Bool.false_eq_true, if_false, List.cons_append,
      List.append_assoc, List.nil_append]
    rw [nestingFrom_newLine, nestingFrom_close _ _ (.inl rfl)] at hitems
    refine hitems.trans ?_
    rw [nesting]
    omega
  | .object [], _, k, depth, s => by
    exact nestingFrom_close depth s (.inr rfl)
  | .object (m :: ms), h, k, depth, s => by
    have hmembers := nestingFrom_members (m :: ms) h (k + 1) (depth + 1) (newLine k ++ '}' :: s)
    simp only [Printer.value, List.isEmpty_cons, Bool.false_eq_true, if_false, List.cons_append,
      List.append_assoc, List.nil_append]
    rw [nestingFrom_newLine, nestingFrom_close _ _ (.inr rfl)] at hmembers
    refine hmembers.trans ?_
    rw [nesting]
    omega

theorem nestingFrom_items : ∀ (xs : List Json), TextualItems xs → ∀ (k depth : ℕ)
    (s : List Char), nestingFrom false depth (Printer.items k xs ++ s) =
      max (depth + nestingItems xs) (nestingFrom false depth s)
  | [], _, k, depth, s => (max_eq_right (le_nestingFrom depth s false)).symm
  | x :: xs, h, k, depth, s => by
    have hcomma (t : List Char) :
        nestingFrom false depth ((if xs.isEmpty then [] else [',']) ++ t) =
          nestingFrom false depth t := by
      split_ifs <;> rfl
    rw [Printer.items]
    simp only [List.append_assoc]
    rw [nestingFrom_newLine, nestingFrom_value x h.1, hcomma, nestingFrom_items xs h.2,
      nestingItems]
    omega

theorem nestingFrom_members : ∀ (ms : List (String × Json)), TextualMembers ms → ∀ (k depth : ℕ)
    (s : List Char), nestingFrom false depth (Printer.members k ms ++ s) =
      max (depth + nestingMembers ms) (nestingFrom false depth s)
  | [], _, k, depth, s => (max_eq_right (le_nestingFrom depth s false)).symm
  | (key, x) :: ms, h, k, depth, s => by
    have hcomma (t : List Char) :
        nestingFrom false depth ((if ms.isEmpty then [] else [',']) ++ t) =
          nestingFrom false depth t := by
      split_ifs <;> rfl
    have hcolon (t : List Char) : nestingFrom false depth ([':', ' '] ++ t) =
        nestingFrom false depth t := rfl
    rw [Printer.members]
    simp only [List.append_assoc]
    rw [nestingFrom_newLine, nestingFrom_string, hcolon, nestingFrom_value x h.1, hcomma,
      nestingFrom_members ms h.2, nestingMembers]
    omega

end

/-- The brackets of a printed value are those of its lists and objects. -/
theorem brackets_pretty {x : Json} (h : x.Textual) : brackets x.pretty = x.nesting := by
  have hvalue := nestingFrom_value x h 0 0 []
  rw [List.append_nil, Nat.zero_add] at hvalue
  rw [brackets, pretty, String.toList_ofList, hvalue]
  exact max_eq_left (Nat.zero_le _)

end Brackets

end Json

end Juggling
