import Mathlib.Data.List.Nodup
import Juggling.Proofs.Nesting

namespace Juggling

namespace Element

mutual

/-- No node of a document has an attribute twice. -/
def Keyed : Element → Prop
  | ⟨_, attributes, _, children⟩ => (attributes.map Prod.fst).Nodup ∧ KeyedList children

def KeyedList : List Element → Prop
  | [] => True
  | e :: es => Keyed e ∧ KeyedList es

end

section Attributes

variable {β : Type} {attributes : List (String × β)} {key : String}

theorem insert_of_notMem (h : key ∉ attributes.map Prod.fst) (value : β) :
    insert attributes key value = attributes ++ [(key, value)] := by
  induction attributes with
  | nil => rfl
  | cons a attributes ih =>
    obtain ⟨hne, hrest⟩ := List.ne_and_not_mem_of_not_mem_cons h
    rw [insert, if_neg hne.symm, ih hrest, List.cons_append]

theorem keys_insert_of_mem (h : key ∈ attributes.map Prod.fst) (value : β) :
    (insert attributes key value).map Prod.fst = attributes.map Prod.fst := by
  induction attributes with
  | nil => cases h
  | cons a attributes ih =>
    rw [insert]
    split_ifs with heq
    · rw [List.map_cons, List.map_cons, heq]
    · rw [List.map_cons, List.map_cons, ih ((List.mem_cons.mp h).resolve_left (Ne.symm heq))]

theorem nodup_insert (h : (attributes.map Prod.fst).Nodup) (key : String) (value : β) :
    ((insert attributes key value).map Prod.fst).Nodup := by
  by_cases hmem : key ∈ attributes.map Prod.fst
  · rwa [keys_insert_of_mem hmem]
  · rw [insert_of_notMem hmem, List.map_append]
    exact List.concat_eq_append ▸ h.concat hmem

/-- Attributes that are mentioned one after the other, each but once, stay in that order. -/
theorem foldl_insert (before : List (String × β)) {attributes : List (String × β)}
    (h : ((before ++ attributes).map Prod.fst).Nodup) :
    attributes.foldl (fun as a ↦ insert as a.1 a.2) before = before ++ attributes := by
  induction attributes generalizing before with
  | nil => exact (List.append_nil before).symm
  | cons a attributes ih =>
    have hmem : a.1 ∉ before.map Prod.fst := by
      rw [List.map_append] at h
      exact fun hmem ↦ (List.nodup_append.mp h).2.2 _ hmem _ List.mem_cons_self rfl
    rw [List.foldl_cons, insert_of_notMem hmem, ih _ (by rwa [List.append_assoc]),
      List.append_assoc]
    rfl

theorem nodup_foldl_insert (before attributes : List (String × β))
    (h : (before.map Prod.fst).Nodup) :
    ((attributes.foldl (fun as a ↦ insert as a.1 a.2) before).map Prod.fst).Nodup := by
  induction attributes generalizing before with
  | nil => exact h
  | cons a attributes ih => exact ih _ (nodup_insert h a.1 a.2)

end Attributes

/-- Texts are kept as attributes when each of them has a name of its own. -/
theorem scalars?_eq_some_iff {attributes : List (String × String)} :
    scalars? (attributes.map fun a ↦ (a.1, some a.2)) = some attributes ↔
      (attributes.map Prod.fst).Nodup := by
  have hkeys : (attributes.map fun a ↦ (a.1, some a.2)).map Prod.fst =
      attributes.map Prod.fst := by
    rw [List.map_map]
    rfl
  constructor
  · intro h
    have hkept := mapM_eq_some.mp h
    have hnodup := nodup_foldl_insert [] (attributes.map fun a ↦ (a.1, some a.2)) List.nodup_nil
    have hsame {kept : List (String × Option String)} {as : List (String × String)}
        (h : List.Forall₂ (fun k a ↦ k.2.map (k.1, ·) = some a) kept as) :
        as.map Prod.fst = kept.map Prod.fst := by
      induction h with
      | nil => rfl
      | cons h _ ih =>
        obtain ⟨v, -, rfl⟩ := Option.map_eq_some_iff.mp h
        rw [List.map_cons, List.map_cons, ih]
    rwa [hsame hkept]
  · intro h
    refine mapM_eq_some.mpr ?_
    have hfold := foldl_insert ([] : List (String × Option String)) (hkeys.symm ▸ h)
    rw [List.nil_append] at hfold
    rw [hfold]
    exact List.forall₂_map_left_iff.mpr (List.forall₂_same.mpr fun a _ ↦ rfl)

section Fields

variable (tag : String) (attributes : List (String × String)) (text : Option String)
  (children : List Element)

/-- A node as it is written. -/
theorem toJson_eq : toJson ⟨tag, attributes, text, children⟩ = .object
    (("tag", .string tag)
      :: (if attributes.isEmpty then []
          else [("attributes", .object (attributes.map fun a ↦ (a.1, .string a.2)))])
      ++ text.toList.map (fun s ↦ ("text", .string s))
      ++ (if children.isEmpty then [] else [("children", .array (toJsonList children))])) :=
  rfl

/-- The fields of a node as they are written. -/
theorem ofMembers?_toJson : ∃ ms, toJson ⟨tag, attributes, text, children⟩ = .object ms ∧
    Fields.ofMembers? ms = some {
      tag := some (.string tag)
      attributes := if attributes.isEmpty then none
        else some (.object (attributes.map fun a ↦ (a.1, .string a.2)))
      text := text.map .string
      children := if children.isEmpty then none else some (.array (toJsonList children)) } := by
  refine ⟨_, rfl, ?_⟩
  cases attributes <;> cases text <;> cases children <;> rfl

theorem nesting_toJson : (toJson ⟨tag, attributes, text, children⟩).nesting =
    max (if attributes.isEmpty then 0 else 1)
      (if children.isEmpty then 0 else Json.nestingItems (toJsonList children) + 1) + 1 := by
  have hattributes : Json.nestingMembers (attributes.map fun a ↦ (a.1, .string a.2)) = 0 := by
    induction attributes with
    | nil => rfl
    | cons a attributes ih => simpa [Json.nestingMembers, Json.nesting] using ih
  cases attributes <;> cases text <;> cases children <;>
    simp_all [toJson_eq, Json.nesting, Json.nestingMembers]

end Fields

mutual

theorem textual_toJson : ∀ e : Element, e.toJson.Textual
  | ⟨tag, attributes, text, children⟩ => by
    have hchildren := textual_toJsonList children
    have hattributes : Json.TextualMembers (attributes.map fun a ↦ (a.1, .string a.2)) := by
      induction attributes with
      | nil => trivial
      | cons a attributes ih => exact ⟨trivial, ih⟩
    cases attributes <;> cases text <;> cases children <;>
      simp_all [toJson_eq, Json.Textual, Json.TextualMembers]

theorem textual_toJsonList : ∀ es : List Element, Json.TextualItems (toJsonList es)
  | [] => trivial
  | e :: es => ⟨textual_toJson e, textual_toJsonList es⟩

end

/-- A node is read back when its attributes and the nodes below it are. -/
theorem ofJson?_toJson_succ {depth : ℕ} {tag : String} {attributes : List (String × String)}
    {text : Option String} {children : List Element} :
    ofJson? (depth + 1) (toJson ⟨tag, attributes, text, children⟩) =
        some ⟨tag, attributes, text, children⟩ ↔
      jsonAttributes? depth (if attributes.isEmpty then none
        else some (.object (attributes.map fun a ↦ (a.1, .string a.2)))) = some attributes ∧
      jsonChildren? depth (if children.isEmpty then none
        else some (.array (toJsonList children))) = some children := by
  obtain ⟨ms, hms, hfields⟩ := ofMembers?_toJson tag attributes text children
  have htext : jsonText? (text.map .string) = some text := by cases text <;> rfl
  rw [hms, ofJson?, jsonFields?, hfields]
  simp [jsonTag?, htext, Option.bind_eq_some_iff]

theorem jsonAttributes?_eq_some_iff {depth : ℕ} {attributes : List (String × String)} :
    jsonAttributes? depth (if attributes.isEmpty then none
        else some (.object (attributes.map fun a ↦ (a.1, .string a.2)))) = some attributes ↔
      (attributes.map Prod.fst).Nodup ∧ (if attributes.isEmpty then 0 else 1) ≤ depth := by
  cases attributes with
  | nil => simp [jsonAttributes?]
  | cons a attributes =>
    rw [List.isEmpty_cons, if_neg Bool.false_ne_true, if_neg Bool.false_ne_true]
    cases depth with
    | zero => simp [jsonAttributes?]
    | succ depth =>
      rw [jsonAttributes?,
        Json.Reader.mapM_map_eq_some (h := fun a ↦ (a.1, some a.2)) fun _ ↦ by simp [jsonValue?]]
      exact scalars?_eq_some_iff.trans (by simp)

mutual

theorem ofJson?_toJson_iff : ∀ (e : Element) (depth : ℕ),
    ofJson? depth e.toJson = some e ↔ e.Keyed ∧ e.toJson.nesting ≤ depth
  | ⟨tag, attributes, text, children⟩, 0 => by
    simp [ofJson?, nesting_toJson]
  | ⟨tag, attributes, text, children⟩, depth + 1 => by
    rw [ofJson?_toJson_succ, jsonAttributes?_eq_some_iff, jsonChildren?_toJsonList_iff,
      nesting_toJson, Keyed, Nat.add_le_add_iff_right, Nat.max_le]
    tauto

theorem jsonChildren?_toJsonList_iff : ∀ (es : List Element) (depth : ℕ),
    jsonChildren? depth (if es.isEmpty then none else some (.array (toJsonList es))) = some es ↔
      KeyedList es ∧ (if es.isEmpty then 0 else Json.nestingItems (toJsonList es) + 1) ≤ depth
  | [], depth => by simp [jsonChildren?, KeyedList]
  | e :: es, 0 => by simp [jsonChildren?]
  | e :: es, depth + 1 => by
    have he := mapM_toJsonList_iff (e :: es) depth
    simpa [jsonChildren?] using he

theorem mapM_toJsonList_iff : ∀ (es : List Element) (depth : ℕ),
    (toJsonList es).mapM (ofJson? depth) = some es ↔
      KeyedList es ∧ Json.nestingItems (toJsonList es) ≤ depth
  | [], depth => by simp [toJsonList, KeyedList, Json.nestingItems]
  | e :: es, depth => by
    have he := ofJson?_toJson_iff e depth
    have hes := mapM_toJsonList_iff es depth
    rw [mapM_eq_some] at hes ⊢
    rw [toJsonList, List.forall₂_cons, he, hes, KeyedList, Json.nestingItems, Nat.max_le]
    tauto

end

/-- A document is read back from the text that is written for it exactly if no node has an
attribute twice and the text has no more than 127 brackets open at once. -/
theorem fromJsonText_toJsonText (e : Element) :
    fromJsonText e.toJsonText = .ok e ↔ e.Keyed ∧ Json.brackets e.toJsonText ≤ 127 := by
  have htextual := textual_toJson e
  rw [toJsonText, Json.brackets_pretty htextual, ← ofJson?_toJson_iff e 127, fromJsonText,
    Json.parse?_pretty htextual, Option.bind_some, jsonDepth]
  split <;> simp_all

end Element
end Juggling
