import TreeAlign.Document
import TreeAlign.Proofs.Json.Reading

namespace TreeAlign.Json

mutual

def nesting : Json → Nat
  | .array items => nestingItems items + 1
  | .object fields => nestingFields fields + 1
  | _ => 0

def nestingItems : List Json → Nat
  | [] => 0
  | item :: items => max (nesting item) (nestingItems items)

def nestingFields : List (Text × Json) → Nat
  | [] => 0
  | (_, value) :: fields => max (nesting value) (nestingFields fields)

end

end TreeAlign.Json

namespace TreeAlign.Document

open Json

theorem decodeLabel_reread (label : Label) : decodeLabel (encodeLabel label).reread = some label := by
  obtain ⟨kind, value⟩ := label
  cases value with
  | none => simp [decodeLabel, encodeLabel, fields?_reread_record, field?, fieldOr]
  | some value => simp [decodeLabel, encodeLabel, fields?_reread_record, field?, fieldOr]

theorem ofName?_name (marker : Marker) : Marker.ofName? marker.name = some marker := by
  cases marker <;> rfl

mutual

theorem legible_encode : ∀ outline : Outline, (encode outline).Legible
  | .node ⟨⟨kind, value⟩, ordered, marker⟩ children => by
    have below := legible_encodeAll children
    cases value <;>
      simp [encode, encodeLabel, record, ofString, Legible, LegibleFields, below]

theorem legible_encodeAll : ∀ outlines : List Outline, LegibleItems (encodeAll outlines)
  | [] => trivial
  | outline :: outlines => ⟨legible_encode outline, legible_encodeAll outlines⟩

end

mutual

/-- A document nests two levels deep for every level of the tree. -/
theorem nesting_encode : ∀ outline : Outline, (encode outline).nesting = 2 * outline.height + 2
  | .node ⟨⟨kind, value⟩, ordered, marker⟩ children => by
    have below := nestingItems_encodeAll children
    cases value <;>
      simp [encode, encodeLabel, record, ofString, nesting, nestingFields, below, Tree.height]

theorem nestingItems_encodeAll : ∀ outlines : List Outline,
    nestingItems (encodeAll outlines) = 2 * Tree.heights outlines
  | [] => rfl
  | outline :: outlines => by
    rw [encodeAll, nestingItems, nesting_encode outline, nestingItems_encodeAll outlines,
      Tree.heights]
    omega

end

theorem decode_reread_node (levels : Nat) (content : Content) (children : List Outline) :
    decode (levels + 2) (encode (.node content children)).reread =
      ((rereadItems (encodeAll children)).mapM (decode levels)).map (.node content) := by
  obtain ⟨label, ordered, marker⟩ := content
  cases below : (rereadItems (encodeAll children)).mapM (decode levels) <;>
    simp [decode, encode, fields?_reread_record, field?, decodeLabel_reread, fieldOr, reread, toBool?,
      toList?, ofName?_name, below]

mutual

theorem decode_reread : ∀ (outline : Outline) (levels : Nat),
    decode levels (encode outline).reread =
      if 2 * outline.height + 2 ≤ levels then some outline else none
  | .node content children, 0 => by simp [decode]
  | .node content children, 1 => by simp [decode]
  | .node content children, levels + 2 => by
    rw [decode_reread_node, mapM_decode_reread children levels, Tree.height]
    by_cases fits : 2 * Tree.heights children ≤ levels <;> simp [fits]

theorem mapM_decode_reread : ∀ (outlines : List Outline) (levels : Nat),
    (rereadItems (encodeAll outlines)).mapM (decode levels) =
      if 2 * Tree.heights outlines ≤ levels then some outlines else none
  | [], levels => by simp [encodeAll, rereadItems, Tree.heights]
  | outline :: outlines, levels => by
    rw [encodeAll, rereadItems, List.mapM_cons, decode_reread outline, mapM_decode_reread outlines,
      Tree.heights]
    by_cases first : 2 * outline.height + 2 ≤ levels
    · by_cases rest : 2 * Tree.heights outlines ≤ levels
      · have both : 2 * max (outline.height + 1) (Tree.heights outlines) ≤ levels := by omega
        simp [first, rest, both]
      · have deep : ¬ 2 * max (outline.height + 1) (Tree.heights outlines) ≤ levels := by omega
        simp [first, rest, deep]
    · have deep : ¬ 2 * max (outline.height + 1) (Tree.heights outlines) ≤ levels := by omega
      simp [first, deep]

end

theorem parse?_print_eq (outline : Outline) :
    parse? (print outline) = if (encode outline).nesting ≤ levelLimit then some outline else none := by
  rw [parse?, print, Json.parse?_print (legible_encode outline), Option.bind_some,
    decode_reread outline, nesting_encode]

theorem print_roundTrip (outline : Outline) :
    parse? (print outline) = (if (encode outline).nesting < 128 then some outline else none) ∧
      ∀ path, load path (some (print outline)) =
        if (encode outline).nesting < 128 then .ok outline else .error .malformed := by
  have read := parse?_print_eq outline
  by_cases shallow : (encode outline).nesting < 128
  · rw [if_pos (show (encode outline).nesting ≤ levelLimit from Nat.le_of_lt_succ shallow)] at read
    simp [load, read, shallow]
  · rw [if_neg (show ¬ (encode outline).nesting ≤ levelLimit by rw [levelLimit]; omega)] at read
    simp [load, read, shallow]

def chain : Nat → Outline
  | 0 => .node ⟨⟨"k", none⟩, false, .plain⟩ []
  | edges + 1 => .node ⟨⟨"k", none⟩, false, .plain⟩ [chain edges]

theorem height_chain (edges : Nat) : (chain edges).height = edges := by
  induction edges with
  | zero => rfl
  | succ edges ih => simp [chain, Tree.height, Tree.heights, ih]

theorem parse?_print_chain :
    (encode (chain 63)).nesting ≤ 128 ∧ parse? (print (chain 63)) ≠ some (chain 63) := by
  have deep : (encode (chain 63)).nesting = 128 := by
    rw [nesting_encode, height_chain]
  rw [parse?_print_eq, deep]
  simp [levelLimit]

end TreeAlign.Document
