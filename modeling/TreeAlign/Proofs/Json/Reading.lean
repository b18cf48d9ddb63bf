import TreeAlign.Json.Reader
import TreeAlign.Json.Record
import TreeAlign.Proofs.Json.Spelling

namespace TreeAlign.Json

theorem readValue_openArray (json : Json) (stack : List Frame) (rest : List Token) :
    readValue stack (.openArray :: (tokens json ++ rest)) =
      readValue (.array [] :: stack) (tokens json ++ rest) := by
  rcases json with _ | _ | _ | _ | (_ | _) | (_ | ⟨⟨_, _⟩, _⟩) <;> simp [tokens, readValue]

mutual

theorem readValue_tokens : ∀ (json : Json) (stack : List Frame) (rest : List Token),
    readValue stack (tokens json ++ rest) = readRest json stack rest
  | .null, stack, rest => by simp [tokens, readValue]
  | .bool value, stack, rest => by simp [tokens, readValue]
  | .number literal, stack, rest => by simp [tokens, readValue]
  | .string text, stack, rest => by simp [tokens, readValue]
  | .array [], stack, rest => by simp [tokens, readValue]
  | .array (item :: items), stack, rest => by
    simp only [tokens, List.cons_append, List.append_assoc]
    rw [readValue_openArray, readValue_tokens item, List.nil_append, readRest_tokensItems items]
    rfl
  | .object [], stack, rest => by simp [tokens, readValue]
  | .object ((name, value) :: fields), stack, rest => by
    simp only [tokens, List.cons_append, List.append_assoc, readValue]
    rw [readValue_tokens value, List.nil_append, readRest_tokensFields fields]
    rfl

theorem readRest_tokensItems : ∀ (items : List Json) (value : Json) (earlier : List Json)
    (stack : List Frame) (rest : List Token),
    readRest value (.array earlier :: stack) (tokensItems items ++ .closeArray :: rest) =
      readRest (.array (earlier.reverse ++ value :: items)) stack rest
  | [], value, earlier, stack, rest => by simp [tokensItems, readRest]
  | item :: items, value, earlier, stack, rest => by
    simp only [tokensItems, List.cons_append, List.append_assoc, readRest]
    rw [readValue_tokens item, readRest_tokensItems items]
    simp

theorem readRest_tokensFields : ∀ (fields : List (Text × Json)) (name : Text) (value : Json)
    (earlier : List (Text × Json)) (stack : List Frame) (rest : List Token),
    readRest value (.object earlier name :: stack) (tokensFields fields ++ .closeObject :: rest) =
      readRest (.object (earlier.reverse ++ (name, value) :: fields)) stack rest
  | [], name, value, earlier, stack, rest => by simp [tokensFields, readRest]
  | (next, other) :: fields, name, value, earlier, stack, rest => by
    simp only [tokensFields, List.cons_append, List.append_assoc, readRest]
    rw [readValue_tokens other, readRest_tokensFields fields]
    simp

end

theorem parse?_print {json : Json} (legible : json.Legible) :
    parse? json.print = some json.reread := by
  have read := readValue_tokens json.reread [] []
  rw [List.append_nil] at read
  rw [parse?, tokens?_print legible, Option.bind_some, read]
  simp [readRest]

theorem chars?_unit {code : Nat} (small : code < 0xD800) (rest : Text) :
    Text.chars? (.unit code :: rest) = (Text.chars? rest).map (Char.ofNat code :: ·) := by
  have notHigh : Text.isHigh code = false := by
    simp only [Text.isHigh, Bool.and_eq_false_iff, decide_eq_false_iff_not]
    omega
  have notLow : Text.isLow code = false := by
    simp only [Text.isLow, Bool.and_eq_false_iff, decide_eq_false_iff_not]
    omega
  rw [Text.chars?.eq_def]
  simp [notHigh, notLow]

theorem chars?_reread (chars : List Char) :
    Text.chars? (Text.reread (chars.map .char)) = some chars := by
  induction chars with
  | nil => rfl
  | cons c chars ih =>
    change Text.chars? ((Piece.char c).reread :: Text.reread (chars.map .char)) = some (c :: chars)
    rw [Piece.reread]
    split
    next control =>
      rw [chars?_unit (by omega), ih]
      simp
    next => simp [Text.chars?, ih]

@[simp] theorem toString?_reread (s : String) : (Text.ofString s).reread.toString? = some s := by
  simp [Text.toString?, Text.ofString, chars?_reread]

@[simp] theorem toString?_reread_ofString (s : String) : (ofString s).reread.toString? = some s := by
  simp [ofString, reread, toString?]

@[simp] theorem toOption?_reread_ofString (s : String) :
    toOption? toString? (ofString s).reread = some (some s) := by
  simp [ofString, reread, toOption?, toString?]

@[simp] theorem toName?_reread_ofString {α : Type} (ofName? : String → Option α) (s : String) :
    toName? ofName? (ofString s).reread = ofName? s := by
  simp [ofString, reread, toName?]

/-- The value of a field that occurs once at most. -/
def field? (fields : List (String × Json)) (name : String) : Option (Option Json) :=
  match fields.filter (·.1 == name) with
  | [] => some none
  | [(_, value)] => some (some value)
  | _ => none

theorem namedFields?_reread (fields : List (String × Json)) :
    namedFields? (rereadFields (fields.map fun (name, value) => (Text.ofString name, value))) =
      some (fields.map fun (name, value) => (name, value.reread)) := by
  induction fields with
  | nil => rfl
  | cons field fields ih =>
    simp only [namedFields?] at ih
    simp [namedFields?, rereadFields, ih]

theorem fields?_reread_record (names : List String) (fields : List (String × Json)) :
    (record fields).reread.fields? names =
      names.mapM (field? (fields.map fun (name, value) => (name, value.reread))) := by
  rw [record, reread, fields?, namedFields?_reread]
  rfl

@[simp] theorem legible_ofString (s : String) : (Text.ofString s).Legible := by
  simp [Text.Legible, Text.ofString]

end TreeAlign.Json
