import TreeAlign.Json.Printer
import TreeAlign.Json.Token

namespace TreeAlign.Json

/-- A piece as the scanner finds it in a printed string. -/
def Piece.reread : Piece → Piece
  | .char c =>
    if c.toNat < 0x20 ∧ c ∉ ['\x08', '\x0c', '\n', '\r', '\t'] then .unit c.toNat else .char c
  | .unit code => .unit code

def Text.reread (text : Text) : Text :=
  text.map Piece.reread

mutual

def reread : Json → Json
  | .string text => .string text.reread
  | .array items => .array (rereadItems items)
  | .object fields => .object (rereadFields fields)
  | json => json

def rereadItems : List Json → List Json
  | [] => []
  | item :: items => reread item :: rereadItems items

def rereadFields : List (Text × Json) → List (Text × Json)
  | [] => []
  | (name, value) :: fields => (name.reread, reread value) :: rereadFields fields

end

mutual

def tokens : Json → List Token
  | .null => [.null]
  | .bool value => [.bool value]
  | .number literal => [.number literal]
  | .string text => [.string text]
  | .array [] => [.openArray, .closeArray]
  | .array (item :: items) => .openArray :: (tokens item ++ (tokensItems items ++ [.closeArray]))
  | .object [] => [.openObject, .closeObject]
  | .object ((name, value) :: fields) =>
    .openObject :: .string name :: .colon ::
      (tokens value ++ (tokensFields fields ++ [.closeObject]))

def tokensItems : List Json → List Token
  | [] => []
  | item :: items => .comma :: (tokens item ++ tokensItems items)

def tokensFields : List (Text × Json) → List Token
  | [] => []
  | (name, value) :: fields =>
    .comma :: .string name :: .colon :: (tokens value ++ tokensFields fields)

end

def Text.Legible (text : Text) : Prop :=
  ∀ code, .unit code ∈ text → code < 65536

/-- The characters of a number, of which the first can start one. -/
def Numeric (literal : String) : Prop :=
  (∃ c chars, literal.toList = c :: chars ∧ (c.isDigit || c = '-') ∧
    ∀ d ∈ chars, Scan.isNumberChar d) ∧
    (Numeral.ofLiteral? literal).isSome

mutual

def Legible : Json → Prop
  | .number literal => Numeric literal
  | .string text => text.Legible
  | .array items => LegibleItems items
  | .object fields => LegibleFields fields
  | _ => True

def LegibleItems : List Json → Prop
  | [] => True
  | item :: items => Legible item ∧ LegibleItems items

def LegibleFields : List (Text × Json) → Prop
  | [] => True
  | (name, value) :: fields => name.Legible ∧ Legible value ∧ LegibleFields fields

end

namespace Scan

theorem hexValue?_hexDigit : ∀ n < 16, hexValue? (hexDigit n) = some n := by
  decide

theorem foldlM_hex4 {code : Nat} (small : code < 65536) (pieces : Text) (found : List Token) :
    (hex4 code).foldlM step ⟨.unit pieces [], found⟩ =
      some ⟨.string (.unit code :: pieces), found⟩ := by
  have value : unitOf [code % 16, code / 16 % 16, code / 256 % 16, code / 4096 % 16] = code := by
    simp only [unitOf]
    omega
  have digit (n : Nat) : hexValue? (hexDigit (n % 16)) = some (n % 16) :=
    hexValue?_hexDigit _ (Nat.mod_lt _ (by decide))
  simp [hex4, step, digit, value]

theorem foldlM_escapeChar (c : Char) (pieces : Text) (found : List Token) :
    (escapeChar c).foldlM step ⟨.string pieces, found⟩ =
      some ⟨.string ((Piece.char c).reread :: pieces), found⟩ := by
  -- Seven characters have an escape of one letter; other control characters are written by number.
  by_cases short : c ∈ ['"', '\\', '\x08', '\x0c', '\n', '\r', '\t']
  · simp only [List.mem_cons, List.not_mem_nil, or_false] at short
    rcases short with rfl | rfl | rfl | rfl | rfl | rfl | rfl <;> rfl
  · simp only [List.mem_cons, List.not_mem_nil, or_false, not_or] at short
    obtain ⟨h₁, h₂, h₃, h₄, h₅, h₆, h₇⟩ := short
    by_cases control : c.toNat < 0x20
    · have hex := foldlM_hex4 (show c.toNat < 65536 by omega) pieces found
      simp [escapeChar, Piece.reread, h₁, h₂, h₃, h₄, h₅, h₆, h₇, control, step, hex]
    · simp [escapeChar, Piece.reread, h₁, h₂, h₃, h₄, h₅, h₆, h₇, control, step]

theorem foldlM_escapePieces {text : Text} (legible : text.Legible) (pieces : Text)
    (found : List Token) :
    (text.flatMap escapePiece).foldlM step ⟨.string pieces, found⟩ =
      some ⟨.string (text.reread.reverse ++ pieces), found⟩ := by
  induction text generalizing pieces with
  | nil => rfl
  | cons piece text ih =>
    have one : (escapePiece piece).foldlM step ⟨.string pieces, found⟩ =
        some ⟨.string (piece.reread :: pieces), found⟩ := by
      cases piece with
      | char c => exact foldlM_escapeChar c pieces found
      | unit code => exact foldlM_hex4 (legible code List.mem_cons_self) pieces found
    have rest := ih (fun code mem => legible code (List.mem_cons_of_mem _ mem))
      (piece.reread :: pieces)
    simp [one, rest, Text.reread]

def run (state : State) (text : List Char) : Option (List Token) :=
  (text.foldlM step state).bind finish

/-- The text gives these tokens, whatever follows it. -/
def Closes (text : List Char) (tokens : List Token) : Prop :=
  ∀ found, text.foldlM step ⟨.between, found⟩ = some ⟨.between, tokens.reverse ++ found⟩

def Delimited (text : List Char) : Prop :=
  ∀ c ∈ text.head?, isWordChar c = false ∧ isNumberChar c = false

/-- The text gives these tokens if no word or number goes on after it. -/
def Spells (text : List Char) (tokens : List Token) : Prop :=
  ∀ found rest, Delimited rest →
    run ⟨.between, found⟩ (text ++ rest) = run ⟨.between, tokens.reverse ++ found⟩ rest

theorem Delimited.append {text rest : List Char} (h : Delimited text) (hr : Delimited rest) :
    Delimited (text ++ rest) := by
  cases text with
  | nil => exact hr
  | cons c text => exact h

theorem Closes.append {a b : List Char} {s t : List Token} (ha : Closes a s) (hb : Closes b t) :
    Closes (a ++ b) (s ++ t) := by
  intro found
  rw [List.foldlM_append, ha found]
  simp only [Option.bind_eq_bind, Option.bind_some, hb (s.reverse ++ found), List.reverse_append,
    List.append_assoc]

theorem Closes.append_spells {a b : List Char} {s t : List Token} (ha : Closes a s)
    (hb : Spells b t) : Spells (a ++ b) (s ++ t) := by
  intro found rest delimited
  have first : run ⟨.between, found⟩ (a ++ b ++ rest) =
      run ⟨.between, s.reverse ++ found⟩ (b ++ rest) := by
    simp only [run, List.append_assoc, List.foldlM_append, ha found, Option.bind_eq_bind,
      Option.bind_some]
  rw [first, hb _ _ delimited, List.reverse_append, List.append_assoc]

theorem Closes.spells {text : List Char} {tokens : List Token} (h : Closes text tokens) :
    Spells text tokens := by
  have nothing : Spells [] [] := fun _ _ _ => rfl
  simpa using h.append_spells nothing

theorem Spells.append {a b : List Char} {s t : List Token} (ha : Spells a s) (hb : Spells b t)
    (delimited : Delimited b) : Spells (a ++ b) (s ++ t) := by
  intro found rest hr
  rw [List.append_assoc, ha _ _ (delimited.append hr), hb _ _ hr, List.reverse_append,
    List.append_assoc]

theorem toList_newline (depth : Nat) :
    (newline depth).toList = '\n' :: List.replicate (2 * depth) ' ' := by
  simp [newline]

theorem toList_quote (text : Text) :
    (quote text).toList = '"' :: (text.flatMap escapePiece ++ ['"']) := by
  simp [quote]

theorem closes_newline (depth : Nat) : Closes (newline depth).toList [] := by
  have blanks (n : Nat) (found : List Token) :
      (List.replicate n ' ').foldlM step ⟨.between, found⟩ = some ⟨.between, found⟩ := by
    induction n with
    | zero => rfl
    | succ n ih => exact ih
  intro found
  rw [toList_newline, List.foldlM_cons]
  exact blanks (2 * depth) found

theorem closes_quote {text : Text} (legible : text.Legible) :
    Closes (quote text).toList [.string text.reread] := by
  intro found
  have opening : step ⟨.between, found⟩ '"' = some ⟨.string [], found⟩ := rfl
  rw [toList_quote, List.foldlM_cons, opening, Option.bind_eq_bind, Option.bind_some,
    List.foldlM_append, foldlM_escapePieces legible]
  simp [step, State.emit]

theorem spells_of_mode {text : List Char} {token : Token} (mode : Mode)
    (inside : ∀ found, text.foldlM step ⟨.between, found⟩ = some ⟨mode, found⟩)
    (ending : ∀ found, finish ⟨mode, found⟩ = some (token :: found).reverse)
    (next : ∀ found c, isWordChar c = false → isNumberChar c = false →
      step ⟨mode, found⟩ c = between (token :: found) c) :
    Spells text [token] := by
  intro found rest delimited
  simp only [run, List.foldlM_append, inside found, Option.bind_eq_bind, Option.bind_some]
  cases rest with
  | nil => exact ending found
  | cons c rest =>
    obtain ⟨noWord, noNumber⟩ := delimited c rfl
    rw [List.foldlM_cons, List.foldlM_cons, next found c noWord noNumber]
    rfl

theorem spells_null : Spells "null".toList [.null] := by
  apply spells_of_mode (.word ['l', 'l', 'u', 'n']) (fun _ => rfl) (fun _ => rfl)
  intro found c noWord _
  simp [step, noWord, word?]

theorem spells_bool (value : Bool) :
    Spells (if value then "true" else "false").toList [.bool value] := by
  cases value with
  | true =>
    apply spells_of_mode (.word ['e', 'u', 'r', 't']) (fun _ => rfl) (fun _ => rfl)
    intro found c noWord _
    simp [step, noWord, word?]
  | false =>
    apply spells_of_mode (.word ['e', 's', 'l', 'a', 'f']) (fun _ => rfl) (fun _ => rfl)
    intro found c noWord _
    simp [step, noWord, word?]

theorem foldlM_numberChars {chars : List Char} (all : ∀ d ∈ chars, isNumberChar d)
    (earlier : List Char) (found : List Token) :
    chars.foldlM step ⟨.number earlier, found⟩ =
      some ⟨.number (chars.reverse ++ earlier), found⟩ := by
  induction chars generalizing earlier with
  | nil => rfl
  | cons d chars ih =>
    have first : step ⟨.number earlier, found⟩ d = some ⟨.number (d :: earlier), found⟩ := by
      simp [step, all d List.mem_cons_self]
    have rest := ih (fun d mem => all d (List.mem_cons_of_mem _ mem)) (d :: earlier)
    simp [first, rest]

theorem between_numberHead {c : Char} (head : (c.isDigit || c = '-') = true) (found : List Token) :
    between found c = some ⟨.number [c], found⟩ := by
  have blank : isBlank c = false := by
    simp only [isBlank, Bool.or_eq_false_iff, decide_eq_false_iff_not]
    refine ⟨⟨⟨?_, ?_⟩, ?_⟩, ?_⟩ <;> rintro rfl <;> simp at head
  have noQuote : c ≠ '"' := by
    rintro rfl
    simp at head
  simp [between, blank, noQuote, head]

theorem spells_number {literal : String} (numeric : Numeric literal) :
    Spells literal.toList [.number literal] := by
  obtain ⟨⟨c, chars, spelled, head, all⟩, read⟩ := numeric
  obtain ⟨numeral, read⟩ := Option.isSome_iff_exists.mp read
  have number : number? literal.toList = some (.number literal) := by
    simp [number?, read]
  apply spells_of_mode (.number literal.toList.reverse)
  · intro found
    have rest := foldlM_numberChars all [c] found
    simp [spelled, step, between_numberHead head, rest]
  · intro found
    simp [finish, number]
  · intro found c _ noNumber
    simp [step, noNumber, number]

theorem delimited_cons {c : Char} {text : List Char}
    (h : isWordChar c = false ∧ isNumberChar c = false) : Delimited (c :: text) := by
  intro d hd
  obtain rfl : c = d := by simpa using hd
  exact h

theorem delimited_newline (depth : Nat) (rest : List Char) :
    Delimited ((newline depth).toList ++ rest) := by
  rw [toList_newline]
  exact delimited_cons (by decide)

theorem delimited_printItems (depth : Nat) (items : List Json) :
    Delimited (printItems depth items).toList := by
  cases items with
  | nil => simp [printItems, Delimited]
  | cons item items =>
    simp only [printItems, String.toList_append, List.append_assoc]
    exact delimited_cons (by decide)

theorem delimited_printFields (depth : Nat) (fields : List (Text × Json)) :
    Delimited (printFields depth fields).toList := by
  rcases fields with _ | ⟨⟨name, value⟩, fields⟩
  · simp [printFields, Delimited]
  · simp only [printFields, String.toList_append, List.append_assoc]
    exact delimited_cons (by decide)

theorem Spells.close {a b : List Char} {s t : List Token} {c : Char} {token : Token} (ha : Spells a s)
    (hb : Spells b t) (delimited : Delimited b) (mark : Closes [c] [token]) (depth : Nat) :
    Spells (a ++ (b ++ ((newline depth).toList ++ [c]))) (s ++ (t ++ [token])) := by
  have last : Closes ((newline depth).toList ++ [c]) [token] := (closes_newline depth).append mark
  have line := delimited_newline depth [c]
  exact ha.append (hb.append last.spells line) (delimited.append line)

theorem closes_name {name : Text} (legible : name.Legible) (depth : Nat) :
    Closes ((newline depth).toList ++ ((quote name).toList ++ [':', ' ']))
      [.string name.reread, .colon] := by
  have colon : Closes [':', ' '] [.colon] := fun _ => rfl
  exact (closes_newline depth).append ((closes_quote legible).append colon)

-- Words and numbers end only where the next character is none of theirs, so a value is known to give its
-- tokens only before a delimiter. Inside a container a comma or the end of the line is one.
mutual

theorem spells_printAt (depth : Nat) : ∀ (json : Json), json.Legible →
    Spells (printAt depth json).toList (tokens json.reread)
  | .null, _ => spells_null
  | .bool value, _ => by
    rw [printAt]
    exact spells_bool value
  | .number literal, legible => by
    rw [printAt]
    exact spells_number legible
  | .string text, legible => by
    rw [printAt]
    exact (closes_quote legible).spells
  | .array [], _ => by
    have pair : Closes ['[', ']'] [.openArray, .closeArray] := fun _ => rfl
    simpa [printAt, reread, rereadItems, tokens] using pair.spells
  | .array (item :: items), legible => by
    obtain ⟨one, more⟩ := legible
    have opening : Closes ['['] [.openArray] := fun _ => rfl
    have closing : Closes [']'] [.closeArray] := fun _ => rfl
    have inner := (spells_printAt (depth + 1) item one).close (spells_printItems (depth + 1) items more)
      (delimited_printItems _ items) closing depth
    have whole := (opening.append (closes_newline (depth + 1))).append_spells inner
    simpa [printAt, reread, rereadItems, tokens] using whole
  | .object [], _ => by
    have pair : Closes ['\x7b', '\x7d'] [.openObject, .closeObject] := fun _ => rfl
    simpa [printAt, reread, rereadFields, tokens] using pair.spells
  | .object ((name, value) :: fields), legible => by
    obtain ⟨named, one, more⟩ := legible
    have opening : Closes ['\x7b'] [.openObject] := fun _ => rfl
    have closing : Closes ['\x7d'] [.closeObject] := fun _ => rfl
    have inner := (spells_printAt (depth + 1) value one).close (spells_printFields (depth + 1) fields more)
      (delimited_printFields _ fields) closing depth
    have whole := (opening.append (closes_name named (depth + 1))).append_spells inner
    simpa [printAt, reread, rereadFields, tokens] using whole

theorem spells_printItems (depth : Nat) : ∀ (items : List Json), LegibleItems items →
    Spells (printItems depth items).toList (tokensItems (rereadItems items))
  | [], _ => fun _ _ _ => rfl
  | item :: items, legible => by
    obtain ⟨one, more⟩ := legible
    have comma : Closes [','] [.comma] := fun _ => rfl
    have whole := (comma.append (closes_newline depth)).append_spells
      ((spells_printAt depth item one).append (spells_printItems depth items more)
        (delimited_printItems _ items))
    simpa [printItems, rereadItems, tokensItems] using whole

theorem spells_printFields (depth : Nat) : ∀ (fields : List (Text × Json)), LegibleFields fields →
    Spells (printFields depth fields).toList (tokensFields (rereadFields fields))
  | [], _ => fun _ _ _ => rfl
  | (name, value) :: fields, legible => by
    obtain ⟨named, one, more⟩ := legible
    have comma : Closes [','] [.comma] := fun _ => rfl
    have whole := (comma.append (closes_name named depth)).append_spells
      ((spells_printAt depth value one).append (spells_printFields depth fields more)
        (delimited_printFields _ fields))
    simpa [printFields, rereadFields, tokensFields] using whole

end

end Scan

theorem tokens?_print {json : Json} (legible : json.Legible) :
    tokens? json.print.toList = some (tokens json.reread) := by
  have spelled := Scan.spells_printAt 0 json legible [] [] (by simp [Scan.Delimited])
  simpa [Scan.run, Scan.finish, tokens?, Scan.start, print] using spelled

end TreeAlign.Json
