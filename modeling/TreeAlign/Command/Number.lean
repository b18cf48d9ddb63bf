
namespace TreeAlign.Command

def readNumber? (text : String) : Option Nat :=
  let digits := match text.toList with
    | '+' :: digits => digits
    | digits => digits
  if digits.isEmpty || !digits.all Char.isDigit then none
  else
    let number := digits.foldl (fun n digit => 10 * n + (digit.toNat - '0'.toNat)) 0
    if number < UInt64.size then some number else none

def unsigned : List Char → List Char
  | '+' :: rest | '-' :: rest => rest
  | rest => rest

def isExponent : List Char → Bool
  | [] => true
  | c :: rest => (c == 'e' || c == 'E') && !(unsigned rest).isEmpty && (unsigned rest).all Char.isDigit

/-- Whether a text is a number with a fraction and an exponent, as far as it has digits before or after the
point. -/
def isDecimal (text : List Char) : Bool :=
  let whole := text.takeWhile Char.isDigit
  match text.dropWhile Char.isDigit with
  | '.' :: rest =>
    !(whole.isEmpty && (rest.takeWhile Char.isDigit).isEmpty) && isExponent (rest.dropWhile Char.isDigit)
  | rest => !whole.isEmpty && isExponent rest

def isNumber (text : String) : Bool :=
  let text := unsigned text.toList
  isDecimal text || ["inf", "infinity", "nan"].contains (String.ofList text).toLower

end TreeAlign.Command
