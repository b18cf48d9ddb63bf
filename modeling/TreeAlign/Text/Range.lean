
namespace TreeAlign.Text

abbrev CodeRange := Nat × Nat

def CodeRange.contains (range : CodeRange) (c : Char) : Bool :=
  range.1 ≤ c.toNat && c.toNat ≤ range.2

def isInRanges (ranges : List CodeRange) (c : Char) : Bool :=
  ranges.any (·.contains c)

end TreeAlign.Text
