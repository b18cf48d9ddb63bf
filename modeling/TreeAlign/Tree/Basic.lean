
namespace TreeAlign

universe u

inductive Tree (α : Type u) where
  | node (value : α) (children : List (Tree α))
deriving Repr

namespace Tree

variable {α : Type u}

def value : Tree α → α
  | node value _ => value

def children : Tree α → List (Tree α)
  | node _ children => children

def isLeaf (t : Tree α) : Bool :=
  t.children.isEmpty

mutual

def size : Tree α → Nat
  | node _ children => sizes children + 1

def sizes : List (Tree α) → Nat
  | [] => 0
  | t :: ts => t.size + sizes ts

end

mutual

def height : Tree α → Nat
  | node _ children => heights children

/-- One more than the greatest height in a forest, zero if it is empty. -/
def heights : List (Tree α) → Nat
  | [] => 0
  | t :: ts => max (t.height + 1) (heights ts)

end

mutual

def preorder : Tree α → List (Tree α)
  | node value children => node value children :: preorders children

def preorders : List (Tree α) → List (Tree α)
  | [] => []
  | t :: ts => t.preorder ++ preorders ts

end

mutual

def map {β : Type u} (f : α → β) : Tree α → Tree β
  | node value children => node (f value) (maps f children)

def maps {β : Type u} (f : α → β) : List (Tree α) → List (Tree β)
  | [] => []
  | t :: ts => t.map f :: maps f ts

end

mutual

/-- Numbers the nodes in pre-order, from `first` on. -/
def number (first : Nat) : Tree α → Tree (Nat × α)
  | node value children => node (first, value) (numbers (first + 1) children)

def numbers (first : Nat) : List (Tree α) → List (Tree (Nat × α))
  | [] => []
  | t :: ts => t.number first :: numbers (first + t.size) ts

end

end Tree

end TreeAlign
