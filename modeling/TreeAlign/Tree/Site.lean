import TreeAlign.Tree.Node

namespace TreeAlign

/-- A node and its ancestors, the nearest first. -/
structure Site where
  node : Node
  above : List Node

namespace Site

def root (tree : Node) : Site :=
  ⟨tree, []⟩

def id (site : Site) : NodeId :=
  site.node.id

/-- Sites are told apart by the identities of their nodes. -/
instance : BEq Site where
  beq a b := a.id == b.id

def size (site : Site) : Nat :=
  site.node.size

def children (site : Site) : List Site :=
  site.node.children.map fun child => ⟨child, site.node :: site.above⟩

def parent? (site : Site) : Option Site :=
  match site.above with
  | [] => none
  | parent :: above => some ⟨parent, above⟩

def child? (site : Site) (i : Nat) : Option Site :=
  site.children[i]?

def hasChild (site other : Site) : Bool :=
  match other.above with
  | [] => false
  | parent :: _ => parent.id == site.id

def contains (site other : Site) : Bool :=
  site.node.containsId other.id

def path (site : Site) : List Site :=
  go site.node site.above
where
  go (node : Node) : List Node → List Site
    | [] => [⟨node, []⟩]
    | parent :: above => ⟨node, parent :: above⟩ :: go parent above

mutual

def preorderBelow (above : List Node) : Node → List Site
  | .node value children =>
    ⟨.node value children, above⟩ :: preordersBelow (.node value children :: above) children

def preordersBelow (above : List Node) : List Node → List Site
  | [] => []
  | node :: nodes => preorderBelow above node ++ preordersBelow above nodes

end

def preorder (site : Site) : List Site :=
  preorderBelow site.above site.node

/-- A level of sites followed by the levels below it. -/
def levels : Nat → List Site → List Site
  | 0, level => level
  | depth + 1, level => level ++ levels depth (level.flatMap children)

def breadthFirst (site : Site) : List Site :=
  levels site.node.height [site]

def find? (site : Site) (id : NodeId) : Option Site :=
  site.preorder.find? (·.id == id)

end Site

end TreeAlign
