import TreeAlign.Cover.Place

namespace TreeAlign

instance instNatCastFloat32 : NatCast Float32 := ⟨Float32.ofNat⟩

/-- The cost of each term, given the two nodes of a pair and how much of the term there is. -/
structure Weights (R : Type) where
  rename : Site → Site → R
  ancestry : Site → Site → R → R
  siblings : Site → Site → R → R
  ordering : Site → Site → R
  noMatch : R

def Weights.linear {R : Type} [Mul R] (rename noMatch ancestry siblings ordering : R) : Weights R where
  rename _ _ := rename
  ancestry _ _ amount := ancestry * amount
  siblings _ _ amount := siblings * amount
  ordering _ _ := ordering
  noMatch := noMatch

namespace Candidates

variable {R : Type} [Add R] [Mul R] [Div R] [NatCast R] (w : Weights R) (cs : Candidates)

def renameCost (m n : Site) : R :=
  if m.node.sameLabel n.node then ((0 : Nat) : R) else w.rename m n

def strayChildren (m n : Site) : Nat :=
  (m.children.filterMap cs.image?).countP fun partner => !n.hasChild partner

def ancestryCost (m n : Site) : R :=
  w.ancestry m n ((cs.strayChildren m n + cs.strayChildren n m : Nat) : R)

/-- The siblings of `m` whose partners are siblings of `n`. -/
def invariantSiblings (m n : Site) : List Site :=
  (cs.siblings m).filter fun s =>
    match cs.image? s with
    | some partner => (cs.siblings n).contains partner
    | none => false

def divergentSiblings (m n : Site) : Nat :=
  (cs.siblings m).countP fun s => !(cs.invariantSiblings m n).contains s && (cs.image? s).isSome

/-- Number of parents that the partners of the siblings of `m` have. -/
def families (m : Site) : Nat :=
  (((cs.siblings m).filterMap cs.image?).map fun partner => partner.parent?.map Site.id).eraseDups.length

/-- How far the siblings of `m` are torn apart. -/
def breakup (m n : Site) : R :=
  let divergent := cs.divergentSiblings m n
  if divergent = 0 then ((0 : Nat) : R)
  else (divergent : R) / (((cs.invariantSiblings m n).length * cs.families m : Nat) : R)

def siblingCost (m n : Site) : R :=
  w.siblings m n (cs.breakup m n + cs.breakup n m)

def isOutOfOrder (c : Candidate) (m n : Site) : Bool :=
  ((cs.otherSiblings m ++ cs.otherSiblings n).filterMap cs.candidateOf?).any fun other =>
    !other.isNoMatch && cs.violatesOrder other c

def orderingCost (c : Candidate) (m n : Site) : R :=
  if cs.isOutOfOrder c m n then w.ordering m n else ((0 : Nat) : R)

def exactCost (c : Candidate) : R :=
  match c.left, c.right with
  | some m, some n =>
    renameCost w m n + cs.ancestryCost w m n + cs.siblingCost w m n + cs.orderingCost w c m n
  | _, _ => w.noMatch

end Candidates

end TreeAlign
