import TreeAlign.Cover.Cost

namespace TreeAlign

structure CountBounds where
  lower : Nat
  upper : Nat
deriving DecidableEq, Repr

def CountBounds.add (a b : CountBounds) : CountBounds :=
  ⟨a.lower + b.lower, a.upper + b.upper⟩

namespace Candidates

variable {R : Type} [Add R] [Mul R] [Div R] [NatCast R] (w : Weights R) (cs : Candidates)

/-- Of `sites`, how many have a partner with `test` in every choice left, and how many in some. -/
def countPartners (test : Site → Bool) (sites : List Site) : CountBounds where
  lower := sites.countP fun s => (cs.partners s).all (·.any test)
  upper := sites.countP fun s => (cs.partners s).any (·.any test)

def strayChildrenBounds (m n : Site) : CountBounds :=
  cs.countPartners (fun partner => !n.hasChild partner) m.children

def ancestryBounds (m n : Site) : Bounds R :=
  let count := (cs.strayChildrenBounds m n).add (cs.strayChildrenBounds n m)
  ⟨w.ancestry m n (count.lower : R), w.ancestry m n (count.upper : R)⟩

def divergentBounds (m n : Site) : CountBounds :=
  cs.countPartners (fun partner => !(cs.otherSiblings n).contains partner) (cs.otherSiblings m)

def invariantBounds (m n : Site) : CountBounds :=
  (cs.countPartners (fun partner => (cs.otherSiblings n).contains partner) (cs.otherSiblings m)).add
    ⟨1, 1⟩

def breakupBounds (m n : Site) : Bounds R :=
  let divergent := cs.divergentBounds m n
  if divergent.lower = 0 ∧ divergent.upper = 0 then ⟨((0 : Nat) : R), ((0 : Nat) : R)⟩
  else
    let invariant := cs.invariantBounds m n
    { lower := (divergent.lower : R) / ((invariant.upper : R) * ((divergent.lower + 1 : Nat) : R))
      upper := (divergent.upper : R) / (invariant.lower : R) }

def siblingBounds (m n : Site) : Bounds R :=
  let ours : Bounds R := cs.breakupBounds m n
  let theirs : Bounds R := cs.breakupBounds n m
  { lower := w.siblings m n (ours.lower + theirs.lower)
    upper := w.siblings m n ((ours.upper + theirs.upper) / ((2 : Nat) : R)) }

def orderPossible (c : Candidate) (m n : Site) : Bool :=
  (cs.otherSiblings m ++ cs.otherSiblings n).all fun s =>
    (cs.containing s).any fun other => other.isNoMatch || !cs.violatesOrder other c

def violationPossible (c : Candidate) (m n : Site) : Bool :=
  (cs.otherSiblings m ++ cs.otherSiblings n).any fun s =>
    (cs.containing s).any fun other => !other.isNoMatch && cs.violatesOrder other c

def orderingBounds (c : Candidate) (m n : Site) : Bounds R :=
  let cost := w.ordering m n
  if !cs.orderPossible c m n then ⟨cost, cost⟩
  else ⟨((0 : Nat) : R), if cs.violationPossible c m n then cost else ((0 : Nat) : R)⟩

/-- What a candidate costs at least and at most in the covers that the candidates allow: a term counts in the lower bound
if every choice left incurs it, and in the upper bound if some choice does. -/
def estimate (c : Candidate) : Bounds R :=
  match c.left, c.right with
  | some m, some n =>
    let rename := renameCost w m n
    let ancestry := cs.ancestryBounds w m n
    let siblings := cs.siblingBounds w m n
    let ordering := cs.orderingBounds w c m n
    { lower := rename + ancestry.lower + siblings.lower + ordering.lower
      upper := rename + ancestry.upper + siblings.upper + ordering.upper }
  | _, _ => ⟨w.noMatch, w.noMatch⟩

end Candidates

end TreeAlign
