import Std.Data.HashMap
import TreeAlign.Cover.Estimate

namespace TreeAlign

structure Memo where
  siblings : Std.HashMap NodeId (List Site) := {}
  otherSiblings : Std.HashMap NodeId (List Site) := {}
  lowest : Std.HashMap (NodeId × NodeId) (Site × Site) := {}
  candidateOf : Std.HashMap NodeId Candidate := {}
  containing : Std.HashMap NodeId (List Candidate) := {}

namespace Memo

/-- One of the tables that are keyed by a single node. -/
structure Table (α : Type) where
  read : Memo → Std.HashMap NodeId α
  write : Std.HashMap NodeId α → Memo → Memo

namespace Table

def siblings : Table (List Site) := ⟨Memo.siblings, fun table memo => { memo with siblings := table }⟩

def otherSiblings : Table (List Site) := ⟨Memo.otherSiblings, fun table memo => { memo with otherSiblings := table }⟩

def containing : Table (List Candidate) := ⟨Memo.containing, fun table memo => { memo with containing := table }⟩

end Table

def forgetCover (memo : Memo) : Memo :=
  { containing := memo.containing }

def forgetGraph (memo : Memo) : Memo :=
  { candidateOf := memo.candidateOf }

end Memo

abbrev Recall := StateM Memo

namespace Recall

variable (cs : Candidates)

def entry {α : Type} (table : Memo.Table α) (site : Site) (compute : Recall α) : Recall α := do
  match (table.read (← get))[site.id]? with
  | some a => return a
  | none =>
    let a ← compute
    modify fun memo => table.write ((table.read memo).insert site.id a) memo
    return a

def siblings (site : Site) : Recall (List Site) :=
  entry .siblings site (pure (cs.siblings site))

def otherSiblings (site : Site) : Recall (List Site) :=
  entry .otherSiblings site do return (← siblings cs site).filter (· != site)

/-- A pair known the other way round is known. -/
def lowest (a b : Site) : Recall (Site × Site) := do
  match (← get).lowest[(a.id, b.id)]? with
  | some pair => return pair
  | none =>
    match (← get).lowest[(b.id, a.id)]? with
    | some pair => return (pair.2, pair.1)
    | none =>
      let group ← siblings cs a
      let pair :=
        if group.contains b then (a, b) else Candidates.part (a, b) a.path.reverse b.path.reverse
      modify fun memo => { memo with lowest := memo.lowest.insert (a.id, b.id) pair }
      return pair

def candidateOf? (site : Site) : Recall (Option Candidate) := do
  match (← get).candidateOf[site.id]? with
  | some c => return some c
  | none =>
    match cs.candidateOf? site with
    | none => return none
    | some c =>
      modify fun memo => { memo with candidateOf := memo.candidateOf.insert site.id c }
      return some c

def image? (site : Site) : Recall (Option Site) := do
  return (← candidateOf? cs site).bind (·.other? site.id)

def containing (site : Site) : Recall (List Candidate) :=
  entry .containing site (pure (cs.containing site))

def partners (site : Site) : Recall (List (Option Site)) := do
  return (← containing cs site).map (·.other? site.id)

def violatesOrder (a b : Candidate) : Recall Bool := do
  match a.left, a.right, b.left, b.right with
  | some al, some ar, some bl, some br =>
    let left ← lowest cs al bl
    let right ← lowest cs ar br
    let lefts ← siblings cs left.1
    let rights ← siblings cs right.1
    return Candidates.crosses lefts rights left right
  | _, _, _, _ => return false

variable {R : Type} [Add R] [Mul R] [Div R] [NatCast R] (w : Weights R)

def strayChildren (m n : Site) : Recall Nat := do
  let images ← m.children.filterMapM (image? cs)
  return images.countP fun partner => !n.hasChild partner

def ancestryCost (m n : Site) : Recall R := do
  let ours ← strayChildren cs m n
  let theirs ← strayChildren cs n m
  return w.ancestry m n ((ours + theirs : Nat) : R)

def invariantSiblings (m n : Site) : Recall (List Site) := do
  let group ← siblings cs n
  let own ← siblings cs m
  own.filterM fun s => do
    match ← image? cs s with
    | some partner => return group.contains partner
    | none => return false

def breakup (m n : Site) : Recall R := do
  let invariant ← invariantSiblings cs m n
  let own ← siblings cs m
  let divergent ← own.filterM fun s => do
    if invariant.contains s then return false
    return (← image? cs s).isSome
  if divergent.length = 0 then return ((0 : Nat) : R)
  let images ← own.filterMapM (image? cs)
  let families := (images.map fun partner => partner.parent?.map Site.id).eraseDups.length
  return (divergent.length : R) / ((invariant.length * families : Nat) : R)

def siblingCost (m n : Site) : Recall R := do
  let ours ← breakup cs m n
  let theirs ← breakup cs n m
  return w.siblings m n (ours + theirs)

def orderingCost (c : Candidate) (m n : Site) : Recall R := do
  let lefts ← otherSiblings cs m
  let rights ← otherSiblings cs n
  let violated ← (lefts ++ rights).anyM fun s => do
    match ← candidateOf? cs s with
    | none => return false
    | some other => if other.isNoMatch then return false else violatesOrder cs other c
  return if violated then w.ordering m n else ((0 : Nat) : R)

def exactCost (c : Candidate) : Recall R := do
  match c.left, c.right with
  | some m, some n =>
    let rename := Candidates.renameCost w m n
    let ancestry ← ancestryCost cs w m n
    let siblings ← siblingCost cs w m n
    let ordering ← orderingCost cs w c m n
    return rename + ancestry + siblings + ordering
  | _, _ => return w.noMatch

def countPartners (test : Site → Bool) (sites : List Site) : Recall CountBounds := do
  let lower ← sites.filterM fun s => do return (← partners cs s).all (·.any test)
  let upper ← sites.filterM fun s => do return (← partners cs s).any (·.any test)
  return ⟨lower.length, upper.length⟩

def ancestryBounds (m n : Site) : Recall (Bounds R) := do
  let ours ← countPartners cs (fun partner => !n.hasChild partner) m.children
  let theirs ← countPartners cs (fun partner => !m.hasChild partner) n.children
  let count := ours.add theirs
  return ⟨w.ancestry m n (count.lower : R), w.ancestry m n (count.upper : R)⟩

def breakupBounds (m n : Site) : Recall (Bounds R) := do
  let own ← otherSiblings cs m
  let others ← otherSiblings cs n
  let divergent ← countPartners cs (fun partner => !others.contains partner) own
  if divergent.lower = 0 ∧ divergent.upper = 0 then
    return ⟨((0 : Nat) : R), ((0 : Nat) : R)⟩
  let invariant := (← countPartners cs (fun partner => others.contains partner) own).add ⟨1, 1⟩
  return {
    lower := (divergent.lower : R) / ((invariant.upper : R) * ((divergent.lower + 1 : Nat) : R))
    upper := (divergent.upper : R) / (invariant.lower : R) }

def siblingBounds (m n : Site) : Recall (Bounds R) := do
  let ours : Bounds R ← breakupBounds cs m n
  let theirs : Bounds R ← breakupBounds cs n m
  return {
    lower := w.siblings m n (ours.lower + theirs.lower)
    upper := w.siblings m n ((ours.upper + theirs.upper) / ((2 : Nat) : R)) }

def orderPossible (c : Candidate) (sites : List Site) : Recall Bool :=
  sites.allM fun s => do
    (← containing cs s).anyM fun other => do
      if other.isNoMatch then return true
      return !(← violatesOrder cs other c)

def violationPossible (c : Candidate) (sites : List Site) : Recall Bool :=
  sites.anyM fun s => do
    (← containing cs s).anyM fun other => do
      if other.isNoMatch then return false
      violatesOrder cs other c

def orderingBounds (c : Candidate) (m n : Site) : Recall (Bounds R) := do
  let lefts ← otherSiblings cs m
  let rights ← otherSiblings cs n
  let cost := w.ordering m n
  if !(← orderPossible cs c (lefts ++ rights)) then return ⟨cost, cost⟩
  let violated ← violationPossible cs c (lefts ++ rights)
  return ⟨((0 : Nat) : R), if violated then cost else ((0 : Nat) : R)⟩

def estimate (c : Candidate) : Recall (Bounds R) := do
  match c.left, c.right with
  | some m, some n =>
    let rename := Candidates.renameCost w m n
    let ancestry ← ancestryBounds cs w m n
    let siblings ← siblingBounds cs w m n
    let ordering ← orderingBounds cs w c m n
    return {
      lower := rename + ancestry.lower + siblings.lower + ordering.lower
      upper := rename + ancestry.upper + siblings.upper + ordering.upper }
  | _, _ => return ⟨w.noMatch, w.noMatch⟩

def pass {α : Type} (forget : Memo → Memo) (each : Candidate → Recall α) (order : List Candidate) : Recall (List α) := do
  let results ← order.mapM each
  modify forget
  return results

def exactCostsIn (order : List Candidate) : Recall (List R) :=
  pass Memo.forgetCover (exactCost cs w) order

def estimatesIn (order : List Candidate) : Recall (List (Bounds R)) :=
  pass Memo.forgetGraph (estimate cs w) order

def exactCosts : Recall (List R) :=
  exactCostsIn cs w cs.entries

def estimates : Recall (List (Bounds R)) :=
  estimatesIn cs w cs.entries

end Recall

end TreeAlign
