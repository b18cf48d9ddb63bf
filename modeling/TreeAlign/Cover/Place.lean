import TreeAlign.Cover.Candidate

namespace TreeAlign.Candidates

/-- The children of the node's parent, the node among them. The two roots stand alone. -/
def siblings (cs : Candidates) (site : Site) : List Site :=
  match site.parent? with
  | some parent => if site == cs.left || site == cs.right then [site] else parent.children
  | none => [site]

def otherSiblings (cs : Candidates) (site : Site) : List Site :=
  (cs.siblings site).filter (· != site)

def part (last : Site × Site) : List Site → List Site → Site × Site
  | a :: as, b :: bs => if a != b then (a, b) else part (a, b) as bs
  | _, _ => last

/-- The lowest nodes at or above `a` and `b` that are siblings; the same node twice if one is above the
other. -/
def lowest (cs : Candidates) (a b : Site) : Site × Site :=
  if (cs.siblings a).contains b then (a, b) else part (a, b) a.path.reverse b.path.reverse

def candidateOf? (cs : Candidates) (site : Site) : Option Candidate :=
  cs.entries.find? (·.contains site.id)

def image? (cs : Candidates) (site : Site) : Option Site :=
  (cs.candidateOf? site).bind (·.other? site.id)

def containing (cs : Candidates) (site : Site) : List Candidate :=
  cs.entries.filter (·.contains site.id)

def partners (cs : Candidates) (site : Site) : List (Option Site) :=
  (cs.containing site).map (·.other? site.id)

def position (group : List Site) (site : Site) : Int :=
  match group.findIdx? (· == site) with
  | some i => i
  | none => -1

/-- Whether two pairs, given their lowest siblings on either side and the groups of these, stand in
opposite orders. -/
def crosses (lefts rights : List Site) (left right : Site × Site) : Bool :=
  let leftFirst := position lefts left.1
  let leftSecond := position lefts left.2
  let rightFirst := position rights right.1
  let rightSecond := position rights right.2
  if leftFirst < leftSecond then rightFirst > rightSecond
  else if leftFirst > leftSecond then rightFirst < rightSecond
  else false

def violatesOrder (cs : Candidates) (a b : Candidate) : Bool :=
  match a.left, a.right, b.left, b.right with
  | some al, some ar, some bl, some br =>
    let left := cs.lowest al bl
    let right := cs.lowest ar br
    crosses (cs.siblings left.1) (cs.siblings right.1) left right
  | _, _, _, _ => false

end TreeAlign.Candidates
