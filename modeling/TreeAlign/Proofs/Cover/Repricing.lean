import TreeAlign.Proofs.Cover.ExactCover
import TreeAlign.Proofs.Cover.Pricing

namespace TreeAlign

namespace Candidates

variable {cs : Candidates}

def withExact (cs : Candidates) (cost : Candidate → Float32) : Candidates :=
  { cs with entries := cs.entries.map fun c => { c with exact := cost c } }

section WithExact

variable (cost : Candidate → Float32)

theorem candidateOf?_withExact (s : Site) :
    (cs.withExact cost).candidateOf? s = (cs.candidateOf? s).map fun c => { c with exact := cost c } :=
  List.find?_map

theorem image?_withExact : (cs.withExact cost).image? = cs.image? := by
  funext s
  rw [image?, image?, candidateOf?_withExact, Option.bind_map]
  rfl

theorem strayChildren_withExact (m n : Site) : (cs.withExact cost).strayChildren m n = cs.strayChildren m n := by
  rw [strayChildren, strayChildren, image?_withExact]

theorem invariantSiblings_withExact (m n : Site) :
    (cs.withExact cost).invariantSiblings m n = cs.invariantSiblings m n := by
  rw [invariantSiblings, invariantSiblings, image?_withExact]
  rfl

theorem breakup_withExact {R : Type} [Div R] [NatCast R] (m n : Site) :
    ((cs.withExact cost).breakup m n : R) = cs.breakup m n := by
  have divergent : (cs.withExact cost).divergentSiblings m n = cs.divergentSiblings m n := by
    rw [divergentSiblings, divergentSiblings, invariantSiblings_withExact, image?_withExact]
    rfl
  have families : (cs.withExact cost).families m = cs.families m := by
    rw [Candidates.families, Candidates.families, image?_withExact]
    rfl
  rw [breakup, breakup, divergent, invariantSiblings_withExact, families]

theorem isOutOfOrder_withExact (c : Candidate) (m n : Site) :
    (cs.withExact cost).isOutOfOrder { c with exact := cost c } m n = cs.isOutOfOrder c m n := by
  have found : (cs.withExact cost).candidateOf? =
      fun s => (cs.candidateOf? s).map fun c => { c with exact := cost c } := by
    funext s
    exact candidateOf?_withExact cost s
  rw [isOutOfOrder, isOutOfOrder, found, ← List.map_filterMap, List.any_map]
  rfl

/-- What a candidate costs depends on the nodes of the candidates alone. -/
theorem exactCost_withExact (w : Weights Float32) (c : Candidate) :
    (cs.withExact cost).exactCost w { c with exact := cost c } = cs.exactCost w c := by
  obtain ⟨left, right, _, _⟩ := c
  cases left with
  | none => rfl
  | some m =>
    cases right with
    | none => rfl
    | some n =>
      simp only [exactCost, ancestryCost, siblingCost, orderingCost, strayChildren_withExact, breakup_withExact]
      rw [isOutOfOrder_withExact cost ⟨some m, some n, _, _⟩]

end WithExact

def priced (w : Weights Float32) (cs : Candidates) : Candidates :=
  cs.withExact (cs.exactCost w)

theorem priced_priced (w : Weights Float32) (cs : Candidates) : (cs.priced w).priced w = cs.priced w := by
  have same : ∀ c ∈ cs.entries, (cs.priced w).exactCost w { c with exact := cs.exactCost w c } = cs.exactCost w c :=
    fun c _ => exactCost_withExact _ w c
  simp only [priced, withExact, List.map_map, Candidates.mk.injEq, true_and]
  apply List.map_congr_left
  intro c hc
  exact congrArg (fun cost => ({ c with exact := cost } : Candidate)) (same c hc)

theorem meanPrice_priced (w : Weights Float32) (cs : Candidates) : (cs.priced w).meanPrice w = cs.meanPrice w := by
  have same : (cs.priced w).entries.map ((cs.priced w).exactCost w) = cs.entries.map (cs.exactCost w) := by
    rw [priced, withExact, List.map_map]
    apply List.map_congr_left
    intro c _
    exact exactCost_withExact _ w c
  rw [meanPrice, meanPrice, same]
  rfl

end Candidates

namespace Cover

open Candidates Sampling

variable {w : Weights Float32} {p : SearchParameters} {left right : Site} {first : NodeId} {outlines : List Outline}
  {graph cover fixed current : Candidates} {α β : Type}

theorem price_of_exactCosts {memo : Memo}
    (costs : ((Recall.exactCosts cover w).run memo).1 = cover.entries.map (cover.exactCost w)) :
    (price w cover memo).1 = (cover.priced w, cover.meanPrice w) := by
  change (({ cover with entries := List.zipWith _ cover.entries ((Recall.exactCosts cover w).run memo).1 } : Candidates),
    ((((Recall.exactCosts cover w).run memo).1.foldl (fun (sum : Float) (cost : Float32) => sum + cost.toFloat) 0.0) / _).toFloat32) = _
  rw [costs, List.zipWith_map_right, List.zipWith_self]
  rfl

/-- Nothing that the tables hold is wrong about candidates over the two subtrees. -/
def BlankAt (left right : Site) (walk : Walk) : Prop :=
  walk.memo.Blank left right

section Told

variable (hl : left ∈ Site.inTrees (Tree.numberAll first outlines)) (hr : right ∈ Site.inTrees (Tree.numberAll first outlines))

include hl hr

theorem lasting_blankAt : Lasting w left right (BlankAt left right) where
  drawn _ _ blank := blank
  ranked := by
    rintro ⟨l, r, entries⟩ h walk blank
    obtain rfl : l = left := h.left
    obtain rfl : r = right := h.right
    exact (Recall.estimatesIn_blank hl hr w h.inside (List.Subset.refl entries) blank).2

/-- A cover that is priced gets its own price, whatever was looked up before. -/
theorem cost_priced (h : Within left right cover) :
    Keeps (BlankAt left right) (cost w cover) (fun paid => paid = (cover.priced w, cover.meanPrice w)) fun _ => True := by
  obtain ⟨l, r, entries⟩ := cover
  obtain rfl : l = left := h.left
  obtain rfl : r = right := h.right
  unfold cost
  split
  · exact .of_throw trivial
  · apply Keeps.of_remember
    intro walk blank
    obtain ⟨costs, after⟩ := Recall.exactCostsIn_blank hl hr w h.inside (List.Subset.refl entries) blank
    exact ⟨price_of_exactCosts costs, after⟩

end Told

end Cover

end TreeAlign
