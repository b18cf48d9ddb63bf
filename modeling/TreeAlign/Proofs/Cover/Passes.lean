import TreeAlign.Proofs.Cover.Bounds

namespace TreeAlign

namespace Site

def inTrees (trees : List Node) : List Site :=
  trees.flatMap fun tree => (Site.root tree).preorder

theorem mem_inTrees_below {trees : List Node} {site other : Site} (h : site ∈ inTrees trees)
    (below : other ∈ site.preorder) : other ∈ inTrees trees := by
  obtain ⟨tree, member, inside⟩ := List.mem_flatMap.mp h
  exact List.mem_flatMap.mpr ⟨tree, member, mem_preorder_trans below inside⟩

theorem map_id_inTrees (trees : List Node) : (inTrees trees).map id = (trees.flatMap Tree.preorder).map Tree.id := by
  have each : (fun tree => ((root tree).preorder).map node) = Tree.preorder := by
    funext tree
    exact map_node_preorder (root tree)
  have nodes : (inTrees trees).map node = trees.flatMap Tree.preorder := by
    rw [inTrees, List.map_flatMap, each]
  rw [← nodes, List.map_map]
  rfl

theorem eq_of_mem_inTrees {first : NodeId} {outlines : List Outline} {s t : Site}
    (hs : s ∈ inTrees (Tree.numberAll first outlines)) (ht : t ∈ inTrees (Tree.numberAll first outlines))
    (same : s.id = t.id) : s = t := by
  have nodup : ((inTrees (Tree.numberAll first outlines)).map id).Nodup := by
    rw [map_id_inTrees]
    have numbered := Tree.numbers_numberedFrom outlines first
    rw [Tree.NumberedFrom] at numbered
    rw [Tree.numberAll, numbered]
    exact List.nodup_range'
  exact List.inj_on_of_nodup_map nodup hs ht same

end Site

variable {R : Type} [Add R] [Div R] [NatCast R]

/-- A pass over candidates of two subtrees: which there are, and the order in which some or all of them are taken. -/
inductive Pass where
  | exact (entries order : List Candidate)
  | bounds (entries order : List Candidate)

namespace Pass

def Within (left right : Site) : Pass → Prop
  | .exact entries order | .bounds entries order =>
    (⟨left, right, entries⟩ : Candidates).Over ∧ order ⊆ entries

variable [Mul R]

def leave (w : Weights R) (left right : Site) (memo : Memo) : Pass → Memo
  | .exact entries order => ((Recall.exactCostsIn ⟨left, right, entries⟩ w order).run memo).2
  | .bounds entries order => ((Recall.estimatesIn ⟨left, right, entries⟩ w order).run memo).2

def leaveAll (w : Weights R) (left right : Site) (passes : List Pass) : Memo :=
  passes.foldl (leave w left right) {}

end Pass

/-- The tables hold for whatever candidates over the two subtrees come next. -/
def Memo.Blank (left right : Site) (memo : Memo) : Prop :=
  ∀ cover graph : List Candidate, (⟨left, right, cover⟩ : Candidates).Over → (⟨left, right, graph⟩ : Candidates).Over →
    memo.Holds ⟨left, right, cover⟩ ⟨left, right, graph⟩

/-- A pass gives what is looked up, and leaves blank tables, if it forgets whatever the next one must not find. -/
theorem Recall.pass_blank {α : Type} {forget : Memo → Memo} {each : Candidate → Recall α} {order : List Candidate}
    {values : List α} {left right : Site} {memo : Memo}
    (gives : ∀ cover graph : List Candidate, (⟨left, right, cover⟩ : Candidates).Over →
      (⟨left, right, graph⟩ : Candidates).Over → ∃ cover' graph', memo.Holds cover' graph' ∧
        Gives cover' graph' (order.mapM each) values ∧
        ∀ after : Memo, after.Holds cover' graph' → (forget after).Holds ⟨left, right, cover⟩ ⟨left, right, graph⟩) :
    ((pass forget each order).run memo).1 = values ∧ ((pass forget each order).run memo).2.Blank left right := by
  have ran {cover graph : Candidates} (holds : memo.Holds cover graph) (given : Gives cover graph (order.mapM each) values) :
      ∃ after : Memo, (pass forget each order).run memo = (values, forget after) ∧ after.Holds cover graph := by
    obtain ⟨after, eq, holds⟩ := given memo holds
    exact ⟨after, congrArg (fun result : List α × Memo => (result.1, forget result.2)) eq, holds⟩
  constructor
  · obtain ⟨_, _, holds, given, -⟩ := gives [] [] nofun nofun
    obtain ⟨after, eq, -⟩ := ran holds given
    rw [eq]
  · intro cover graph overCover overGraph
    obtain ⟨_, _, holds, given, forgets⟩ := gives cover graph overCover overGraph
    obtain ⟨after, eq, holds⟩ := ran holds given
    rw [eq]
    exact forgets after holds

section Told

variable {left right : Site} {first : NodeId} {outlines : List Outline}
  (hl : left ∈ Site.inTrees (Tree.numberAll first outlines)) (hr : right ∈ Site.inTrees (Tree.numberAll first outlines))

include hl hr

theorem Candidates.together_of_inTrees {cover graph : List Candidate} (overCover : (⟨left, right, cover⟩ : Candidates).Over)
    (overGraph : (⟨left, right, graph⟩ : Candidates).Over) :
    Candidates.Together ⟨left, right, cover⟩ ⟨left, right, graph⟩ := by
  have inside (b : Bool) (s : Site) (hs : s ∈ ((⟨left, right, graph⟩ : Candidates).root b).preorder) :
      s ∈ Site.inTrees (Tree.numberAll first outlines) := by
    cases b with
    | false => exact Site.mem_inTrees_below hl hs
    | true => exact Site.mem_inTrees_below hr hs
  exact ⟨rfl, rfl, fun b b' s hs t ht => Site.eq_of_mem_inTrees (inside b s hs) (inside b' t ht), overCover, overGraph⟩

namespace Recall

variable (w : Weights R) {entries order : List Candidate} (overEntries : (⟨left, right, entries⟩ : Candidates).Over)
  (sub : order ⊆ entries)

include overEntries sub

theorem exactCosts_mapM_gives {graph : List Candidate} (overGraph : (⟨left, right, graph⟩ : Candidates).Over) :
    Gives ⟨left, right, entries⟩ ⟨left, right, graph⟩ (order.mapM (exactCost ⟨left, right, entries⟩ w))
      (order.map (Candidates.exactCost w ⟨left, right, entries⟩)) :=
  Gives.mapM fun _ hc => exactCost_recalled (Candidates.together_of_inTrees hl hr overEntries overGraph) w (sub hc)

theorem estimates_mapM_gives [Mul R] {cover : List Candidate} (overCover : (⟨left, right, cover⟩ : Candidates).Over) :
    Gives ⟨left, right, cover⟩ ⟨left, right, entries⟩ (order.mapM (estimate ⟨left, right, entries⟩ w))
      (order.map (Candidates.estimate w ⟨left, right, entries⟩)) :=
  Gives.mapM fun _ hc => estimate_recalled (Candidates.together_of_inTrees hl hr overCover overEntries) w (sub hc)

theorem exactCostsIn_blank {memo : Memo} (blank : memo.Blank left right) :
    ((exactCostsIn ⟨left, right, entries⟩ w order).run memo).1 =
        order.map (Candidates.exactCost w ⟨left, right, entries⟩) ∧
      ((exactCostsIn ⟨left, right, entries⟩ w order).run memo).2.Blank left right := by
  apply pass_blank
  intro cover graph _ overGraph
  refine ⟨_, _, blank _ _ overEntries overGraph, exactCosts_mapM_gives hl hr w overEntries sub overGraph, ?_⟩
  intro after holds
  exact { Memo.holds_empty ⟨left, right, cover⟩ ⟨left, right, graph⟩ with containing := holds.containing }

theorem estimatesIn_blank [Mul R] {memo : Memo} (blank : memo.Blank left right) :
    ((estimatesIn ⟨left, right, entries⟩ w order).run memo).1 =
        order.map (Candidates.estimate w ⟨left, right, entries⟩) ∧
      ((estimatesIn ⟨left, right, entries⟩ w order).run memo).2.Blank left right := by
  apply pass_blank
  intro cover graph overCover _
  refine ⟨_, _, blank _ _ overCover overEntries, estimates_mapM_gives hl hr w overEntries sub overCover, ?_⟩
  intro after holds
  exact { Memo.holds_empty ⟨left, right, cover⟩ ⟨left, right, graph⟩ with candidateOf := holds.candidateOf }

end Recall

namespace Pass

variable [Mul R]

theorem leaveAll_blank (w : Weights R) {passes : List Pass} (within : ∀ pass ∈ passes, pass.Within left right) :
    (leaveAll w left right passes).Blank left right := by
  have all (memo : Memo) (blank : memo.Blank left right) : (passes.foldl (leave w left right) memo).Blank left right := by
    induction passes generalizing memo with
    | nil => exact blank
    | cons pass passes ih =>
      apply ih (fun pass member => within pass (List.mem_cons_of_mem _ member))
      have inside := within pass List.mem_cons_self
      cases pass with
      | exact entries order => exact (Recall.exactCostsIn_blank hl hr w inside.1 inside.2 blank).2
      | bounds entries order => exact (Recall.estimatesIn_blank hl hr w inside.1 inside.2 blank).2
  exact all {} fun _ _ _ _ => Memo.holds_empty _ _

/-- Whatever passes came before, and in whatever order a pass takes its candidates, each of them gets the cost and the
bounds that it gets with empty tables, which are those without any tables. -/
theorem next_eq_fresh (w : Weights R) {earlier : List Pass} (within : ∀ pass ∈ earlier, pass.Within left right)
    {entries order : List Candidate} (overEntries : (⟨left, right, entries⟩ : Candidates).Over) (sub : order ⊆ entries) :
    let cs : Candidates := ⟨left, right, entries⟩
    ((Recall.exactCostsIn cs w order).run (leaveAll w left right earlier)).1 =
        order.map (fun c => ((Recall.exactCost cs w c).run {}).1) ∧
      ((Recall.estimatesIn cs w order).run (leaveAll w left right earlier)).1 =
        order.map (fun c => ((Recall.estimate cs w c).run {}).1) ∧
      ∀ c ∈ entries, ((Recall.exactCost cs w c).run {}).1 = cs.exactCost w c ∧
        ((Recall.estimate cs w c).run {}).1 = cs.estimate w c := by
  intro cs
  have blank := leaveAll_blank hl hr w within
  have together := Candidates.together_of_inTrees hl hr overEntries overEntries
  have fresh : ∀ c ∈ entries, ((Recall.exactCost cs w c).run {}).1 = cs.exactCost w c ∧
      ((Recall.estimate cs w c).run {}).1 = cs.estimate w c := by
    intro c hc
    obtain ⟨_, cost, -⟩ := Recall.exactCost_recalled together w hc {} (Memo.holds_empty cs cs)
    obtain ⟨_, bounds, -⟩ := Recall.estimate_recalled together w hc {} (Memo.holds_empty cs cs)
    exact ⟨congrArg Prod.fst cost, congrArg Prod.fst bounds⟩
  have costs := (Recall.exactCostsIn_blank hl hr w overEntries sub blank).1
  have bounds := (Recall.estimatesIn_blank hl hr w overEntries sub blank).1
  have freshCosts : order.map (fun c => ((Recall.exactCost cs w c).run {}).1) = order.map (cs.exactCost w) :=
    List.map_congr_left fun c hc => (fresh c (sub hc)).1
  have freshBounds : order.map (fun c => ((Recall.estimate cs w c).run {}).1) = order.map (cs.estimate w) :=
    List.map_congr_left fun c hc => (fresh c (sub hc)).2
  rw [freshCosts, freshBounds]
  exact ⟨costs, bounds, fresh⟩

end Pass

end Told

namespace Pass

def twig : Outline :=
  .node ⟨⟨"list", none⟩, false, .plain⟩
    [.node ⟨⟨"item", some "a"⟩, false, .plain⟩ [.node ⟨⟨"item", some "c"⟩, false, .plain⟩ []],
     .node ⟨⟨"item", some "b"⟩, false, .plain⟩ []]

def twigSites : List Site := Site.inTrees (Tree.numberAll 0 [twig])

def knotPlaces : List (Option Nat × Option Nat) :=
  [(some 0, some 1), (some 1, some 0), (none, some 2), (none, some 3)]

theorem next_eq_fresh_twig : ∃ left right, twigSites[1]? = some left ∧ twigSites[0]? = some right ∧
    let cover := Candidates.atPlaces left right knotPlaces
    let graph := Candidates.atPlaces left right ((some 0, some 0) :: (some 1, none) :: knotPlaces)
    let w : Weights ℚ := .linear 1 1 1 1 1
    cover.check = .ok () ∧
    ((Recall.exactCostsIn cover w cover.entries.reverse).run (leaveAll w left right
        [.bounds graph.entries graph.entries.reverse, .exact cover.entries cover.entries])).1 =
      cover.entries.reverse.map (fun c => ((Recall.exactCost cover w c).run {}).1) := by
  obtain ⟨left, right, hl, hr, sane⟩ : ∃ left right, twigSites[1]? = some left ∧ twigSites[0]? = some right ∧
    (Candidates.atPlaces left right knotPlaces).check = .ok () := ⟨_, _, rfl, rfl, rfl⟩
  refine ⟨left, right, hl, hr, sane, ?_⟩
  have overPlaces := Candidates.atPlaces_over left right
  have backwards {cs : List Candidate} : cs.reverse ⊆ cs := fun _ => List.mem_reverse.mp
  apply (next_eq_fresh (List.mem_of_getElem? hl) (List.mem_of_getElem? hr) _ _ (overPlaces knotPlaces) backwards).1
  intro pass member
  simp only [List.mem_cons, List.not_mem_nil, or_false] at member
  rcases member with rfl | rfl
  · exact ⟨overPlaces _, backwards⟩
  · exact ⟨overPlaces _, List.Subset.refl _⟩

end Pass

end TreeAlign
