import TreeAlign.Proofs.Cover.ExactCover

namespace TreeAlign

namespace Site

variable {root s t x : Site}

section Paths

theorem self_mem_path (s : Site) : s ∈ s.path := by
  obtain ⟨above, way⟩ := s.path_eq_cons
  rw [way]
  exact List.mem_cons_self

theorem mem_path_of_mem_preorder (below : t ∈ s.preorder) : s ∈ t.path := by
  obtain ⟨way, eq, -⟩ := path_of_mem_preorder below
  rw [eq]
  exact List.mem_append_right way s.self_mem_path

theorem mem_path_iff {tree : Node} (ht : t ∈ (Site.root tree).preorder) : s ∈ t.path ↔ t ∈ s.preorder := by
  refine ⟨fun above => ?_, mem_path_of_mem_preorder⟩
  obtain ⟨node, ancestors⟩ := t
  induction ancestors generalizing node with
  | nil =>
    rw [show path ⟨node, []⟩ = [⟨node, []⟩] from rfl, List.mem_singleton] at above
    rw [above]
    exact self_mem_preorder _
  | cons parent ancestors ih =>
    have inner : (⟨node, parent :: ancestors⟩ : Site) ≠ Site.root tree := fun top => by cases congrArg Site.above top
    obtain ⟨p, hp, child⟩ := exists_parent ht inner
    have same : p = ⟨parent, ancestors⟩ := (Option.some_inj.mp (parent?_of_mem_children child)).symm
    subst same
    rw [path_of_mem_children child] at above
    rcases List.mem_cons.mp above with rfl | above
    · exact self_mem_preorder _
    · exact mem_preorder_trans (mem_preorder_iff.mpr (.inr ⟨_, child, self_mem_preorder _⟩)) (ih parent hp above)

end Paths

/-- In the pre-order below `root`, the first node comes before the second, and it is not above it. -/
def Before (root s t : Site) : Prop :=
  (∃ i j : Nat, i < j ∧ root.preorder[i]? = some s ∧ root.preorder[j]? = some t) ∧ s ∉ t.path

section Ranges

theorem range_of_mem (numbered : x.node.Numbered) (below : s ∈ x.preorder) :
    x.id ≤ s.id ∧ s.id + s.size ≤ x.id + x.size := by
  have first := Tree.containsId_iff.mp (containsId_of_mem numbered below)
  have positive : 0 < s.size := s.node.size_pos
  have last : s.node.containsId (s.id + s.size - 1) = true := by
    rw [Tree.containsId_iff]
    change s.id ≤ s.id + s.size - 1 ∧ s.id + s.size - 1 < s.id + s.size
    lia
  have inside := Tree.containsId_iff.mp (numbered.containsId_trans (node_mem_preorder below) last)
  change x.id ≤ s.id ∧ s.id < x.id + x.size at first
  change x.id ≤ s.id + s.size - 1 ∧ s.id + s.size - 1 < x.id + x.size at inside
  lia

theorem mem_preorder_iff_range (numbered : root.node.Numbered) (hs : s ∈ root.preorder) (ht : t ∈ root.preorder) :
    t ∈ s.preorder ↔ s.id ≤ t.id ∧ t.id < s.id + s.size := by
  have inner := numbered_of_mem numbered hs
  constructor
  · exact fun below => Tree.containsId_iff.mp (containsId_of_mem inner below)
  · intro range
    obtain ⟨u, hu, same⟩ := exists_mem_preorder inner (Tree.containsId_iff.mpr range)
    rwa [← eq_of_id_eq numbered (mem_preorder_trans hu hs) ht same]

theorem id_of_getElem? (numbered : root.node.Numbered) {i : Nat} (h : root.preorder[i]? = some s) : s.id = root.id + i := by
  have ids : (root.preorder.map id)[i]? = some s.id := by rw [List.getElem?_map, h, Option.map_some]
  rw [map_id_preorder, numbered, List.getElem?_eq_some_iff] at ids
  obtain ⟨bound, eq⟩ := ids
  rw [List.getElem_range'] at eq
  change s.id = root.node.id + i
  lia

theorem before_iff {tree : Node} (numbered : tree.Numbered) (hroot : root ∈ (Site.root tree).preorder)
    (hs : s ∈ root.preorder) (ht : t ∈ root.preorder) : Before root s t ↔ s.id + s.size ≤ t.id := by
  have inner := numbered_of_mem numbered hroot
  rw [Before, mem_path_iff (mem_preorder_trans ht hroot), mem_preorder_iff_range inner hs ht]
  constructor
  · rintro ⟨⟨i, j, less, atI, atJ⟩, outside⟩
    have := id_of_getElem? inner atI
    have := id_of_getElem? inner atJ
    lia
  · intro after
    have positive : 0 < s.size := s.node.size_pos
    obtain ⟨i, atI⟩ := List.mem_iff_getElem?.mp hs
    obtain ⟨j, atJ⟩ := List.mem_iff_getElem?.mp ht
    have := id_of_getElem? inner atI
    have := id_of_getElem? inner atJ
    exact ⟨⟨i, j, by lia, atI, atJ⟩, by lia⟩

theorem not_before_of_mem_path {tree : Node} (numbered : tree.Numbered) (hroot : root ∈ (Site.root tree).preorder)
    (hs : s ∈ root.preorder) (ht : t ∈ root.preorder) (above : s ∈ t.path) : ¬Before root s t ∧ ¬Before root t s := by
  refine ⟨fun before => before.2 above, ?_⟩
  have below := (mem_path_iff (mem_preorder_trans ht hroot)).mp above
  have range := (mem_preorder_iff_range (numbered_of_mem numbered hroot) hs ht).mp below
  have positive : 0 < t.size := t.node.size_pos
  rw [before_iff numbered hroot ht hs]
  lia

end Ranges

/-- Where two nodes below `root` meet. -/
inductive Meeting (root s t : Site) : Site × Site → Prop
  | above (below : t ∈ s.preorder) : Meeting root s t (s, s)
  | below (below : s ∈ t.preorder) : Meeting root s t (t, t)
  | beside {parent x y : Site} (inside : parent ∈ root.preorder) (hx : x ∈ parent.children) (hy : y ∈ parent.children)
      (different : x ≠ y) (hs : s ∈ x.preorder) (ht : t ∈ y.preorder) : Meeting root s t (x, y)

theorem Meeting.mono {pair : Site × Site} (h : Meeting x s t pair) (inside : x ∈ root.preorder) : Meeting root s t pair := by
  cases h with
  | above below => exact .above below
  | below below => exact .below below
  | beside parent hx hy different hs ht => exact .beside (mem_preorder_trans parent inside) hx hy different hs ht

theorem part_meeting {belowS belowT : List Site}
    (told : ∀ x ∈ root.preorder, ∀ y ∈ root.preorder, x.id = y.id → x = y) (hs : s ∈ root.preorder)
    (ht : t ∈ root.preorder) (wayS : s.path = belowS ++ root.path) (wayT : t.path = belowT ++ root.path) :
    Meeting root s t (Candidates.part (root, root) belowS.reverse belowT.reverse) := by
  obtain ⟨node, above⟩ := root
  induction node using Tree.childInduction generalizing above belowS belowT with
  | step node ih =>
    rcases mem_preorder_iff.mp hs with rfl | ⟨x, hx, insideX⟩
    · rw [List.self_eq_append_left.mp wayS, List.reverse_nil]
      exact .above ht
    rcases mem_preorder_iff.mp ht with rfl | ⟨y, hy, insideY⟩
    · rw [List.self_eq_append_left.mp wayT, List.reverse_nil]
      have top : Candidates.part (⟨node, above⟩, ⟨node, above⟩) belowS.reverse [] = (⟨node, above⟩, ⟨node, above⟩) := by
        cases belowS.reverse <;> rfl
      rw [top]
      exact .below hs
    have childX := child_mem_preorder hx (self_mem_preorder _)
    have childY := child_mem_preorder hy (self_mem_preorder _)
    obtain ⟨deepS, eqS, -⟩ := path_of_mem_preorder insideX
    obtain ⟨deepT, eqT, -⟩ := path_of_mem_preorder insideY
    have splitS : belowS = deepS ++ [x] := by
      rw [wayS, path_of_mem_children hx] at eqS
      exact List.append_cancel_right (by simpa using eqS)
    have splitT : belowT = deepT ++ [y] := by
      rw [wayT, path_of_mem_children hy] at eqT
      exact List.append_cancel_right (by simpa using eqT)
    rw [splitS, splitT, List.reverse_append, List.reverse_append, List.reverse_singleton, List.reverse_singleton,
      List.singleton_append, List.singleton_append, Candidates.part]
    split
    · rename_i apart
      refine .beside (self_mem_preorder _) hx hy (fun same => ?_) insideX insideY
      rw [same] at apart
      exact absurd apart (by simp [bne, BEq.beq])
    · rename_i same
      have same : x.id = y.id := by simpa [bne, BEq.beq] using same
      have same : x = y := told x childX y childY same
      subst same
      have toldX : ∀ u ∈ x.preorder, ∀ v ∈ x.preorder, u.id = v.id → u = v :=
        fun u hu v hv => told u (mem_preorder_trans hu childX) v (mem_preorder_trans hv childX)
      exact (ih x.node (node_mem_of_mem_children hx) x.above toldX insideX insideY eqS eqT).mono childX

theorem exists_places {parent y : Site} (numbered : parent.node.Numbered) (hx : x ∈ parent.children)
    (hy : y ∈ parent.children) (different : x ≠ y) :
    ∃ i j : Nat, parent.children[i]? = some x ∧ parent.children[j]? = some y ∧
      (i < j ∧ x.id + x.size ≤ y.id ∨ j < i ∧ y.id + y.size ≤ x.id) := by
  obtain ⟨i, atI⟩ := List.mem_iff_getElem?.mp hx
  obtain ⟨j, atJ⟩ := List.mem_iff_getElem?.mp hy
  have nodeAt {k : Nat} {z : Site} (atK : parent.children[k]? = some z) : parent.node.children[k]? = some z.node := by
    rw [← map_node_children, List.getElem?_map, atK, Option.map_some]
  refine ⟨i, j, atI, atJ, ?_⟩
  rcases Nat.lt_trichotomy i j with less | same | more
  · exact .inl ⟨less, numbered.children_lt (nodeAt atI) (nodeAt atJ) less⟩
  · rw [same, atJ] at atI
    exact absurd (Option.some_inj.mp atI).symm different
  · exact .inr ⟨more, numbered.children_lt (nodeAt atJ) (nodeAt atI) more⟩

/-- Two nodes meet at the one above the other, if there is one, and at different siblings above them otherwise. -/
structure Meets (s t : Site) (pair : Site × Site) : Prop where
  above : s ∈ t.path → pair = (s, s)
  below : t ∈ s.path → pair = (t, t)
  beside : s ∉ t.path → t ∉ s.path → pair.1 ≠ pair.2 ∧ pair.1 ∈ s.path ∧ pair.2 ∈ t.path ∧
    ∃ parent : Site, pair.1 ∈ parent.children ∧ pair.2 ∈ parent.children

theorem Meeting.meets {tree : Node} (numbered : tree.Numbered) (hroot : root ∈ (Site.root tree).preorder)
    (hs : s ∈ root.preorder) (ht : t ∈ root.preorder) {pair : Site × Site} (h : Meeting root s t pair) : Meets s t pair := by
  have inner := numbered_of_mem numbered hroot
  have aboveT : s ∈ t.path ↔ t ∈ s.preorder := mem_path_iff (mem_preorder_trans ht hroot)
  have aboveS : t ∈ s.path ↔ s ∈ t.preorder := mem_path_iff (mem_preorder_trans hs hroot)
  have same (down : t ∈ s.preorder) (up : s ∈ t.preorder) : s = t := by
    have := (mem_preorder_iff_range inner hs ht).mp down
    have := (mem_preorder_iff_range inner ht hs).mp up
    exact eq_of_id_eq inner hs ht (by lia)
  cases h with
  | above down => exact ⟨fun _ => rfl, fun up => by rw [same down (aboveS.mp up)], fun no => absurd (aboveT.mpr down) no⟩
  | below up => exact ⟨fun down => by rw [same (aboveT.mp down) up], fun _ => rfl, fun _ no => absurd (aboveS.mpr up) no⟩
  | beside inside hx hy different inX inY =>
    obtain ⟨i, j, -, -, order⟩ := exists_places (numbered_of_mem inner inside) hx hy different
    have rangeS := range_of_mem (numbered_of_mem inner (child_mem_preorder hx inside)) inX
    have rangeT := range_of_mem (numbered_of_mem inner (child_mem_preorder hy inside)) inY
    refine ⟨fun down => ?_, fun up => ?_, fun _ _ => ?_⟩
    · have := (mem_preorder_iff_range inner hs ht).mp (aboveT.mp down)
      have : 0 < t.size := t.node.size_pos
      lia
    · have := (mem_preorder_iff_range inner ht hs).mp (aboveS.mp up)
      have : 0 < s.size := s.node.size_pos
      lia
    · exact ⟨different, mem_path_of_mem_preorder inX, mem_path_of_mem_preorder inY, _, hx, hy⟩

end Site

namespace Candidates

open Site

variable {cs : Candidates} {b : Bool} {s t c d m n : Site}

section Apart

variable (apart : cs.left.Apart cs.right) (hs : s ∈ (cs.root b).preorder) (ht : t ∈ (cs.root b).preorder)

include apart hs ht

theorem lowest_meeting : Meeting (cs.root b) s t (cs.lowest s t) := by
  have told : ∀ x ∈ (cs.root b).preorder, ∀ y ∈ (cs.root b).preorder, x.id = y.id → x = y :=
    fun _ hx _ hy => eq_of_id_eq apart hx hy
  obtain ⟨belowS, wayS, -⟩ := path_of_mem_preorder hs
  obtain ⟨belowT, wayT, -⟩ := path_of_mem_preorder ht
  rw [lowest_eq_part told hs ht, wayS, wayT, part_paths]
  exact part_meeting told hs ht wayS wayT

/-- The places of the siblings where two nodes meet are those of the nodes in the pre-order. -/
theorem position_lowest :
    (position (cs.siblings (cs.lowest s t).1) (cs.lowest s t).1 < position (cs.siblings (cs.lowest s t).1) (cs.lowest s t).2 ↔
      Before (cs.root b) s t) ∧
    (position (cs.siblings (cs.lowest s t).1) (cs.lowest s t).2 < position (cs.siblings (cs.lowest s t).1) (cs.lowest s t).1 ↔
      Before (cs.root b) t s) := by
  obtain ⟨tree, numbered, hroot⟩ := root_tree apart b
  have inner := root_numbered apart b
  have positiveS : 0 < s.size := s.node.size_pos
  have positiveT : 0 < t.size := t.node.size_pos
  rw [before_iff numbered hroot hs ht, before_iff numbered hroot ht hs]
  generalize cs.lowest s t = pair, lowest_meeting apart hs ht = meeting
  cases meeting with
  | above below =>
    have := (mem_preorder_iff_range inner hs ht).mp below
    exact ⟨iff_of_false (lt_irrefl _) (by lia), iff_of_false (lt_irrefl _) (by lia)⟩
  | below below =>
    have := (mem_preorder_iff_range inner ht hs).mp below
    exact ⟨iff_of_false (lt_irrefl _) (by lia), iff_of_false (lt_irrefl _) (by lia)⟩
  | beside inside hx hy different inX inY =>
    obtain ⟨i, j, atI, atJ, order⟩ := exists_places (numbered_of_mem inner inside) hx hy different
    have rangeS := range_of_mem (numbered_of_mem inner (child_mem_preorder hx inside)) inX
    have rangeT := range_of_mem (numbered_of_mem inner (child_mem_preorder hy inside)) inY
    have distinct := nodup_children_ids apart inside
    rw [siblings_of_child apart inside hx, position_eq distinct atI, position_eq distinct atJ, Nat.cast_lt, Nat.cast_lt]
    constructor
    · constructor <;> intro <;> lia
    · constructor <;> intro <;> lia

end Apart

theorem crosses_iff {lefts rights : List Site} {left right : Site × Site} : crosses lefts rights left right = true ↔
    position lefts left.1 < position lefts left.2 ∧ position rights right.2 < position rights right.1 ∨
      position lefts left.2 < position lefts left.1 ∧ position rights right.1 < position rights right.2 := by
  unfold crosses
  dsimp only
  split
  · rw [decide_eq_true_eq]
    omega
  · split
    · rw [decide_eq_true_eq]
      omega
    · apply iff_of_false Bool.false_ne_true
      omega

theorem violatesOrder_iff_before (apart : cs.left.Apart cs.right) {x y : Candidate} (leftX : x.left = some c)
    (rightX : x.right = some d) (leftY : y.left = some m) (rightY : y.right = some n) (hc : c ∈ (cs.root false).preorder)
    (hd : d ∈ (cs.root true).preorder) (hm : m ∈ (cs.root false).preorder) (hn : n ∈ (cs.root true).preorder) :
    cs.violatesOrder x y = true ↔ Before (cs.root false) c m ∧ Before (cs.root true) n d ∨
      Before (cs.root false) m c ∧ Before (cs.root true) d n := by
  obtain ⟨first, second⟩ := position_lowest apart hc hm
  obtain ⟨third, fourth⟩ := position_lowest apart hd hn
  simp only [violatesOrder, leftX, rightX, leftY, rightY]
  rw [crosses_iff, first, second, third, fourth]

theorem not_before (apart : cs.left.Apart cs.right) (hs : s ∈ (cs.root b).preorder) (ht : t ∈ (cs.root b).preorder)
    (related : s ∈ t.path ∨ t ∈ s.path) : ¬Before (cs.root b) s t ∧ ¬Before (cs.root b) t s := by
  obtain ⟨tree, numbered, hroot⟩ := root_tree apart b
  rcases related with above | below
  · exact not_before_of_mem_path numbered hroot hs ht above
  · exact (not_before_of_mem_path numbered hroot ht hs below).symm

/-- Two pairs of nodes of subtrees without a common node violate the order exactly if one of them comes first on the left
and the other one on the right. It does not matter which pair is asked about, pairs with one node above another are in
order, and looking up in tables finds the same. The siblings that are compared are those where two nodes meet. -/
theorem violatesOrder_iff_crossing (apart : cs.left.Apart cs.right) {x y : Candidate} (leftX : x.left = some c)
    (rightX : x.right = some d) (leftY : y.left = some m) (rightY : y.right = some n) (hc : c ∈ cs.left.preorder)
    (hd : d ∈ cs.right.preorder) (hm : m ∈ cs.left.preorder) (hn : n ∈ cs.right.preorder) :
    (cs.violatesOrder x y = true ↔
      Before cs.left c m ∧ Before cs.right n d ∨ Before cs.left m c ∧ Before cs.right d n) ∧
    cs.violatesOrder y x = cs.violatesOrder x y ∧
    ((c ∈ m.path ∨ m ∈ c.path) ∨ (d ∈ n.path ∨ n ∈ d.path) → cs.violatesOrder x y = false) ∧
    (∀ b, ∀ s ∈ (cs.root b).preorder, ∀ t ∈ (cs.root b).preorder,
      Meets s t (cs.lowest s t) ∧ cs.lowest t s = (cs.lowest s t).swap) ∧
    ∀ (cover : Candidates) (seen : Memo), Together cover cs → seen.Holds cover cs →
      ((Recall.violatesOrder cs x y).run seen).1 = cs.violatesOrder x y ∧
      ∀ b, ∀ s ∈ (cs.root b).preorder, ∀ t ∈ (cs.root b).preorder,
        ((Recall.lowest cs s t).run seen).1 = cs.lowest s t := by
  have forward := violatesOrder_iff_before apart leftX rightX leftY rightY hc hd hm hn
  have backward := violatesOrder_iff_before apart leftY rightY leftX rightX hm hn hc hd
  have nodesX (b : Bool) (s : Site) (here : x.side b = some s) : s ∈ (cs.root b).preorder := by
    cases b with
    | false => exact Option.some_inj.mp (leftX.symm.trans here) ▸ hc
    | true => exact Option.some_inj.mp (rightX.symm.trans here) ▸ hd
  have nodesY (b : Bool) (s : Site) (here : y.side b = some s) : s ∈ (cs.root b).preorder := by
    cases b with
    | false => exact Option.some_inj.mp (leftY.symm.trans here) ▸ hm
    | true => exact Option.some_inj.mp (rightY.symm.trans here) ▸ hn
  refine ⟨forward, ?_, ?_, ?_, ?_⟩
  · rw [Bool.eq_iff_iff, forward, backward]
    exact Or.comm
  · rw [← Bool.not_eq_true, forward]
    rintro (related | related)
    · have := not_before apart (b := false) hc hm related
      tauto
    · have := not_before apart (b := true) hd hn related
      tauto
  · intro b s hs t ht
    obtain ⟨tree, numbered, hroot⟩ := root_tree apart b
    refine ⟨(lowest_meeting apart hs ht).meets numbered hroot hs ht, ?_⟩
    exact lowest_swap (fun _ hx _ hy => eq_of_id_eq apart hx hy) hs ht
  · intro cover seen together holds
    constructor
    · obtain ⟨_, found, -⟩ := Recall.violatesOrder_gives together nodesX nodesY seen holds
      exact congrArg Prod.fst found
    · intro b s hs t ht
      obtain ⟨_, found, -⟩ := Recall.lowest_gives together hs ht seen holds
      exact congrArg Prod.fst found

def twigs : Node :=
  Tree.number 0 (.node ⟨⟨"list", none⟩, false, .plain⟩ [Pass.twig, Pass.twig])

def twigsAt (i : NodeId) : Site :=
  ((Site.root twigs).preorder[i]?).getD (.root twigs)

theorem twigs_apart : (twigsAt 1).Apart (twigsAt 5) where
  leftTree := ⟨twigs, (Tree.number_numbered _ 0).2, List.mem_of_getElem? (i := 1) rfl⟩
  rightTree := ⟨twigs, (Tree.number_numbered _ 0).2, List.mem_of_getElem? (i := 5) rfl⟩
  disjoint := by
    intro i inside
    rw [Tree.containsId_iff] at inside
    rw [← Bool.not_eq_true, Tree.containsId_iff]
    change 1 ≤ i ∧ i < 1 + 4 at inside
    change ¬(5 ≤ i ∧ i < 5 + 4)
    lia

theorem violatesOrder_iff_crossing_twigs :
    Before (twigsAt 1) (twigsAt 3) (twigsAt 4) ∧ Before (twigsAt 5) (twigsAt 7) (twigsAt 8) ∧
    (empty (twigsAt 1) (twigsAt 5)).violatesOrder (.pair (twigsAt 3) (twigsAt 8)) (.pair (twigsAt 4) (twigsAt 7)) = true ∧
    (empty (twigsAt 1) (twigsAt 5)).violatesOrder (.pair (twigsAt 3) (twigsAt 8)) (.pair (twigsAt 2) (twigsAt 7)) = false := by
  have inLeft {i : Nat} {s : Site} (h : (twigsAt 1).preorder[i]? = some s) := List.mem_of_getElem? h
  have inRight {i : Nat} {s : Site} (h : (twigsAt 5).preorder[i]? = some s) := List.mem_of_getElem? h
  have off {s t : Site} (h : s.id ∉ t.path.map Site.id) : s ∉ t.path := fun above => h (List.mem_map_of_mem above)
  have left : Before (twigsAt 1) (twigsAt 3) (twigsAt 4) := ⟨⟨2, 3, by decide, rfl, rfl⟩, off (by decide)⟩
  have right : Before (twigsAt 5) (twigsAt 7) (twigsAt 8) := ⟨⟨2, 3, by decide, rfl, rfl⟩, off (by decide)⟩
  have crossing {m : Site} (hm : m ∈ (twigsAt 1).preorder) := @violatesOrder_iff_crossing
    (empty (twigsAt 1) (twigsAt 5)) (twigsAt 3) (twigsAt 8) m (twigsAt 7) twigs_apart (.pair (twigsAt 3) (twigsAt 8))
    (.pair m (twigsAt 7)) rfl rfl rfl rfl (inLeft (i := 2) rfl) (inRight (i := 3) rfl) hm (inRight (i := 2) rfl)
  refine ⟨left, right, (crossing (inLeft (i := 3) rfl)).1.mpr (.inl ⟨left, right⟩), ?_⟩
  refine (crossing (inLeft (i := 1) rfl)).2.2.1 (.inl (.inr ?_))
  exact mem_path_of_mem_preorder (List.mem_of_getElem? (i := 1) rfl)

end Candidates

end TreeAlign
