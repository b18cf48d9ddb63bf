import TreeAlign.Proofs.Numbering
import TreeAlign.Random
import TreeAlign.Tree.Site

namespace TreeAlign

namespace Tree

universe u

variable {α : Type u}

theorem height_lt_heights {ts : List (Tree α)} {t : Tree α} (member : t ∈ ts) : t.height < heights ts := by
  induction ts with
  | nil => cases member
  | cons s ts ih =>
    simp only [heights]
    rcases List.mem_cons.mp member with rfl | member
    · omega
    · have := ih member
      omega

theorem height_lt_of_child {t c : Tree α} (child : c ∈ t.children) : c.height < t.height := by
  cases t with
  | node value children => exact height_lt_heights child

end Tree

namespace Site

theorem map_node_children (site : Site) : site.children.map node = site.node.children := by
  simp [children, Function.comp_def]

theorem preordersBelow_eq (above : List Node) (nodes : List Node) :
    preordersBelow above nodes = nodes.flatMap (preorderBelow above) := by
  induction nodes with
  | nil => rfl
  | cons node nodes ih => simp [preordersBelow, ih]

theorem preorder_eq (site : Site) : site.preorder = site :: site.children.flatMap preorder := by
  obtain ⟨⟨value, children⟩, above⟩ := site
  simp only [preorder, preorderBelow, preordersBelow_eq, Site.children, Tree.children, List.flatMap_map]

theorem mem_preorder_iff {site other : Site} :
    other ∈ site.preorder ↔ other = site ∨ ∃ child ∈ site.children, other ∈ child.preorder := by
  rw [preorder_eq, List.mem_cons, List.mem_flatMap]

theorem node_mem_of_mem_children {site child : Site} (h : child ∈ site.children) : child.node ∈ site.node.children := by
  rw [← map_node_children]
  exact List.mem_map_of_mem h

theorem map_node_preorder (site : Site) : site.preorder.map node = site.node.preorder := by
  obtain ⟨node, above⟩ := site
  induction node using Tree.childInduction generalizing above with
  | step t ih =>
    have each : (children ⟨t, above⟩).map (fun c => c.preorder.map node) = t.children.map Tree.preorder := by
      simp only [children, List.map_map]
      exact List.map_congr_left fun c member => ih c member _
    rw [preorder_eq, Tree.preorder_eq, List.map_cons, List.map_flatMap, List.flatMap_def, each, List.flatMap_def]

theorem map_id_preorder (site : Site) : site.preorder.map id = site.node.preorder.map Tree.id := by
  rw [← map_node_preorder, List.map_map]
  rfl

theorem children_eq_nil {site : Site} (low : site.node.height = 0) : site.children = [] := by
  refine List.eq_nil_iff_forall_not_mem.mpr fun c child => ?_
  have := Tree.height_lt_of_child (node_mem_of_mem_children child)
  omega

theorem height_le_of_mem_level {depth : Nat} {level : List Site} (deep : ∀ s ∈ level, s.node.height ≤ depth + 1) :
    ∀ s ∈ level.flatMap children, s.node.height ≤ depth := by
  intro s member
  obtain ⟨parent, hparent, child⟩ := List.mem_flatMap.mp member
  have := Tree.height_lt_of_child (node_mem_of_mem_children child)
  have := deep parent hparent
  omega

theorem levels_perm {depth : Nat} {level : List Site} (deep : ∀ s ∈ level, s.node.height ≤ depth) :
    (levels depth level).Perm (level.flatMap preorder) := by
  induction depth generalizing level with
  | zero =>
    have leaf : ∀ s ∈ level, s.preorder = [s] := by
      intro s member
      rw [preorder_eq, children_eq_nil (Nat.le_zero.mp (deep s member)), List.flatMap_nil]
    rw [levels, List.flatMap_def, List.map_congr_left leaf, ← List.flatMap_def, ← List.map_eq_flatMap, List.map_id']
  | succ depth ih =>
    have split : preorder = fun s => s :: s.children.flatMap preorder := funext preorder_eq
    have perm := List.map_append_flatMap_perm level (fun s => s) fun s => s.children.flatMap preorder
    rw [← split, ← List.flatMap_assoc, List.map_id'] at perm
    exact ((ih (height_le_of_mem_level deep)).append_left _).trans perm

theorem breadthFirst_perm (site : Site) : site.breadthFirst.Perm site.preorder := by
  have perm : (levels site.node.height [site]).Perm ([site].flatMap preorder) := levels_perm (by simp)
  rwa [List.flatMap_singleton] at perm

variable {site : Site}

theorem map_id_breadthFirst_perm (site : Site) : (site.breadthFirst.map id).Perm (site.node.preorder.map Tree.id) :=
  site.map_id_preorder ▸ site.breadthFirst_perm.map id

theorem mem_ids_breadthFirst (numbered : site.node.Numbered) {i : NodeId} :
    i ∈ site.breadthFirst.map id ↔ site.node.containsId i = true := by
  rw [site.map_id_breadthFirst_perm.mem_iff, numbered.mem_ids]

theorem nodup_ids_breadthFirst (numbered : site.node.Numbered) : (site.breadthFirst.map id).Nodup :=
  site.map_id_breadthFirst_perm.nodup_iff.mpr numbered.nodup

theorem mem_children_iff {child : Site} :
    child ∈ site.children ↔ child.node ∈ site.node.children ∧ child.above = site.node :: site.above := by
  simp only [children, List.mem_map]
  constructor
  · rintro ⟨node, member, rfl⟩
    exact ⟨member, rfl⟩
  · rintro ⟨member, above⟩
    exact ⟨child.node, member, by rw [← above]⟩

theorem parent?_of_mem_children {child : Site} (h : child ∈ site.children) : child.parent? = some site := by
  rw [parent?, (mem_children_iff.mp h).2]

theorem self_mem_preorder (site : Site) : site ∈ site.preorder := mem_preorder_iff.mpr (.inl rfl)

theorem mem_preorder_trans {root other : Site} (inner : other ∈ site.preorder) (outer : site ∈ root.preorder) :
    other ∈ root.preorder := by
  obtain ⟨node, above⟩ := root
  induction node using Tree.childInduction generalizing above with
  | step t ih =>
    rcases mem_preorder_iff.mp outer with rfl | ⟨child, hchild, below⟩
    · exact inner
    · have hnode := node_mem_of_mem_children hchild
      exact mem_preorder_iff.mpr (.inr ⟨child, hchild, ih child.node hnode child.above below⟩)

theorem child_mem_preorder {root child : Site} (h : child ∈ site.children) (member : site ∈ root.preorder) :
    child ∈ root.preorder :=
  mem_preorder_trans (mem_preorder_iff.mpr (.inr ⟨child, h, child.self_mem_preorder⟩)) member

theorem exists_parent {root : Site} (member : site ∈ root.preorder) (other : site ≠ root) :
    ∃ parent ∈ root.preorder, site ∈ parent.children := by
  obtain ⟨node, above⟩ := root
  induction node using Tree.childInduction generalizing above with
  | step t ih =>
    obtain ⟨child, hchild, below⟩ := (mem_preorder_iff.mp member).resolve_left other
    by_cases top : site = child
    · exact ⟨_, self_mem_preorder _, top ▸ hchild⟩
    · obtain ⟨parent, hparent, h⟩ := ih child.node (node_mem_of_mem_children hchild) child.above below top
      exact ⟨parent, mem_preorder_iff.mpr (.inr ⟨child, hchild, hparent⟩), h⟩

theorem node_mem_preorder {root : Site} (member : site ∈ root.preorder) : site.node ∈ root.node.preorder := by
  rw [← map_node_preorder]
  exact List.mem_map_of_mem member

theorem containsId_of_mem {root : Site} (numbered : root.node.Numbered) (member : site ∈ root.preorder) :
    root.node.containsId site.id = true :=
  numbered.containsId_of_mem (node_mem_preorder member)

theorem exists_mem_preorder {root : Site} (numbered : root.node.Numbered) {i : NodeId}
    (inside : root.node.containsId i = true) : ∃ s ∈ root.preorder, s.id = i := by
  rw [← numbered.mem_ids, ← root.map_id_preorder] at inside
  exact List.mem_map.mp inside

theorem eq_of_id_eq {root other : Site} (numbered : root.node.Numbered) (hs : site ∈ root.preorder)
    (ho : other ∈ root.preorder) (same : site.id = other.id) : site = other := by
  have nodup : (root.preorder.map id).Nodup := root.map_id_preorder ▸ numbered.nodup
  exact List.inj_on_of_nodup_map nodup hs ho same

theorem numbered_of_mem {root : Site} (numbered : root.node.Numbered) (member : site ∈ root.preorder) :
    site.node.Numbered :=
  numbered.below (node_mem_preorder member)

theorem nodup_children (numbered : site.node.Numbered) : site.children.Nodup := by
  have nodes : (site.children.map node).Nodup := by
    rw [map_node_children]
    refine (Tree.numbered_iff.mp numbered).pairwise.imp fun {a b} apart same => ?_
    have := a.size_pos
    subst same
    lia
  exact List.Nodup.of_map _ nodes

theorem id_lt_of_mem_children {child : Site} (numbered : site.node.Numbered) (h : child ∈ site.children) :
    site.id < child.id :=
  (numbered.child_range (node_mem_of_mem_children h)).1

theorem path_eq_cons (site : Site) : ∃ above, site.path = site :: above := by
  obtain ⟨node, above⟩ := site
  cases above with
  | nil => exact ⟨[], rfl⟩
  | cons parent above => exact ⟨_, rfl⟩

theorem path_of_mem_children {child : Site} (h : child ∈ site.children) : child.path = child :: site.path := by
  obtain ⟨node, above⟩ := child
  have above_eq : above = site.node :: site.above := (mem_children_iff.mp h).2
  subst above_eq
  rfl

/-- The way up from a site passes through the root of its subtree, and only through the subtree before. -/
theorem path_of_mem_preorder {root : Site} (member : site ∈ root.preorder) :
    ∃ below, site.path = below ++ root.path ∧ ∀ s ∈ below, s ∈ root.preorder := by
  obtain ⟨node, above⟩ := root
  induction node using Tree.childInduction generalizing above with
  | step t ih =>
    rcases mem_preorder_iff.mp member with rfl | ⟨child, hchild, below⟩
    · exact ⟨[], rfl, by simp⟩
    · obtain ⟨rest, eq, inside⟩ := ih child.node (node_mem_of_mem_children hchild) child.above below
      refine ⟨rest ++ [child], ?_, fun s hs => ?_⟩
      · rw [eq, path_of_mem_children hchild, List.append_assoc, List.singleton_append]
      · refine mem_preorder_iff.mpr (.inr ⟨child, hchild, ?_⟩)
        rcases List.mem_append.mp hs with hs | hs
        · exact inside s hs
        · rw [List.mem_singleton.mp hs]
          exact child.self_mem_preorder

end Site

namespace Random

theorem swapIfInBounds_perm {α : Type} (items : Array α) (i j : Nat) :
    (items.swapIfInBounds i j).toList.Perm items.toList := by
  unfold Array.swapIfInBounds
  split
  · split
    · exact (Array.swap_perm _ _).toList
    · exact .refl _
  · exact .refl _

theorem shuffleFrom_perm {α : Type} (i : Nat) (items : Array α) (source : Random) :
    (shuffleFrom i items source).1.toList.Perm items.toList := by
  induction i generalizing items source with
  | zero => exact .refl _
  | succ i ih => exact (ih _ _).trans (swapIfInBounds_perm _ _ _)

theorem shuffle_perm {α : Type} (items : List α) (source : Random) : (shuffle items source).1.Perm items :=
  shuffleFrom_perm _ _ _

end Random

end TreeAlign
