import TreeAlign.Proofs.Arena

namespace TreeAlign.Site

structure Queue where
  listed : List Site
  waiting : List Site

namespace Queue

def serve : Queue → Queue
  | ⟨listed, []⟩ => ⟨listed, []⟩
  | ⟨listed, site :: waiting⟩ => ⟨listed ++ [site], waiting ++ site.children⟩

def start (site : Site) : Queue :=
  ⟨[], [site]⟩

/-- As many rounds as there are nodes at the front list these and leave their children at the back. -/
theorem serve_level (listed level next : List Site) :
    serve^[level.length] ⟨listed, level ++ next⟩ = ⟨listed ++ level, next ++ level.flatMap children⟩ := by
  induction level generalizing listed next with
  | nil => simp
  | cons site level ih =>
    rw [List.length_cons, Function.iterate_succ_apply, List.cons_append, serve, List.append_assoc, ih]
    simp

theorem serve_levels {depth : Nat} {level : List Site} (deep : ∀ s ∈ level, s.node.height ≤ depth) (listed : List Site) :
    serve^[(levels depth level).length] ⟨listed, level⟩ = ⟨listed ++ levels depth level, []⟩ := by
  have first (listed level : List Site) :
      serve^[level.length] ⟨listed, level⟩ = ⟨listed ++ level, level.flatMap children⟩ := by
    simpa using serve_level listed level []
  induction depth generalizing listed level with
  | zero =>
    have none : level.flatMap children = [] :=
      List.flatMap_eq_nil_iff.mpr fun s member => children_eq_nil (Nat.le_zero.mp (deep s member))
    rw [levels, first, none]
  | succ depth ih =>
    rw [levels, List.length_append, Nat.add_comm, Function.iterate_add_apply, first, ih (height_le_of_mem_level deep),
      List.append_assoc]

theorem serve_breadthFirst (site : Site) : serve^[site.size] (start site) = ⟨site.breadthFirst, []⟩ := by
  have served : serve^[site.breadthFirst.length] (start site) = ⟨[] ++ site.breadthFirst, []⟩ :=
    serve_levels (by simp) []
  rwa [site.breadthFirst_perm.length_eq, length_preorder] at served

theorem length_listed_le (n : Nat) (q : Queue) : (serve^[n] q).listed.length ≤ q.listed.length + n := by
  induction n generalizing q with
  | zero => exact Nat.le_refl _
  | succ n ih =>
    have one : q.serve.listed.length ≤ q.listed.length + 1 := by
      obtain ⟨listed, _ | ⟨site, waiting⟩⟩ := q <;> simp [serve]
    have := ih q.serve
    rw [Function.iterate_succ_apply]
    omega

theorem waiting_ne_nil {site : Site} {n : Nat} (early : n < site.size) : (serve^[n] (start site)).waiting ≠ [] := by
  intro empty
  have stays : (serve^[n] (start site)).serve = serve^[n] (start site) := by
    generalize serve^[n] (start site) = q at empty
    obtain ⟨listed, waiting⟩ := q
    cases empty
    rfl
  have listed := length_listed_le n (start site)
  rw [← Function.iterate_fixed stays (site.size - n), ← Function.iterate_add_apply, Nat.sub_add_cancel early.le,
    serve_breadthFirst, site.breadthFirst_perm.length_eq, length_preorder] at listed
  simp only [start, List.length_nil] at listed
  omega

end Queue

def depth (site : Site) : Nat :=
  site.above.length

theorem depth_of_mem_children {site child : Site} (h : child ∈ site.children) : child.depth = site.depth + 1 := by
  rw [depth, (mem_children_iff.mp h).2]
  rfl

/-- Higher up, or as high and earlier in the tree. -/
def Ahead (s t : Site) : Prop :=
  s.depth < t.depth ∨ s.depth = t.depth ∧ s.id < t.id

structure SideBySide (depth : Nat) (level : List Site) : Prop where
  depth : ∀ s ∈ level, s.depth = depth
  numbered : ∀ s ∈ level, s.node.Numbered
  apart : level.Pairwise fun s t => s.id + s.size ≤ t.id

namespace SideBySide

variable {depth : Nat} {level : List Site}

theorem below (h : SideBySide depth level) : SideBySide (depth + 1) (level.flatMap children) where
  depth := by
    intro s member
    obtain ⟨parent, hparent, child⟩ := List.mem_flatMap.mp member
    rw [depth_of_mem_children child, h.depth parent hparent]
  numbered := by
    intro s member
    obtain ⟨parent, hparent, child⟩ := List.mem_flatMap.mp member
    exact (h.numbered parent hparent).child (node_mem_of_mem_children child)
  apart := by
    rw [List.pairwise_flatMap]
    refine ⟨fun parent hparent => ?_, h.apart.imp_of_mem fun {s t} hs ht apart c hc d hd => ?_⟩
    · have siblings := (Tree.numbered_iff.mp (h.numbered parent hparent)).pairwise
      rwa [← map_node_children, List.pairwise_map] at siblings
    · have inner := (h.numbered s hs).child_range (node_mem_of_mem_children hc)
      have outer := (h.numbered t ht).child_range (node_mem_of_mem_children hd)
      simp only [id, size] at apart ⊢
      lia

theorem le_depth (h : SideBySide depth level) (rest : Nat) : ∀ s ∈ levels rest level, depth ≤ s.depth := by
  induction rest generalizing depth level with
  | zero => exact fun s member => (h.depth s member).ge
  | succ rest ih =>
    intro s member
    rcases List.mem_append.mp member with member | member
    · exact (h.depth s member).ge
    · exact Nat.le_of_succ_le (ih h.below s member)

theorem pairwise_level (h : SideBySide depth level) : level.Pairwise Ahead := by
  refine h.apart.imp_of_mem fun {s t} hs ht apart => .inr ⟨?_, ?_⟩
  · rw [h.depth s hs, h.depth t ht]
  · have := s.node.size_pos
    simp only [size] at apart
    lia

theorem pairwise_levels (h : SideBySide depth level) (rest : Nat) : (levels rest level).Pairwise Ahead := by
  induction rest generalizing depth level with
  | zero => exact h.pairwise_level
  | succ rest ih =>
    refine List.pairwise_append.mpr ⟨h.pairwise_level, ih h.below, fun s hs t ht => .inl ?_⟩
    have deeper := h.below.le_depth rest t ht
    rw [h.depth s hs]
    omega

end SideBySide

theorem prefix_levels (depth : Nat) (level : List Site) : level <+: levels depth level := by
  cases depth with
  | zero => exact List.prefix_rfl
  | succ depth => exact List.prefix_append _ _

theorem children_infix_levels {depth : Nat} {level : List Site} (deep : ∀ s ∈ level, s.node.height ≤ depth) :
    ∀ s ∈ levels depth level, s.children <:+: levels depth level := by
  induction depth generalizing level with
  | zero =>
    intro s member
    rw [children_eq_nil (Nat.le_zero.mp (deep s member))]
    exact List.nil_infix
  | succ depth ih =>
    intro s member
    have rest : levels depth (level.flatMap children) <:+: levels (depth + 1) level := (List.suffix_append _ _).isInfix
    refine List.IsInfix.trans ?_ rest
    rcases List.mem_append.mp member with member | member
    · have among : s.children <:+: level.flatMap children := List.infix_of_mem_flatten (List.mem_map_of_mem member)
      exact among.trans (prefix_levels _ _).isInfix
    · exact ih (height_le_of_mem_level deep) s member

/-- The nodes of a subtree, each once, from the highest to the deepest and those of a level in their order in the
tree, with the children of a node next to each other. -/
structure LevelOrder (site : Site) (order : List Site) : Prop where
  all : ∀ s, s ∈ order ↔ Relation.ReflTransGen IsChild site s
  once : order.Nodup
  rising : order.Pairwise Ahead
  siblings : ∀ s ∈ order, s.children <:+: order

theorem levelOrder_breadthFirst {site : Site} (numbered : site.node.Numbered) : LevelOrder site site.breadthFirst where
  all s := by rw [site.breadthFirst_perm.mem_iff, mem_preorder_iff_reflTransGen]
  once := site.breadthFirst_perm.nodup_iff.mpr (nodup_preorder numbered)
  rising := by
    have alone : SideBySide site.depth [site] :=
      ⟨by simp, by simpa using numbered, List.pairwise_singleton _ _⟩
    exact alone.pairwise_levels _
  siblings := children_infix_levels (by simp)

end TreeAlign.Site
