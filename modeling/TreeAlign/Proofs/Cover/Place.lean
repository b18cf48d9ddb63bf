import TreeAlign.Cover.Place
import TreeAlign.Proofs.Cover.Completion

namespace TreeAlign

structure Site.Apart (left right : Site) : Prop where
  leftTree : ∃ tree : Node, tree.Numbered ∧ left ∈ (Site.root tree).preorder
  rightTree : ∃ tree : Node, tree.Numbered ∧ right ∈ (Site.root tree).preorder
  disjoint : ∀ i, left.node.containsId i = true → right.node.containsId i = false

/-- The node of a candidate on the left (`false`) or on the right (`true`). -/
def Candidate.side (c : Candidate) : Bool → Option Site
  | false => c.left
  | true => c.right

namespace Candidates

def root (cs : Candidates) : Bool → Site
  | false => cs.left
  | true => cs.right

def Over (cs : Candidates) : Prop :=
  ∀ c ∈ cs.entries, ∀ b, ∀ s, c.side b = some s → s ∈ (cs.root b).preorder

/-- The identity of the parent, which tells the sibling groups of a subtree apart. -/
def parentId (s : Site) : Option NodeId :=
  s.parent?.map Site.id

variable {cs cover graph : Candidates} {b : Bool} {s t m n parent other : Site} {c d : Candidate}

section Group

theorem siblings_group (hs : s ∈ (cs.root b).preorder) :
    cs.siblings s = [s] ∨ ∃ parent ∈ (cs.root b).preorder, s ∈ parent.children ∧ cs.siblings s = parent.children := by
  unfold siblings
  cases above : s.parent? with
  | none => exact .inl rfl
  | some parent =>
    simp only
    split
    · exact .inl rfl
    · rename_i other
      have below : s ≠ cs.root b := by
        intro top
        apply other
        change (s.id == cs.left.id || s.id == cs.right.id) = true
        cases b <;> simp [top, root]
      obtain ⟨p, hp, child⟩ := Site.exists_parent hs below
      rw [Site.parent?_of_mem_children child] at above
      cases above
      exact .inr ⟨parent, hp, child, rfl⟩

theorem siblings_subset (hs : s ∈ (cs.root b).preorder) : ∀ t ∈ cs.siblings s, t ∈ (cs.root b).preorder := by
  intro t ht
  rcases siblings_group hs with alone | ⟨parent, hparent, -, group⟩
  · rw [alone, List.mem_singleton] at ht
    rwa [ht]
  · rw [group] at ht
    exact Site.child_mem_preorder ht hparent

theorem otherSiblings_subset (hs : s ∈ (cs.root b).preorder) : ∀ t ∈ cs.otherSiblings s, t ∈ (cs.root b).preorder :=
  fun t ht => siblings_subset hs t (List.mem_filter.mp ht).1

theorem otherSiblings_sides (hm : m ∈ (cs.root false).preorder) (hn : n ∈ (cs.root true).preorder) :
    ∀ s ∈ cs.otherSiblings m ++ cs.otherSiblings n, ∃ b, s ∈ (cs.root b).preorder := by
  intro s hs
  rcases List.mem_append.mp hs with hs | hs
  · exact ⟨false, otherSiblings_subset hm s hs⟩
  · exact ⟨true, otherSiblings_subset hn s hs⟩

end Group

section Apart

variable (apart : cs.left.Apart cs.right)

include apart

theorem root_tree (b : Bool) : ∃ tree : Node, tree.Numbered ∧ cs.root b ∈ (Site.root tree).preorder := by
  cases b with
  | false => exact apart.leftTree
  | true => exact apart.rightTree

theorem root_numbered (b : Bool) : (cs.root b).node.Numbered := by
  obtain ⟨tree, numbered, member⟩ := root_tree apart b
  exact Site.numbered_of_mem numbered member

theorem eq_of_id_eq (hs : s ∈ (cs.root b).preorder) (ht : t ∈ (cs.root b).preorder) (same : s.id = t.id) : s = t :=
  Site.eq_of_id_eq (root_numbered apart b) hs ht same

theorem id_ne (hs : s ∈ (cs.root b).preorder) (ht : t ∈ (cs.root !b).preorder) : s.id ≠ t.id := by
  intro same
  have inside := Site.containsId_of_mem (root_numbered apart b) hs
  have inside' := Site.containsId_of_mem (root_numbered apart !b) ht
  rw [← same] at inside'
  cases b with
  | false => exact Bool.false_ne_true ((apart.disjoint _ inside).symm.trans inside')
  | true => exact Bool.false_ne_true ((apart.disjoint _ inside').symm.trans inside)

theorem eq_of_id_eq' {b' : Bool} (hs : s ∈ (cs.root b).preorder) (ht : t ∈ (cs.root b').preorder)
    (same : s.id = t.id) : s = t := by
  by_cases sides : b' = b
  · subst sides
    exact eq_of_id_eq apart hs ht same
  · rw [Bool.eq_not.mpr sides] at ht
    exact absurd same (id_ne apart hs ht)

theorem beq_root_iff (hs : s ∈ (cs.root b).preorder) : (s == cs.left || s == cs.right) = true ↔ s = cs.root b := by
  have near : (s == cs.root b) = true ↔ s = cs.root b := by
    change (s.id == (cs.root b).id) = true ↔ _
    rw [beq_iff_eq]
    exact ⟨eq_of_id_eq apart hs (Site.self_mem_preorder _), congrArg Site.id⟩
  have far : (s == cs.root !b) = false := by
    change (s.id == (cs.root !b).id) = false
    rw [beq_eq_false_iff_ne]
    exact id_ne apart hs (Site.self_mem_preorder _)
  cases b with
  | false => rw [show cs.right = cs.root !false from rfl, far, Bool.or_false]; exact near
  | true => rw [show cs.left = cs.root !true from rfl, far, Bool.false_or]; exact near

theorem siblings_cases (hs : s ∈ (cs.root b).preorder) :
    (s = cs.root b ∧ cs.siblings s = [s]) ∨
      ∃ parent ∈ (cs.root b).preorder, s ∈ parent.children ∧ cs.siblings s = parent.children := by
  by_cases top : s = cs.root b
  · refine .inl ⟨top, ?_⟩
    unfold siblings
    cases s.parent? with
    | none => rfl
    | some parent => exact if_pos ((beq_root_iff apart hs).mpr top)
  · obtain ⟨parent, hparent, child⟩ := Site.exists_parent hs top
    refine .inr ⟨parent, hparent, child, ?_⟩
    unfold siblings
    rw [Site.parent?_of_mem_children child]
    exact if_neg (mt (beq_root_iff apart hs).mp top)

theorem self_mem_siblings (hs : s ∈ (cs.root b).preorder) : s ∈ cs.siblings s := by
  rcases siblings_cases apart hs with ⟨-, eq⟩ | ⟨parent, -, child, eq⟩
  · rw [eq]
    exact List.mem_singleton_self s
  · rwa [eq]

theorem contains_iff_mem {sites : List Site} (hsites : ∀ s ∈ sites, s ∈ (cs.root b).preorder)
    (ht : t ∈ (cs.root b).preorder) : sites.contains t = true ↔ t ∈ sites := by
  rw [List.contains_iff_exists_mem_beq]
  constructor
  · rintro ⟨s, hs, same⟩
    rwa [eq_of_id_eq apart ht (hsites s hs) (beq_iff_eq.mp same)]
  · exact fun member => ⟨t, member, beq_self_eq_true t.id⟩

theorem mem_otherSiblings (hs : s ∈ (cs.root b).preorder) : t ∈ cs.otherSiblings s ↔ t ∈ cs.siblings s ∧ t ≠ s := by
  unfold otherSiblings
  rw [List.mem_filter]
  refine and_congr_right fun ht => ?_
  have same : (t == s) = true ↔ t = s := by
    change (t.id == s.id) = true ↔ _
    rw [beq_iff_eq]
    exact ⟨eq_of_id_eq apart (siblings_subset hs t ht) hs, congrArg Site.id⟩
  rw [bne, Bool.not_eq_true', ← Bool.not_eq_true, same]

theorem nodup_siblings (hs : s ∈ (cs.root b).preorder) : (cs.siblings s).Nodup := by
  rcases siblings_cases apart hs with ⟨-, eq⟩ | ⟨parent, hparent, -, eq⟩
  · rw [eq]
    exact List.nodup_singleton s
  · rw [eq]
    exact Site.nodup_children (Site.numbered_of_mem (root_numbered apart b) hparent)

theorem siblings_perm (hs : s ∈ (cs.root b).preorder) : (cs.siblings s).Perm (s :: cs.otherSiblings s) := by
  have other : s ∉ cs.otherSiblings s := fun member => ((mem_otherSiblings apart hs).mp member).2 rfl
  have nodup : (s :: cs.otherSiblings s).Nodup :=
    List.nodup_cons.mpr ⟨other, (nodup_siblings apart hs).sublist List.filter_sublist⟩
  rw [List.perm_ext_iff_of_nodup (nodup_siblings apart hs) nodup]
  intro t
  rw [List.mem_cons, mem_otherSiblings apart hs]
  by_cases same : t = s
  · simp [same, self_mem_siblings apart hs]
  · simp [same]

theorem root_id_le (hs : s ∈ (cs.root b).preorder) : (cs.root b).id ≤ s.id :=
  (Tree.containsId_iff.mp (Site.containsId_of_mem (root_numbered apart b) hs)).1

theorem parentId_root_lt {i : NodeId} (h : parentId (cs.root b) = some i) : i < (cs.root b).id := by
  obtain ⟨tree, numbered, member⟩ := root_tree apart b
  obtain ⟨parent, hparent, rfl⟩ := Option.map_eq_some_iff.mp h
  have other : cs.root b ≠ Site.root tree := by
    intro top
    rw [top] at hparent
    cases hparent
  obtain ⟨above, habove, child⟩ := Site.exists_parent member other
  rw [Site.parent?_of_mem_children child, Option.some_inj] at hparent
  rw [← hparent]
  exact Site.id_lt_of_mem_children (Site.numbered_of_mem numbered habove) child

theorem parentId_cases (hs : s ∈ (cs.root b).preorder) :
    (s = cs.root b ∧ cs.siblings s = [s] ∧ ∀ i, parentId s = some i → i < (cs.root b).id) ∨
      ∃ parent ∈ (cs.root b).preorder, s ∈ parent.children ∧ cs.siblings s = parent.children ∧
        parentId s = some parent.id ∧ (cs.root b).id ≤ parent.id := by
  rcases siblings_cases apart hs with ⟨top, eq⟩ | ⟨parent, hparent, child, eq⟩
  · exact .inl ⟨top, eq, fun i h => parentId_root_lt apart (top ▸ h)⟩
  · refine .inr ⟨parent, hparent, child, eq, ?_, ?_⟩
    · rw [parentId, Site.parent?_of_mem_children child, Option.map_some]
    · exact root_id_le apart hparent

theorem mem_siblings_iff (hs : s ∈ (cs.root b).preorder) (ht : t ∈ (cs.root b).preorder) :
    t ∈ cs.siblings s ↔ parentId t = parentId s := by
  rcases parentId_cases apart hs with ⟨topS, eqS, lowS⟩ | ⟨p, hp, childS, eqS, parentS, highS⟩ <;>
    rcases parentId_cases apart ht with ⟨topT, -, lowT⟩ | ⟨q, hq, childT, -, parentT, highT⟩
  · rw [eqS, topS, topT]
    simp
  · have different : t ≠ s := by
      rintro rfl
      have := lowS _ parentT
      lia
    rw [eqS, List.mem_singleton, parentT]
    refine iff_of_false different fun same => ?_
    have := lowS _ same.symm
    lia
  · rw [eqS, parentS]
    refine iff_of_false (fun child => ?_) fun same => ?_
    · have := Site.id_lt_of_mem_children (Site.numbered_of_mem (root_numbered apart b) hp) child
      rw [topT] at this
      lia
    · have := lowT _ same
      lia
  · rw [eqS, parentS, parentT, Option.some_inj]
    constructor
    · intro child
      have same := Site.parent?_of_mem_children child
      rw [Site.parent?_of_mem_children childT, Option.some_inj] at same
      rw [same]
    · intro same
      rwa [← eq_of_id_eq apart hq hp same]

end Apart

section Children

theorem hasChild_iff : n.hasChild t = true ↔ parentId t = some n.id := by
  unfold Site.hasChild parentId Site.parent?
  cases t.above with
  | nil => simp
  | cons parent above => simp [Site.id]

theorem hasChild_of_mem (child : t ∈ n.children) : n.hasChild t = true := by
  rw [hasChild_iff, parentId, Site.parent?_of_mem_children child]
  rfl

variable (apart : cs.left.Apart cs.right)

include apart

theorem root_notMem_children (hn : n ∈ (cs.root b).preorder) : cs.root b ∉ n.children := by
  intro child
  have above := Site.id_lt_of_mem_children (Site.numbered_of_mem (root_numbered apart b) hn) child
  have below := root_id_le apart hn
  lia

theorem mem_children_of_hasChild (hn : n ∈ (cs.root b).preorder) (ht : t ∈ (cs.root b).preorder)
    (child : n.hasChild t = true) : t ∈ n.children := by
  have same := hasChild_iff.mp child
  rcases parentId_cases apart ht with ⟨-, -, low⟩ | ⟨p, hp, below, -, above, -⟩
  · have := low _ same
    have := root_id_le apart hn
    lia
  · rw [above, Option.some_inj] at same
    rwa [← eq_of_id_eq apart hp hn same]

theorem siblings_of_child (hp : parent ∈ (cs.root b).preorder) (child : s ∈ parent.children) :
    cs.siblings s = parent.children := by
  have hs := Site.child_mem_preorder child hp
  rcases siblings_cases apart hs with ⟨top, -⟩ | ⟨p, -, below, group⟩
  · exact absurd (top ▸ child) (root_notMem_children apart hp)
  · have same := Site.parent?_of_mem_children below
    rw [Site.parent?_of_mem_children child, Option.some_inj] at same
    rw [group, same]

end Children

section Order

theorem position_eq {group : List Site} (distinct : (group.map Site.id).Nodup) {i : Nat} (h : group[i]? = some s) :
    position group s = i := by
  obtain ⟨inside, at_i⟩ := List.getElem?_eq_some_iff.mp h
  have found : group.findIdx? (· == s) = some i := by
    rw [List.findIdx?_eq_some_iff_getElem]
    refine ⟨inside, by rw [at_i]; exact beq_self_eq_true s.id, ?_⟩
    intro j before same
    have same : group[j].id = s.id := beq_iff_eq.mp same
    have ids : (group.map Site.id)[j]? = (group.map Site.id)[i]? := by simp [inside, before.trans inside, at_i, same]
    have := (List.getElem?_inj (by simp; omega) distinct).mp ids
    omega
  rw [position, found]

/-- One node stands before another in a group. -/
def Precedes (group : List Site) (s t : Site) : Prop :=
  position group s < position group t

theorem children_precede {group : List Site} (distinct : (group.map Site.id).Nodup) : group.Pairwise (Precedes group) := by
  rw [List.pairwise_iff_getElem]
  intro i j hi hj less
  rw [Precedes, position_eq distinct (List.getElem?_eq_getElem hi), position_eq distinct (List.getElem?_eq_getElem hj)]
  omega

theorem nodup_of_precede {group sites : List Site} (h : sites.Pairwise (Precedes group)) : sites.Nodup := by
  apply h.imp
  intro s t less same
  rw [same] at less
  exact lt_irrefl _ less

variable (apart : cs.left.Apart cs.right)

include apart

theorem nodup_children_ids (hp : parent ∈ (cs.root b).preorder) : (parent.children.map Site.id).Nodup := by
  have ids : parent.children.map Site.id = parent.node.children.map Tree.id := by
    rw [← Site.map_node_children, List.map_map]
    rfl
  rw [ids]
  exact (Site.numbered_of_mem (root_numbered apart b) hp).nodup_children

theorem violatesOrder_iff (hp : parent ∈ (cs.root false).preorder) (hq : other ∈ (cs.root true).preorder)
    {i j k l : Nat} (hs : parent.children[i]? = some s) (hm : parent.children[j]? = some m)
    (ht : other.children[k]? = some t) (hn : other.children[l]? = some n) (leftD : d.left = some s)
    (rightD : d.right = some t) (leftC : c.left = some m) (rightC : c.right = some n) :
    cs.violatesOrder d c = true ↔ i < j ∧ l < k ∨ j < i ∧ k < l := by
  have groupS := siblings_of_child apart hp (List.mem_of_getElem? hs)
  have groupT := siblings_of_child apart hq (List.mem_of_getElem? ht)
  have lowestL : cs.lowest s m = (s, m) := by
    apply if_pos
    rw [groupS, List.contains_iff_exists_mem_beq]
    exact ⟨m, List.mem_of_getElem? hm, beq_self_eq_true m.id⟩
  have lowestR : cs.lowest t n = (t, n) := by
    apply if_pos
    rw [groupT, List.contains_iff_exists_mem_beq]
    exact ⟨n, List.mem_of_getElem? hn, beq_self_eq_true n.id⟩
  have distinctL := nodup_children_ids apart hp
  have distinctR := nodup_children_ids apart hq
  simp only [violatesOrder, leftD, rightD, leftC, rightC, lowestL, lowestR, groupS, groupT, crosses,
    position_eq distinctL hs, position_eq distinctL hm, position_eq distinctR ht, position_eq distinctR hn]
  split
  · rw [decide_eq_true_eq]
    omega
  · split
    · rw [decide_eq_true_eq]
      omega
    · apply iff_of_false Bool.false_ne_true
      omega

end Order

theorem side_eq_of_key_eq (apart : graph.left.Apart graph.right) (left : cover.left = graph.left)
    (right : cover.right = graph.right) (overCover : cover.Over) (overGraph : graph.Over) (hc : c ∈ cover.entries)
    (hd : d ∈ graph.entries) (same : c.key = d.key) (b : Bool) : c.side b = d.side b := by
  have roots : cover.root b = graph.root b := by cases b <;> assumption
  have ids : (c.side b).map Site.id = (d.side b).map Site.id := by
    cases b with
    | false => exact congrArg Prod.fst same
    | true => exact congrArg Prod.snd same
  cases hs : c.side b with
  | none => rw [hs] at ids; exact (Option.map_eq_none_iff.mp ids.symm).symm
  | some s =>
    cases ht : d.side b with
    | none => rw [hs, ht] at ids; cases ids
    | some t =>
      rw [hs, ht, Option.map_some, Option.map_some, Option.some_inj] at ids
      rw [eq_of_id_eq apart (roots ▸ overCover c hc b s hs) (overGraph d hd b t ht) ids]

section Over

variable (apart : cs.left.Apart cs.right) (within : cs.Over)

include apart within

theorem near_iff (hc : c ∈ cs.entries) (hs : s ∈ (cs.root b).preorder) :
    ((c.side b).map Site.id == some s.id) = true ↔ c.side b = some s := by
  rw [beq_iff_eq, Option.map_eq_some_iff]
  constructor
  · rintro ⟨t, ht, same⟩
    rw [ht, eq_of_id_eq apart (within c hc b t ht) hs same]
  · exact fun here => ⟨s, here, rfl⟩

theorem far_eq (hc : c ∈ cs.entries) (hs : s ∈ (cs.root b).preorder) :
    ((c.side !b).map Site.id == some s.id) = false := by
  rw [beq_eq_false_iff_ne, Ne, Option.map_eq_some_iff]
  rintro ⟨t, ht, same⟩
  exact id_ne apart hs (within c hc _ t ht) same.symm

theorem contains_iff (hc : c ∈ cs.entries) (hs : s ∈ (cs.root b).preorder) :
    c.contains s.id = true ↔ c.side b = some s := by
  rw [← near_iff apart within hc hs]
  have far := far_eq apart within hc hs
  cases b with
  | false =>
    change ((c.side false).map Site.id == some s.id || (c.side !false).map Site.id == some s.id) = true ↔ _
    rw [far, Bool.or_false]
  | true =>
    change ((c.side !true).map Site.id == some s.id || (c.side true).map Site.id == some s.id) = true ↔ _
    rw [far, Bool.false_or]

theorem other?_eq (hc : c ∈ cs.entries) (hs : s ∈ (cs.root b).preorder) (here : c.side b = some s) :
    c.other? s.id = c.side !b := by
  have near := (near_iff apart within hc hs).mpr here
  have far := far_eq apart within hc hs
  cases b with
  | false =>
    change (if ((c.side false).map Site.id == some s.id) = true then c.right else _) = c.right
    rw [if_pos near]
  | true =>
    change (if ((c.side !true).map Site.id == some s.id) = true then _ else
      if ((c.side true).map Site.id == some s.id) = true then c.left else none) = c.left
    rw [if_neg (by rw [far]; exact Bool.false_ne_true), if_pos near]

theorem mem_containing (hs : s ∈ (cs.root b).preorder) :
    c ∈ cs.containing s ↔ c ∈ cs.entries ∧ c.side b = some s := by
  rw [containing, List.mem_filter]
  exact and_congr_right fun hc => contains_iff apart within hc hs

end Over

/-- Candidates over the same two subtrees, whose nodes are told apart by their identities. The subtrees may lie in one
tree and overlap. -/
structure Together (cover graph : Candidates) : Prop where
  left : cover.left = graph.left
  right : cover.right = graph.right
  told : ∀ b b', ∀ s ∈ (graph.root b).preorder, ∀ t ∈ (graph.root b').preorder, s.id = t.id → s = t
  overCover : cover.Over
  overGraph : graph.Over

namespace Together

variable (h : Together cover graph)

include h

theorem root (b : Bool) : cover.root b = graph.root b := by
  cases b with
  | false => exact h.left
  | true => exact h.right

theorem siblings_eq (s : Site) : cover.siblings s = graph.siblings s := by
  unfold siblings
  rw [h.left, h.right]

theorem otherSiblings_eq (s : Site) : cover.otherSiblings s = graph.otherSiblings s := by
  unfold otherSiblings
  rw [h.siblings_eq]

theorem violatesOrder_eq (a b : Candidate) : cover.violatesOrder a b = graph.violatesOrder a b := by
  unfold violatesOrder lowest
  simp only [h.siblings_eq]

end Together

structure Parallel (cover graph : Candidates) : Prop where
  left : cover.left = graph.left
  right : cover.right = graph.right
  apart : graph.left.Apart graph.right
  overCover : cover.Over
  overGraph : graph.Over

namespace Parallel

variable (h : Parallel cover graph)

include h

theorem together : Together cover graph :=
  ⟨h.left, h.right, fun _ _ _ hs _ ht => eq_of_id_eq' h.apart hs ht, h.overCover, h.overGraph⟩

theorem root (b : Bool) : cover.root b = graph.root b := h.together.root b

theorem apart' : cover.left.Apart cover.right := by
  rw [h.left, h.right]
  exact h.apart

theorem siblings_eq (s : Site) : cover.siblings s = graph.siblings s := h.together.siblings_eq s

theorem otherSiblings_eq (s : Site) : cover.otherSiblings s = graph.otherSiblings s := h.together.otherSiblings_eq s

theorem violatesOrder_eq (a b : Candidate) : cover.violatesOrder a b = graph.violatesOrder a b :=
  h.together.violatesOrder_eq a b

end Parallel

/-- A cover whose candidates are all among those of a graph. -/
structure Completes (cover graph : Candidates) : Prop extends Parallel cover graph where
  sane : cover.check = .ok ()
  within : cover.keys ⊆ graph.keys

namespace Completes

variable (h : Completes cover graph)

include h

theorem covers : Covers cover.left cover.right cover.keys :=
  (check_eq_ok_iff (root_numbered h.apart' false) (root_numbered h.apart' true)).mp h.sane

theorem eq_of_side (hc : c ∈ cover.entries) (hd : d ∈ cover.entries) (atC : c.side b = some s) (atD : d.side b = some s) :
    c = d := by
  have clash : Candidate.Clash c.key d.key := by
    cases b with
    | false =>
      have atC : c.left = some s := atC
      have atD : d.left = some s := atD
      exact .inl ⟨s.id, by simp [Candidate.key, atC], by simp [Candidate.key, atD]⟩
    | true =>
      have atC : c.right = some s := atC
      have atD : d.right = some s := atD
      exact .inr ⟨s.id, by simp [Candidate.key, atC], by simp [Candidate.key, atD]⟩
  have same := (h.covers.separate (mem_keys.mpr ⟨c, hc, rfl⟩) (mem_keys.mpr ⟨d, hd, rfl⟩)).resolve_right
    (not_not.mpr clash)
  exact List.inj_on_of_nodup_map h.covers.nodup hc hd same

theorem exists_candidate (hs : s ∈ (cover.root b).preorder) : ∃ c ∈ cover.entries, c.side b = some s := by
  have inside := Site.containsId_of_mem (root_numbered h.apart' b) hs
  have found : ∃ c ∈ cover.entries, (c.side b).map Site.id = some s.id := by
    cases b with
    | false =>
      obtain ⟨k, hk, same⟩ := mem_lefts.mp (h.covers.allLeft _ inside)
      obtain ⟨c, hc, rfl⟩ := mem_keys.mp hk
      exact ⟨c, hc, same⟩
    | true =>
      obtain ⟨k, hk, same⟩ := mem_rights.mp (h.covers.allRight _ inside)
      obtain ⟨c, hc, rfl⟩ := mem_keys.mp hk
      exact ⟨c, hc, same⟩
  obtain ⟨c, hc, same⟩ := found
  exact ⟨c, hc, (near_iff h.apart' h.overCover hc hs).mp (beq_iff_eq.mpr same)⟩

theorem candidateOf?_eq (hc : c ∈ cover.entries) (here : c.side b = some s) : cover.candidateOf? s = some c := by
  have hs := h.overCover c hc b s here
  cases found : cover.candidateOf? s with
  | none =>
    have missing := List.find?_eq_none.mp found c hc
    exact absurd ((contains_iff h.apart' h.overCover hc hs).mpr here) missing
  | some d =>
    have hd := List.mem_of_find?_eq_some found
    have holds := List.find?_some (p := fun c : Candidate => c.contains s.id) found
    have there := (contains_iff h.apart' h.overCover hd hs).mp holds
    rw [h.eq_of_side hd hc there here]

theorem image?_eq (hc : c ∈ cover.entries) (here : c.side b = some s) : cover.image? s = c.side !b := by
  unfold image?
  rw [h.candidateOf?_eq hc here]
  exact other?_eq h.apart' h.overCover hc (h.overCover c hc b s here) here

theorem exists_containing (hc : c ∈ cover.entries) (here : c.side b = some s) :
    ∃ d ∈ graph.containing s, ∀ b, d.side b = c.side b := by
  obtain ⟨d, hd, same⟩ := mem_keys.mp (h.within (mem_keys.mpr ⟨c, hc, rfl⟩))
  have sides (b : Bool) : d.side b = c.side b :=
    (side_eq_of_key_eq h.apart h.left h.right h.overCover h.overGraph hc hd same.symm b).symm
  have hs : s ∈ (graph.root b).preorder := h.root b ▸ h.overCover c hc b s here
  exact ⟨d, (mem_containing h.apart h.overGraph hs).mpr ⟨hd, (sides b).trans here⟩, sides⟩

theorem image?_mem_partners (hs : s ∈ (graph.root b).preorder) : cover.image? s ∈ graph.partners s := by
  obtain ⟨c, hc, here⟩ := h.exists_candidate (h.root b ▸ hs)
  obtain ⟨d, hd, sides⟩ := h.exists_containing hc here
  obtain ⟨member, there⟩ := (mem_containing h.apart h.overGraph hs).mp hd
  refine List.mem_map.mpr ⟨d, hd, ?_⟩
  rw [other?_eq h.apart h.overGraph member hs there, sides, h.image?_eq hc here]

end Completes

end Candidates

end TreeAlign
