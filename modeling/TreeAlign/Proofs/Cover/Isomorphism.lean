import Mathlib.Algebra.Order.BigOperators.Group.List
import TreeAlign.Proofs.Comparison
import TreeAlign.Proofs.Cover.Bounds

namespace TreeAlign

/-- Whatever is charged costs something; torn groups of siblings may be free. -/
structure Weights.Charges (w : Weights ℚ) : Prop where
  rename : ∀ m n, 0 < w.rename m n
  noMatch : 0 < w.noMatch
  ancestry : ∀ m n amount, 0 ≤ amount → 0 ≤ w.ancestry m n amount ∧ (w.ancestry m n amount = 0 ↔ amount = 0)
  siblings : ∀ m n amount, 0 ≤ amount → 0 ≤ w.siblings m n amount
  siblingsZero : ∀ m n, w.siblings m n 0 = 0
  ordering : ∀ m n, 0 < w.ordering m n

theorem Weights.linear_charges {rename noMatch ancestry siblings ordering : ℚ} (hrename : 0 < rename)
    (hnoMatch : 0 < noMatch) (hancestry : 0 < ancestry) (hsiblings : 0 ≤ siblings) (hordering : 0 < ordering) :
    (Weights.linear rename noMatch ancestry siblings ordering).Charges where
  rename _ _ := hrename
  noMatch := hnoMatch
  ancestry m n amount nonneg := by
    refine ⟨mul_nonneg hancestry.le nonneg, ?_⟩
    exact mul_eq_zero.trans (or_iff_right hancestry.ne')
  siblings m n amount nonneg := mul_nonneg hsiblings nonneg
  siblingsZero m n := mul_zero siblings
  ordering _ _ := hordering

namespace Candidates

variable {cover : Candidates} {b : Bool} {s t m n parent other : Site} {c d : Candidate}

/-- No candidate is charged, torn groups of siblings aside. -/
structure Free (cover : Candidates) : Prop where
  matched : ∀ c ∈ cover.entries, c.isNoMatch = false
  sameLabel : ∀ c ∈ cover.entries, ∀ m n, c.left = some m → c.right = some n → m.node.sameLabel n.node = true
  noStray : ∀ c ∈ cover.entries, ∀ m n, c.left = some m → c.right = some n →
    cover.strayChildren m n = 0 ∧ cover.strayChildren n m = 0
  inOrder : ∀ c ∈ cover.entries, ∀ m n, c.left = some m → c.right = some n → cover.isOutOfOrder c m n = false

theorem free_iff : cover.Free ↔ ∀ c ∈ cover.entries, ∃ m n, c.left = some m ∧ c.right = some n ∧
    m.node.sameLabel n.node = true ∧ (cover.strayChildren m n = 0 ∧ cover.strayChildren n m = 0) ∧
    cover.isOutOfOrder c m n = false := by
  constructor
  · intro free c hc
    have matched := free.matched c hc
    rw [Candidate.isNoMatch, Bool.or_eq_false_iff, Option.isNone_eq_false_iff, Option.isNone_eq_false_iff] at matched
    obtain ⟨m, left⟩ := Option.isSome_iff_exists.mp matched.1
    obtain ⟨n, right⟩ := Option.isSome_iff_exists.mp matched.2
    exact ⟨m, n, left, right, free.sameLabel c hc m n left right, free.noStray c hc m n left right,
      free.inOrder c hc m n left right⟩
  · intro each
    have pairs : ∀ c ∈ cover.entries, ∀ m n, c.left = some m → c.right = some n → m.node.sameLabel n.node = true ∧
        (cover.strayChildren m n = 0 ∧ cover.strayChildren n m = 0) ∧ cover.isOutOfOrder c m n = false := by
      intro c hc m n left right
      obtain ⟨m', n', left', right', rest⟩ := each c hc
      rw [left, Option.some_inj] at left'
      rw [right, Option.some_inj] at right'
      subst left' right'
      exact rest
    exact {
      matched := fun c hc => by
        obtain ⟨m, n, left, right, -⟩ := each c hc
        simp [Candidate.isNoMatch, left, right]
      sameLabel := fun c hc m n left right => (pairs c hc m n left right).1
      noStray := fun c hc m n left right => (pairs c hc m n left right).2.1
      inOrder := fun c hc m n left right => (pairs c hc m n left right).2.2 }

/-- The subtrees have the same labels in the same shape, and the pairs are the nodes at the same positions. -/
structure Isomorphic (cover : Candidates) : Prop where
  labels : cover.left.node.labels = cover.right.node.labels
  keys : ∀ k, k ∈ cover.keys ↔ ∃ x y, Aligned cover.left.node cover.right.node x y ∧ k = (some x.id, some y.id)

def InStep (cover : Candidates) (b : Bool) (m n : Site) : Prop :=
  List.Forall₂ (Paired cover cover b) m.children n.children

/-- The roots are a pair, and below every pair the children are in step. -/
structure Stepwise (cover : Candidates) : Prop where
  root : Paired cover cover false cover.left cover.right
  sameLabel : ∀ m n, Paired cover cover false m n → m.node.sameLabel n.node = true
  inStep : ∀ m n, Paired cover cover false m n → InStep cover false m n

theorem forall₂_filterMap {α β : Type} {f : α → Option β} {xs : List α} (found : ∀ x ∈ xs, ∃ y, f x = some y) :
    List.Forall₂ (fun x y => f x = some y) xs (xs.filterMap f) := by
  induction xs with
  | nil => exact .nil
  | cons x xs ih =>
    obtain ⟨y, hy⟩ := found x List.mem_cons_self
    rw [List.filterMap_cons_some hy]
    exact .cons hy (ih fun x' hx' => found x' (List.mem_cons_of_mem x hx'))

section Pairs

variable (h : Completes cover cover)

include h

theorem Completes.paired (hs : s ∈ (cover.root b).preorder) (ht : cover.image? s = some t) :
    Paired cover cover b s t := by
  obtain ⟨c, hc, near⟩ := h.exists_candidate hs
  rw [h.image?_eq hc near] at ht
  exact ⟨h, c, hc, near, ht⟩

theorem Completes.exists_partner (matched : ∀ c ∈ cover.entries, c.isNoMatch = false)
    (hs : s ∈ (cover.root b).preorder) : ∃ t, Paired cover cover b s t := by
  obtain ⟨c, hc, near⟩ := h.exists_candidate hs
  have real := matched c hc
  cases far : c.side !b with
  | some t => exact ⟨t, h, c, hc, near, far⟩
  | none =>
    have alone : c.isNoMatch = true := by
      unfold Candidate.isNoMatch
      cases b with
      | false => rw [show c.right = none from far]; simp
      | true => rw [show c.left = none from far]; simp
    rw [real] at alone
    cases alone

theorem Completes.exists_side (hc : c ∈ cover.entries) : ∃ b s, c.side b = some s := by
  cases hl : c.left with
  | some s => exact ⟨false, s, hl⟩
  | none =>
    cases hr : c.right with
    | some s => exact ⟨true, s, hr⟩
    | none =>
      have key : c.key = (none, none) := by simp [Candidate.key, hl, hr]
      exact absurd (mem_keys.mpr ⟨c, hc, key⟩) h.covers.real

theorem Completes.paired_of_key (hs : s ∈ (cover.root false).preorder) (ht : t ∈ (cover.root true).preorder)
    (key : (some s.id, some t.id) ∈ cover.keys) : Paired cover cover false s t := by
  obtain ⟨c, hc, same⟩ := mem_keys.mp key
  have left := congrArg Prod.fst same
  have right := congrArg Prod.snd same
  exact ⟨h, c, hc, (near_iff h.apart h.overGraph hc hs).mp (beq_iff_eq.mpr left),
    (near_iff h.apart h.overGraph hc ht).mp (beq_iff_eq.mpr right)⟩

end Pairs

namespace Paired

theorem key_mem (p : Paired cover cover false m n) : (some m.id, some n.id) ∈ cover.keys := by
  obtain ⟨c, hc, left, right⟩ := p.candidate
  have left : c.left = some m := left
  have right : c.right = some n := right
  exact mem_keys.mpr ⟨c, hc, by simp [Candidate.key, left, right]⟩

theorem eq_right (p : Paired cover cover b m n) (q : Paired cover cover b m t) : n = t :=
  Option.some_inj.mp (p.image?_self.symm.trans q.image?_self)

end Paired

namespace Free

variable (free : cover.Free)

include free

theorem strayChildren_eq_zero (p : Paired cover cover b m n) : cover.strayChildren m n = 0 := by
  obtain ⟨c, hc, near, far⟩ := p.candidate
  cases b with
  | false => exact (free.noStray c hc m n near far).1
  | true => exact (free.noStray c hc n m far near).2

theorem exists_child (p : Paired cover cover b m n) (hs : s ∈ m.children) :
    ∃ t ∈ n.children, Paired cover cover b s t := by
  obtain ⟨t, q⟩ := p.exists_partner free.matched (Site.child_mem_preorder hs p.near)
  have none := free.strayChildren_eq_zero p
  rw [strayChildren_eq, List.countP_eq_zero] at none
  have child : n.hasChild t = true := by
    have := none s hs
    simpa [q.image?_self] using this
  exact ⟨t, mem_children_of_hasChild p.apart p.symm.near q.symm.near child, q⟩

/-- The root on the right has no other partner than the root on the left, above whose parent there is no pair. -/
theorem roots (h : Completes cover cover) : Paired cover cover false cover.left cover.right := by
  obtain ⟨m, p⟩ := h.exists_partner (b := true) free.matched (Site.self_mem_preorder _)
  have p : Paired cover cover false m cover.right := p.symm
  by_cases top : m = cover.left
  · rwa [← top]
  · obtain ⟨parent, hparent, child⟩ := Site.exists_parent p.near top
    obtain ⟨other, q⟩ := h.exists_partner (b := false) free.matched hparent
    obtain ⟨t, below, same⟩ := free.exists_child q child
    rw [← p.eq_right same] at below
    exact absurd below (root_notMem_children h.apart q.symm.near)

theorem rising (p : Paired cover cover false m n) {i j k l : Nat} {s' t' : Site} (less : i < j)
    (hs : m.children[i]? = some s) (hs' : m.children[j]? = some s') (ht : n.children[k]? = some t)
    (ht' : n.children[l]? = some t') (q : Paired cover cover false s t) (q' : Paired cover cover false s' t') : k < l := by
  have group := siblings_of_child p.apart p.near (List.mem_of_getElem? hs')
  have different : s ≠ s' := by
    intro same
    have distinct := Site.nodup_children (Site.numbered_of_mem (root_numbered p.apart false) p.near)
    have := (List.getElem?_inj (List.getElem?_eq_some_iff.mp hs).1 distinct).mp (hs.trans (same ▸ hs'.symm))
    omega
  have sibling : s ∈ cover.otherSiblings s' := by
    rw [mem_otherSiblings p.apart q'.near, group]
    exact ⟨List.mem_of_getElem? hs, different⟩
  obtain ⟨d, hd, leftD, rightD⟩ := q.candidate
  obtain ⟨c, hc, leftC, rightC⟩ := q'.candidate
  have ordered : ¬cover.violatesOrder d c = true := by
    intro violated
    have charged : cover.isOutOfOrder c s' t' = true := p.isOutOfOrder_iff.mpr
      ⟨s, List.mem_append_left _ sibling, d, p.candidateOf?_eq hd leftD, free.matched d hd, violated⟩
    rw [free.inOrder c hc s' t' leftC rightC] at charged
    cases charged
  rw [violatesOrder_iff p.apart p.near p.symm.near hs hs' ht ht' leftD rightD leftC rightC] at ordered
  have apart : k ≠ l := by
    intro same
    rw [same, ht', Option.some_inj] at ht
    subst ht
    exact different (q.symm.eq_right q'.symm)
  omega

theorem images_precede (p : Paired cover cover false m n) :
    (m.children.filterMap cover.image?).Pairwise (Precedes n.children) := by
  have distinct := nodup_children_ids p.apart p.symm.near
  rw [List.pairwise_filterMap, List.pairwise_iff_getElem]
  intro i j hi hj less t ht t' ht'
  obtain ⟨_, member, q⟩ := free.exists_child p (List.getElem_mem hi)
  obtain ⟨_, member', q'⟩ := free.exists_child p (List.getElem_mem hj)
  rw [q.image?_self, Option.some_inj] at ht
  rw [q'.image?_self, Option.some_inj] at ht'
  subst ht ht'
  obtain ⟨k, hk⟩ := List.mem_iff_getElem?.mp member
  obtain ⟨l, hl⟩ := List.mem_iff_getElem?.mp member'
  have := free.rising p less (List.getElem?_eq_getElem hi) (List.getElem?_eq_getElem hj) hk hl q q'
  rw [Precedes, position_eq distinct hk, position_eq distinct hl]
  omega

theorem mem_images_iff (p : Paired cover cover b m n) : t ∈ m.children.filterMap cover.image? ↔ t ∈ n.children := by
  rw [List.mem_filterMap]
  constructor
  · intro ⟨s, hs, ht⟩
    obtain ⟨t', member, q⟩ := free.exists_child p hs
    rw [q.image?_self, Option.some_inj] at ht
    rwa [← ht]
  · intro ht
    obtain ⟨s, hs, q⟩ := free.exists_child p.symm ht
    exact ⟨s, hs, q.symm.image?_self⟩

/-- The partners of the children are the children of the partner: both lists hold the same nodes in one order. -/
theorem images_eq (p : Paired cover cover false m n) : m.children.filterMap cover.image? = n.children := by
  have images := free.images_precede p
  have ordered := children_precede (nodup_children_ids p.apart p.symm.near)
  have perm : (m.children.filterMap cover.image?).Perm n.children := by
    rw [List.perm_ext_iff_of_nodup (nodup_of_precede images) (nodup_of_precede ordered)]
    exact fun t => free.mem_images_iff p
  exact perm.eq_of_pairwise (fun t t' _ _ less more => absurd more (lt_asymm less)) images ordered

theorem inStep (p : Paired cover cover false m n) : InStep cover false m n := by
  have found : ∀ s ∈ m.children, ∃ t, cover.image? s = some t := by
    intro s hs
    obtain ⟨t, -, q⟩ := free.exists_child p hs
    exact ⟨t, q.image?_self⟩
  have steps := (List.forall₂_and_left _ _).mpr ⟨fun s hs => hs, forall₂_filterMap found⟩
  rw [free.images_eq p] at steps
  apply steps.imp
  intro s t ⟨hs, ht⟩
  exact p.paired (Site.child_mem_preorder hs p.near) ht

theorem stepwise (h : Completes cover cover) : cover.Stepwise where
  root := free.roots h
  sameLabel m n p := by
    obtain ⟨c, hc, left, right⟩ := p.candidate
    exact free.sameLabel c hc m n left right
  inStep _ _ p := free.inStep p

end Free

namespace InStep

theorem swap (h : InStep cover b m n) : InStep cover (!b) n m := by
  have flipped := h.flip
  apply flipped.imp
  intro t s p
  exact p.symm

theorem getElem? (h : InStep cover b m n) {i : Nat} (hs : m.children[i]? = some s) (p : Paired cover cover b s t) :
    n.children[i]? = some t := by
  obtain ⟨t', ht', q⟩ := forall₂_getElem? h hs
  rwa [p.eq_right q]

theorem mem (h : InStep cover b m n) (hs : s ∈ m.children) (p : Paired cover cover b s t) : t ∈ n.children := by
  obtain ⟨i, hi⟩ := List.mem_iff_getElem?.mp hs
  exact List.mem_of_getElem? (h.getElem? hi p)

theorem strayChildren_eq_zero (h : InStep cover b m n) : cover.strayChildren m n = 0 := by
  rw [strayChildren_eq, List.countP_eq_zero]
  intro s hs
  obtain ⟨i, hi⟩ := List.mem_iff_getElem?.mp hs
  obtain ⟨t, ht, p⟩ := forall₂_getElem? h hi
  simp [p.image?_self, hasChild_of_mem (List.mem_of_getElem? ht)]

end InStep

namespace Stepwise

variable (h : cover.Stepwise)

include h

theorem below (p : Paired cover cover false m n) : m.node.labels = n.node.labels ∧
    ∀ x y, Aligned m.node n.node x y → (some x.id, some y.id) ∈ cover.keys := by
  obtain ⟨node, above⟩ := m
  induction node using Tree.childInduction generalizing above n with
  | step node ih =>
    have steps := h.inStep _ _ p
    have children : List.Forall₂ (fun s t => s.node.labels = t.node.labels)
        (Site.children ⟨node, above⟩) n.children := by
      have each := (List.forall₂_and_left _ _).mpr ⟨fun s hs => Site.node_mem_of_mem_children hs, steps⟩
      apply each.imp
      intro s t ⟨hs, q⟩
      exact (ih s.node hs s.above q).1
    constructor
    · rw [Tree.labels_eq_iff]
      refine ⟨h.sameLabel _ _ p, ?_⟩
      rw [← Site.map_node_children ⟨node, above⟩, ← Site.map_node_children n, List.map_map, List.map_map,
        ← List.forall₂_eq_eq_eq, List.forall₂_map_left_iff, List.forall₂_map_right_iff]
      exact children
    · intro x y aligned
      cases aligned with
      | here => exact p.key_mem
      | @deeper _ _ c d _ _ i hc hd aligned =>
        rw [← Site.map_node_children ⟨node, above⟩, List.getElem?_map, Option.map_eq_some_iff] at hc
        rw [← Site.map_node_children n, List.getElem?_map, Option.map_eq_some_iff] at hd
        obtain ⟨s, hs, rfl⟩ := hc
        obtain ⟨t, ht, rfl⟩ := hd
        obtain ⟨t', ht', q⟩ := forall₂_getElem? steps hs
        rw [ht, Option.some_inj] at ht'
        subst ht'
        exact (ih s.node (Site.node_mem_of_mem_children (List.mem_of_getElem? hs)) s.above q).2 x y aligned

theorem isomorphic : cover.Isomorphic := by
  obtain ⟨labels, aligned_mem⟩ := h.below h.root
  refine ⟨labels, fun k => ⟨fun hk => ?_, fun ⟨x, y, aligned, hk⟩ => hk ▸ aligned_mem x y aligned⟩⟩
  obtain ⟨c, hc, rfl⟩ := mem_keys.mp hk
  obtain ⟨b, s, here⟩ := h.root.exists_side hc
  have inside := Site.node_mem_preorder (h.root.overCover c hc b s here)
  have found : ∃ x y, Aligned cover.left.node cover.right.node x y ∧
      ∀ d ∈ cover.entries, d.key = (some x.id, some y.id) → d.side b = some s := by
    cases b with
    | false =>
      obtain ⟨y, aligned⟩ := exists_aligned labels inside
      refine ⟨s.node, y, aligned, fun d hd key => ?_⟩
      exact (near_iff h.root.apart h.root.overCover hd (h.root.overCover c hc _ s here)).mp
        (beq_iff_eq.mpr (congrArg Prod.fst key))
    | true =>
      obtain ⟨x, aligned⟩ := exists_aligned labels.symm inside
      refine ⟨x, s.node, aligned.swap, fun d hd key => ?_⟩
      exact (near_iff h.root.apart h.root.overCover hd (h.root.overCover c hc _ s here)).mp
        (beq_iff_eq.mpr (congrArg Prod.snd key))
  obtain ⟨x, y, aligned, near⟩ := found
  obtain ⟨d, hd, key⟩ := mem_keys.mp (aligned_mem x y aligned)
  refine ⟨x, y, aligned, ?_⟩
  rw [h.root.eq_of_side hc hd here (near d hd key), key]

theorem step (p : Paired cover cover b m n) : InStep cover b m n := by
  cases b with
  | false => exact h.inStep m n p
  | true => exact (h.inStep n m p.symm).swap

theorem matched : ∀ c ∈ cover.entries, c.isNoMatch = false := by
  intro c hc
  obtain ⟨x, y, -, key⟩ := (h.isomorphic.keys c.key).mp (mem_keys.mpr ⟨c, hc, rfl⟩)
  obtain ⟨left, right⟩ := Prod.ext_iff.mp key
  obtain ⟨l, hl, -⟩ := Option.map_eq_some_iff.mp left
  obtain ⟨r, hr, -⟩ := Option.map_eq_some_iff.mp right
  simp [Candidate.isNoMatch, hl, hr]

theorem exists_parents (p : Paired cover cover b m n) (hp : parent ∈ (cover.root b).preorder) (hm : m ∈ parent.children) :
    ∃ other, InStep cover b parent other ∧ n ∈ other.children ∧ other ∈ (cover.root !b).preorder := by
  obtain ⟨other, q⟩ := p.exists_partner h.matched hp
  exact ⟨other, h.step q, (h.step q).mem hm p, q.symm.near⟩

theorem siblings_mem (p : Paired cover cover b m n) (q : Paired cover cover b s t) (hs : s ∈ cover.siblings m) :
    t ∈ cover.siblings n := by
  rcases siblings_cases p.apart p.near with ⟨-, group⟩ | ⟨parent, hp, hm, group⟩
  · rw [group, List.mem_singleton] at hs
    subst hs
    rw [q.eq_right p]
    exact self_mem_siblings p.apart p.symm.near
  · obtain ⟨other, steps, hn, ho⟩ := h.exists_parents p hp hm
    rw [siblings_of_child p.apart ho hn]
    rw [group] at hs
    exact steps.mem hs q

theorem divergentSiblings_eq_zero (p : Paired cover cover b m n) : cover.divergentSiblings m n = 0 := by
  rw [p.divergentSiblings_eq_countP, List.countP_eq_zero]
  intro s hs
  have inside := siblings_subset p.near s hs
  obtain ⟨t, q⟩ := p.exists_partner h.matched inside
  have sibling := h.siblings_mem p q hs
  have contained := (contains_iff_mem p.apart (siblings_subset p.symm.near) q.symm.near).mpr sibling
  simp [q.image?_self, contained]

theorem not_violatesOrder (p : Paired cover cover false m n) (q : Paired cover cover false s t)
    (hs : s ∈ cover.otherSiblings m) (leftD : d.left = some s) (rightD : d.right = some t) (leftC : c.left = some m)
    (rightC : c.right = some n) : ¬cover.violatesOrder d c = true := by
  obtain ⟨hs, different⟩ := (mem_otherSiblings p.apart p.near).mp hs
  rcases siblings_cases p.apart p.near with ⟨-, group⟩ | ⟨parent, hp, hm, group⟩
  · rw [group, List.mem_singleton] at hs
    exact absurd hs different
  · obtain ⟨other, steps, -, ho⟩ := h.exists_parents p hp hm
    rw [group] at hs
    obtain ⟨i, hi⟩ := List.mem_iff_getElem?.mp hs
    obtain ⟨j, hj⟩ := List.mem_iff_getElem?.mp hm
    rw [violatesOrder_iff p.apart hp ho hi hj (steps.getElem? hi q) (steps.getElem? hj p) leftD rightD leftC rightC]
    omega

theorem isOutOfOrder_eq_false (p : Paired cover cover false m n) (leftC : c.left = some m) (rightC : c.right = some n) :
    cover.isOutOfOrder c m n = false := by
  rw [← Bool.not_eq_true, p.isOutOfOrder_iff]
  intro ⟨s, hs, d, found, _, violated⟩
  rcases List.mem_append.mp hs with hs | hs
  · obtain ⟨t, q⟩ := p.exists_partner h.matched (otherSiblings_subset p.near s hs)
    obtain ⟨e, he, left, right⟩ := q.candidate
    rw [q.candidateOf?_eq he left, Option.some_inj] at found
    subst found
    exact h.not_violatesOrder p q hs left right leftC rightC violated
  · obtain ⟨t, q⟩ := p.exists_partner h.matched (otherSiblings_subset p.symm.near s hs)
    obtain ⟨e, he, right, left⟩ := q.candidate
    rw [q.candidateOf?_eq he right, Option.some_inj] at found
    subst found
    obtain ⟨sibling, different⟩ := (mem_otherSiblings p.apart p.symm.near).mp hs
    have ht : t ∈ cover.otherSiblings m := by
      rw [mem_otherSiblings p.apart p.near]
      refine ⟨h.siblings_mem p.symm q sibling, fun same => different ?_⟩
      subst same
      exact q.symm.eq_right p
    exact h.not_violatesOrder p q.symm ht left right leftC rightC violated

theorem free : cover.Free where
  matched := h.matched
  sameLabel c hc m n left right := h.sameLabel m n ⟨h.root.toCompletes, c, hc, left, right⟩
  noStray c hc m n left right := by
    have p : Paired cover cover false m n := ⟨h.root.toCompletes, c, hc, left, right⟩
    exact ⟨(h.step p).strayChildren_eq_zero, (h.step p.symm).strayChildren_eq_zero⟩
  inOrder c hc m n left right := h.isOutOfOrder_eq_false ⟨h.root.toCompletes, c, hc, left, right⟩ left right

end Stepwise

namespace Isomorphic

variable (iso : cover.Isomorphic) (h : Completes cover cover)

include iso h

theorem paired (hs : s ∈ cover.left.preorder) (ht : t ∈ cover.right.preorder)
    (aligned : Aligned cover.left.node cover.right.node s.node t.node) : Paired cover cover false s t :=
  h.paired_of_key hs ht ((iso.keys _).mpr ⟨s.node, t.node, aligned, rfl⟩)

theorem aligned (p : Paired cover cover false m n) : Aligned cover.left.node cover.right.node m.node n.node := by
  obtain ⟨x, y, aligned, key⟩ := (iso.keys _).mp p.key_mem
  obtain ⟨left, right⟩ := Prod.ext_iff.mp key
  obtain ⟨hx, hy⟩ := aligned.mem_preorder
  have eqX : m.node = x := (root_numbered h.apart false).eq_of_id_eq (Site.node_mem_preorder p.near) hx
    (Option.some_inj.mp left)
  have eqY : n.node = y := (root_numbered h.apart true).eq_of_id_eq (Site.node_mem_preorder p.symm.near) hy
    (Option.some_inj.mp right)
  rwa [eqX, eqY]

theorem inStep (p : Paired cover cover false m n) : InStep cover false m n := by
  have position := iso.aligned h p
  have shape := (Tree.labels_eq_iff.mp (position.labels_eq iso.labels)).2
  have lengths := congrArg List.length shape
  simp only [← Site.map_node_children, List.length_map] at lengths
  unfold InStep
  rw [List.forall₂_iff_get]
  refine ⟨lengths, fun i hi hj => ?_⟩
  have atI (r : Site) (inside : i < r.children.length) : r.node.children[i]? = some (r.children.get ⟨i, inside⟩).node := by
    rw [← Site.map_node_children, List.getElem?_map, List.getElem?_eq_getElem inside]
    rfl
  exact iso.paired h (Site.child_mem_preorder (List.get_mem _ _) p.near)
    (Site.child_mem_preorder (List.get_mem _ _) p.symm.near) (position.trans (.deeper (atI m hi) (atI n hj) (.here _ _)))

theorem stepwise : cover.Stepwise where
  root := iso.paired h (Site.self_mem_preorder _) (Site.self_mem_preorder _) (.here _ _)
  sameLabel _ _ p := (Tree.labels_eq_iff.mp ((iso.aligned h p).labels_eq iso.labels)).1
  inStep _ _ p := iso.inStep h p

end Isomorphic

theorem free_iff_isomorphic (h : Completes cover cover) : cover.Free ↔ cover.Isomorphic :=
  ⟨fun free => (free.stepwise h).isomorphic, fun iso => (iso.stepwise h).free⟩

/-- The cost of a cover per node, in exact arithmetic. -/
def meanCost (w : Weights ℚ) (cover : Candidates) : ℚ :=
  ((Recall.exactCosts cover w).run {}).1.sum / ((cover.left.size + cover.right.size : Nat) : ℚ)

section Costs

theorem breakup_nonneg (cover : Candidates) (m n : Site) : (0 : ℚ) ≤ cover.breakup m n := by
  simp only [breakup]
  split
  · simp
  · positivity

theorem breakup_eq_zero (whole : cover.divergentSiblings m n = 0) : cover.breakup m n = (0 : ℚ) := by
  simp [breakup, whole]

variable {w : Weights ℚ} (charges : w.Charges)

include charges

theorem renameCost_zero_or (m n : Site) :
    0 ≤ renameCost w m n ∧ (renameCost w m n = 0 ↔ m.node.sameLabel n.node = true) := by
  have positive := charges.rename m n
  unfold renameCost
  split
  · simp_all
  · simp_all [positive.le, positive.ne']

theorem ancestryCost_zero_or (cover : Candidates) (m n : Site) : 0 ≤ cover.ancestryCost w m n ∧
    (cover.ancestryCost w m n = 0 ↔ cover.strayChildren m n = 0 ∧ cover.strayChildren n m = 0) := by
  obtain ⟨nonneg, zero⟩ := charges.ancestry m n (cover.strayChildren m n + cover.strayChildren n m : Nat)
    (Nat.cast_nonneg _)
  refine ⟨nonneg, zero.trans ?_⟩
  rw [Nat.cast_eq_zero, Nat.add_eq_zero_iff]

theorem siblingCost_nonneg (cover : Candidates) (m n : Site) : 0 ≤ cover.siblingCost w m n :=
  charges.siblings m n _ (add_nonneg (cover.breakup_nonneg m n) (cover.breakup_nonneg n m))

theorem orderingCost_zero_or (cover : Candidates) (c : Candidate) (m n : Site) :
    0 ≤ cover.orderingCost w c m n ∧ (cover.orderingCost w c m n = 0 ↔ cover.isOutOfOrder c m n = false) := by
  have positive := charges.ordering m n
  unfold orderingCost
  split
  · simp_all [positive.le, positive.ne']
  · simp_all

theorem exactCost_zero_or (cover : Candidates) (c : Candidate) : 0 ≤ cover.exactCost w c ∧
    (cover.exactCost w c = 0 ↔ ∃ m n, c.left = some m ∧ c.right = some n ∧ m.node.sameLabel n.node = true ∧
      (cover.strayChildren m n = 0 ∧ cover.strayChildren n m = 0) ∧ cover.siblingCost w m n = 0 ∧
      cover.isOutOfOrder c m n = false) := by
  have positive := charges.noMatch
  cases hl : c.left with
  | none => simp [exactCost, hl, positive.le, positive.ne']
  | some m =>
    cases hr : c.right with
    | none => simp [exactCost, hl, hr, positive.le, positive.ne']
    | some n =>
      obtain ⟨lowR, zeroR⟩ := renameCost_zero_or charges m n
      obtain ⟨lowA, zeroA⟩ := ancestryCost_zero_or charges cover m n
      obtain ⟨lowO, zeroO⟩ := orderingCost_zero_or charges cover c m n
      have lowS := siblingCost_nonneg charges cover m n
      simp only [exactCost, hl, hr]
      refine ⟨by positivity, ?_⟩
      rw [add_eq_zero_iff_of_nonneg (by positivity) lowO, add_eq_zero_iff_of_nonneg (by positivity) lowS,
        add_eq_zero_iff_of_nonneg lowR lowA, zeroR, zeroA, zeroO]
      simp [and_assoc]

theorem meanCost_eq_zero_iff (together : Together cover cover) :
    cover.meanCost w = 0 ↔ ∀ c ∈ cover.entries, cover.exactCost w c = 0 := by
  have size : ((cover.left.size + cover.right.size : Nat) : ℚ) ≠ 0 := by
    have positive : 0 < cover.left.size := cover.left.node.size_pos
    rw [Nat.cast_ne_zero]
    omega
  rw [meanCost, Recall.exactCosts_recalled together, div_eq_zero_iff, or_iff_left size]
  constructor
  · intro none c hc
    apply List.all_zero_of_le_zero_le_of_sum_eq_zero _ none (List.mem_map_of_mem hc)
    intro x hx
    obtain ⟨d, -, rfl⟩ := List.mem_map.mp hx
    exact (exactCost_zero_or charges cover d).1
  · intro none
    apply List.sum_eq_zero
    intro x hx
    obtain ⟨d, hd, rfl⟩ := List.mem_map.mp hx
    exact none d hd

theorem free_of_exactCost (none : ∀ c ∈ cover.entries, cover.exactCost w c = 0) : cover.Free := by
  rw [free_iff]
  intro c hc
  obtain ⟨m, n, left, right, label, stray, -, order⟩ := (exactCost_zero_or charges cover c).2.mp (none c hc)
  exact ⟨m, n, left, right, label, stray, order⟩

theorem Stepwise.exactCost_eq_zero (h : cover.Stepwise) (hc : c ∈ cover.entries) : cover.exactCost w c = 0 := by
  obtain ⟨m, n, left, right, label, stray, order⟩ := free_iff.mp h.free c hc
  have p : Paired cover cover false m n := ⟨h.root.toCompletes, c, hc, left, right⟩
  have whole : cover.siblingCost w m n = 0 := by
    rw [siblingCost, breakup_eq_zero (h.divergentSiblings_eq_zero p), breakup_eq_zero (h.divergentSiblings_eq_zero p.symm),
      add_zero]
    exact charges.siblingsZero m n
  exact (exactCost_zero_or charges cover c).2.mpr ⟨m, n, left, right, label, stray, whole, order⟩

theorem meanCost_eq_zero_iff_isomorphic (h : Completes cover cover) : cover.meanCost w = 0 ↔ cover.Isomorphic := by
  rw [meanCost_eq_zero_iff charges h.together]
  constructor
  · intro none
    exact (free_iff_isomorphic h).mp (free_of_exactCost charges none)
  · intro iso c hc
    exact Stepwise.exactCost_eq_zero charges (iso.stepwise h) hc

end Costs

/-- A cover of two subtrees without a common node is free exactly if it pairs the nodes at the same positions of two
subtrees with the same labels. It then leaves all groups of siblings whole, and it alone costs nothing. -/
theorem free_iff_pairs_positions (apart : cover.left.Apart cover.right) (overCover : cover.Over)
    (sane : cover.check = .ok ()) :
    (cover.Free ↔ cover.Isomorphic) ∧
    (cover.Isomorphic → ∀ c ∈ cover.entries, ∀ m n, c.left = some m → c.right = some n →
      cover.divergentSiblings m n = 0 ∧ cover.divergentSiblings n m = 0) ∧
    ∀ rename noMatch ancestry siblings ordering : ℚ, 0 < rename → 0 < noMatch → 0 < ancestry → 0 ≤ siblings →
      0 < ordering →
      (cover.meanCost (.linear rename noMatch ancestry siblings ordering) = 0 ↔ cover.Isomorphic) := by
  have h : Completes cover cover := ⟨⟨rfl, rfl, apart, overCover, overCover⟩, sane, List.Subset.refl _⟩
  refine ⟨free_iff_isomorphic h, ?_, ?_⟩
  · intro iso c hc m n left right
    have p : Paired cover cover false m n := ⟨h, c, hc, left, right⟩
    have steps := iso.stepwise h
    exact ⟨steps.divergentSiblings_eq_zero p, steps.divergentSiblings_eq_zero p.symm⟩
  · intro rename noMatch ancestry siblings ordering hrename hnoMatch hancestry hsiblings hordering
    exact meanCost_eq_zero_iff_isomorphic
      (Weights.linear_charges hrename hnoMatch hancestry hsiblings hordering) h

def straight : Candidates :=
  atPlaces (.root (fork 0)) (.root (fork 3)) [(some 0, some 0), (some 1, some 1), (some 2, some 2)]

theorem straight_free : straight.Free := by
  rw [free_iff]
  intro c hc
  rcases hc with _ | ⟨_, _ | ⟨_, _ | ⟨_, ⟨⟩⟩⟩⟩
  all_goals exact ⟨_, _, rfl, rfl, rfl, ⟨rfl, rfl⟩, rfl⟩

theorem free_iff_pairs_positions_forks : straight.Isomorphic ∧ straight.meanCost (.linear 1 1 1 1 1) = 0 ∧
    ¬crossed.Isomorphic ∧ crossed.meanCost (.linear 1 1 1 1 1) ≠ 0 := by
  have apart := crossed_completes.apart
  obtain ⟨freeS, -, costS⟩ := @free_iff_pairs_positions straight apart (atPlaces_over _ _ _) rfl
  obtain ⟨freeC, -, costC⟩ := @free_iff_pairs_positions crossed apart (atPlaces_over _ _ _) rfl
  have iso := freeS.mp straight_free
  have other : ¬crossed.Isomorphic := by
    intro iso
    have ordered := (freeC.mpr iso).inOrder _ (.tail _ (.head _)) _ _ rfl rfl
    cases ordered
  refine ⟨iso, (costS 1 1 1 1 1 one_pos one_pos one_pos zero_le_one one_pos).mpr iso, other, ?_⟩
  intro none
  exact other ((costC 1 1 1 1 1 one_pos one_pos one_pos zero_le_one one_pos).mp none)

end Candidates

end TreeAlign
