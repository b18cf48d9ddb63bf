import TreeAlign.Proofs.Coverage
import TreeAlign.Proofs.Dispatch

namespace TreeAlign

namespace Mapping

variable {left right a b : Node} {mapping : Mapping}

def under (mapping : Mapping) (a b : Node) : Mapping :=
  mapping.filter fun p => p.1 ∈ a.children.map Tree.id ∧ p.2 ∈ b.children.map Tree.id

def idsAt (a b : Node) (place : Nat × Nat) : NodeId × NodeId :=
  ((a.children.map Tree.id).getD place.1 a.id, (b.children.map Tree.id).getD place.2 b.id)

theorem idsAt_eq {place : Nat × Nat} {c d : Node} (hc : a.children[place.1]? = some c)
    (hd : b.children[place.2]? = some d) : idsAt a b place = (c.id, d.id) := by
  simp [idsAt, List.getD, hc, hd]

theorem sum_places (ha : a.Numbered) (hb : b.Numbered) (score : NodeId × NodeId → Nat) :
    ∑ place ∈ mapping.places a b, score (idsAt a b place) = ∑ p ∈ mapping.under a b, score p := by
  refine Finset.sum_nbij (idsAt a b) ?_ ?_ ?_ fun _ _ => rfl
  · intro place used
    obtain ⟨c, d, hc, hd, pair⟩ := mem_places.mp used
    rw [idsAt_eq hc hd]
    exact Finset.mem_filter.mpr ⟨pair, List.mem_map_of_mem (List.mem_of_getElem? hc),
      List.mem_map_of_mem (List.mem_of_getElem? hd)⟩
  · intro place used other used' same
    obtain ⟨c, d, hc, hd, -⟩ := mem_places.mp used
    obtain ⟨c', d', hc', hd', -⟩ := mem_places.mp used'
    rw [idsAt_eq hc hd, idsAt_eq hc' hd', Prod.mk.injEq] at same
    exact Prod.ext (ha.children_disjoint hc hc' c.containsId_self (same.1 ▸ c'.containsId_self))
      (hb.children_disjoint hd hd' d.containsId_self (same.2 ▸ d'.containsId_self))
  · intro p member
    obtain ⟨pair, inA, inB⟩ := Finset.mem_filter.mp member
    obtain ⟨c, hc, left_eq⟩ := List.mem_map.mp inA
    obtain ⟨d, hd, right_eq⟩ := List.mem_map.mp inB
    obtain ⟨i, hi⟩ := List.mem_iff_getElem?.mp hc
    obtain ⟨j, hj⟩ := List.mem_iff_getElem?.mp hd
    have same : (c.id, d.id) = p := Prod.ext left_eq right_eq
    refine ⟨(i, j), mem_places.mpr ⟨c, d, hi, hj, same ▸ pair⟩, ?_⟩
    rw [idsAt_eq hi hj, same]

theorem below_below (ha : a.Numbered) {c : Node} (hc : c ∈ a.children) :
    (mapping.below a).below c = mapping.below c := by
  ext p
  rw [mem_below, mem_below, mem_below, and_assoc, and_congr_right_iff]
  exact fun _ => ⟨And.right, fun inside => ⟨ha.containsId_trans (Tree.child_mem_preorder hc) inside, inside⟩⟩

theorem places_below (ha : a.Numbered) : (mapping.below a).places a b = mapping.places a b := by
  ext place
  rw [mem_places, mem_places]
  constructor
  · rintro ⟨c, d, hc, hd, pair⟩
    exact ⟨c, d, hc, hd, (mem_below.mp pair).1⟩
  · rintro ⟨c, d, hc, hd, pair⟩
    exact ⟨c, d, hc, hd, mem_below.mpr ⟨pair, ha.containsId_of_mem
      (Tree.child_mem_preorder (List.mem_of_getElem? hc))⟩⟩

/-- Scores that add up from the children of the pairs count the labels that agree. -/
theorem Admissible.score_eq (h : Admissible left right mapping) (hl : left.Numbered) (hr : right.Numbered)
    (score : NodeId × NodeId → Nat) (adds : ∀ a ∈ left.preorder, ∀ b ∈ right.preorder, (a.id, b.id) ∈ mapping →
      score (a.id, b.id) = ∑ p ∈ mapping.under a b, score p + a.ownScore b)
    (ha : a ∈ left.preorder) (hb : b ∈ right.preorder) (pair : (a.id, b.id) ∈ mapping) :
    score (a.id, b.id) = agreement a b (mapping.below a) := by
  induction a using Tree.childInduction generalizing b with
  | step a ih =>
    have numberedA := hl.below ha
    have numberedB := hr.below hb
    rw [adds a ha b hb pair, (h.below hl hr ha hb pair).agreement_eq numberedA numberedB, places_below numberedA,
      ← sum_places numberedA numberedB]
    congr 1
    apply Finset.sum_congr rfl
    intro place used
    obtain ⟨c, d, hc, hd, pair'⟩ := mem_places.mp used
    have childC := List.mem_of_getElem? hc
    have childD := List.mem_of_getElem? hd
    rw [idsAt_eq hc hd, agreementAt, hc, hd, partAt, hc]
    simp only [below_below numberedA childC]
    exact ih c childC (Tree.mem_preorder_trans (Tree.child_mem_preorder childC) ha)
      (Tree.mem_preorder_trans (Tree.child_mem_preorder childD) hb) pair'

end Mapping

namespace Tally

variable {ms : Matchings} {a b : Node} {m : Matching}

theorem nodes_eq {left right x y : Node} (h : Tally ms a b m) (hl : left.Numbered) (hr : right.Numbered)
    (ha : a ∈ left.preorder) (hb : b ∈ right.preorder) (hx : x ∈ left.preorder) (hy : y ∈ right.preorder)
    (pair : m.pair = (x.id, y.id)) : a = x ∧ b = y := by
  have same := h.pair.symm.trans pair
  rw [Prod.mk.injEq] at same
  exact ⟨hl.eq_of_id_eq ha hx same.1, hr.eq_of_id_eq hb hy same.2⟩

theorem nodup_children (h : Tally ms a b m) (ha : a.Numbered) : (m.children.map Matching.pair).Nodup := by
  refine List.Nodup.of_map Prod.fst ?_
  rw [List.map_map]
  exact ha.nodup_children.sublist h.order

theorem mem_under (h : Tally ms a b m) {p : NodeId × NodeId} :
    p ∈ m.children.map Matching.pair ↔ p ∈ ms.mapping.under a b := by
  rw [List.mem_map, Mapping.under, Finset.mem_filter, Matchings.mem_mapping]
  constructor
  · rintro ⟨c, child, rfl⟩
    obtain ⟨n, member, under, rfl⟩ := (h.children c).mp child
    exact ⟨⟨n, member, rfl⟩, under⟩
  · rintro ⟨⟨n, member, rfl⟩, under⟩
    exact ⟨n.shallow, (h.children _).mpr ⟨n, member, under, rfl⟩, rfl⟩

theorem sum_children (h : Tally ms a b m) (distinct : ms.Distinct) (ha : a.Numbered) :
    (m.children.map Matching.score).sum = ∑ p ∈ ms.mapping.under a b, ms.scoreOf p.1 p.2 := by
  have scores : m.children.map Matching.score = (m.children.map Matching.pair).map fun p => ms.scoreOf p.1 p.2 := by
    rw [List.map_map]
    apply List.map_congr_left
    intro c child
    obtain ⟨n, member, -, rfl⟩ := (h.children c).mp child
    have found : ms.get? n.left n.right = some n := distinct.get? member rfl
    simp [Matchings.scoreOf, Matching.pair, Matching.shallow, found]
  have same : (m.children.map Matching.pair).toFinset = ms.mapping.under a b := by
    ext p
    rw [List.mem_toFinset, h.mem_under]
  rw [scores, ← same, List.sum_toFinset _ (h.nodup_children ha)]

end Tally

namespace Found

variable {left right a b : Node} {ms : Matchings} {m : Matching}

theorem pair_mem (tally : Tally ms a b m) (member : m ∈ ms.entries) : (a.id, b.id) ∈ ms.mapping :=
  Matchings.mem_mapping.mpr ⟨m, member, tally.pair⟩

section Below

variable (hl : left.Numbered) (hr : right.Numbered) (ha : a ∈ left.preorder) (hb : b ∈ right.preorder)
  (tally : Tally ms a b m) (member : m ∈ ms.entries)

include hl hr ha hb tally member

theorem agreement_eq_countP (h : Found left right ms) :
    Mapping.agreement a b (ms.mapping.below a) =
      ms.entries.countP fun n => a.containsId n.left && decide (left.labelAt n.left = right.labelAt n.right) := by
  have pair := pair_mem tally member
  have filtered : ((ms.mapping.below a).filter fun p => a.labelAt p.1 = b.labelAt p.2) =
      ((ms.entries.map Matching.pair).filter fun p =>
        a.containsId p.1 && decide (left.labelAt p.1 = right.labelAt p.2)).toFinset := by
    ext p
    rw [Finset.mem_filter, Mapping.mem_below, List.mem_toFinset, List.mem_filter, Bool.and_eq_true, decide_eq_true_eq,
      Matchings.mapping, List.mem_toFinset, and_assoc, and_congr_right_iff]
    intro mapped
    rw [and_congr_right_iff]
    intro inside
    have inside' := (h.admissible.containsId_iff hl hr ha hb pair p (List.mem_toFinset.mpr mapped)).mp inside
    rw [Tree.labelAt_below hl ha inside, Tree.labelAt_below hr hb inside']
  rw [Mapping.agreement, filtered, List.toFinset_card_of_nodup (h.distinct.filter _), List.filter_map, List.length_map,
    ← List.countP_eq_length_filter]
  rfl

theorem countP_left_eq_right (h : Found left right ms) :
    (ms.entries.countP fun n => a.containsId n.left && decide (left.labelAt n.left = right.labelAt n.right)) =
      ms.entries.countP fun n => b.containsId n.right && decide (left.labelAt n.left = right.labelAt n.right) := by
  apply List.countP_congr
  intro n hn
  have same := h.admissible.containsId_iff hl hr ha hb (pair_mem tally member) n.pair
    (Matchings.mem_mapping.mpr ⟨n, hn, rfl⟩)
  rw [Bool.and_eq_true, Bool.and_eq_true, and_congr_left_iff]
  exact fun _ => same

end Below

end Found

namespace Dispatcher

variable {p : MatchParameters} {left right a b : Node} {ms : Matchings} {m : Matching}

section AddsUp

variable (hl : left.Numbered) (hr : right.Numbered) (found : Found left right ms) (best : Best left right ms)

include hl hr found best

theorem ownScore_eq_zero (zero : ms.scoreOf left.id right.id = 0) : left.ownScore right = 0 := by
  have counted := found.admissible.agreement_eq hl hr
  have bound := best.2 ⟨_, found.admissible, rfl⟩
  rw [zero] at bound
  omega

theorem adds_up (ha : a ∈ left.preorder) (hb : b ∈ right.preorder) (tally : Tally ms a b m)
    (member : m ∈ ms.entries) : m.score = (m.children.map Matching.score).sum + a.ownScore b := by
  rcases tally.score with zero | adds
  · -- The entry is the only one, so it is that of the roots, and their labels differ.
    have alone := found.alone m member zero
    have root : m.pair = (left.id, right.id) := by
      by_contra other
      exact absurd zero (Nat.ne_of_gt (found.positive member other))
    obtain ⟨rfl, rfl⟩ := tally.nodes_eq hl hr ha hb left.self_mem_preorder right.self_mem_preorder root
    have childless : m.children = [] := by
      rw [List.eq_nil_iff_forall_not_mem]
      intro c child
      obtain ⟨n, hn, under, -⟩ := (tally.children c).mp child
      rw [alone, List.mem_singleton] at hn
      obtain ⟨x, hx, left_eq⟩ := List.mem_map.mp under.1
      have top : x.id = a.id := by rw [left_eq, hn]; exact congrArg Prod.fst tally.pair
      exact hl.ne_of_child a.self_mem_preorder hx top
    have score : ms.scoreOf a.id b.id = 0 := by
      rw [Matchings.scoreOf, found.distinct.get? member root]
      exact zero
    rw [zero, childless, ownScore_eq_zero hl hr found best score]
    rfl
  · exact adds

theorem score_eq_agreement (ha : a ∈ left.preorder) (hb : b ∈ right.preorder) (tally : Tally ms a b m)
    (member : m ∈ ms.entries) : m.score = Mapping.agreement a b (ms.mapping.below a) := by
  have scoreOf {x y : Node} {n : Matching} (hn : n ∈ ms.entries) (pair : n.pair = (x.id, y.id)) :
      ms.scoreOf x.id y.id = n.score := by
    rw [Matchings.scoreOf, found.distinct.get? hn pair]
  rw [← scoreOf member tally.pair]
  refine found.admissible.score_eq hl hr (fun p => ms.scoreOf p.1 p.2) ?_ ha hb (Found.pair_mem tally member)
  intro x hx y hy mapped
  obtain ⟨n, hn, pair⟩ := Matchings.mem_mapping.mp mapped
  obtain ⟨x', hx', y', hy', tally'⟩ := found.tally n hn
  obtain ⟨rfl, rfl⟩ := tally'.nodes_eq hl hr hx' hy' hx hy pair
  have added := adds_up hl hr found best hx' hy' tally' hn
  rwa [tally'.sum_children found.distinct (hl.below hx'), ← scoreOf hn pair] at added

end AddsUp

theorem Small.below (small : Small left right) (ha : a ∈ left.preorder) (hb : b ∈ right.preorder) :
    a.size < 2 ^ 31 ∧ b.size < 2 ^ 31 :=
  ⟨Nat.lt_of_le_of_lt (Tree.size_le_of_mem ha) small.left, Nat.lt_of_le_of_lt (Tree.size_le_of_mem hb) small.right⟩

/-- The score of an entry is the number of entries in the subtree of its left node whose labels are the same, and
just as well of those in the subtree of its right node. Its children are copies of the entries for pairs of children,
in the order of the left ones, and their scores add up to its own. No score exceeds the size of a subtree. -/
theorem matchNodes_scores (hl : left.Numbered) (hr : right.Numbered) (small : Small left right) {d d' : Dispatcher}
    (ok : matchNodes p left right d = .ok ms d') :
    ∀ m ∈ ms.entries, ∃ a ∈ left.preorder, ∃ b ∈ right.preorder, m.pair = (a.id, b.id) ∧
      m.score = (ms.entries.countP fun n =>
        a.containsId n.left && decide (left.labelAt n.left = right.labelAt n.right)) ∧
      m.score = (ms.entries.countP fun n =>
        b.containsId n.right && decide (left.labelAt n.left = right.labelAt n.right)) ∧
      (m.children.map Matching.left).Sublist (a.children.map Tree.id) ∧
      (∀ c, c ∈ m.children ↔ ∃ n ∈ ms.entries, n.Under a b ∧ n.shallow = c) ∧
      m.score = (m.children.map Matching.score).sum + a.ownScore b ∧
      m.score ≤ min a.size b.size ∧ m.coverage a.size b.size ≤ 1.0 := by
  obtain ⟨found, best⟩ := (matchNodes_ends hl hr).of_ok ok
  intro m member
  obtain ⟨a, ha, b, hb, tally⟩ := found.tally m member
  have pair := Found.pair_mem tally member
  have score := score_eq_agreement hl hr found (best small) ha hb tally member
  have counted := score.trans (found.agreement_eq_countP hl hr ha hb tally member)
  have below := found.admissible.below hl hr ha hb pair
  have bound : m.score ≤ min a.size b.size := by
    rw [score]
    exact Nat.le_min.mpr ⟨below.agreement_le, below.agreement_le_right⟩
  have covered : m.coverage a.size b.size ≤ 1.0 := by
    have sizes := small.below ha hb
    apply Matching.coverage_le_one <;> omega
  exact ⟨a, ha, b, hb, tally.pair, counted,
    counted.trans (found.countP_left_eq_right hl hr ha hb tally member), tally.order, tally.children,
    adds_up hl hr found (best small) ha hb tally member, bound, covered⟩

theorem matchNodes_scores_names : ∃ ms d', matchNodes {} (names 0 "x" "y") (names 3 "y" "x") {} = .ok ms d' ∧
    ∀ m ∈ ms.entries, ∃ a ∈ (names 0 "x" "y").preorder, ∃ b ∈ (names 3 "y" "x").preorder, m.pair = (a.id, b.id) ∧
      m.score = ms.entries.countP fun n => a.containsId n.left &&
        decide ((names 0 "x" "y").labelAt n.left = (names 3 "y" "x").labelAt n.right) := by
  obtain ⟨ms, d', ok, -⟩ := matchNodes_returns (names_numbered 0 "x" "y") (names_numbered 3 "y" "x") names_fits {} {}
  refine ⟨ms, d', ok, fun m member => ?_⟩
  obtain ⟨a, ha, b, hb, pair, score, -⟩ :=
    matchNodes_scores (names_numbered 0 "x" "y") (names_numbered 3 "y" "x") names_fits.small ok m member
  exact ⟨a, ha, b, hb, pair, score⟩

end Dispatcher

end TreeAlign
