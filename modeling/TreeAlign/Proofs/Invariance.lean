import Mathlib.Logic.Relation
import TreeAlign.Proofs.Outlines

namespace TreeAlign

section Totals

variable {ordered : Bool} {weight weight' : Nat × Nat → Nat}

/-- Cells moved to other places where they weigh the same. -/
theorem totals_subset {move : Nat × Nat → Nat × Nat} (injective : Function.Injective move)
    (keeps : ∀ cells, Selectable ordered cells → Selectable ordered (cells.map ⟨move, injective⟩))
    (same : ∀ p, weight p = weight' (move p)) : totals ordered weight ⊆ totals ordered weight' := by
  rintro _ ⟨cells, selectable, rfl⟩
  refine ⟨cells.map ⟨move, injective⟩, keeps cells selectable, ?_⟩
  rw [Finset.sum_map]
  exact Finset.sum_congr rfl fun p _ => same p

theorem Selectable.swap {cells : Finset (Nat × Nat)} (h : Selectable ordered cells) :
    Selectable ordered (cells.map ⟨Prod.swap, Prod.swap_injective⟩) := by
  cases ordered
  all_goals
    intro p' hp' q' hq'
    obtain ⟨p, hp, rfl⟩ := Finset.mem_map.mp hp'
    obtain ⟨q, hq, rfl⟩ := Finset.mem_map.mp hq'
    exact (h p hp q hq).symm

theorem OneToOne.map_rows {cells : Finset (Nat × Nat)} (h : OneToOne cells) {rows : Nat → Nat}
    (injective : Function.Injective rows) (move : Function.Injective fun p : Nat × Nat => (rows p.1, p.2)) :
    OneToOne (cells.map ⟨_, move⟩) := by
  intro p' hp' q' hq'
  obtain ⟨p, hp, rfl⟩ := Finset.mem_map.mp hp'
  obtain ⟨q, hq, rfl⟩ := Finset.mem_map.mp hq'
  change rows p.1 = rows q.1 ↔ p.2 = q.2
  rw [injective.eq_iff]
  exact h p hp q hq

end Totals

theorem exists_places_of_perm {α : Type} {xs ys : List α} (perm : xs.Perm ys) :
    ∃ place : Nat → Nat, Function.Injective place ∧ ∀ i, ys[i]? = xs[place i]? := by
  induction perm with
  | nil => exact ⟨id, Function.injective_id, fun i => rfl⟩
  | cons x _ ih =>
    obtain ⟨place, injective, same⟩ := ih
    refine ⟨fun i => if i = 0 then 0 else place (i - 1) + 1, fun i j => ?_, fun i => ?_⟩
    · rcases i with _ | i <;> rcases j with _ | j <;> simp [injective.eq_iff]
    · rcases i with _ | i
      · rfl
      · exact same i
  | swap x y xs =>
    refine ⟨fun i => if i = 0 then 1 else if i = 1 then 0 else i, fun i j => ?_, fun i => ?_⟩
    · rcases i with _ | _ | i <;> rcases j with _ | _ | j <;> simp
    · rcases i with _ | _ | i <;> rfl
  | trans _ _ ih ih' =>
    obtain ⟨first, injective, same⟩ := ih
    obtain ⟨second, injective', same'⟩ := ih'
    exact ⟨first ∘ second, injective.comp injective', fun i => by rw [same' i, same]; rfl⟩

namespace Tree

universe u

variable {α : Type u} {t t' : Tree α}

/-- The children of one node stand in another order. -/
inductive Reorder : Tree α → Tree α → Prop
  | here {value : α} {children others : List (Tree α)} (perm : children.Perm others) :
    Reorder (.node value children) (.node value others)
  | inside {value : α} {before after : List (Tree α)} {child other : Tree α} (inner : Reorder child other) :
    Reorder (.node value (before ++ child :: after)) (.node value (before ++ other :: after))

def Reordered : Tree α → Tree α → Prop :=
  Relation.ReflTransGen Reorder

def values (t : Tree α) : List α :=
  t.preorder.map value

theorem values_node (value : α) (children : List (Tree α)) :
    (node value children).values = value :: children.flatMap values := by
  rw [values, preorder_eq, List.map_cons, List.map_flatMap]
  rfl

theorem Reorder.value_eq (h : Reorder t t') : t.value = t'.value := by
  cases h <;> rfl

theorem Reorder.values_perm (h : Reorder t t') : t.values.Perm t'.values := by
  induction h with
  | here perm =>
    rw [values_node, values_node]
    exact (perm.flatMap_right _).cons _
  | inside inner ih =>
    simp only [values_node, List.flatMap_append, List.flatMap_cons]
    exact ((ih.append_right _).append_left _).cons _

theorem Reordered.values_perm (h : Reordered t t') : t.values.Perm t'.values := by
  induction h with
  | refl => exact .refl _
  | tail _ step ih => exact ih.trans step.values_perm

theorem values_outline (t : Node) : t.outline.values = t.preorder.map content := by
  induction t using childInduction with
  | step t ih =>
    obtain ⟨value, children⟩ := t
    calc values (outline (node value children))
        = value.2 :: (children.map outline).flatMap values := by
          rw [outline, map, maps_eq_map, values_node]
          rfl
      _ = value.2 :: children.flatMap fun c => c.preorder.map content := by
          rw [List.flatMap_map]
          exact congrArg (_ :: ·) (List.flatMap_congr ih)
      _ = (node value children).preorder.map content := by
          rw [preorder_eq, List.map_cons, List.map_flatMap]
          rfl

end Tree

namespace Outline

variable {left right : Outline}

/-- No place of a node matters. -/
def Unordered (t : Outline) : Prop :=
  ∀ content ∈ t.values, content.ordered = false

theorem Unordered.child {t c : Outline} (h : t.Unordered) (child : c ∈ t.children) : c.Unordered := by
  obtain ⟨value, children⟩ := t
  intro content member
  apply h
  rw [Tree.values_node]
  exact List.mem_cons_of_mem _ (List.mem_flatMap.mpr ⟨c, child, member⟩)

theorem Unordered.isOrdered (hl : left.Unordered) (hr : right.Unordered) : isOrdered left right = false := by
  have flag {t c : Outline} (h : t.Unordered) (child : c ∈ t.children) : c.value.ordered = false :=
    h.child child c.value (List.mem_map_of_mem c.self_mem_preorder)
  simp only [Outline.isOrdered, Bool.or_eq_false_iff, List.any_eq_false, Bool.not_eq_true]
  exact ⟨fun c child => flag hl child, fun c child => flag hr child⟩

theorem best_comm (left right : Outline) : best left right = best right left := by
  induction left using Tree.childInduction generalizing right with
  | step left ih =>
    have swapped (p : Nat × Nat) :
        scoresOf left.children right.children p = scoresOf right.children left.children p.swap := by
      simp only [scoresOf, Prod.fst_swap, Prod.snd_swap]
      cases hl : left.children[p.1]? <;> cases right.children[p.2]?
      case some.some l r => exact ih l (List.mem_of_getElem? hl) r
      all_goals rfl
    have flags : isOrdered left right = isOrdered right left := Bool.or_comm _ _
    have own : ownScore left right = ownScore right left := by
      simp only [ownScore, eq_comm]
    have same : totals (isOrdered right left) (scoresOf left.children right.children) =
        totals (isOrdered right left) (scoresOf right.children left.children) := by
      apply Set.Subset.antisymm
      · exact totals_subset Prod.swap_injective (fun _ => Selectable.swap) swapped
      · exact totals_subset Prod.swap_injective (fun _ => Selectable.swap) fun p => by rw [swapped, Prod.swap_swap]
    have greatest := isGreatest_scoresOf (isOrdered right left) left.children right.children
    rw [same] at greatest
    rw [best_eq left, best_eq right, flags, own, greatest.unique (isGreatest_scoresOf _ _ _)]

theorem totals_subset_of_perm {ls ls' : List Outline} (perm : ls.Perm ls') (rs : List Outline) :
    totals false (scoresOf ls' rs) ⊆ totals false (scoresOf ls rs) := by
  obtain ⟨place, injective, same⟩ := exists_places_of_perm perm
  have move : Function.Injective fun p : Nat × Nat => (place p.1, p.2) :=
    fun p q eq => Prod.ext (injective (Prod.mk.inj eq).1) (Prod.mk.inj eq).2
  exact totals_subset move (fun _ single => OneToOne.map_rows single injective move) fun p => by
    simp only [scoresOf, same]

theorem best_eq_of_perm {value : Content} {children others : List Outline} (perm : children.Perm others)
    (hl : Unordered (.node value children)) (hr : right.Unordered) :
    best (.node value children) right = best (.node value others) right := by
  have stays : Unordered (.node value others) := by
    intro content member
    exact hl content ((Tree.Reorder.here perm).values_perm.mem_iff.mpr member)
  have same : totals false (scoresOf children right.children) = totals false (scoresOf others right.children) :=
    (totals_subset_of_perm perm.symm _).antisymm (totals_subset_of_perm perm _)
  have greatest := isGreatest_scoresOf false children right.children
  rw [same] at greatest
  rw [best_eq, best_eq, hl.isOrdered hr, stays.isOrdered hr]
  exact congrArg (· + _) (greatest.unique (isGreatest_scoresOf _ _ _))

theorem best_eq_of_child {value : Content} {before after : List Outline} {child other : Outline}
    (flag : child.value = other.value) (same : ∀ r ∈ right.children, best child r = best other r) :
    best (.node value (before ++ child :: after)) right = best (.node value (before ++ other :: after)) right := by
  have flags : isOrdered (.node value (before ++ child :: after)) right =
      isOrdered (.node value (before ++ other :: after)) right := by
    simp [isOrdered, Tree.children, flag]
  have rows : bestRows (before ++ child :: after) right.children =
      bestRows (before ++ other :: after) right.children := by
    simp only [bestRows_eq, List.map_append, List.map_cons, List.map_congr_left same]
  rw [best, best, flags, rows, List.length_append, List.length_append, List.length_cons, List.length_cons]
  rfl

theorem best_eq_of_reorder {other : Outline} (h : Tree.Reorder left other) (hl : left.Unordered)
    (hr : right.Unordered) : best left right = best other right := by
  induction h generalizing right with
  | here perm => exact best_eq_of_perm perm hl hr
  | inside inner ih =>
    have child := hl.child (List.mem_append_right _ List.mem_cons_self)
    exact best_eq_of_child inner.value_eq fun r member => ih child (hr.child member)

theorem Unordered.reordered {other : Outline} (hl : left.Unordered) (h : Tree.Reordered left other) :
    other.Unordered :=
  fun content member => hl content (h.values_perm.mem_iff.mpr member)

theorem best_eq_of_reordered {other : Outline} (h : Tree.Reordered left other) (hl : left.Unordered)
    (hr : right.Unordered) : best left right = best other right := by
  induction h with
  | refl => rfl
  | tail first step ih => exact ih.trans (best_eq_of_reorder step (hl.reordered first) hr)

end Outline

namespace Dispatcher

variable {left right left' right' : Node}

def Scores (p : MatchParameters) (d : Dispatcher) (left right : Node) (score : Nat) : Prop :=
  ∃ ms d' m, matchNodes p left right d = .ok ms d' ∧ ms.get? left.id right.id = some m ∧ m.score = score

theorem scores_best (hl : left.Numbered) (hr : right.Numbered) (fits : Fits left right) (p : MatchParameters)
    (d : Dispatcher) : Scores p d left right (Outline.best left.outline right.outline) := by
  obtain ⟨ms, d', ok, found, best⟩ := matchNodes_returns hl hr fits p d
  obtain ⟨m, -, -, root⟩ := found.exists_root
  rw [Best, Matchings.scoreOf, root] at best
  exact ⟨ms, d', m, ok, root, best.unique (Outline.isGreatest_best hl hr)⟩

theorem Fits.swap (fits : Fits left right) : Fits right left :=
  ⟨fits.plainRight, fits.plainLeft, fits.smallRight, fits.smallLeft⟩

theorem Fits.of_reordered (fits : Fits left right) (l : Tree.Reordered left.outline left'.outline)
    (r : Tree.Reordered right.outline right'.outline) : Fits left' right' := by
  have plain {t t' : Node} (same : Tree.Reordered t.outline t'.outline)
      (h : ∀ x ∈ t.preorder, Tree.marker x = .plain) : ∀ x ∈ t'.preorder, Tree.marker x = .plain := by
    intro x member
    have perm := same.values_perm
    rw [Tree.values_outline, Tree.values_outline] at perm
    obtain ⟨y, before, content⟩ := List.mem_map.mp (perm.mem_iff.mpr (List.mem_map_of_mem member))
    rw [Tree.marker, ← content]
    exact h y before
  have size {t t' : Node} (same : Tree.Reordered t.outline t'.outline) : t'.size = t.size := by
    have length := same.values_perm.length_eq
    rw [Tree.values_outline, Tree.values_outline, List.length_map, List.length_map, Tree.length_preorder,
      Tree.length_preorder] at length
    exact length.symm
  exact ⟨plain l fits.plainLeft, plain r fits.plainRight, size l ▸ fits.smallLeft, size r ▸ fits.smallRight⟩

theorem unordered_outline {t : Node} (h : ∀ x ∈ t.preorder, Tree.isOrdered x = false) : t.outline.Unordered := by
  intro content member
  rw [Tree.values_outline] at member
  obtain ⟨x, below, rfl⟩ := List.mem_map.mp member
  exact h x below

/-- Two trees have one score, whatever the parameters and whatever is remembered. They have it in either order,
and, where no place matters, however the children of their nodes are ordered. -/
theorem matchNodes_score_invariant (hl : left.Numbered) (hr : right.Numbered) (fits : Fits left right) :
    ∃ score, (∀ p d, Scores p d left right score) ∧ (∀ p d, Scores p d right left score) ∧
      ((∀ x ∈ left.preorder, Tree.isOrdered x = false) → (∀ x ∈ right.preorder, Tree.isOrdered x = false) →
        ∀ left' right', Tree.Numbered left' → Tree.Numbered right' →
          Tree.Reordered left.outline left'.outline → Tree.Reordered right.outline right'.outline →
          ∀ p d, Scores p d left' right' score) := by
  refine ⟨Outline.best left.outline right.outline, scores_best hl hr fits, ?_, ?_⟩
  · rw [Outline.best_comm]
    exact scores_best hr hl fits.swap
  · intro flagsL flagsR left' right' hl' hr' l r
    have unorderedL := unordered_outline flagsL
    have unorderedR := unordered_outline flagsR
    have same : Outline.best left.outline right.outline = Outline.best left'.outline right'.outline := by
      rw [Outline.best_eq_of_reordered l unorderedL unorderedR, Outline.best_comm,
        Outline.best_eq_of_reordered r unorderedR (unorderedL.reordered l), Outline.best_comm]
    rw [same]
    exact scores_best hl' hr' (fits.of_reordered l r)

theorem matchNodes_score_invariant_names : ∃ score,
    (∀ p d, Scores p d (names 0 "x" "y") (names 3 "y" "z") score) ∧
    (∀ p d, Scores p d (names 3 "y" "z") (names 0 "x" "y") score) ∧
    ∀ p d, Scores p d (names 0 "y" "x") (names 3 "z" "y") score := by
  have fits : Fits (names 0 "x" "y") (names 3 "y" "z") := ⟨by decide, by decide, by decide, by decide⟩
  have turned (first : NodeId) (one two : String) :
      Tree.Reordered (names first one two).outline (names first two one).outline := .single (.here (.swap _ _ _))
  obtain ⟨score, run, swapped, reordered⟩ :=
    matchNodes_score_invariant (names_numbered 0 "x" "y") (names_numbered 3 "y" "z") fits
  exact ⟨score, run, swapped, reordered (by decide) (by decide) _ _ (names_numbered 0 "y" "x")
    (names_numbered 3 "z" "y") (turned 0 "x" "y") (turned 3 "y" "z")⟩

end Dispatcher

end TreeAlign
