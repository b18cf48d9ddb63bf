import TreeAlign.Proofs.Outlines
import TreeAlign.Proofs.Refusal

namespace TreeAlign

theorem totals_aligned_subset (weight : Nat × Nat → Nat) : totals true weight ⊆ totals false weight := by
  rintro _ ⟨cells, nonCrossing, rfl⟩
  exact ⟨cells, NonCrossing.oneToOne nonCrossing, rfl⟩

namespace Outline

/-- The best score of two outlines if the children of the roots are aligned, or paired, and only their own children
follow their flags. -/
def bestAs (ordered : Bool) (left right : Outline) : Nat :=
  heaviest ordered left.children.length right.children.length (scoresOf left.children right.children) +
    ownScore left right

theorem best_eq_bestAs (left right : Outline) : best left right = bestAs (isOrdered left right) left right :=
  best_eq left right

theorem bestAs_aligned_le (left right : Outline) : bestAs true left right ≤ bestAs false left right := by
  have aligned := isGreatest_scoresOf true left.children right.children
  have paired := isGreatest_scoresOf false left.children right.children
  exact Nat.add_le_add_right (paired.2 (totals_aligned_subset _ aligned.1)) _

end Outline

namespace Dispatcher

variable {p : MatchParameters} {left right : Node} {cells : List (List Matchings)}

def RootScore (left right : Node) (score : Nat) (ms : Matchings) : Prop :=
  ∃ m, ms.get? left.id right.id = some m ∧ m.score = score

def rootScore? (left right : Node) : EStateM.Result Failure Dispatcher Matchings → Option Nat
  | .ok ms _ => (ms.get? left.id right.id).map (·.score)
  | .error _ _ => none

theorem weightAt_best (hl : left.Numbered) (hr : right.Numbered) (grid : Grid Best left.children right.children cells) :
    weightAt Answer.score (Answer.table left.children right.children cells) =
      Outline.scoresOf left.outline.children right.outline.children := by
  funext place
  rw [Outline.scoresOf, Tree.children_outline, Tree.children_outline, List.getElem?_map, List.getElem?_map]
  cases ha : left.children[place.1]? with
  | none => exact weightAt_table_outside _ _ _ (.inl ha)
  | some a =>
    cases hb : right.children[place.2]? with
    | none => exact weightAt_table_outside _ _ _ (.inr hb)
    | some b =>
      obtain ⟨ms, best, weight⟩ := grid.weightAt_table ha hb
      have numberedA := hl.child (List.mem_of_getElem? ha)
      have numberedB := hr.child (List.mem_of_getElem? hb)
      rw [weight]
      exact best.unique (Outline.isGreatest_best numberedA numberedB)

theorem rootScore_of_selects {ordered : Bool} {algorithm : Algorithm} {total : Nat} {picked : List Answer}
    (hl : left.Numbered) (hr : right.Numbered) (grid : Grid Best left.children right.children cells)
    (selects : Selects (Selectable ordered) Answer.score (Answer.table left.children right.children cells) total picked) :
    RootScore left right (Outline.bestAs ordered left.outline right.outline)
      (.ofPicked algorithm left right total picked) := by
  obtain ⟨m, root, score⟩ := get?_ofPicked algorithm left right total picked
  have greatest : IsGreatest (totals ordered _) total := selects.isGreatest
  rw [weightAt_best hl hr grid] at greatest
  refine ⟨m, root, ?_⟩
  rw [score, Outline.bestAs, Outline.ownScore_outline, greatest.unique (Outline.isGreatest_scoresOf _ _ _)]

theorem checked_ends {α : Type} {good : α → Prop} {run : Run α} (rest : Ends run good (Refused left right)) :
    Ends (MonadExcept.ofExcept left.checkPlain >>= fun _ => MonadExcept.ofExcept right.checkPlain >>= fun _ => run) good
      (Refused left right) := by
  apply (Ends.ofExcept (fun _ _ => trivial) fun e error => ⟨left, .inl left.self_mem_preorder, error⟩).bind
  intro _ _
  apply (Ends.ofExcept (fun _ _ => trivial) fun e error => ⟨right, .inr right.self_mem_preorder, error⟩).bind
  intro _ _
  exact rest

theorem matchOrdered_ends (hl : left.Numbered) (hr : right.Numbered) (small : Small left right) :
    Ends (matchOrdered p left right) (RootScore left right (Outline.bestAs true left.outline right.outline))
      (Refused left right) := by
  unfold matchOrdered alignChildren
  apply checked_ends
  apply (Ends.of_modify _).bind
  intro _ _
  apply (cells_ends hl hr).bind
  intro cells grid
  exact .of_pure (rootScore_of_selects hl hr (best_of_grid grid small) (Alignment.answers_selects left right cells))

theorem matchUnordered_ends (hl : left.Numbered) (hr : right.Numbered) (small : Small left right) :
    Ends (matchUnordered p left right) (RootScore left right (Outline.bestAs false left.outline right.outline))
      (Refused left right) := by
  unfold matchUnordered
  apply checked_ends
  rw [pairChildren_eq]
  apply (Ends.of_modify _).bind
  intro _ _
  have body : Ends (matchChildren p left.children right.children >>= fun cells =>
      MonadExcept.ofExcept (Pairing.combine left right cells))
      (RootScore left right (Outline.bestAs false left.outline right.outline)) (Refused left right) := by
    apply (cells_ends hl hr).bind
    intro cells grid
    obtain ⟨ms, combined⟩ := combine_returns grid small
    rw [combined]
    apply Ends.of_pure
    rw [Pairing.combine] at combined
    cases solved : Assignment.solve (Pairing.weights (Answer.table left.children right.children cells)) with
    | error fault =>
      rw [solved] at combined
      cases combined
    | ok solution =>
      rw [solved] at combined
      cases combined
      exact rootScore_of_selects hl hr (best_of_grid grid small) (Pairing.selects_of_solve solved)
  -- A node that is not plain is no failure to assign, so it is not caught.
  apply body.tryCatch
  intro failure refused
  rw [if_neg (by rw [refused.isLocal]; exact Bool.false_ne_true)]
  exact fun d => refused

theorem matchNodes_rootScore (hl : left.Numbered) (hr : right.Numbered) (small : Small left right) :
    Ends (matchNodes p left right)
      (RootScore left right (Outline.bestAs (isOrdered left right) left.outline right.outline)) (Refused left right) := by
  apply (matchNodes_ends hl hr).imp _ fun _ refused => refused
  intro ms matched
  obtain ⟨m, -, -, root⟩ := matched.1.exists_root
  have best := matched.2 small
  rw [Best, Matchings.scoreOf, root] at best
  refine ⟨m, root, ?_⟩
  rw [← Outline.isOrdered_outline, ← Outline.best_eq_bestAs]
  exact best.unique (Outline.isGreatest_best hl hr)

theorem Fits.rootScore?_eq {run : Run Matchings} {score : Nat} (fits : Fits left right)
    (ends : Ends run (RootScore left right score) (Refused left right)) (d : Dispatcher) :
    rootScore? left right (run d) = some score := by
  obtain ⟨ms, d', ok, m, root, same⟩ :=
    (ends.imp (fun _ scored => scored) fun _ refused => fits.not_refused refused).returns d
  rw [ok, rootScore?, root, Option.map_some, same]

/-- Forcing the order of the children gains no score, and forcing them to be paired loses none: from any states,
matching as the flags say scores between the two, and as much as the one that the flags ask for. -/
theorem matchNodes_between_forced (hl : left.Numbered) (hr : right.Numbered) (fits : Fits left right) :
    ∃ aligned between paired : Nat, aligned ≤ between ∧ between ≤ paired ∧
      between = (if isOrdered left right then aligned else paired) ∧ ∀ (p : MatchParameters) (d : Dispatcher),
        rootScore? left right (matchOrdered p left right d) = some aligned ∧
        rootScore? left right (matchNodes p left right d) = some between ∧
        rootScore? left right (matchUnordered p left right d) = some paired := by
  have gains := Outline.bestAs_aligned_le left.outline right.outline
  refine ⟨Outline.bestAs true left.outline right.outline,
    Outline.bestAs (isOrdered left right) left.outline right.outline,
    Outline.bestAs false left.outline right.outline, ?_, ?_, ?_, fun p d => ⟨?_, ?_, ?_⟩⟩
  · cases isOrdered left right with
    | true => exact Nat.le_refl _
    | false => exact gains
  · cases isOrdered left right with
    | true => exact gains
    | false => exact Nat.le_refl _
  · cases isOrdered left right <;> rfl
  · exact fits.rootScore?_eq (matchOrdered_ends hl hr fits.small) d
  · exact fits.rootScore?_eq (matchNodes_rootScore hl hr fits.small) d
  · exact fits.rootScore?_eq (matchUnordered_ends hl hr fits.small) d

theorem matchNodes_between_forced_names :
    rootScore? (names 0 "x" "y") (names 3 "y" "x") (matchOrdered {} (names 0 "x" "y") (names 3 "y" "x") {}) = some 2 ∧
    ∃ between ≤ 3, 2 ≤ between ∧ ∀ p d,
      rootScore? (names 0 "x" "y") (names 3 "y" "x") (matchNodes p (names 0 "x" "y") (names 3 "y" "x") d) =
        some between := by
  obtain ⟨aligned, between, paired, above, below, -, runs⟩ :=
    matchNodes_between_forced (names_numbered 0 "x" "y") (names_numbered 3 "y" "x") names_fits
  obtain ⟨run, -, run'⟩ := runs {} {}
  have two : rootScore? (names 0 "x" "y") (names 3 "y" "x")
      (matchOrdered {} (names 0 "x" "y") (names 3 "y" "x") {}) = some 2 := by decide +kernel
  have three : rootScore? (names 0 "x" "y") (names 3 "y" "x")
      (matchUnordered {} (names 0 "x" "y") (names 3 "y" "x") {}) = some 3 := by decide +kernel
  rw [two, Option.some_inj] at run
  rw [three, Option.some_inj] at run'
  subst run run'
  exact ⟨two, between, below, above, fun p d => (runs p d).2.1⟩

end Dispatcher

end TreeAlign
