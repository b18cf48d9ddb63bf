import Mathlib
import TreeAlign.Proofs.Dispatch

namespace TreeAlign

instance (cells : Finset (Nat × Nat)) : Decidable (OneToOne cells) :=
  inferInstanceAs (Decidable (∀ p ∈ cells, ∀ q ∈ cells, p.1 = q.1 ↔ p.2 = q.2))

instance (cells : Finset (Nat × Nat)) : Decidable (NonCrossing cells) :=
  inferInstanceAs (Decidable (∀ p ∈ cells, ∀ q ∈ cells, p.1 < q.1 ↔ p.2 < q.2))

instance (ordered : Bool) (cells : Finset (Nat × Nat)) : Decidable (Selectable ordered cells) :=
  inferInstanceAs (Decidable (if ordered then NonCrossing cells else OneToOne cells))

def totals (ordered : Bool) (weight : Nat × Nat → Nat) : Set Nat :=
  {w | ∃ cells, Selectable ordered cells ∧ w = ∑ p ∈ cells, weight p}

def heaviest (ordered : Bool) (rows columns : Nat) (weight : Nat × Nat → Nat) : Nat :=
  ((Finset.range rows ×ˢ Finset.range columns).powerset.filter (Selectable ordered)).sup fun cells =>
    ∑ p ∈ cells, weight p

theorem isGreatest_heaviest {ordered : Bool} {rows columns : Nat} {weight : Nat × Nat → Nat}
    (outside : ∀ p, ¬ (p.1 < rows ∧ p.2 < columns) → weight p = 0) :
    IsGreatest (totals ordered weight) (heaviest ordered rows columns weight) := by
  constructor
  · have nothing : ∅ ∈ (Finset.range rows ×ˢ Finset.range columns).powerset.filter (Selectable ordered) := by
      cases ordered <;> simp [Selectable, OneToOne, NonCrossing]
    obtain ⟨cells, member, same⟩ := Finset.exists_mem_eq_sup _ ⟨∅, nothing⟩ fun cells => ∑ p ∈ cells, weight p
    exact ⟨cells, (Finset.mem_filter.mp member).2, same⟩
  · rintro _ ⟨cells, selectable, rfl⟩
    let inside := cells.filter fun p => p.1 < rows ∧ p.2 < columns
    have member : inside ∈ (Finset.range rows ×ˢ Finset.range columns).powerset.filter (Selectable ordered) := by
      simp only [Finset.mem_filter, Finset.mem_powerset]
      refine ⟨fun p hp => ?_, selectable.subset (Finset.filter_subset _ _)⟩
      simpa using (Finset.mem_filter.mp hp).2
    have same : ∑ p ∈ inside, weight p = ∑ p ∈ cells, weight p := by
      apply Finset.sum_filter_of_ne
      intro p _ nonzero
      by_contra far
      exact nonzero (outside p far)
    rw [← same, heaviest]
    exact Finset.le_sup (f := fun cells => ∑ p ∈ cells, weight p) member

namespace Tree

theorem value_outline (t : Node) : t.outline.value = t.content := by
  cases t
  rfl

theorem children_outline (t : Node) : t.outline.children = t.children.map outline := by
  obtain ⟨value, children⟩ := t
  exact maps_eq_map Prod.snd children

end Tree

namespace Outline

def isOrdered (left right : Outline) : Bool :=
  left.children.any (·.value.ordered) || right.children.any (·.value.ordered)

def ownScore (left right : Outline) : Nat :=
  if left.value.label = right.value.label then 1 else 0

mutual

/-- The best score of two outlines. -/
def best : Outline → Outline → Nat
  | left@(.node _ ls), right =>
    heaviest (isOrdered left right) ls.length right.children.length (weightAt id (bestRows ls right.children)) +
      ownScore left right

def bestRows : List Outline → List Outline → List (List Nat)
  | [], _ => []
  | l :: ls, rs => rs.map (best l) :: bestRows ls rs

end

theorem bestRows_eq (ls rs : List Outline) : bestRows ls rs = ls.map fun l => rs.map (best l) := by
  induction ls with
  | nil => rfl
  | cons l ls ih => rw [bestRows, ih, List.map_cons]

def scoresOf (ls rs : List Outline) (place : Nat × Nat) : Nat :=
  match ls[place.1]?, rs[place.2]? with
  | some l, some r => best l r
  | _, _ => 0

theorem weightAt_bestRows (ls rs : List Outline) : weightAt id (bestRows ls rs) = scoresOf ls rs := by
  funext place
  simp only [bestRows_eq, weightAt, cellAt, scoresOf, List.getElem?_map]
  cases ls[place.1]? with
  | none => rfl
  | some l => cases other : rs[place.2]? <;> simp [other]

theorem best_eq (left right : Outline) :
    best left right = heaviest (isOrdered left right) left.children.length right.children.length
      (scoresOf left.children right.children) + ownScore left right := by
  obtain ⟨value, ls⟩ := left
  rw [best, weightAt_bestRows]
  rfl

theorem scoresOf_outside {ls rs : List Outline} {place : Nat × Nat}
    (outside : ¬ (place.1 < ls.length ∧ place.2 < rs.length)) : scoresOf ls rs place = 0 := by
  unfold scoresOf
  split
  · rename_i l r hl hr
    exact absurd ⟨(List.getElem?_eq_some_iff.mp hl).1, (List.getElem?_eq_some_iff.mp hr).1⟩ outside
  · rfl

theorem isGreatest_scoresOf (ordered : Bool) (ls rs : List Outline) :
    IsGreatest (totals ordered (scoresOf ls rs)) (heaviest ordered ls.length rs.length (scoresOf ls rs)) :=
  isGreatest_heaviest fun _ => scoresOf_outside

theorem isOrdered_outline (left right : Node) :
    isOrdered left.outline right.outline = Dispatcher.isOrdered left right := by
  have flag : (fun t : Outline => t.value.ordered) ∘ Tree.outline = Tree.isOrdered := by
    funext t
    simp only [Function.comp_apply, Tree.value_outline]
    rfl
  simp only [isOrdered, Dispatcher.isOrdered, Tree.children_outline, List.any_map, flag]

theorem ownScore_outline (left right : Node) : ownScore left.outline right.outline = left.ownScore right := by
  simp only [ownScore, Tree.value_outline, Tree.ownScore, Tree.sameLabel, beq_iff_eq]
  rfl

/-- No mapping of two trees brings more labels together than the best score of their outlines says. -/
theorem isGreatest_best {left right : Node} (hl : left.Numbered) (hr : right.Numbered) :
    IsGreatest (Mapping.agreements left right) (best left.outline right.outline) := by
  induction left using Tree.childInduction generalizing right with
  | step left ih =>
    rw [best_eq, ownScore_outline, isOrdered_outline, Tree.children_outline, Tree.children_outline]
    apply Mapping.isGreatest_agreements hl hr _ _ (isGreatest_scoresOf _ _ _)
    · intro place a b ha hb
      have score : scoresOf (left.children.map Tree.outline) (right.children.map Tree.outline) place =
          best a.outline b.outline := by
        simp [scoresOf, ha, hb]
      have childA := List.mem_of_getElem? ha
      have childB := List.mem_of_getElem? hb
      rw [score]
      exact ih a childA (hl.child childA) (hr.child childB)
    · intro place outside
      apply scoresOf_outside
      simp only [List.length_map]
      rw [List.getElem?_eq_none_iff, List.getElem?_eq_none_iff] at outside
      omega

end Outline

end TreeAlign
