import TreeAlign.Proofs.Cover.Bounds

namespace TreeAlign.Candidates

variable {cover graph : Candidates} {b : Bool} {m n : Site} {c : Candidate}

def SiblingDiverges (cover : Candidates) (m n : Site) : Prop :=
  ∃ s ∈ cover.siblings m, s ∉ cover.invariantSiblings m n ∧ (cover.image? s).isSome = true

/-- What the number of divergent siblings of `m` is divided by. -/
def breakupDivisor (cover : Candidates) (m n : Site) : Nat :=
  (cover.invariantSiblings m n).length * cover.families m

/-- The siblings of `m`, paired with `n`, have a ratio: its divisor is not zero and at least two where it is needed,
also if the ratio is computed with tables of what was looked up before. -/
structure BreakupDefined (cover : Candidates) (m n : Site) : Prop where
  self : m ∈ cover.invariantSiblings m n
  family : 1 ≤ cover.families m
  spread : cover.SiblingDiverges m n → 2 ≤ cover.families m
  positive : 0 < cover.breakupDivisor m n
  enough : cover.SiblingDiverges m n → 2 ≤ cover.breakupDivisor m n
  needed : cover.divergentSiblings m n ≠ 0 ↔ cover.SiblingDiverges m n
  ratio : ∀ (R : Type) [Div R] [NatCast R] (seen : Memo), seen.Holds cover cover →
    ((Recall.breakup cover m n : Recall R).run seen).1 = if cover.divergentSiblings m n = 0 then ((0 : Nat) : R)
      else (cover.divergentSiblings m n : R) / (cover.breakupDivisor m n : R)

namespace Paired

variable (h : Paired cover graph b m n)

include h

theorem self_mem_invariantSiblings : m ∈ cover.invariantSiblings m n := by
  rw [h.invariantSiblings_eq, List.mem_filter, h.image?_self, Option.any_some]
  exact ⟨self_mem_siblings h.apart h.near, h.contains_self⟩

theorem one_le_invariantSiblings : 1 ≤ (cover.invariantSiblings m n).length :=
  List.length_pos_of_mem h.self_mem_invariantSiblings

theorem one_le_families : 1 ≤ cover.families m := by
  rw [h.families_eq]
  exact Finset.card_pos.mpr ⟨parentId n, mem_parents.mpr ⟨m, self_mem_siblings h.apart h.near, n, h.image?_self, rfl⟩⟩

theorem divergentSiblings_ne_zero_iff : cover.divergentSiblings m n ≠ 0 ↔ cover.SiblingDiverges m n := by
  have invariant : ∀ s ∈ cover.invariantSiblings m n, s ∈ (graph.root b).preorder := by
    rw [h.invariantSiblings_eq]
    exact fun s hs => siblings_subset h.near s (List.mem_filter.mp hs).1
  rw [divergentSiblings, ← Nat.pos_iff_ne_zero, List.countP_pos_iff]
  refine exists_congr fun s => and_congr_right fun hs => ?_
  have near : s ∈ (graph.root b).preorder := siblings_subset h.near s (h.siblings_eq m ▸ hs)
  rw [Bool.and_eq_true, Bool.not_eq_true', ← Bool.not_eq_true, contains_iff_mem h.apart invariant near]

theorem two_le_families_of_diverges (diverges : cover.SiblingDiverges m n) : 2 ≤ cover.families m :=
  h.two_le_families (Nat.one_le_iff_ne_zero.mpr (h.divergentSiblings_ne_zero_iff.mpr diverges))

end Paired

theorem Paired.breakupDefined (h : Paired cover cover b m n) : cover.BreakupDefined m n where
  self := h.self_mem_invariantSiblings
  family := h.one_le_families
  spread diverges := h.two_le_families_of_diverges diverges
  positive := Nat.mul_pos h.one_le_invariantSiblings h.one_le_families
  enough diverges := Nat.mul_le_mul h.one_le_invariantSiblings (h.two_le_families_of_diverges diverges)
  needed := h.divergentSiblings_ne_zero_iff
  ratio R _ _ seen holds := by
    obtain ⟨_, looked, -⟩ := Recall.breakup_gives (R := R) h.together h.near h.symm.near seen holds
    rw [StateT.run, looked]
    rfl

/-- For every pair of a cover of two subtrees without a common node, what the divergent siblings of either node are
divided by is not zero. -/
theorem breakup_divisor (apart : cover.left.Apart cover.right) (within : cover.Over) (sane : cover.check = .ok ())
    (hc : c ∈ cover.entries) (left : c.left = some m) (right : c.right = some n) :
    cover.BreakupDefined m n ∧ cover.BreakupDefined n m := by
  have completes : Completes cover cover := ⟨⟨rfl, rfl, apart, within, within⟩, sane, List.Subset.refl _⟩
  have paired : Paired cover cover false m n := ⟨completes, c, hc, left, right⟩
  exact ⟨paired.breakupDefined, paired.symm.breakupDefined⟩

def uprooted : Candidates :=
  atPlaces (.root (fork 0)) (.root (fork 3)) [(some 1, some 1), (some 2, some 0), (some 0, none), (none, some 2)]

theorem breakup_divisor_uprooted : ∃ c ∈ uprooted.entries, ∃ m n, c.left = some m ∧ c.right = some n ∧
    c.key = (some 1, some 4) ∧ uprooted.SiblingDiverges m n ∧ uprooted.breakupDivisor m n = 2 ∧
    uprooted.BreakupDefined m n ∧ uprooted.BreakupDefined n m := by
  have apart : uprooted.left.Apart uprooted.right := crossed_completes.apart
  have hc : atPlace (.root (fork 0)) (.root (fork 3)) (some 1, some 1) ∈ uprooted.entries := .head _
  obtain ⟨ours, theirs⟩ := breakup_divisor apart (atPlaces_over _ _ _) rfl hc rfl rfl
  exact ⟨_, hc, _, _, rfl, rfl, rfl, ours.needed.mp (by decide), by decide, ours, theirs⟩

end TreeAlign.Candidates
