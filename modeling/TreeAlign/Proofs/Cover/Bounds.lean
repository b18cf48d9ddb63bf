import Mathlib.Algebra.Order.Field.Rat
import Mathlib.Data.Finset.Card
import Mathlib.Tactic.Positivity
import Mathlib.Tactic.Linarith
import Mathlib.Tactic.Ring
import TreeAlign.Proofs.Cover.Recall

namespace TreeAlign

def CountBounds.Encloses (bounds : CountBounds) (count : Nat) : Prop :=
  bounds.lower ≤ count ∧ count ≤ bounds.upper

def Bounds.Encloses (bounds : Bounds ℚ) (cost : ℚ) : Prop :=
  bounds.lower ≤ cost ∧ cost ≤ bounds.upper

/-- More of a term does not cost less, and a sibling out of order is no gain. -/
structure Weights.Rising (w : Weights ℚ) : Prop where
  ancestry : ∀ m n, Monotone (w.ancestry m n)
  siblings : ∀ m n, Monotone (w.siblings m n)
  ordering : ∀ m n, 0 ≤ w.ordering m n

theorem Weights.linear_rising (rename noMatch : ℚ) {ancestry siblings ordering : ℚ} (ancestry_nonneg : 0 ≤ ancestry)
    (siblings_nonneg : 0 ≤ siblings) (ordering_nonneg : 0 ≤ ordering) :
    (Weights.linear rename noMatch ancestry siblings ordering).Rising where
  ancestry _ _ _ _ less := mul_le_mul_of_nonneg_left less ancestry_nonneg
  siblings _ _ _ _ less := mul_le_mul_of_nonneg_left less siblings_nonneg
  ordering _ _ := ordering_nonneg

namespace Candidates

variable {cs cover graph : Candidates} {b : Bool} {s t m n : Site} {c d : Candidate}

section Families

theorem nodup_eraseDups (xs : List (Option NodeId)) : xs.eraseDups.Nodup := by
  induction hn : xs.length using Nat.strong_induction_on generalizing xs with
  | _ k ih =>
    cases xs with
    | nil => exact List.nodup_nil
    | cons x xs =>
      rw [List.eraseDups_cons, List.nodup_cons, List.mem_eraseDups]
      refine ⟨by simp, ih _ ?_ _ rfl⟩
      rw [← hn, List.length_cons]
      exact Nat.lt_succ_of_le (List.length_filter_le _ _)

theorem length_eraseDups (xs : List (Option NodeId)) : xs.eraseDups.length = xs.toFinset.card := by
  rw [← List.toFinset_card_of_nodup (nodup_eraseDups xs)]
  congr 1
  ext x
  rw [List.mem_toFinset, List.mem_toFinset, List.mem_eraseDups]

end Families

theorem strayChildren_eq (cover : Candidates) (m n : Site) :
    cover.strayChildren m n = m.children.countP fun s => (cover.image? s).any fun partner => !n.hasChild partner := by
  unfold strayChildren
  rw [List.countP_filterMap]
  congr 1
  funext s
  cases cover.image? s <;> rfl

theorem Completes.countPartners_encloses (h : Completes cover graph) (test : Site → Bool) {sites : List Site}
    (hsites : ∀ s ∈ sites, s ∈ (graph.root b).preorder) :
    (graph.countPartners test sites).Encloses (sites.countP fun s => (cover.image? s).any test) := by
  constructor
  · refine List.countP_mono_left fun s hs all => ?_
    exact List.all_eq_true.mp all _ (h.image?_mem_partners (hsites s hs))
  · refine List.countP_mono_left fun s hs found => ?_
    exact List.any_eq_true.mpr ⟨_, h.image?_mem_partners (hsites s hs), found⟩

theorem mem_parents {i : Option NodeId} : i ∈ (((graph.siblings m).filterMap cover.image?).map parentId).toFinset ↔
    ∃ s ∈ graph.siblings m, ∃ t, cover.image? s = some t ∧ parentId t = i := by
  simp only [List.mem_toFinset, List.mem_map, List.mem_filterMap]
  constructor
  · rintro ⟨t, ⟨s, hs, ht⟩, rfl⟩
    exact ⟨s, hs, t, ht, rfl⟩
  · rintro ⟨s, hs, t, ht, rfl⟩
    exact ⟨t, ⟨s, hs, ht⟩, rfl⟩

/-- Two nodes, `m` on side `b`, that are a pair of a cover. -/
structure Paired (cover graph : Candidates) (b : Bool) (m n : Site) : Prop extends Completes cover graph where
  candidate : ∃ c ∈ cover.entries, c.side b = some m ∧ c.side (!b) = some n

namespace Paired

theorem symm (h : Paired cover graph b m n) : Paired cover graph (!b) n m := by
  obtain ⟨c, hc, near, far⟩ := h.candidate
  exact ⟨h.toCompletes, c, hc, far, by rwa [Bool.not_not]⟩

variable (h : Paired cover graph b m n)

include h

theorem near : m ∈ (graph.root b).preorder := by
  obtain ⟨c, hc, near, -⟩ := h.candidate
  exact h.root b ▸ h.overCover c hc b m near

theorem image?_self : cover.image? m = some n := by
  obtain ⟨c, hc, near, far⟩ := h.candidate
  exact (h.image?_eq hc near).trans far

theorem image?_far (hs : s ∈ (graph.root b).preorder) (ht : cover.image? s = some t) : t ∈ (graph.root !b).preorder := by
  obtain ⟨c, hc, near⟩ := h.exists_candidate (h.root b ▸ hs)
  rw [h.image?_eq hc near] at ht
  exact h.root _ ▸ h.overCover c hc _ t ht

theorem image?_ne (hs : s ∈ (graph.root b).preorder) (other : s ≠ m) : cover.image? s ≠ some n := by
  intro same
  obtain ⟨c, hc, near, far⟩ := h.candidate
  obtain ⟨d, hd, here⟩ := h.exists_candidate (h.root b ▸ hs)
  rw [h.image?_eq hd here] at same
  rw [h.eq_of_side hd hc same far, near, Option.some_inj] at here
  exact other here.symm

theorem strayChildren_encloses : (graph.strayChildrenBounds m n).Encloses (cover.strayChildren m n) := by
  rw [strayChildren_eq]
  exact h.countPartners_encloses _ fun s child => Site.child_mem_preorder child h.near

theorem contains_partner (hs : s ∈ graph.otherSiblings m) (ht : cover.image? s = some t) :
    (graph.siblings n).contains t = (graph.otherSiblings n).contains t := by
  have far := h.symm.near
  have hs' := otherSiblings_subset h.near s hs
  have ht' := h.image?_far hs' ht
  have other : t ≠ n := by
    rintro rfl
    exact h.image?_ne hs' ((mem_otherSiblings h.apart h.near).mp hs).2 ht
  rw [Bool.eq_iff_iff, contains_iff_mem h.apart (siblings_subset far) ht',
    contains_iff_mem h.apart (otherSiblings_subset far) ht', mem_otherSiblings h.apart far]
  exact ⟨fun member => ⟨member, other⟩, And.left⟩

theorem countP_siblings (test : Site → Bool) : (graph.siblings m).countP (fun s => (cover.image? s).any test) =
    (graph.otherSiblings m).countP (fun s => (cover.image? s).any test) + if test n then 1 else 0 := by
  rw [(siblings_perm h.apart h.near).countP_eq, List.countP_cons, h.image?_self]
  rfl

theorem invariantSiblings_eq : cover.invariantSiblings m n =
    (graph.siblings m).filter fun s => (cover.image? s).any (graph.siblings n).contains := by
  unfold invariantSiblings
  rw [h.siblings_eq, h.siblings_eq]
  congr 1
  funext s
  cases cover.image? s <;> rfl

theorem contains_self : (graph.siblings n).contains n = true := by
  have far := h.symm.near
  exact (contains_iff_mem h.apart (siblings_subset far) far).mpr (self_mem_siblings h.apart far)

theorem length_invariantSiblings : (cover.invariantSiblings m n).length =
    (graph.otherSiblings m).countP (fun s => (cover.image? s).any (graph.otherSiblings n).contains) + 1 := by
  rw [h.invariantSiblings_eq, ← List.countP_eq_length_filter, h.countP_siblings, if_pos h.contains_self]
  congr 1
  refine List.countP_congr fun s hs => ?_
  cases ht : cover.image? s with
  | none => rfl
  | some t => rw [Option.any_some, Option.any_some, h.contains_partner hs ht]

theorem contains_invariantSiblings (hs : s ∈ graph.siblings m) :
    (cover.invariantSiblings m n).contains s = (cover.image? s).any (graph.siblings n).contains := by
  have sub : ∀ x ∈ cover.invariantSiblings m n, x ∈ (graph.root b).preorder := by
    rw [h.invariantSiblings_eq]
    exact fun x hx => siblings_subset h.near x (List.mem_filter.mp hx).1
  rw [Bool.eq_iff_iff, contains_iff_mem h.apart sub (siblings_subset h.near s hs), h.invariantSiblings_eq,
    List.mem_filter]
  exact and_iff_right hs

theorem divergentSiblings_eq_countP : cover.divergentSiblings m n =
    (graph.siblings m).countP fun s => (cover.image? s).any fun t => !(graph.siblings n).contains t := by
  unfold divergentSiblings
  rw [h.siblings_eq]
  refine List.countP_congr fun s hs => ?_
  rw [h.contains_invariantSiblings hs]
  cases cover.image? s <;> simp

theorem divergentSiblings_eq : cover.divergentSiblings m n =
    (graph.otherSiblings m).countP fun s => (cover.image? s).any fun t => !(graph.otherSiblings n).contains t := by
  rw [h.divergentSiblings_eq_countP, h.countP_siblings, if_neg (by rw [h.contains_self]; exact Bool.false_ne_true)]
  refine List.countP_congr fun s hs => ?_
  cases ht : cover.image? s with
  | none => rfl
  | some t => rw [Option.any_some, Option.any_some, h.contains_partner hs ht]

theorem divergentSiblings_encloses : (graph.divergentBounds m n).Encloses (cover.divergentSiblings m n) := by
  rw [h.divergentSiblings_eq]
  exact h.countPartners_encloses _ (otherSiblings_subset h.near)

theorem invariantSiblings_encloses :
    (graph.invariantBounds m n).Encloses (cover.invariantSiblings m n).length := by
  rw [h.length_invariantSiblings]
  obtain ⟨lower, upper⟩ := h.countPartners_encloses (graph.otherSiblings n).contains (otherSiblings_subset h.near)
  exact ⟨Nat.succ_le_succ lower, Nat.succ_le_succ upper⟩

theorem contains_siblings_iff (hs : s ∈ graph.siblings m) (ht : cover.image? s = some t) :
    (graph.siblings n).contains t = true ↔ parentId t = parentId n := by
  have far := h.symm.near
  have ht' := h.image?_far (siblings_subset h.near s hs) ht
  rw [contains_iff_mem h.apart (siblings_subset far) ht', mem_siblings_iff h.apart far ht']

theorem families_eq : cover.families m =
    (((graph.siblings m).filterMap cover.image?).map parentId).toFinset.card := by
  rw [← length_eraseDups, ← h.siblings_eq]
  rfl

theorem two_le_families (some_divergent : 1 ≤ cover.divergentSiblings m n) : 2 ≤ cover.families m := by
  rw [h.divergentSiblings_eq_countP, Nat.one_le_iff_ne_zero, ← Nat.pos_iff_ne_zero, List.countP_pos_iff] at some_divergent
  obtain ⟨s, hs, apart⟩ := some_divergent
  cases ht : cover.image? s with
  | none =>
    rw [ht] at apart
    cases apart
  | some t =>
    rw [ht, Option.any_some, Bool.not_eq_true', ← Bool.not_eq_true, h.contains_siblings_iff hs ht] at apart
    rw [h.families_eq]
    exact Finset.one_lt_card.mpr ⟨parentId t, mem_parents.mpr ⟨s, hs, t, ht, rfl⟩, parentId n,
      mem_parents.mpr ⟨m, self_mem_siblings h.apart h.near, n, h.image?_self, rfl⟩, apart⟩

theorem families_le : cover.families m ≤ cover.divergentSiblings m n + 1 := by
  let divergent := (graph.siblings m).filter fun s => (cover.image? s).any fun t => !(graph.siblings n).contains t
  have count : divergent.length = cover.divergentSiblings m n := by
    rw [h.divergentSiblings_eq_countP, List.countP_eq_length_filter]
  have sub : (((graph.siblings m).filterMap cover.image?).map parentId).toFinset ⊆
      insert (parentId n) (divergent.map fun s => (cover.image? s).bind parentId).toFinset := by
    intro i member
    obtain ⟨s, hs, t, ht, rfl⟩ := mem_parents.mp member
    rw [Finset.mem_insert]
    by_cases same : parentId t = parentId n
    · exact .inl same
    · refine .inr (List.mem_toFinset.mpr (List.mem_map.mpr ⟨s, List.mem_filter.mpr ⟨hs, ?_⟩, ?_⟩))
      · rw [ht, Option.any_some, Bool.not_eq_true', ← Bool.not_eq_true, h.contains_siblings_iff hs ht]
        exact same
      · rw [ht, Option.bind_some]
  calc cover.families m
      = (((graph.siblings m).filterMap cover.image?).map parentId).toFinset.card := h.families_eq
    _ ≤ (insert (parentId n) (divergent.map fun s => (cover.image? s).bind parentId).toFinset).card :=
      Finset.card_le_card sub
    _ ≤ (divergent.map fun s => (cover.image? s).bind parentId).toFinset.card + 1 := Finset.card_insert_le _ _
    _ ≤ (divergent.map fun s => (cover.image? s).bind parentId).length + 1 :=
      Nat.succ_le_succ (List.toFinset_card_le _)
    _ = cover.divergentSiblings m n + 1 := by rw [List.length_map, count]

end Paired

section Ordering

theorem isNoMatch_congr (sides : ∀ b, d.side b = c.side b) : d.isNoMatch = c.isNoMatch := by
  unfold Candidate.isNoMatch
  rw [show d.left = c.left from sides false, show d.right = c.right from sides true]

theorem violatesOrder_congr (cs : Candidates) {e : Candidate} (sides : ∀ b, d.side b = c.side b) :
    cs.violatesOrder d e = cs.violatesOrder c e := by
  unfold violatesOrder
  rw [show d.left = c.left from sides false, show d.right = c.right from sides true]

namespace Completes

variable (h : Completes cover graph)

include h

theorem exists_both (hs : s ∈ (graph.root b).preorder) : ∃ c d, cover.candidateOf? s = some c ∧ d ∈ graph.containing s ∧
    d.isNoMatch = c.isNoMatch ∧ ∀ e, graph.violatesOrder d e = cover.violatesOrder c e := by
  obtain ⟨c, hc, here⟩ := h.exists_candidate (h.root b ▸ hs)
  obtain ⟨d, hd, sides⟩ := h.exists_containing hc here
  refine ⟨c, d, h.candidateOf?_eq hc here, hd, isNoMatch_congr sides, fun e => ?_⟩
  rw [violatesOrder_congr graph sides, h.violatesOrder_eq]

theorem isOutOfOrder_iff : cover.isOutOfOrder c m n = true ↔
    ∃ s ∈ graph.otherSiblings m ++ graph.otherSiblings n, ∃ d, cover.candidateOf? s = some d ∧ d.isNoMatch = false ∧
      cover.violatesOrder d c = true := by
  unfold isOutOfOrder
  rw [h.otherSiblings_eq, h.otherSiblings_eq, List.any_eq_true]
  simp only [List.mem_filterMap, Bool.and_eq_true, Bool.not_eq_true']
  constructor
  · rintro ⟨d, ⟨s, hs, found⟩, violated⟩
    exact ⟨s, hs, d, found, violated⟩
  · rintro ⟨s, hs, d, found, violated⟩
    exact ⟨d, ⟨s, hs, found⟩, violated⟩

variable (hm : m ∈ (graph.root false).preorder) (hn : n ∈ (graph.root true).preorder)

include hm hn

theorem isOutOfOrder_of_not_orderPossible (stuck : graph.orderPossible c m n = false) :
    cover.isOutOfOrder c m n = true := by
  unfold orderPossible at stuck
  rw [List.all_eq_false] at stuck
  obtain ⟨s, hs, none⟩ := stuck
  rw [List.any_eq_true, not_exists] at none
  obtain ⟨b, side⟩ := otherSiblings_sides hm hn s hs
  obtain ⟨d, g, found, hg, noMatch, violates⟩ := h.exists_both side
  have bad := none g
  rw [not_and, Bool.or_eq_true, not_or, Bool.not_eq_true', Bool.not_eq_false] at bad
  obtain ⟨real, violated⟩ := bad hg
  refine h.isOutOfOrder_iff.mpr ⟨s, hs, d, found, ?_, ?_⟩
  · rw [← noMatch, ← Bool.not_eq_true]
    exact real
  · rw [← violates]
    exact violated

theorem violationPossible_of_isOutOfOrder (charged : cover.isOutOfOrder c m n = true) :
    graph.violationPossible c m n = true := by
  obtain ⟨s, hs, d, found, real, violated⟩ := h.isOutOfOrder_iff.mp charged
  obtain ⟨b, side⟩ := otherSiblings_sides hm hn s hs
  obtain ⟨d', g, found', hg, noMatch, violates⟩ := h.exists_both side
  rw [found, Option.some_inj] at found'
  subst found'
  unfold violationPossible
  refine List.any_eq_true.mpr ⟨s, hs, List.any_eq_true.mpr ⟨g, hg, ?_⟩⟩
  rw [noMatch, violates, real, violated]
  rfl

end Completes

end Ordering

section Costs

/-- Fewer divergent and more invariant siblings, in as many families as there can be. -/
theorem ratio_lower {low d i up f : Nat} (hd : low ≤ d) (hi : i ≤ up) (hf : f ≤ d + 1) (positive : 0 < i * f) :
    (low : ℚ) / ((up : ℚ) * ((low + 1 : Nat) : ℚ)) ≤ (d : ℚ) / ((i * f : Nat) : ℚ) := by
  have hup : 0 < up := Nat.lt_of_lt_of_le (Nat.pos_of_mul_pos_right positive) hi
  have counts : low * (i * f) ≤ d * (up * (low + 1)) := by
    calc low * (i * f)
        ≤ low * (up * (d + 1)) := Nat.mul_le_mul_left _ (Nat.mul_le_mul hi hf)
      _ = up * (low * d + low) := by ring
      _ ≤ up * (low * d + d) := Nat.mul_le_mul_left _ (Nat.add_le_add_left hd _)
      _ = d * (up * (low + 1)) := by ring
  rw [← Nat.cast_mul, div_le_div_iff₀ (by exact_mod_cast Nat.mul_pos hup (Nat.succ_pos _)) (by exact_mod_cast positive)]
  exact_mod_cast counts

/-- More divergent and fewer invariant siblings, in two families. -/
theorem ratio_upper {d up i low f : Nat} (hd : d ≤ up) (hi : low ≤ i) (hf : 2 ≤ f) (positive : 0 < low) :
    (d : ℚ) / ((i * f : Nat) : ℚ) ≤ (up : ℚ) / (low : ℚ) / 2 := by
  have counts : d * (low * 2) ≤ up * (i * f) := Nat.mul_le_mul hd (Nat.mul_le_mul hi hf)
  have hi' : 0 < i * f := Nat.mul_pos (Nat.lt_of_lt_of_le positive hi) (Nat.lt_of_lt_of_le Nat.two_pos hf)
  rw [div_div, div_le_div_iff₀ (by exact_mod_cast hi') (by positivity)]
  exact_mod_cast counts

namespace Paired

variable (h : Paired cover graph b m n)

include h

theorem breakup_lower : (graph.breakupBounds m n : Bounds ℚ).lower ≤ cover.breakup m n := by
  have divergent := h.divergentSiblings_encloses.1
  have invariant := h.invariantSiblings_encloses.2
  have present : 0 < (cover.invariantSiblings m n).length := by rw [h.length_invariantSiblings]; omega
  unfold breakup breakupBounds
  simp only
  by_cases none : cover.divergentSiblings m n = 0
  · rw [if_pos none]
    rw [none, Nat.le_zero] at divergent
    split <;> simp [divergent]
  · rw [if_neg none]
    have families := h.two_le_families (Nat.one_le_iff_ne_zero.mpr none)
    have positive : 0 < (cover.invariantSiblings m n).length * cover.families m := Nat.mul_pos present (by omega)
    split
    · simp only [Nat.cast_zero]
      positivity
    · exact ratio_lower divergent invariant h.families_le positive

theorem breakup_upper : (cover.breakup m n : ℚ) ≤ (graph.breakupBounds m n : Bounds ℚ).upper / 2 := by
  have divergent := h.divergentSiblings_encloses.2
  have invariant := h.invariantSiblings_encloses.1
  have present : 0 < (graph.invariantBounds m n).lower := Nat.succ_pos _
  unfold breakup breakupBounds
  simp only
  by_cases none : cover.divergentSiblings m n = 0
  · rw [if_pos none]
    split
    · simp
    · simp only [Nat.cast_zero]
      positivity
  · rw [if_neg none, if_neg (by omega)]
    exact ratio_upper divergent invariant (h.two_le_families (Nat.one_le_iff_ne_zero.mpr none)) present

variable {w : Weights ℚ} (rising : w.Rising)

include rising

theorem ancestryCost_encloses : (graph.ancestryBounds w m n).Encloses (cover.ancestryCost w m n) := by
  obtain ⟨lower, upper⟩ := h.strayChildren_encloses
  obtain ⟨lower', upper'⟩ := h.symm.strayChildren_encloses
  constructor
  · apply rising.ancestry
    exact_mod_cast Nat.add_le_add lower lower'
  · apply rising.ancestry
    exact_mod_cast Nat.add_le_add upper upper'

theorem siblingCost_encloses : (graph.siblingBounds w m n).Encloses (cover.siblingCost w m n) := by
  constructor
  · apply rising.siblings
    exact add_le_add h.breakup_lower h.symm.breakup_lower
  · apply rising.siblings
    rw [Nat.cast_ofNat, add_div]
    exact add_le_add h.breakup_upper h.symm.breakup_upper

end Paired

namespace Completes

variable (h : Completes cover graph) {w : Weights ℚ} (rising : w.Rising)

include h rising

theorem orderingCost_encloses (hm : m ∈ (graph.root false).preorder) (hn : n ∈ (graph.root true).preorder) :
    (graph.orderingBounds w c m n).Encloses (cover.orderingCost w c m n) := by
  have gain := rising.ordering m n
  unfold orderingBounds orderingCost
  cases possible : graph.orderPossible c m n with
  | false =>
    rw [h.isOutOfOrder_of_not_orderPossible hm hn possible]
    exact ⟨le_rfl, le_rfl⟩
  | true =>
    cases charged : cover.isOutOfOrder c m n with
    | true =>
      rw [h.violationPossible_of_isOutOfOrder hm hn charged]
      exact ⟨by simpa using gain, le_rfl⟩
    | false =>
      refine ⟨le_rfl, ?_⟩
      simp only [Bool.not_true, Bool.false_eq_true, if_false]
      split
      · simpa using gain
      · exact le_rfl

theorem encloses_exactCost (hc : c ∈ cover.entries) : (graph.estimate w c).Encloses (cover.exactCost w c) := by
  unfold estimate exactCost
  cases hl : c.left with
  | none => exact ⟨le_rfl, le_rfl⟩
  | some m =>
    cases hr : c.right with
    | none => exact ⟨le_rfl, le_rfl⟩
    | some n =>
      have paired : Paired cover graph false m n := ⟨h, c, hc, hl, hr⟩
      obtain ⟨lower, upper⟩ := paired.ancestryCost_encloses rising
      obtain ⟨lower', upper'⟩ := paired.siblingCost_encloses rising
      obtain ⟨lower'', upper''⟩ := h.orderingCost_encloses rising paired.near paired.symm.near (c := c)
      constructor
      · exact add_le_add (add_le_add (add_le_add_right lower _) lower') lower''
      · exact add_le_add (add_le_add (add_le_add_right upper _) upper') upper''

end Completes

end Costs

/-- What is counted for `m`, paired with `n`, lies between what the graph leaves at least and at most. -/
structure CountsEnclosed (cover graph : Candidates) (m n : Site) : Prop where
  strayChildren : (graph.strayChildrenBounds m n).Encloses (cover.strayChildren m n)
  divergentSiblings : (graph.divergentBounds m n).Encloses (cover.divergentSiblings m n)
  invariantSiblings : (graph.invariantBounds m n).Encloses (cover.invariantSiblings m n).length
  families : 1 ≤ cover.divergentSiblings m n →
    2 ≤ cover.families m ∧ cover.families m ≤ cover.divergentSiblings m n + 1

theorem Paired.countsEnclosed (h : Paired cover graph b m n) : CountsEnclosed cover graph m n where
  strayChildren := h.strayChildren_encloses
  divergentSiblings := h.divergentSiblings_encloses
  invariantSiblings := h.invariantSiblings_encloses
  families some_divergent := ⟨h.two_le_families some_divergent, h.families_le⟩

theorem eq_of_sides (sides : ∀ b, d.side b = c.side b) : d = { c with exact := d.exact, bounds := d.bounds } := by
  have left : d.left = c.left := sides false
  have right : d.right = c.right := sides true
  rw [← left, ← right]

/-- The bounds of a candidate enclose its exact cost in every cover that the graph allows, term by term and as a
whole. -/
theorem estimate_encloses_exactCost (h : Completes cover graph) (hc : c ∈ cover.entries) (hd : d ∈ graph.entries)
    (same : d.key = c.key) :
    (∀ m n, c.left = some m → c.right = some n →
      CountsEnclosed cover graph m n ∧ CountsEnclosed cover graph n m ∧
      (graph.orderPossible d m n = false → cover.isOutOfOrder c m n = true) ∧
      (cover.isOutOfOrder c m n = true → graph.violationPossible d m n = true)) ∧
    ∀ rename noMatch ancestry siblings ordering : ℚ, 0 ≤ ancestry → 0 ≤ siblings → 0 ≤ ordering →
      ∀ seen seen' : Memo, seen.Holds cover graph → seen'.Holds cover graph →
        let w := Weights.linear rename noMatch ancestry siblings ordering
        Bounds.Encloses ((Recall.estimate graph w d).run seen).1 ((Recall.exactCost cover w c).run seen').1 := by
  have sides (b : Bool) : d.side b = c.side b :=
    (side_eq_of_key_eq h.apart h.left h.right h.overCover h.overGraph hc hd same.symm b).symm
  have nodes := eq_of_sides sides
  constructor
  · intro m n hl hr
    have paired : Paired cover graph false m n := ⟨h, c, hc, hl, hr⟩
    rw [nodes]
    exact ⟨paired.countsEnclosed, paired.symm.countsEnclosed,
      h.isOutOfOrder_of_not_orderPossible paired.near paired.symm.near,
      h.violationPossible_of_isOutOfOrder paired.near paired.symm.near⟩
  · intro rename noMatch ancestry siblings ordering ancestry_nonneg siblings_nonneg ordering_nonneg
      seen seen' holds holds' w
    have rising := Weights.linear_rising rename noMatch ancestry_nonneg siblings_nonneg ordering_nonneg
    obtain ⟨_, estimated, -⟩ := Recall.estimate_gives h.toParallel w hd seen holds
    obtain ⟨_, priced, -⟩ := Recall.exactCost_gives h.toParallel w hc seen' holds'
    have estimate_eq : ((Recall.estimate graph w d).run seen).1 = graph.estimate w d := congrArg Prod.fst estimated
    have exactCost_eq : ((Recall.exactCost cover w c).run seen').1 = cover.exactCost w c := congrArg Prod.fst priced
    rw [estimate_eq, exactCost_eq, nodes]
    have enclosed := h.encloses_exactCost rising hc
    exact enclosed

def atPlace (left right : Site) (place : Option Nat × Option Nat) : Candidate where
  left := place.1.bind fun i => left.preorder[i]?
  right := place.2.bind fun i => right.preorder[i]?

def atPlaces (left right : Site) (places : List (Option Nat × Option Nat)) : Candidates :=
  ⟨left, right, places.map (atPlace left right)⟩

theorem atPlaces_over (left right : Site) (places : List (Option Nat × Option Nat)) :
    (atPlaces left right places).Over := by
  intro c hc b s here
  obtain ⟨place, -, rfl⟩ := List.mem_map.mp hc
  cases b with
  | false =>
    obtain ⟨i, -, found⟩ := Option.bind_eq_some_iff.mp here
    exact List.mem_of_getElem? found
  | true =>
    obtain ⟨i, -, found⟩ := Option.bind_eq_some_iff.mp here
    exact List.mem_of_getElem? found

def fork (first : NodeId) : Node :=
  Tree.number first (.node ⟨⟨"list", none⟩, false, .plain⟩
    [.node ⟨⟨"item", some "a"⟩, false, .plain⟩ [], .node ⟨⟨"item", some "b"⟩, false, .plain⟩ []])

def crossed : Candidates :=
  atPlaces (.root (fork 0)) (.root (fork 3)) [(some 0, some 0), (some 1, some 2), (some 2, some 1)]

/-- Either way to pair the leaves, or to leave them alone. -/
def undecided : Candidates :=
  atPlaces (.root (fork 0)) (.root (fork 3)) [(some 0, some 0), (some 1, some 1), (some 1, some 2), (some 1, none),
    (some 2, some 1), (some 2, some 2), (some 2, none), (none, some 1), (none, some 2)]

theorem crossed_completes : Completes crossed undecided where
  left := rfl
  right := rfl
  apart := {
    leftTree := ⟨fork 0, (Tree.number_numbered _ 0).2, Site.self_mem_preorder _⟩
    rightTree := ⟨fork 3, (Tree.number_numbered _ 3).2, Site.self_mem_preorder _⟩
    disjoint := by
      intro i inside
      rw [Tree.containsId_iff] at inside
      rw [← Bool.not_eq_true, Tree.containsId_iff]
      change 0 ≤ i ∧ i < 0 + 3 at inside
      change ¬(3 ≤ i ∧ i < 3 + 3)
      lia }
  overCover := atPlaces_over _ _ _
  overGraph := atPlaces_over _ _ _
  sane := rfl
  within := by decide

theorem estimate_encloses_exactCost_crossed : ∃ c ∈ crossed.entries, ∃ d ∈ undecided.entries,
    c.key = (some 1, some 5) ∧ d.key = c.key ∧
    (∃ m n, c.left = some m ∧ c.right = some n ∧ CountsEnclosed crossed undecided m n ∧
      crossed.isOutOfOrder c m n = true ∧ undecided.violationPossible d m n = true) ∧
    Bounds.Encloses ((Recall.estimate undecided (.linear 1 1 1 1 1) d).run {}).1
      ((Recall.exactCost crossed (.linear 1 1 1 1 1) c).run {}).1 := by
  have hc : atPlace (.root (fork 0)) (.root (fork 3)) (some 1, some 2) ∈ crossed.entries := .tail _ (.head _)
  have hd : atPlace (.root (fork 0)) (.root (fork 3)) (some 1, some 2) ∈ undecided.entries :=
    .tail _ (.tail _ (.head _))
  obtain ⟨terms, whole⟩ := estimate_encloses_exactCost crossed_completes hc hd rfl
  obtain ⟨counts, -, -, possible⟩ := terms _ _ rfl rfl
  have empty := Memo.holds_empty crossed undecided
  exact ⟨_, hc, _, hd, rfl, rfl, ⟨_, _, rfl, rfl, counts, rfl, possible rfl⟩,
    whole 1 1 1 1 1 zero_le_one zero_le_one zero_le_one {} {} empty empty⟩

end Candidates

end TreeAlign
