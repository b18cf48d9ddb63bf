import Std.Data.HashMap.Lemmas
import TreeAlign.Cover.Memo
import TreeAlign.Proofs.Cover.Place

namespace TreeAlign

namespace Candidates

variable {cs cover graph : Candidates} {b : Bool} {s t : Site}

section Lowest

theorem bne_comm (s t : Site) : (s != t) = (t != s) := by
  change (!(s.id == t.id)) = !(t.id == s.id)
  rw [Bool.beq_comm]

theorem part_swap (last : Site × Site) (as bs : List Site) :
    part (last.2, last.1) bs as = ((part last as bs).2, (part last as bs).1) := by
  induction as generalizing last bs with
  | nil => cases bs <;> rfl
  | cons a as ih =>
    cases bs with
    | nil => rfl
    | cons b bs =>
      unfold part
      rw [bne_comm b a]
      split
      · rfl
      · exact ih (a, b) bs

theorem part_fst_mem (last : Site × Site) (as bs : List Site) : (part last as bs).1 ∈ last.1 :: as := by
  induction as generalizing last bs with
  | nil => cases bs <;> simp [part]
  | cons a as ih =>
    cases bs with
    | nil => simp [part]
    | cons b bs =>
      unfold part
      split
      · simp
      · exact List.mem_cons_of_mem _ (ih (a, b) bs)

theorem part_append (last : Site × Site) (shared : List Site) (a : Site) (as bs : List Site) :
    part last (shared ++ a :: as) (shared ++ a :: bs) = part (a, a) as bs := by
  have same (s : Site) : (s != s) = false := by
    change (!(s.id == s.id)) = false
    simp
  induction shared generalizing last with
  | nil => simp [part, same]
  | cons s shared ih => simp [part, same, ih]

theorem part_paths (last : Site × Site) (root : Site) (as bs : List Site) :
    part last (as ++ root.path).reverse (bs ++ root.path).reverse = part (root, root) as.reverse bs.reverse := by
  obtain ⟨above, way⟩ := root.path_eq_cons
  have down (below : List Site) : (below ++ root.path).reverse = above.reverse ++ root :: below.reverse := by simp [way]
  rw [down, down, part_append]

theorem lowest_eq_part (told : ∀ s ∈ (cs.root b).preorder, ∀ t ∈ (cs.root b).preorder, s.id = t.id → s = t)
    (hs : s ∈ (cs.root b).preorder) (ht : t ∈ (cs.root b).preorder) :
    cs.lowest s t = part (s, t) s.path.reverse t.path.reverse := by
  unfold lowest
  split
  · rename_i near
    obtain ⟨u, hu, same⟩ := List.contains_iff_exists_mem_beq.mp near
    have sibling : t ∈ cs.siblings s := by
      rwa [told t ht u (siblings_subset hs u hu) (beq_iff_eq.mp same)]
    rcases siblings_group hs with alone | ⟨parent, -, child, group⟩
    · rw [alone, List.mem_singleton] at sibling
      rw [sibling]
      exact (part_paths (s, s) s [] []).symm
    · rw [group] at sibling
      rw [Site.path_of_mem_children child, Site.path_of_mem_children sibling]
      refine Eq.trans ?_ (part_paths (s, t) parent [s] [t]).symm
      simp only [List.reverse_singleton]
      unfold part
      split <;> rfl
  · rfl

theorem lowest_swap (told : ∀ s ∈ (cs.root b).preorder, ∀ t ∈ (cs.root b).preorder, s.id = t.id → s = t)
    (hs : s ∈ (cs.root b).preorder) (ht : t ∈ (cs.root b).preorder) :
    cs.lowest t s = ((cs.lowest s t).2, (cs.lowest s t).1) := by
  rw [lowest_eq_part told hs ht, lowest_eq_part told ht hs]
  exact part_swap (s, t) _ _

theorem lowest_fst_mem (hs : s ∈ (cs.root b).preorder) (ht : t ∈ (cs.root b).preorder) :
    (cs.lowest s t).1 ∈ (cs.root b).preorder := by
  unfold lowest
  split
  · exact hs
  · obtain ⟨belowS, eqS, insideS⟩ := Site.path_of_mem_preorder hs
    obtain ⟨belowT, eqT, -⟩ := Site.path_of_mem_preorder ht
    rw [eqS, eqT, part_paths]
    rcases List.mem_cons.mp (part_fst_mem (cs.root b, cs.root b) belowS.reverse belowT.reverse) with eq | member
    · rw [eq]
      exact Site.self_mem_preorder _
    · exact insideS _ (List.mem_reverse.mp member)

end Lowest

def Remembers {α : Type} (cs : Candidates) (table : Std.HashMap NodeId α) (lookup : Site → Option α) : Prop :=
  ∀ b, ∀ s ∈ (cs.root b).preorder, ∀ a, table[s.id]? = some a → lookup s = some a

namespace Remembers

variable {α : Type} {table : Std.HashMap NodeId α} {lookup : Site → Option α}

theorem empty : cs.Remembers ({} : Std.HashMap NodeId α) lookup := by
  intro b s hs a found
  simp at found

theorem insert (remembers : cs.Remembers table lookup)
    (told : ∀ b b', ∀ s ∈ (cs.root b).preorder, ∀ t ∈ (cs.root b').preorder, s.id = t.id → s = t)
    (hs : s ∈ (cs.root b).preorder) {a : α} (known : lookup s = some a) :
    cs.Remembers (table.insert s.id a) lookup := by
  intro b' t ht a' found
  rw [Std.HashMap.getElem?_insert] at found
  split at found
  · next same =>
    rw [← told b b' s hs t ht (beq_iff_eq.mp same), known]
    exact found
  · exact remembers b' t ht a' found

end Remembers

end Candidates

/-- The tables hold what would be looked up in a cover and in a graph over the same subtrees. -/
structure Memo.Holds (cover graph : Candidates) (memo : Memo) : Prop where
  siblings : graph.Remembers memo.siblings fun s => some (graph.siblings s)
  otherSiblings : graph.Remembers memo.otherSiblings fun s => some (graph.otherSiblings s)
  lowest : ∀ b, ∀ s ∈ (graph.root b).preorder, ∀ t ∈ (graph.root b).preorder, ∀ pair,
    memo.lowest[(s.id, t.id)]? = some pair → pair = graph.lowest s t
  candidateOf : graph.Remembers memo.candidateOf cover.candidateOf?
  containing : graph.Remembers memo.containing fun s => some (graph.containing s)

theorem Memo.holds_empty (cover graph : Candidates) : ({} : Memo).Holds cover graph where
  siblings := .empty
  otherSiblings := .empty
  lowest b s hs t ht pair found := by simp at found
  candidateOf := .empty
  containing := .empty

namespace Recall

variable {cover graph : Candidates} {α β : Type}

/-- From tables that hold, the computation gives the value and leaves tables that hold. -/
def Gives (cover graph : Candidates) (run : Recall α) (value : α) : Prop :=
  ∀ memo : Memo, memo.Holds cover graph → ∃ memo' : Memo, run memo = (value, memo') ∧ memo'.Holds cover graph

namespace Gives

theorem of_pure (a : α) : Gives cover graph (pure a) a := fun memo holds => ⟨memo, rfl, holds⟩

theorem bind {run : Recall α} {next : α → Recall β} {a : α} {b : β} (first : Gives cover graph run a)
    (rest : Gives cover graph (next a) b) : Gives cover graph (run >>= next) b := by
  intro memo holds
  obtain ⟨memo', eq, holds'⟩ := first memo holds
  obtain ⟨memo'', eq', holds''⟩ := rest memo' holds'
  have steps : (run >>= next) memo = next (run memo).1 (run memo).2 := rfl
  refine ⟨memo'', ?_, holds''⟩
  rw [steps, eq]
  exact eq'

theorem map {run : Recall α} {a : α} (first : Gives cover graph run a) (f : α → β) :
    Gives cover graph (run >>= fun a => pure (f a)) (f a) :=
  first.bind (of_pure (f a))

theorem of_get {next : Memo → Recall α} {a : α}
    (rest : ∀ seen : Memo, seen.Holds cover graph → Gives cover graph (next seen) a) :
    Gives cover graph (get >>= next) a :=
  fun memo holds => rest memo holds memo holds

theorem of_modify {f : Memo → Memo} (keeps : ∀ memo : Memo, memo.Holds cover graph → (f memo).Holds cover graph) :
    Gives cover graph (modify f) () :=
  fun memo holds => ⟨f memo, rfl, keeps memo holds⟩

variable {xs : List α}

theorem mapM {f : α → Recall β} {g : α → β} (each : ∀ x ∈ xs, Gives cover graph (f x) (g x)) :
    Gives cover graph (xs.mapM f) (xs.map g) := by
  induction xs with
  | nil => exact of_pure _
  | cons x xs ih =>
    have rest := ih fun y hy => each y (List.mem_cons_of_mem _ hy)
    rw [List.mapM_cons]
    exact (each x List.mem_cons_self).bind (rest.map (g x :: ·))

theorem filterM {f : α → Recall Bool} {p : α → Bool} (each : ∀ x ∈ xs, Gives cover graph (f x) (p x)) :
    Gives cover graph (xs.filterM f) (xs.filter p) := by
  have collected (kept : List α) :
      Gives cover graph (xs.filterAuxM f kept) ((xs.filter p).reverse ++ kept) := by
    induction xs generalizing kept with
    | nil => exact of_pure _
    | cons x xs ih =>
      refine (each x List.mem_cons_self).bind ?_
      have rest := ih (fun y hy => each y (List.mem_cons_of_mem _ hy)) (bif p x then x :: kept else kept)
      cases hx : p x <;> simpa [hx] using rest
  have reversed := (collected []).map List.reverse
  rw [List.append_nil, List.reverse_reverse] at reversed
  exact reversed

theorem filterMapM {f : α → Recall (Option β)} {g : α → Option β} (each : ∀ x ∈ xs, Gives cover graph (f x) (g x)) :
    Gives cover graph (xs.filterMapM f) (xs.filterMap g) := by
  induction xs with
  | nil => exact of_pure _
  | cons x xs ih =>
    have rest := ih fun y hy => each y (List.mem_cons_of_mem _ hy)
    rw [List.filterMapM_cons]
    refine (each x List.mem_cons_self).bind ?_
    cases hx : g x with
    | none => simpa [hx] using rest
    | some y => simpa [hx] using rest.map (y :: ·)

theorem anyM {f : α → Recall Bool} {p : α → Bool} (each : ∀ x ∈ xs, Gives cover graph (f x) (p x)) :
    Gives cover graph (xs.anyM f) (xs.any p) := by
  induction xs with
  | nil => exact of_pure _
  | cons x xs ih =>
    have rest := ih fun y hy => each y (List.mem_cons_of_mem _ hy)
    rw [List.anyM_cons]
    refine (each x List.mem_cons_self).bind ?_
    cases hx : p x with
    | true => simpa [hx] using of_pure true
    | false => simpa [hx] using rest

theorem allM {f : α → Recall Bool} {p : α → Bool} (each : ∀ x ∈ xs, Gives cover graph (f x) (p x)) :
    Gives cover graph (xs.allM f) (xs.all p) := by
  induction xs with
  | nil => exact of_pure _
  | cons x xs ih =>
    have rest := ih fun y hy => each y (List.mem_cons_of_mem _ hy)
    rw [List.allM_cons]
    refine (each x List.mem_cons_self).bind ?_
    cases hx : p x with
    | true => simpa [hx] using rest
    | false => simpa [hx] using of_pure false

end Gives

variable {b : Bool} {s t m n : Site} {c d : Candidate} (h : Candidates.Together cover graph)

section Lookups

include h

theorem entry_gives {table : Memo.Table α} {value : Site → α} {compute : Recall α} (hs : s ∈ (graph.root b).preorder)
    (remembers : ∀ memo : Memo, memo.Holds cover graph → graph.Remembers (table.read memo) fun s => some (value s))
    (keeps : ∀ memo : Memo, memo.Holds cover graph → ∀ entries, (graph.Remembers entries fun s => some (value s)) →
      (table.write entries memo).Holds cover graph)
    (computed : Gives cover graph compute (value s)) : Gives cover graph (entry table s compute) (value s) := by
  refine .of_get fun seen holds => ?_
  cases found : (table.read seen)[s.id]? with
  | some a =>
    have known := remembers seen holds b s hs a found
    rw [Option.some_inj.mp known]
    exact .of_pure a
  | none =>
    refine computed.bind (Gives.bind (.of_modify fun memo holds => ?_) (.of_pure _))
    exact keeps memo holds _ ((remembers memo holds).insert h.told hs rfl)

theorem siblings_gives (hs : s ∈ (graph.root b).preorder) :
    Gives cover graph (siblings graph s) (graph.siblings s) :=
  entry_gives h hs (fun _ holds => holds.siblings) (fun _ holds _ kept => { holds with siblings := kept }) (.of_pure _)

theorem otherSiblings_gives (hs : s ∈ (graph.root b).preorder) :
    Gives cover graph (otherSiblings graph s) (graph.otherSiblings s) :=
  entry_gives h hs (fun _ holds => holds.otherSiblings) (fun _ holds _ kept => { holds with otherSiblings := kept })
    ((siblings_gives h hs).map fun group => group.filter (· != s))

theorem holds_lowest {memo : Memo} (holds : memo.Holds cover graph) (hs : s ∈ (graph.root b).preorder)
    (ht : t ∈ (graph.root b).preorder) :
    { memo with lowest := memo.lowest.insert (s.id, t.id) (graph.lowest s t) : Memo }.Holds cover graph := by
  refine { holds with lowest := fun b' s' hs' t' ht' pair found => ?_ }
  rw [Std.HashMap.getElem?_insert] at found
  split at found
  · next same =>
    obtain ⟨sameS, sameT⟩ := Prod.mk.inj (beq_iff_eq.mp same)
    rw [← h.told b b' s hs s' hs' sameS, ← h.told b b' t ht t' ht' sameT]
    exact (Option.some_inj.mp found).symm
  · exact holds.lowest b' s' hs' t' ht' pair found

theorem lowest_gives (hs : s ∈ (graph.root b).preorder) (ht : t ∈ (graph.root b).preorder) :
    Gives cover graph (lowest graph s t) (graph.lowest s t) := by
  refine .of_get fun seen holds => ?_
  cases found : seen.lowest[(s.id, t.id)]? with
  | some pair =>
    rw [← holds.lowest b s hs t ht pair found]
    exact .of_pure pair
  | none =>
    refine .of_get fun seen holds => ?_
    cases found : seen.lowest[(t.id, s.id)]? with
    | some pair =>
      rw [Candidates.lowest_swap (h.told b b) ht hs, ← holds.lowest b t ht s hs pair found]
      exact .of_pure _
    | none =>
      refine (siblings_gives h hs).bind (Gives.bind (.of_modify fun memo holds => ?_) (.of_pure _))
      exact holds_lowest h holds hs ht

theorem candidateOf?_gives (hs : s ∈ (graph.root b).preorder) :
    Gives cover graph (candidateOf? cover s) (cover.candidateOf? s) := by
  refine .of_get fun seen holds => ?_
  cases found : seen.candidateOf[s.id]? with
  | some c =>
    rw [holds.candidateOf b s hs c found]
    exact .of_pure _
  | none =>
    cases known : cover.candidateOf? s with
    | none => exact .of_pure none
    | some c =>
      refine Gives.bind (.of_modify fun memo holds => ?_) (.of_pure _)
      exact { holds with candidateOf := holds.candidateOf.insert h.told hs known }

theorem image?_gives (hs : s ∈ (graph.root b).preorder) : Gives cover graph (image? cover s) (cover.image? s) :=
  (candidateOf?_gives h hs).map fun c => c.bind (·.other? s.id)

theorem containing_gives (hs : s ∈ (graph.root b).preorder) :
    Gives cover graph (containing graph s) (graph.containing s) :=
  entry_gives h hs (fun _ holds => holds.containing) (fun _ holds _ kept => { holds with containing := kept }) (.of_pure _)

theorem partners_gives (hs : s ∈ (graph.root b).preorder) :
    Gives cover graph (partners graph s) (graph.partners s) :=
  (containing_gives h hs).map (List.map fun c => c.other? s.id)

theorem violatesOrder_gives (hd : ∀ b s, d.side b = some s → s ∈ (graph.root b).preorder)
    (hc : ∀ b s, c.side b = some s → s ∈ (graph.root b).preorder) :
    Gives cover graph (violatesOrder graph d c) (graph.violatesOrder d c) := by
  unfold violatesOrder Candidates.violatesOrder
  cases hdl : d.left with
  | none => exact .of_pure false
  | some dl =>
    cases hdr : d.right with
    | none => exact .of_pure false
    | some dr =>
      cases hcl : c.left with
      | none => exact .of_pure false
      | some cl =>
        cases hcr : c.right with
        | none => exact .of_pure false
        | some cr =>
          have hdl := hd false dl hdl
          have hdr := hd true dr hdr
          have hcl := hc false cl hcl
          have hcr := hc true cr hcr
          refine (lowest_gives h hdl hcl).bind ((lowest_gives h hdr hcr).bind ?_)
          refine (siblings_gives h (Candidates.lowest_fst_mem hdl hcl)).bind ?_
          exact (siblings_gives h (Candidates.lowest_fst_mem hdr hcr)).map _

theorem siblings_eq : siblings cover = siblings graph := by
  funext s
  unfold siblings
  simp only [h.siblings_eq]

theorem otherSiblings_eq : otherSiblings cover = otherSiblings graph := by
  funext s
  unfold otherSiblings
  rw [siblings_eq h]

theorem violatesOrder_eq : violatesOrder cover = violatesOrder graph := by
  have lowest_eq : lowest cover = lowest graph := by
    funext s t
    unfold lowest
    rw [siblings_eq h]
  funext d c
  unfold violatesOrder
  rw [lowest_eq, siblings_eq h]

end Lookups

section Costs

variable {R : Type} [NatCast R] (w : Weights R)

include h

theorem strayChildren_gives (hm : m ∈ (graph.root b).preorder) (n : Site) :
    Gives cover graph (strayChildren cover m n) (cover.strayChildren m n) :=
  (Gives.filterMapM fun _ child => image?_gives h (Site.child_mem_preorder child hm)).map fun images =>
    images.countP fun partner => !n.hasChild partner

theorem invariantSiblings_gives {b' : Bool} (hm : m ∈ (graph.root b).preorder) (hn : n ∈ (graph.root b').preorder) :
    Gives cover graph (invariantSiblings cover m n) (cover.invariantSiblings m n) := by
  unfold invariantSiblings Candidates.invariantSiblings
  rw [siblings_eq h, h.siblings_eq, h.siblings_eq]
  refine (siblings_gives h hn).bind ((siblings_gives h hm).bind (Gives.filterM fun s hs => ?_))
  refine (image?_gives h (Candidates.siblings_subset hm s hs)).bind ?_
  cases cover.image? s with
  | none => exact .of_pure false
  | some partner => exact .of_pure _

theorem breakup_gives [Div R] {b' : Bool} (hm : m ∈ (graph.root b).preorder) (hn : n ∈ (graph.root b').preorder) :
    Gives cover graph (breakup cover m n : Recall R) (cover.breakup m n) := by
  have image {s : Site} (hs : s ∈ graph.siblings m) : Gives cover graph (image? cover s) (cover.image? s) :=
    image?_gives h (Candidates.siblings_subset hm s hs)
  have divergent : Gives cover graph ((graph.siblings m).filterM fun s => do
      if (cover.invariantSiblings m n).contains s then return false
      return (← image? cover s).isSome)
      ((graph.siblings m).filter fun s => !(cover.invariantSiblings m n).contains s && (cover.image? s).isSome) := by
    refine Gives.filterM fun s hs => ?_
    cases (cover.invariantSiblings m n).contains s with
    | true => exact .of_pure false
    | false => exact (image hs).map Option.isSome
  have count : ((graph.siblings m).filter fun s =>
      !(cover.invariantSiblings m n).contains s && (cover.image? s).isSome).length = cover.divergentSiblings m n := by
    rw [Candidates.divergentSiblings, h.siblings_eq, List.countP_eq_length_filter]
  unfold breakup
  rw [siblings_eq h]
  refine (invariantSiblings_gives h hm hn).bind ((siblings_gives h hm).bind (divergent.bind ?_))
  rw [count]
  unfold Candidates.breakup
  by_cases none : cover.divergentSiblings m n = 0
  · rw [if_pos none, if_pos none]
    exact .of_pure _
  · rw [if_neg none, if_neg none, Candidates.families, h.siblings_eq]
    exact (Gives.filterMapM fun _ hs => image hs).map _

theorem ancestryCost_gives {b' : Bool} (hm : m ∈ (graph.root b).preorder) (hn : n ∈ (graph.root b').preorder) :
    Gives cover graph (ancestryCost cover w m n) (cover.ancestryCost w m n) :=
  (strayChildren_gives h hm n).bind ((strayChildren_gives h hn m).map _)

theorem siblingCost_gives [Add R] [Div R] {b' : Bool} (hm : m ∈ (graph.root b).preorder) (hn : n ∈ (graph.root b').preorder) :
    Gives cover graph (siblingCost cover w m n) (cover.siblingCost w m n) :=
  (breakup_gives h hm hn).bind ((breakup_gives h hn hm).map _)

theorem orderingCost_gives (hc : ∀ b s, c.side b = some s → s ∈ (graph.root b).preorder)
    (hm : m ∈ (graph.root false).preorder) (hn : n ∈ (graph.root true).preorder) :
    Gives cover graph (orderingCost cover w c m n) (cover.orderingCost w c m n) := by
  unfold orderingCost Candidates.orderingCost Candidates.isOutOfOrder
  rw [otherSiblings_eq h, violatesOrder_eq h, List.any_filterMap, h.otherSiblings_eq, h.otherSiblings_eq]
  refine (otherSiblings_gives h hm).bind ((otherSiblings_gives h hn).bind (Gives.map (Gives.anyM fun s hs => ?_) _))
  obtain ⟨b, inside⟩ := Candidates.otherSiblings_sides hm hn s hs
  refine (candidateOf?_gives h inside).bind ?_
  cases found : cover.candidateOf? s with
  | none => exact .of_pure false
  | some other =>
    simp only
    cases other.isNoMatch with
    | true => exact .of_pure false
    | false =>
      rw [h.violatesOrder_eq]
      have member := List.mem_of_find?_eq_some found
      exact violatesOrder_gives h (fun b s here => h.root b ▸ h.overCover other member b s here) hc

theorem exactCost_recalled [Add R] [Div R] (hc : c ∈ cover.entries) :
    Gives cover graph (exactCost cover w c) (cover.exactCost w c) := by
  have inside (b : Bool) (s : Site) (here : c.side b = some s) : s ∈ (graph.root b).preorder :=
    h.root b ▸ h.overCover c hc b s here
  unfold exactCost Candidates.exactCost
  cases hl : c.left with
  | none => exact .of_pure _
  | some m =>
    cases hr : c.right with
    | none => exact .of_pure _
    | some n =>
      have hm := inside false m hl
      have hn := inside true n hr
      refine (ancestryCost_gives h w hm hn).bind ((siblingCost_gives h w hm hn).bind ?_)
      exact (orderingCost_gives h w inside hm hn).map _

theorem countPartners_gives (test : Site → Bool) {sites : List Site}
    (hsites : ∀ s ∈ sites, s ∈ (graph.root b).preorder) :
    Gives cover graph (countPartners graph test sites) (graph.countPartners test sites) := by
  unfold countPartners Candidates.countPartners
  rw [List.countP_eq_length_filter, List.countP_eq_length_filter]
  refine (Gives.filterM fun s hs => (partners_gives h (hsites s hs)).map fun ps => ps.all (·.any test)).bind ?_
  exact (Gives.filterM fun s hs => (partners_gives h (hsites s hs)).map fun ps => ps.any (·.any test)).map _

theorem ancestryBounds_gives {b' : Bool} (hm : m ∈ (graph.root b).preorder) (hn : n ∈ (graph.root b').preorder) :
    Gives cover graph (ancestryBounds graph w m n) (graph.ancestryBounds w m n) := by
  refine (countPartners_gives h _ fun s child => Site.child_mem_preorder child hm).bind ?_
  exact (countPartners_gives h _ fun s child => Site.child_mem_preorder child hn).map _

theorem breakupBounds_gives [Mul R] [Div R] {b' : Bool} (hm : m ∈ (graph.root b).preorder)
    (hn : n ∈ (graph.root b').preorder) :
    Gives cover graph (breakupBounds graph m n : Recall (Bounds R)) (graph.breakupBounds m n) := by
  have own := Candidates.otherSiblings_subset hm
  refine (otherSiblings_gives h hm).bind ((otherSiblings_gives h hn).bind ?_)
  refine (countPartners_gives h (fun partner => !(graph.otherSiblings n).contains partner) own).bind ?_
  unfold Candidates.breakupBounds Candidates.divergentBounds
  simp only
  split
  · exact .of_pure _
  · exact (countPartners_gives h (fun partner => (graph.otherSiblings n).contains partner) own).map _

theorem siblingBounds_gives [Add R] [Mul R] [Div R] {b' : Bool} (hm : m ∈ (graph.root b).preorder)
    (hn : n ∈ (graph.root b').preorder) :
    Gives cover graph (siblingBounds graph w m n) (graph.siblingBounds w m n) :=
  (breakupBounds_gives h hm hn).bind ((breakupBounds_gives h hn hm).map _)

section Ordering

variable (hc : ∀ b s, c.side b = some s → s ∈ (graph.root b).preorder) (hm : m ∈ (graph.root false).preorder)
  (hn : n ∈ (graph.root true).preorder)

include hc hm hn

theorem violates_gives {s : Site} (hs : s ∈ graph.otherSiblings m ++ graph.otherSiblings n) :
    Gives cover graph (containing graph s) (graph.containing s) ∧
      ∀ other ∈ graph.containing s, Gives cover graph (violatesOrder graph other c) (graph.violatesOrder other c) := by
  obtain ⟨b, inside⟩ := Candidates.otherSiblings_sides hm hn s hs
  refine ⟨containing_gives h inside, fun other found => ?_⟩
  exact violatesOrder_gives h (h.overGraph other (List.mem_filter.mp found).1) hc

theorem orderPossible_gives : Gives cover graph (orderPossible graph c (graph.otherSiblings m ++ graph.otherSiblings n))
    (graph.orderPossible c m n) := by
  refine Gives.allM fun s hs => ?_
  obtain ⟨found, violates⟩ := violates_gives h hc hm hn hs
  refine found.bind (Gives.anyM fun other member => ?_)
  cases other.isNoMatch with
  | true => exact .of_pure true
  | false => exact (violates other member).map (!·)

theorem violationPossible_gives :
    Gives cover graph (violationPossible graph c (graph.otherSiblings m ++ graph.otherSiblings n))
      (graph.violationPossible c m n) := by
  refine Gives.anyM fun s hs => ?_
  obtain ⟨found, violates⟩ := violates_gives h hc hm hn hs
  refine found.bind (Gives.anyM fun other member => ?_)
  cases other.isNoMatch with
  | true => exact .of_pure false
  | false => exact violates other member

theorem orderingBounds_gives :
    Gives cover graph (orderingBounds graph w c m n) (graph.orderingBounds w c m n) := by
  refine (otherSiblings_gives h hm).bind ((otherSiblings_gives h hn).bind ?_)
  refine (orderPossible_gives h hc hm hn).bind ?_
  unfold Candidates.orderingBounds
  cases graph.orderPossible c m n with
  | true => exact (violationPossible_gives h hc hm hn).map _
  | false => exact .of_pure _

end Ordering

theorem estimate_recalled [Add R] [Mul R] [Div R] (hc : c ∈ graph.entries) :
    Gives cover graph (estimate graph w c) (graph.estimate w c) := by
  have inside := h.overGraph c hc
  unfold estimate Candidates.estimate
  cases hl : c.left with
  | none => exact .of_pure _
  | some m =>
    cases hr : c.right with
    | none => exact .of_pure _
    | some n =>
      have hm := inside false m hl
      have hn := inside true n hr
      refine (ancestryBounds_gives h w hm hn).bind ((siblingBounds_gives h w hm hn).bind ?_)
      exact (orderingBounds_gives h w inside hm hn).map _

end Costs

theorem exactCosts_recalled {R : Type} [NatCast R] [Add R] [Div R] (h : Candidates.Together cover cover) (w : Weights R) :
    ((exactCosts cover w).run {}).1 = cover.entries.map (cover.exactCost w) := by
  obtain ⟨_, eq, -⟩ := Gives.mapM (fun _ hc => exactCost_recalled h w hc) {} (Memo.holds_empty cover cover)
  exact congrArg Prod.fst eq

section Parallel

variable {R : Type} [NatCast R] [Add R] [Div R] (parallel : Candidates.Parallel cover graph) (w : Weights R)

include parallel

theorem exactCost_gives (hc : c ∈ cover.entries) : Gives cover graph (exactCost cover w c) (cover.exactCost w c) :=
  exactCost_recalled parallel.together w hc

theorem estimate_gives [Mul R] (hc : c ∈ graph.entries) : Gives cover graph (estimate graph w c) (graph.estimate w c) :=
  estimate_recalled parallel.together w hc

end Parallel

end Recall

end TreeAlign
