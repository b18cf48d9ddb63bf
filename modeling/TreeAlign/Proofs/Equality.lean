import TreeAlign.Proofs.Answers
import TreeAlign.Proofs.Outcome

namespace TreeAlign

namespace Tree

def labels (t : Node) : Tree Label :=
  t.map fun value => value.2.label

theorem maps_eq_map {α β : Type} (f : α → β) (ts : List (Tree α)) : maps f ts = ts.map (map f) := by
  induction ts with
  | nil => rfl
  | cons t ts ih => simp [maps, ih]

theorem labels_eq_iff {a b : Node} :
    a.labels = b.labels ↔ a.sameLabel b = true ∧ a.children.map labels = b.children.map labels := by
  obtain ⟨value, children⟩ := a
  obtain ⟨value', children'⟩ := b
  simp only [labels, map, maps_eq_map, node.injEq, sameLabel, beq_iff_eq]
  rfl

end Tree

namespace Mapping

variable {left right : Node} {mapping : Mapping}

theorem card_le_size {t : Node} {key : NodeId × NodeId → NodeId} (inside : ∀ p ∈ mapping, key p ∈ t.preorder.map Tree.id)
    (single : Set.InjOn key (mapping : Set (NodeId × NodeId))) : mapping.card ≤ t.size := by
  have sub : mapping.image key ⊆ (t.preorder.map Tree.id).toFinset := by
    intro i member
    obtain ⟨p, hp, rfl⟩ := Finset.mem_image.mp member
    exact List.mem_toFinset.mpr (inside p hp)
  calc mapping.card
      = (mapping.image key).card := (Finset.card_image_of_injOn single).symm
    _ ≤ (t.preorder.map Tree.id).toFinset.card := Finset.card_le_card sub
    _ ≤ (t.preorder.map Tree.id).length := List.toFinset_card_le _
    _ = t.size := by rw [List.length_map, Tree.length_preorder]

theorem Admissible.agreement_le (h : Admissible left right mapping) : agreement left right mapping ≤ left.size :=
  Nat.le_trans (Finset.card_filter_le _ _) <| card_le_size (fun p hp => (h.inside p hp).1)
    fun p hp q hq same => Prod.ext same ((h.single p hp q hq).mp same)

theorem Admissible.agreement_le_right (h : Admissible left right mapping) :
    agreement left right mapping ≤ right.size :=
  Nat.le_trans (Finset.card_filter_le _ _) <| card_le_size (fun p hp => (h.inside p hp).2)
    fun p hp q hq same => Prod.ext ((h.single p hp q hq).mpr same) same

theorem isGreatest_of_agreement_eq_size (h : Admissible left right mapping)
    (all : agreement left right mapping = left.size) : IsGreatest (agreements left right) left.size := by
  refine ⟨⟨mapping, h, all.symm⟩, ?_⟩
  rintro _ ⟨other, admissible, rfl⟩
  exact admissible.agreement_le

end Mapping

namespace Equality

/-- Every place together with the same place on the other side. -/
def diagonal (n : Nat) : Finset (Nat × Nat) :=
  (Finset.range n).image fun i => (i, i)

theorem mem_diagonal {n : Nat} {place : Nat × Nat} : place ∈ diagonal n ↔ place.1 < n ∧ place.2 = place.1 := by
  rw [diagonal, Finset.mem_image]
  constructor
  · rintro ⟨i, member, rfl⟩
    exact ⟨Finset.mem_range.mp member, rfl⟩
  · rintro ⟨inside, same⟩
    exact ⟨place.1, Finset.mem_range.mpr inside, Prod.ext rfl same.symm⟩

theorem diagonal_selectable (ordered : Bool) (n : Nat) : Selectable ordered (diagonal n) := by
  have rising : NonCrossing (diagonal n) := by
    intro p hp q hq
    rw [(mem_diagonal.mp hp).2, (mem_diagonal.mp hq).2]
  cases ordered with
  | true => exact rising
  | false => exact rising.oneToOne

/-- What a comparison of two nodes says: they have an entry if they are equal, and then everything below them
is matched. -/
structure Compared (left right : Node) (ms : Matchings) : Prop where
  distinct : ms.Distinct
  equal : (left.id, right.id) ∈ ms.mapping ↔ left.labels = right.labels
  inside : ∀ p ∈ ms.mapping, left.containsId p.1 = true
  found : (left.id, right.id) ∈ ms.mapping → Found left right ms
  score : ∀ m, ms.get? left.id right.id = some m → m.score = left.size
  agreement : (left.id, right.id) ∈ ms.mapping → Mapping.agreement left right ms.mapping = left.size

/-- The comparisons of nodes at the same position. -/
def Walked (lefts rights : List Node) (parts : List (Option Matching × Matchings)) : Prop :=
  List.Forall₂ (fun pair part => part.1 = part.2.get? pair.1.id pair.2.id ∧ Compared pair.1 pair.2 part.2)
    (lefts.zip rights) parts

def belowOf (parts : List (Option Matching × Matchings)) : Matchings :=
  parts.foldl (fun ms part => ms.union part.2) Matchings.empty

theorem mem_mapping_belowOf {parts : List (Option Matching × Matchings)} {p : NodeId × NodeId} :
    p ∈ (belowOf parts).mapping ↔ ∃ part ∈ parts, p ∈ part.2.mapping := by
  rw [belowOf, Matchings.mem_mapping_foldl_union]
  exact or_iff_right (Finset.notMem_empty p)

theorem mem_belowOf {parts : List (Option Matching × Matchings)} {m : Matching} (h : m ∈ (belowOf parts).entries) :
    ∃ part ∈ parts, m ∈ part.2.entries :=
  (Matchings.mem_foldl_union h).resolve_left List.not_mem_nil

theorem distinct_belowOf (parts : List (Option Matching × Matchings)) : (belowOf parts).Distinct :=
  Matchings.Distinct.foldl_union List.nodup_nil

variable {left right : Node} {lefts rights : List Node} {parts : List (Option Matching × Matchings)} {entry : Matching}

theorem Walked.at (walked : Walked lefts rights parts) {i : Nat} {part : Option Matching × Matchings}
    (h : parts[i]? = some part) : ∃ l r : Node, lefts[i]? = some l ∧ rights[i]? = some r ∧
      part.1 = part.2.get? l.id r.id ∧ Compared l r part.2 := by
  obtain ⟨⟨l, r⟩, pair, same, compared⟩ := forall₂_getElem? walked.flip h
  obtain ⟨hl, hr⟩ := List.getElem?_zip_eq_some.mp pair
  exact ⟨l, r, hl, hr, same, compared⟩

theorem Walked.inside (walked : Walked left.children right.children parts) {p : NodeId × NodeId}
    (h : p ∈ (belowOf parts).mapping) : ∃ c ∈ left.children, c.containsId p.1 = true := by
  obtain ⟨part, member, below⟩ := mem_mapping_belowOf.mp h
  obtain ⟨i, hi⟩ := List.mem_iff_getElem?.mp member
  obtain ⟨l, r, hl, -, -, compared⟩ := walked.at hi
  exact ⟨l, List.mem_of_getElem? hl, compared.inside p below⟩

theorem Walked.root_notMem (walked : Walked left.children right.children parts) (hl : left.Numbered) {i : NodeId} :
    (left.id, i) ∉ (belowOf parts).mapping := by
  intro member
  obtain ⟨c, child, inside⟩ := walked.inside member
  exact hl.not_containsId_child child inside

theorem Walked.map_direct {f : Matching → Nat} {g : Node → Nat} (walked : Walked lefts rights parts)
    (known : ∀ l r ms m, Compared l r ms → ms.get? l.id r.id = some m → f m = g l)
    (wide : lefts.length = rights.length) (all : ∀ part ∈ parts, part.1.isSome = true) :
    (parts.filterMap Prod.fst).map f = lefts.map g := by
  induction lefts generalizing rights parts with
  | nil =>
    cases walked
    rfl
  | cons l lefts ih =>
    cases rights with
    | nil => cases wide
    | cons r rights =>
      cases walked with
      | cons head tail =>
        rename_i part parts
        obtain ⟨m, found⟩ := Option.isSome_iff_exists.mp (all part List.mem_cons_self)
        have rest := ih tail (Nat.succ.inj wide) fun part member => all part (List.mem_cons_of_mem _ member)
        rw [List.filterMap_cons_some found, List.map_cons, rest, List.map_cons,
          known l r part.2 m head.2 (head.1.symm.trans found)]

theorem verdict?_eq_some (h : verdict? left right parts = some entry) :
    (∀ part ∈ parts, part.1.isSome = true) ∧ left.children.length = right.children.length ∧
      left.sameLabel right = true ∧ entry.pair = (left.id, right.id) ∧
      entry.score = ((parts.filterMap Prod.fst).map Matching.score).sum + 1 ∧
      entry.children = (parts.filterMap Prod.fst).map Matching.shallow := by
  rw [verdict?] at h
  split at h
  · rename_i equal
    obtain ⟨all, wide, label⟩ := equal
    cases h
    exact ⟨List.filterMap_length_eq_length.mp all, wide, label, rfl, rfl, rfl⟩
  · cases h

theorem algorithm_verdict? (h : verdict? left right parts = some entry) : entry.algorithm = .equality := by
  rw [verdict?] at h
  split at h
  · cases h
    rfl
  · cases h

theorem Walked.all_iff (walked : Walked lefts rights parts) (wide : lefts.length = rights.length) :
    (∀ part ∈ parts, part.1.isSome = true) ↔ lefts.map Tree.labels = rights.map Tree.labels := by
  induction lefts generalizing rights parts with
  | nil =>
    cases rights with
    | nil =>
      cases walked
      simp
    | cons r rights => cases wide
  | cons l lefts ih =>
    cases rights with
    | nil => cases wide
    | cons r rights =>
      cases walked with
      | cons head tail =>
        rw [List.forall_mem_cons, ih tail (Nat.succ.inj wide), head.1, Matchings.isSome_get?_iff, head.2.equal]
        simp

theorem Walked.isSome_verdict?_iff (walked : Walked left.children right.children parts) :
    (verdict? left right parts).isSome = true ↔ left.labels = right.labels := by
  have checked : (verdict? left right parts).isSome = true ↔ (∀ part ∈ parts, part.1.isSome = true) ∧
      left.children.length = right.children.length ∧ left.sameLabel right = true := by
    rw [verdict?]
    split <;> rename_i equal <;> rw [List.filterMap_length_eq_length] at equal
    · exact iff_of_true rfl equal
    · exact iff_of_false Bool.false_ne_true equal
  rw [checked, Tree.labels_eq_iff]
  constructor
  · intro ⟨all, wide, label⟩
    exact ⟨label, (walked.all_iff wide).mp all⟩
  · intro ⟨label, below⟩
    have wide := congrArg List.length below
    rw [List.length_map, List.length_map] at wide
    exact ⟨(walked.all_iff wide).mpr below, wide, label⟩

theorem Walked.labels_ne (walked : Walked left.children right.children parts) (verdict : verdict? left right parts = none) :
    left.labels ≠ right.labels := by
  intro same
  have := walked.isSome_verdict?_iff.mpr same
  rw [verdict] at this
  cases this

def partAt (parts : List (Option Matching × Matchings)) (place : Nat × Nat) : Matchings :=
  match parts[place.1]? with
  | some part => part.2
  | none => .empty

theorem Walked.equal_at (walked : Walked lefts rights parts) (wide : lefts.length = rights.length)
    (all : ∀ part ∈ parts, part.1.isSome = true) {place : Nat × Nat} (used : place ∈ diagonal lefts.length) :
    ∃ l r : Node, lefts[place.1]? = some l ∧ rights[place.2]? = some r ∧ Compared l r (partAt parts place) ∧
      (l.id, r.id) ∈ (partAt parts place).mapping := by
  obtain ⟨inside, same⟩ := mem_diagonal.mp used
  have length : parts.length = lefts.length := by
    rw [← walked.length_eq, List.length_zip, ← wide, Nat.min_self]
  rw [← length] at inside
  have hpart := List.getElem?_eq_getElem inside
  obtain ⟨l, r, hl, hr, direct, compared⟩ := walked.at hpart
  refine ⟨l, r, hl, same ▸ hr, ?_⟩
  rw [partAt, hpart]
  refine ⟨compared, Matchings.isSome_get?_iff.mp ?_⟩
  rw [← direct]
  exact all _ (List.mem_of_getElem? hpart)

theorem Compared.scoreOf_eq {ms : Matchings} (compared : Compared left right ms)
    (equal : (left.id, right.id) ∈ ms.mapping) : ms.scoreOf left.id right.id = left.size := by
  obtain ⟨m, found⟩ := Option.isSome_iff_exists.mp (Matchings.isSome_get?_iff.mpr equal)
  rw [Matchings.scoreOf, found]
  exact compared.score m found

theorem sum_diagonal (xs : List Node) :
    ∑ place ∈ diagonal xs.length, ((xs[place.1]?).map Tree.size).getD 0 = (xs.map Tree.size).sum := by
  rw [diagonal, Finset.sum_image (fun i _ j _ same => congrArg Prod.fst same)]
  induction xs with
  | nil => rfl
  | cons x xs ih =>
    rw [List.length_cons, Finset.sum_range_succ', List.map_cons, List.sum_cons, Nat.add_comm]
    congr 1

theorem Walked.exists_partAt (walked : Walked lefts rights parts) {part : Option Matching × Matchings}
    (member : part ∈ parts) : ∃ place ∈ diagonal lefts.length, partAt parts place = part.2 := by
  obtain ⟨i, hi⟩ := List.mem_iff_getElem?.mp member
  obtain ⟨l, r, hl, -, -, -⟩ := walked.at hi
  refine ⟨(i, i), mem_diagonal.mpr ⟨(List.getElem?_eq_some_iff.mp hl).1, rfl⟩, ?_⟩
  rw [partAt, hi]

theorem Walked.mem_partAt (walked : Walked lefts rights parts) {p : NodeId × NodeId} :
    (∃ part ∈ parts, p ∈ part.2.mapping) ↔ ∃ place ∈ diagonal lefts.length, p ∈ (partAt parts place).mapping := by
  constructor
  · rintro ⟨part, member, below⟩
    obtain ⟨place, used, same⟩ := walked.exists_partAt member
    exact ⟨place, used, same ▸ below⟩
  · rintro ⟨place, used, below⟩
    rw [partAt] at below
    cases hpart : parts[place.1]? with
    | none =>
      rw [hpart] at below
      exact absurd below (Finset.notMem_empty p)
    | some part =>
      rw [hpart] at below
      exact ⟨part, List.mem_of_getElem? hpart, below⟩

theorem Walked.mapping_add (walked : Walked left.children right.children parts)
    (pair : entry.pair = (left.id, right.id)) : ((belowOf parts).add entry).mapping =
      Mapping.glue left right (diagonal left.children.length) fun place => (partAt parts place).mapping := by
  ext p
  rw [Matchings.mapping_add, pair, Finset.mem_insert, mem_mapping_belowOf, walked.mem_partAt, Mapping.mem_glue]

theorem Walked.mem_children (walked : Walked left.children right.children parts)
    (listed : entry.children = (parts.filterMap Prod.fst).map Matching.shallow) (c : Matching) :
    c ∈ entry.children ↔ ∃ place ∈ diagonal left.children.length, ∃ a b, left.children[place.1]? = some a ∧
      right.children[place.2]? = some b ∧ ∃ n ∈ (partAt parts place).entries, n.pair = (a.id, b.id) ∧ n.shallow = c := by
  rw [listed, List.mem_map]
  constructor
  · rintro ⟨n, member, rfl⟩
    obtain ⟨part, hpart, direct⟩ := List.mem_filterMap.mp member
    obtain ⟨i, hi⟩ := List.mem_iff_getElem?.mp hpart
    obtain ⟨a, b, ha, hb, same, -⟩ := walked.at hi
    obtain ⟨inside, pair⟩ := Matchings.mem_of_get? (same.symm.trans direct)
    refine ⟨(i, i), mem_diagonal.mpr ⟨(List.getElem?_eq_some_iff.mp ha).1, rfl⟩, a, b, ha, hb, n, ?_, pair, rfl⟩
    rwa [partAt, hi]
  · rintro ⟨place, used, a, b, ha, hb, n, inside, pair, rfl⟩
    rw [(mem_diagonal.mp used).2] at hb
    rw [partAt] at inside
    cases hpart : parts[place.1]? with
    | none =>
      rw [hpart] at inside
      exact absurd inside List.not_mem_nil
    | some part =>
      rw [hpart] at inside
      obtain ⟨a', b', ha', hb', same, compared⟩ := walked.at hpart
      rw [ha, Option.some_inj] at ha'
      rw [hb, Option.some_inj] at hb'
      subst ha'
      subst hb'
      have direct : part.1 = some n := same.trans (compared.distinct.get? inside pair)
      exact ⟨n, List.mem_filterMap.mpr ⟨part, List.mem_of_getElem? hpart, direct⟩, rfl⟩

theorem Walked.found (walked : Walked left.children right.children parts) (hl : left.Numbered) (hr : right.Numbered)
    (verdict : verdict? left right parts = some entry) : Found left right ((belowOf parts).add entry) := by
  obtain ⟨all, wide, label, pair, score, listed⟩ := verdict?_eq_some verdict
  have gathers : Gathers left right (diagonal left.children.length) (partAt parts) entry := by
    refine ⟨pair, ?_, walked.mem_children listed, .inr ?_⟩
    · have ends : entry.children.map Matching.left = left.children.map Tree.id := by
        rw [listed, List.map_map]
        refine walked.map_direct (fun l r ms m _ found => ?_) wide all
        exact congrArg Prod.fst (Matchings.mem_of_get? found).2
      rw [ends]
    · rw [score, listed, List.map_map, Tree.ownScore, if_pos label]
      rfl
  have glued : Glued left right (diagonal left.children.length) (partAt parts) ((belowOf parts).add entry) := by
    refine ⟨diagonal_selectable _ left.children.length, fun place used => ?_, walked.mapping_add pair,
      (distinct_belowOf parts).add entry, fun m member => ?_⟩
    · obtain ⟨a, b, ha, hb, compared, equal⟩ := walked.equal_at wide all used
      refine ⟨a, b, ha, hb, compared.found equal, ?_⟩
      rw [compared.scoreOf_eq equal]
      exact a.size_pos
    · rcases Matchings.mem_add member with below | rfl
      · obtain ⟨part, hpart, below⟩ := mem_belowOf below
        obtain ⟨place, used, same⟩ := walked.exists_partAt hpart
        exact .inr ⟨place, used, same ▸ below⟩
      · exact .inl ⟨gathers, fun zero => absurd (score.symm.trans zero) (Nat.succ_ne_zero _)⟩
  exact glued.found hl hr

theorem Walked.agreement (walked : Walked left.children right.children parts) (hl : left.Numbered) (hr : right.Numbered)
    (wide : left.children.length = right.children.length) (all : ∀ part ∈ parts, part.1.isSome = true)
    (label : left.sameLabel right = true) (pair : entry.pair = (left.id, right.id)) :
    Mapping.agreement left right ((belowOf parts).add entry).mapping = left.size := by
  have glued : Mapping.Parts left right (diagonal left.children.length) fun place => (partAt parts place).mapping := by
    refine Found.parts (diagonal_selectable false _) fun place used => ?_
    obtain ⟨a, b, ha, hb, compared, equal⟩ := walked.equal_at wide all used
    exact ⟨a, b, ha, hb, compared.found equal⟩
  have counts : ∀ place ∈ diagonal left.children.length, ∀ a b, left.children[place.1]? = some a →
      right.children[place.2]? = some b → Mapping.agreement a b (partAt parts place).mapping =
        ((left.children[place.1]?).map Tree.size).getD 0 := by
    intro place used a b ha hb
    obtain ⟨c, d, hc, hd, compared, equal⟩ := walked.equal_at wide all used
    rw [ha, Option.some_inj] at hc
    rw [hb, Option.some_inj] at hd
    subst hc
    subst hd
    rw [compared.agreement equal, ha]
    rfl
  rw [walked.mapping_add pair, Mapping.agreement_glue glued hl hr counts, sum_diagonal, Tree.size_eq, Tree.ownScore,
    if_pos label]

theorem Walked.compared_below (walked : Walked left.children right.children parts) (hl : left.Numbered)
    (verdict : verdict? left right parts = none) : Compared left right (belowOf parts) where
  distinct := distinct_belowOf parts
  equal := iff_of_false (walked.root_notMem hl) (walked.labels_ne verdict)
  inside := by
    intro p member
    obtain ⟨c, child, inside⟩ := walked.inside member
    exact hl.containsId_trans (Tree.child_mem_preorder child) inside
  found := fun member => absurd member (walked.root_notMem hl)
  score := by
    intro m found
    obtain ⟨member, pair⟩ := Matchings.mem_of_get? found
    exact absurd (Matchings.mem_mapping.mpr ⟨m, member, pair⟩) (walked.root_notMem hl)
  agreement := fun member => absurd member (walked.root_notMem hl)

theorem Walked.compared_add (walked : Walked left.children right.children parts) (hl : left.Numbered)
    (hr : right.Numbered) (verdict : verdict? left right parts = some entry) :
    Compared left right ((belowOf parts).add entry) := by
  obtain ⟨all, wide, label, pair, score, -⟩ := verdict?_eq_some verdict
  have sizes := walked.map_direct (fun l r ms m compared found => compared.score m found) wide all
  have size : entry.score = left.size := by rw [score, sizes, Tree.size_eq]
  have found := walked.found hl hr verdict
  have equal : left.labels = right.labels := walked.isSome_verdict?_iff.mp (Option.isSome_iff_exists.mpr ⟨entry, verdict⟩)
  refine ⟨found.distinct, iff_of_true found.admissible.root equal, ?_, fun _ => found, ?_,
    fun _ => walked.agreement hl hr wide all label pair⟩
  · exact fun p member => hl.mem_ids.mp (found.admissible.inside p member).1
  · intro m root
    obtain ⟨member, pair'⟩ := Matchings.mem_of_get? root
    rcases Matchings.mem_add member with below | rfl
    · exact absurd (Matchings.mem_mapping.mpr ⟨m, below, pair'⟩) (walked.root_notMem hl)
    · exact size

theorem matchChildren_each {known : Node → Node → Matchings → Prop} {bad : Failure → Prop}
    (each : ∀ l ∈ lefts, ∀ r ∈ rights, Ends (matchNodes l r) (known l r) bad) :
    Ends (matchChildren lefts rights) (List.Forall₂ (fun pair part =>
      part.1 = part.2.get? pair.1.id pair.2.id ∧ known pair.1 pair.2 part.2) (lefts.zip rights)) bad := by
  induction lefts generalizing rights with
  | nil => exact .of_pure .nil
  | cons l lefts ih =>
    cases rights with
    | nil => exact .of_pure .nil
    | cons r rights =>
      rw [matchChildren]
      refine (each l List.mem_cons_self r List.mem_cons_self).bind fun ms head => ?_
      refine (ih fun l hl r hr => each l (List.mem_cons_of_mem _ hl) r (List.mem_cons_of_mem _ hr)).bind
        fun rest tail => ?_
      exact .of_pure (.cons ⟨rfl, head⟩ tail)

theorem matchChildren_ends {bad : Failure → Prop} (each : ∀ l ∈ lefts, ∀ r ∈ rights, Ends (matchNodes l r) (Compared l r) bad) :
    Ends (matchChildren lefts rights) (Walked lefts rights) bad :=
  matchChildren_each each

theorem matchNodes_ends {bad : Failure → Prop} (hl : left.Numbered) (hr : right.Numbered)
    (plain : ∀ x, x ∈ left.preorder ∨ x ∈ right.preorder → ∀ e, Tree.checkPlain x = .error e → bad e) :
    Ends (matchNodes left right) (Compared left right) bad := by
  induction left using Tree.childInduction generalizing right with
  | step left ih =>
    have below : ∀ l ∈ left.children, ∀ r ∈ right.children, Ends (matchNodes l r) (Compared l r) bad := by
      intro l childL r childR
      refine ih l childL (hl.child childL) (hr.child childR) fun x member => plain x ?_
      exact member.imp (Tree.mem_preorder_of_child childL) (Tree.mem_preorder_of_child childR)
    have children := matchChildren_ends below
    have plainL := plain left (.inl left.self_mem_preorder)
    have plainR := plain right (.inr right.self_mem_preorder)
    obtain ⟨value, ls⟩ := left
    obtain ⟨value', rs⟩ := right
    rw [matchNodes]
    refine (Ends.ofExcept (fun _ _ => trivial) plainL).bind fun _ _ => ?_
    refine (Ends.ofExcept (fun _ _ => trivial) plainR).bind fun _ _ => ?_
    refine children.bind fun parts walked => ?_
    cases verdict : verdict? (.node value ls) (.node value' rs) parts with
    | some entry => exact .of_pure (walked.compared_add hl hr verdict)
    | none =>
      refine (Ends.of_modify _).bind fun _ _ => ?_
      exact .of_pure (walked.compared_below hl verdict)

end Equality

end TreeAlign
