import TreeAlign.Proofs.Mapping
import TreeAlign.Strategy.Children

namespace TreeAlign

namespace Matchings

variable {ms more : Matchings} {m n : Matching} {p : NodeId × NodeId} {l r : NodeId}

def mapping (ms : Matchings) : Mapping :=
  (ms.entries.map Matching.pair).toFinset

def Distinct (ms : Matchings) : Prop :=
  (ms.entries.map Matching.pair).Nodup

theorem mem_mapping : p ∈ ms.mapping ↔ ∃ m ∈ ms.entries, m.pair = p := by
  rw [mapping, List.mem_toFinset, List.mem_map]

theorem mem_of_get? (h : ms.get? l r = some m) : m ∈ ms.entries ∧ m.pair = (l, r) := by
  refine ⟨List.mem_of_find?_eq_some h, ?_⟩
  have same := List.find?_some h
  rw [Bool.and_eq_true, beq_iff_eq, beq_iff_eq] at same
  exact Prod.ext same.1 same.2

theorem isSome_get?_iff : (ms.get? l r).isSome = true ↔ (l, r) ∈ ms.mapping := by
  rw [get?, List.find?_isSome, mem_mapping]
  constructor
  · rintro ⟨m, member, same⟩
    rw [Bool.and_eq_true, beq_iff_eq, beq_iff_eq] at same
    exact ⟨m, member, Prod.ext same.1 same.2⟩
  · rintro ⟨m, member, same⟩
    rw [Matching.pair, Prod.mk.injEq] at same
    exact ⟨m, member, by rw [same.1, same.2, beq_self_eq_true, beq_self_eq_true]; rfl⟩

theorem Distinct.eq (h : ms.Distinct) (hm : m ∈ ms.entries) (hn : n ∈ ms.entries) (same : m.pair = n.pair) : m = n :=
  List.inj_on_of_nodup_map h hm hn same

theorem Distinct.get? (h : ms.Distinct) (member : m ∈ ms.entries) (same : m.pair = (l, r)) : ms.get? l r = some m := by
  obtain ⟨n, found⟩ := Option.isSome_iff_exists.mp (isSome_get?_iff.mpr (mem_mapping.mpr ⟨m, member, same⟩))
  obtain ⟨member', same'⟩ := mem_of_get? found
  rw [found, h.eq member' member (same'.trans same.symm)]

theorem Distinct.get?_eq_some_iff (h : ms.Distinct) : ms.get? l r = some m ↔ m ∈ ms.entries ∧ m.pair = (l, r) :=
  ⟨mem_of_get?, fun found => h.get? found.1 found.2⟩

theorem Distinct.nodup_map (h : ms.Distinct) {key : Matching → NodeId}
    (inj : ∀ m ∈ ms.entries, ∀ n ∈ ms.entries, key m = key n → m.pair = n.pair) : (ms.entries.map key).Nodup :=
  (List.Nodup.of_map _ h).map_on fun m hm n hn same => h.eq hm hn (inj m hm n hn same)

theorem add_cases (ms : Matchings) (m : Matching) :
    (m.pair ∈ ms.mapping ∧ ms.add m = ms) ∨ (m.pair ∉ ms.mapping ∧ (ms.add m).entries = ms.entries ++ [m]) := by
  by_cases known : (ms.get? m.left m.right).isSome = true
  · exact .inl ⟨isSome_get?_iff.mp known, if_pos known⟩
  · exact .inr ⟨fun member => known (isSome_get?_iff.mpr member), by rw [add, if_neg known]⟩

theorem mem_add (h : n ∈ (ms.add m).entries) : n ∈ ms.entries ∨ n = m := by
  rcases ms.add_cases m with ⟨-, eq⟩ | ⟨-, eq⟩
  · rw [eq] at h
    exact .inl h
  · rwa [eq, List.mem_append, List.mem_singleton] at h

theorem mapping_add : (ms.add m).mapping = insert m.pair ms.mapping := by
  rcases ms.add_cases m with ⟨known, eq⟩ | ⟨-, eq⟩
  · rw [eq, Finset.insert_eq_of_mem known]
  · ext p
    rw [Finset.mem_insert, mapping, mapping, eq, List.map_append, List.toFinset_append, Finset.mem_union]
    simp only [List.map_cons, List.map_nil, List.toFinset_cons, List.toFinset_nil, insert_empty_eq,
      Finset.mem_singleton]
    exact or_comm

theorem Distinct.add (h : ms.Distinct) (m : Matching) : (ms.add m).Distinct := by
  rcases ms.add_cases m with ⟨-, eq⟩ | ⟨fresh, eq⟩
  · rwa [eq]
  · rw [Distinct, eq, List.map_append, List.nodup_append]
    refine ⟨h, List.nodup_singleton _, ?_⟩
    rintro p hp q hq rfl
    rw [List.map_cons, List.map_nil, List.mem_singleton] at hq
    rw [hq] at hp
    exact fresh (List.mem_toFinset.mpr hp)

theorem get?_add (h : ms.get? l r = some n) : (ms.add m).get? l r = some n := by
  rcases ms.add_cases m with ⟨-, eq⟩ | ⟨-, eq⟩
  · rwa [eq]
  · rw [get?, eq, List.find?_append]
    exact Option.or_eq_some_iff.mpr (.inl h)

theorem get?_add_of_ne (other : m.pair ≠ (l, r)) : (ms.add m).get? l r = ms.get? l r := by
  rcases ms.add_cases m with ⟨-, eq⟩ | ⟨-, eq⟩
  · rw [eq]
  · have missing : [m].find? (fun n => n.left == l && n.right == r) = none := by
      rw [List.find?_eq_none]
      intro n here same
      rw [List.mem_singleton.mp here, Bool.and_eq_true, beq_iff_eq, beq_iff_eq] at same
      exact other (Prod.ext same.1 same.2)
    rw [get?, eq, List.find?_append, missing, Option.or_none]
    rfl

theorem mem_union (h : n ∈ (ms.union more).entries) : n ∈ ms.entries ∨ n ∈ more.entries := by
  obtain ⟨entries⟩ := more
  rw [union, addAll] at h
  induction entries generalizing ms with
  | nil => exact .inl h
  | cons m entries ih =>
    rcases ih h with known | later
    · rcases mem_add known with known | rfl
      · exact .inl known
      · exact .inr List.mem_cons_self
    · exact .inr (List.mem_cons_of_mem _ later)

theorem mapping_union : (ms.union more).mapping = ms.mapping ∪ more.mapping := by
  obtain ⟨entries⟩ := more
  rw [union, addAll]
  induction entries generalizing ms with
  | nil => exact (Finset.union_empty _).symm
  | cons m entries ih =>
    rw [List.foldl_cons, ih, mapping_add, Finset.insert_union, ← Finset.union_insert]
    congr 1
    exact (List.toFinset_cons).symm

theorem Distinct.union (h : ms.Distinct) (more : Matchings) : (ms.union more).Distinct := by
  obtain ⟨entries⟩ := more
  rw [Matchings.union, addAll]
  induction entries generalizing ms with
  | nil => exact h
  | cons m entries ih => exact ih (h.add m)

theorem get?_union (h : ms.get? l r = some n) : (ms.union more).get? l r = some n := by
  obtain ⟨entries⟩ := more
  rw [union, addAll]
  induction entries generalizing ms with
  | nil => exact h
  | cons m entries ih => exact ih (get?_add h)

section Fold

variable {α : Type} {sets : α → Matchings} {xs : List α}

theorem mem_foldl_union (h : n ∈ (xs.foldl (fun ms x => ms.union (sets x)) ms).entries) :
    n ∈ ms.entries ∨ ∃ x ∈ xs, n ∈ (sets x).entries := by
  induction xs generalizing ms with
  | nil => exact .inl h
  | cons x xs ih =>
    rcases ih h with known | ⟨y, member, found⟩
    · rcases mem_union known with known | found
      · exact .inl known
      · exact .inr ⟨x, List.mem_cons_self, found⟩
    · exact .inr ⟨y, List.mem_cons_of_mem _ member, found⟩

theorem mem_mapping_foldl_union :
    p ∈ (xs.foldl (fun ms x => ms.union (sets x)) ms).mapping ↔ p ∈ ms.mapping ∨ ∃ x ∈ xs, p ∈ (sets x).mapping := by
  induction xs generalizing ms with
  | nil => simp
  | cons x xs ih =>
    rw [List.foldl_cons, ih, mapping_union, Finset.mem_union]
    simp only [List.mem_cons, exists_eq_or_imp, or_assoc]

theorem Distinct.foldl_union (h : ms.Distinct) : (xs.foldl (fun ms x => ms.union (sets x)) ms).Distinct := by
  induction xs generalizing ms with
  | nil => exact h
  | cons x xs ih => exact ih (h.union (sets x))

theorem get?_foldl_union (h : ms.get? l r = some n) :
    (xs.foldl (fun ms x => ms.union (sets x)) ms).get? l r = some n := by
  induction xs generalizing ms with
  | nil => exact h
  | cons x xs ih => exact ih (get?_union h)

end Fold

theorem mem_mapping_ofList {entries : List Matching} {p : NodeId × NodeId} :
    p ∈ (ofList entries).mapping ↔ ∃ m ∈ entries, m.pair = p := by
  change p ∈ (empty.union ⟨entries⟩).mapping ↔ _
  rw [mapping_union, Finset.mem_union, mem_mapping, mem_mapping]
  simp [empty]

theorem distinct_ofList (entries : List Matching) : (ofList entries).Distinct := by
  have nothing : empty.Distinct := List.nodup_nil
  exact nothing.union ⟨entries⟩

theorem mapping_single : (single m).mapping = {m.pair} := rfl

theorem distinct_single : (single m).Distinct := List.nodup_singleton _

theorem get?_single (same : m.pair = (l, r)) : (single m).get? l r = some m :=
  distinct_single.get? List.mem_cons_self same

end Matchings

def Matching.Under (a b : Node) (m : Matching) : Prop :=
  m.left ∈ a.children.map Tree.id ∧ m.right ∈ b.children.map Tree.id

/-- What an entry for two nodes says. Its children are copies of the entries for pairs of their children, in the
order of the left ones. It scores what these do, and one more for a label the two nodes share, or nothing. -/
structure Tally (ms : Matchings) (a b : Node) (m : Matching) : Prop where
  pair : m.pair = (a.id, b.id)
  order : (m.children.map Matching.left).Sublist (a.children.map Tree.id)
  children : ∀ c, c ∈ m.children ↔ ∃ n ∈ ms.entries, n.Under a b ∧ n.shallow = c
  score : m.score = 0 ∨ m.score = (m.children.map Matching.score).sum + a.ownScore b

/-- What the matchings of two nodes look like: a mapping of them, with one entry for each of its pairs that adds up
the entries below it, and an entry of score zero only if it is the only one. -/
structure Found (left right : Node) (ms : Matchings) : Prop where
  admissible : Mapping.Admissible left right ms.mapping
  distinct : ms.Distinct
  alone : ∀ m ∈ ms.entries, m.score = 0 → ms.entries = [m]
  tally : ∀ m ∈ ms.entries, ∃ a ∈ left.preorder, ∃ b ∈ right.preorder, Tally ms a b m

namespace Found

variable {left right : Node} {ms : Matchings}

theorem exists_root (h : Found left right ms) :
    ∃ m ∈ ms.entries, m.pair = (left.id, right.id) ∧ ms.get? left.id right.id = some m := by
  obtain ⟨m, member, same⟩ := Matchings.mem_mapping.mp h.admissible.root
  exact ⟨m, member, same, h.distinct.get? member same⟩

theorem positive (h : Found left right ms) {m : Matching} (member : m ∈ ms.entries)
    (other : m.pair ≠ (left.id, right.id)) : 0 < m.score := by
  refine Nat.pos_of_ne_zero fun zero => other ?_
  obtain ⟨root, member', same, -⟩ := h.exists_root
  rw [h.alone m member zero, List.mem_singleton] at member'
  rw [← member', same]

theorem nodup_left (h : Found left right ms) : (ms.entries.map Matching.left).Nodup :=
  h.distinct.nodup_map fun m hm n hn same => Prod.ext same <|
    (h.admissible.single _ (Matchings.mem_mapping.mpr ⟨m, hm, rfl⟩) _ (Matchings.mem_mapping.mpr ⟨n, hn, rfl⟩)).mp same

theorem nodup_right (h : Found left right ms) : (ms.entries.map Matching.right).Nodup :=
  h.distinct.nodup_map fun m hm n hn same => Prod.ext
    ((h.admissible.single _ (Matchings.mem_mapping.mpr ⟨m, hm, rfl⟩) _ (Matchings.mem_mapping.mpr ⟨n, hn, rfl⟩)).mpr same)
    same

end Found

section Glue

variable {left right : Node} {cells : Finset (Nat × Nat)} {sets : Nat × Nat → Matchings} {ms : Matchings}

/-- What the entry for two nodes says of the sets it was made from. -/
structure Gathers (left right : Node) (cells : Finset (Nat × Nat)) (sets : Nat × Nat → Matchings) (m : Matching) :
    Prop where
  pair : m.pair = (left.id, right.id)
  order : (m.children.map Matching.left).Sublist (left.children.map Tree.id)
  children : ∀ c, c ∈ m.children ↔ ∃ place ∈ cells, ∃ a b, left.children[place.1]? = some a ∧
    right.children[place.2]? = some b ∧ ∃ n ∈ (sets place).entries, n.pair = (a.id, b.id) ∧ n.shallow = c
  score : m.score = 0 ∨ m.score = (m.children.map Matching.score).sum + left.ownScore right

/-- The matchings of two nodes put together from those of some pairs of their children. -/
structure Glued (left right : Node) (cells : Finset (Nat × Nat)) (sets : Nat × Nat → Matchings) (ms : Matchings) :
    Prop where
  selectable : Selectable (Dispatcher.isOrdered left right) cells
  each : ∀ place ∈ cells, ∃ a b, left.children[place.1]? = some a ∧ right.children[place.2]? = some b ∧
    Found a b (sets place) ∧ 0 < (sets place).scoreOf a.id b.id
  mapping : ms.mapping = Mapping.glue left right cells fun place => (sets place).mapping
  distinct : ms.Distinct
  entries : ∀ m ∈ ms.entries, Gathers left right cells sets m ∧ (m.score = 0 → ms.entries = [m]) ∨
    ∃ place ∈ cells, m ∈ (sets place).entries

theorem Found.parts (oneToOne : OneToOne cells)
    (each : ∀ place ∈ cells, ∃ a b, left.children[place.1]? = some a ∧ right.children[place.2]? = some b ∧
      Found a b (sets place)) : Mapping.Parts left right cells fun place => (sets place).mapping := by
  refine ⟨oneToOne, fun place used => ?_⟩
  obtain ⟨a, b, ha, hb, found⟩ := each place used
  exact ⟨a, b, ha, hb, found.admissible⟩

namespace Glued

theorem parts (h : Glued left right cells sets ms) :
    Mapping.Parts left right cells fun place => (sets place).mapping := by
  refine Found.parts h.selectable.oneToOne fun place used => ?_
  obtain ⟨a, b, ha, hb, found, -⟩ := h.each place used
  exact ⟨a, b, ha, hb, found⟩

theorem alone (h : Glued left right cells sets ms) {m : Matching} (member : m ∈ ms.entries) (zero : m.score = 0) :
    ms.entries = [m] := by
  rcases h.entries m member with ⟨-, alone⟩ | ⟨place, used, below⟩
  · exact alone zero
  · obtain ⟨a, b, -, -, found, weighs⟩ := h.each place used
    obtain ⟨root, member', same, found'⟩ := found.exists_root
    rw [found.alone m below zero, List.mem_singleton] at member'
    rw [Matchings.scoreOf, found', member'] at weighs
    exact absurd zero (Nat.ne_of_gt weighs)

variable (hl : left.Numbered) (hr : right.Numbered) {place : Nat × Nat} {m n : Matching}

include hl hr

theorem mem_of_part (h : Glued left right cells sets ms) (used : place ∈ cells) (member : n ∈ (sets place).entries) :
    n ∈ ms.entries := by
  have inPart : n.pair ∈ (sets place).mapping := Matchings.mem_mapping.mpr ⟨n, member, rfl⟩
  have glued : n.pair ∈ ms.mapping := by
    rw [h.mapping]
    exact Mapping.mem_glue.mpr (.inr ⟨place, used, inPart⟩)
  obtain ⟨other, hother, same⟩ := Matchings.mem_mapping.mp glued
  rcases h.entries other hother with ⟨root, -⟩ | ⟨place', used', below⟩
  · rw [← same, root.pair] at inPart
    exact absurd rfl (h.parts.ne_left hl hr used inPart)
  · have inPart' : other.pair ∈ (sets place').mapping := Matchings.mem_mapping.mpr ⟨other, below, rfl⟩
    obtain rfl := h.parts.place_eq_of_left hl hr used used' inPart inPart' (congrArg Prod.fst same.symm)
    obtain ⟨a, b, -, -, found, -⟩ := h.each place used
    rwa [← found.distinct.eq below member same]

theorem mem_part (h : Glued left right cells sets ms) (used : place ∈ cells) {a : Node}
    (ha : left.children[place.1]? = some a) (inside : a.containsId n.left = true) (member : n ∈ ms.entries) :
    n ∈ (sets place).entries := by
  rcases h.entries n member with ⟨root, -⟩ | ⟨place', used', below⟩
  · have top : n.left = left.id := congrArg Prod.fst root.pair
    rw [top] at inside
    exact absurd inside (hl.not_containsId_child (List.mem_of_getElem? ha))
  · obtain ⟨c, d, hc, -, inside', -⟩ := h.parts.inside hl hr used' (Matchings.mem_mapping.mpr ⟨n, below, rfl⟩)
    have rows : place.1 = place'.1 := hl.children_disjoint ha hc inside inside'
    have same : place = place' := Prod.ext rows ((h.selectable.oneToOne _ used _ used').mp rows)
    rwa [same]

theorem tally_part (h : Glued left right cells sets ms) (used : place ∈ cells) {a x y : Node}
    (ha : left.children[place.1]? = some a) (hx : x ∈ a.preorder) (tally : Tally (sets place) x y m) :
    Tally ms x y m where
  pair := tally.pair
  order := tally.order
  score := tally.score
  children := by
    intro c
    rw [tally.children]
    constructor
    · rintro ⟨n, member, under, same⟩
      exact ⟨n, h.mem_of_part hl hr used member, under, same⟩
    · rintro ⟨n, member, under, same⟩
      obtain ⟨z, hz, left_eq⟩ := List.mem_map.mp under.1
      have below : z ∈ a.preorder := Tree.mem_preorder_trans (Tree.child_mem_preorder hz) hx
      have inside : a.containsId n.left = true := by
        rw [← left_eq]
        exact (hl.child (List.mem_of_getElem? ha)).containsId_of_mem below
      exact ⟨n, h.mem_part hl hr used ha inside member, under, same⟩

theorem tally_root (h : Glued left right cells sets ms) (root : Gathers left right cells sets m) :
    Tally ms left right m where
  pair := root.pair
  order := root.order
  score := root.score
  children := by
    intro c
    rw [root.children]
    constructor
    · rintro ⟨place, used, a, b, ha, hb, n, member, pair, same⟩
      refine ⟨n, h.mem_of_part hl hr used member, ⟨?_, ?_⟩, same⟩
      · rw [show n.left = a.id from congrArg Prod.fst pair]
        exact List.mem_map_of_mem (List.mem_of_getElem? ha)
      · rw [show n.right = b.id from congrArg Prod.snd pair]
        exact List.mem_map_of_mem (List.mem_of_getElem? hb)
    · rintro ⟨n, member, ⟨under, under'⟩, same⟩
      obtain ⟨x, hx, left_eq⟩ := List.mem_map.mp under
      obtain ⟨y, hy, right_eq⟩ := List.mem_map.mp under'
      rcases h.entries n member with ⟨top, -⟩ | ⟨place, used, below⟩
      · have atRoot : n.left = left.id := congrArg Prod.fst top.pair
        exact absurd (left_eq.trans atRoot) (hl.ne_of_child left.self_mem_preorder hx)
      · obtain ⟨a, b, ha, hb, insideA, insideB⟩ :=
          h.parts.inside hl hr used (Matchings.mem_mapping.mpr ⟨n, below, rfl⟩)
        have insideX : x.containsId n.left = true := left_eq ▸ x.containsId_self
        have insideY : y.containsId n.right = true := right_eq ▸ y.containsId_self
        have sameA : a = x := hl.child_unique (List.mem_of_getElem? ha) hx insideA insideX
        have sameB : b = y := hr.child_unique (List.mem_of_getElem? hb) hy insideB insideY
        exact ⟨place, used, a, b, ha, hb, n, below, Prod.ext (sameA ▸ left_eq.symm) (sameB ▸ right_eq.symm), same⟩

theorem found (h : Glued left right cells sets ms) : Found left right ms where
  admissible := h.mapping ▸ h.parts.glue_admissible hl hr h.selectable
  distinct := h.distinct
  alone := fun _ => h.alone
  tally := by
    intro m member
    rcases h.entries m member with ⟨root, -⟩ | ⟨place, used, below⟩
    · exact ⟨left, left.self_mem_preorder, right, right.self_mem_preorder, h.tally_root hl hr root⟩
    · obtain ⟨a, b, ha, hb, found, -⟩ := h.each place used
      obtain ⟨x, hx, y, hy, tally⟩ := found.tally m below
      exact ⟨x, Tree.mem_preorder_of_child (List.mem_of_getElem? ha) hx, y,
        Tree.mem_preorder_of_child (List.mem_of_getElem? hb) hy, h.tally_part hl hr used ha hx tally⟩

end Glued

theorem Found.single (hl : left.Numbered) (hr : right.Numbered) {m : Matching} (pair : m.pair = (left.id, right.id))
    (childless : m.children = []) (score : m.score = 0 ∨ m.score = left.ownScore right) :
    Found left right (.single m) := by
  have selectable : Selectable (Dispatcher.isOrdered left right) ∅ := by
    cases Dispatcher.isOrdered left right <;> exact fun p member => absurd member (Finset.notMem_empty p)
  have gathers : Gathers left right ∅ (fun _ => .empty) m := by
    refine ⟨pair, ?_, fun c => ?_, ?_⟩
    · simp [childless]
    · simp [childless]
    · simpa [childless] using score
  have glued : Glued left right ∅ (fun _ => .empty) (.single m) := by
    refine ⟨selectable, fun place used => absurd used (Finset.notMem_empty place), ?_, Matchings.distinct_single, ?_⟩
    · rw [Matchings.mapping_single, pair]
      rfl
    · intro n member
      rw [Matchings.single, List.mem_singleton] at member
      subst member
      exact .inl ⟨gathers, fun _ => rfl⟩
  exact glued.found hl hr

end Glue

end TreeAlign
