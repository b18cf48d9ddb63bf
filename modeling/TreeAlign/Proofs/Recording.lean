import TreeAlign.Matching.Annotations
import TreeAlign.Proofs.Scores

namespace TreeAlign

namespace Matching

mutual

def nested : Matching → List Matching
  | ⟨left, right, score, algorithm, color, runtime, children⟩ =>
    ⟨left, right, score, algorithm, color, runtime, children⟩ :: nestedAll children

def nestedAll : List Matching → List Matching
  | [] => []
  | m :: ms => nested m ++ nestedAll ms

end

theorem nested_eq (m : Matching) : m.nested = m :: nestedAll m.children := by
  cases m
  rw [nested]

theorem nestedAll_of_childless {ms : List Matching} (childless : ∀ m ∈ ms, m.children = []) : nestedAll ms = ms := by
  induction ms with
  | nil => rw [nestedAll]
  | cons m ms ih =>
    rw [nestedAll, nested_eq, childless m List.mem_cons_self, nestedAll,
      ih fun n member => childless n (List.mem_cons_of_mem _ member)]
    rfl

/-- The pair of the two nodes, or a pair of their children. -/
def Outermost (left right : Node) (m : Matching) : Prop :=
  m.pair = (left.id, right.id) ∨ m.Under left right

instance (left right : Node) (m : Matching) : Decidable (m.Outermost left right) :=
  inferInstanceAs (Decidable (_ ∨ _ ∧ _))

end Matching

namespace Annotations

variable {color : Color} {store : Annotations} {xs ys : List Matching} {ms : Matchings} {x : NodeId}

def linksAt (store : Annotations) (x : NodeId) : List (NodeId × NodeId × Nat) :=
  (store.recordedAt x).map fun m => (m.left, m.right, m.score)

theorem linksAt_perm {store other : Annotations} (same : store.records.Perm other.records) (x : NodeId) :
    (store.linksAt x).Perm (other.linksAt x) :=
  ((same.filter _).map _).map _

def added (color : Color) (m : Matching) : List (NodeId × Matching) :=
  [(m.left, m.shallow.colored color), (m.right, m.shallow.colored color)]

theorem records_recordAll : (recordAll color store ms).records =
    store.records ++ (ms.entries.filter (0 < ·.score)).flatMap (added color) := by
  rw [recordAll]
  induction ms.entries.filter (0 < ·.score) generalizing store with
  | nil => simp
  | cons m entries ih =>
    rw [List.foldl_cons, ih, record, List.flatMap_cons, List.append_assoc]
    rfl

theorem recordAll_append : recordAll color store ⟨xs ++ ys⟩ = recordAll color (recordAll color store ⟨xs⟩) ⟨ys⟩ := by
  rw [recordAll, List.filter_append, List.foldl_append]
  rfl

mutual

/-- A recursive pass is a flat pass over what is nested. -/
theorem recordTree_eq_recordAll (store : Annotations) :
    ∀ m : Matching, recordTree color store m = recordAll color store ⟨m.nested⟩
  | ⟨left, right, score, algorithm, own, runtime, children⟩ => by
    rw [recordTree, recordTrees_eq_recordAll _ children, Matching.nested,
      ← List.singleton_append, recordAll_append]
    congr 1
    by_cases positive : 0 < score
    · simp [recordAll, positive, Matching.shallow]
    · simp [recordAll, positive]

theorem recordTrees_eq_recordAll (store : Annotations) :
    ∀ ms : List Matching, recordTrees color store ms = recordAll color store ⟨Matching.nestedAll ms⟩
  | [] => by
    rw [recordTrees, Matching.nestedAll]
    rfl
  | m :: ms => by
    rw [recordTrees, Matching.nestedAll, recordTrees_eq_recordAll _ ms, recordTree_eq_recordAll store m,
      recordAll_append]

end

theorem records_recordAll_perm (same : (xs.map Matching.shallow).Perm (ys.map Matching.shallow)) :
    (recordAll color store ⟨xs⟩).records.Perm (recordAll color store ⟨ys⟩).records := by
  have copies (entries : List Matching) : (entries.filter (0 < ·.score)).flatMap (added color) =
      ((entries.map Matching.shallow).filter (0 < ·.score)).flatMap (added color) := by
    rw [List.filter_map, List.flatMap_map]
    rfl
  rw [records_recordAll, records_recordAll, copies xs, copies ys]
  exact ((same.filter _).flatMap_right _).append_left _

theorem mem_linksAt_recordAll {link : NodeId × NodeId × Nat} : link ∈ (recordAll color .empty ms).linksAt x ↔
    ∃ m ∈ ms.entries, 0 < m.score ∧ (m.left = x ∨ m.right = x) ∧ (m.left, m.right, m.score) = link := by
  simp only [linksAt, recordedAt, records_recordAll, empty, List.nil_append, List.mem_map, List.mem_filter,
    List.mem_flatMap, added, List.mem_cons, List.not_mem_nil, or_false, beq_iff_eq, decide_eq_true_eq]
  constructor
  · rintro ⟨_, ⟨_, ⟨⟨m, ⟨member, positive⟩, rfl | rfl⟩, here⟩, rfl⟩, rfl⟩
    · exact ⟨m, member, positive, .inl here, rfl⟩
    · exact ⟨m, member, positive, .inr here, rfl⟩
  · rintro ⟨m, member, positive, here | here, rfl⟩
    · exact ⟨_, ⟨_, ⟨⟨m, ⟨member, positive⟩, .inl rfl⟩, here⟩, rfl⟩, rfl⟩
    · exact ⟨_, ⟨_, ⟨⟨m, ⟨member, positive⟩, .inr rfl⟩, here⟩, rfl⟩, rfl⟩

end Annotations

namespace Tally

variable {ms : Matchings} {left right : Node} {m : Matching}

theorem nested_eq (h : Tally ms left right m) : m.nested = m :: m.children := by
  rw [Matching.nested_eq, Matching.nestedAll_of_childless]
  intro c child
  obtain ⟨n, -, -, rfl⟩ := (h.children c).mp child
  rfl

theorem nodup_nested (h : Tally ms left right m) (hl : left.Numbered) : (m.nested.map Matching.shallow).Nodup := by
  refine List.Nodup.of_map Matching.pair ?_
  rw [h.nested_eq, List.map_map, List.map_cons, List.nodup_cons]
  refine ⟨fun repeated => ?_, h.nodup_children hl⟩
  obtain ⟨c, child, same⟩ := List.mem_map.mp repeated
  obtain ⟨x, hx, left_eq⟩ := List.mem_map.mp (h.order.subset (List.mem_map_of_mem child))
  have top : c.pair = (left.id, right.id) := same.trans h.pair
  exact hl.ne_of_child left.self_mem_preorder hx (left_eq.trans (congrArg Prod.fst top))

theorem nested_perm (h : Tally ms left right m) (member : m ∈ ms.entries) (distinct : ms.Distinct)
    (hl : left.Numbered) : (m.nested.map Matching.shallow).Perm
      ((ms.entries.filter (·.Outermost left right)).map Matching.shallow) := by
  have nodup : ((ms.entries.filter (·.Outermost left right)).map Matching.shallow).Nodup := by
    refine List.Nodup.of_map Matching.pair ?_
    rw [List.map_map]
    exact distinct.sublist (List.filter_sublist.map _)
  -- Neither list repeats itself, so they need only have the same members.
  rw [List.perm_ext_iff_of_nodup (h.nodup_nested hl) nodup, h.nested_eq]
  intro c
  simp only [List.map_cons, List.mem_cons, List.mem_map, List.mem_filter, decide_eq_true_eq]
  constructor
  · rintro (rfl | ⟨_, child, rfl⟩)
    · exact ⟨m, ⟨member, .inl h.pair⟩, rfl⟩
    · obtain ⟨n, hn, under, rfl⟩ := (h.children _).mp child
      exact ⟨n, ⟨hn, .inr under⟩, rfl⟩
  · rintro ⟨n, ⟨hn, root | under⟩, rfl⟩
    · exact .inl (congrArg Matching.shallow (distinct.eq hn member (root.trans h.pair.symm)))
    · exact .inr ⟨n.shallow, (h.children _).mpr ⟨n, hn, under, rfl⟩, rfl⟩

end Tally

namespace Dispatcher

open Annotations

variable {p : MatchParameters} {left right : Node} {ms : Matchings} {d d' : Dispatcher}

/-- A recursive pass from the entry for two nodes records the outermost entries. These are all that a flat pass over
the result records exactly if nothing below the children of the two nodes is matched. -/
theorem recordTree_perm_recordAll_iff (hl : left.Numbered) (hr : right.Numbered)
    (ok : matchNodes p left right d = .ok ms d') (color : Color) : ∃ m, ms.get? left.id right.id = some m ∧
      (∀ x, ((recordTree color .empty m).linksAt x).Perm
        ((recordAll color .empty ⟨ms.entries.filter (·.Outermost left right)⟩).linksAt x)) ∧
      ((∀ x, ((recordTree color .empty m).linksAt x).Perm ((recordAll color .empty ms).linksAt x)) ↔
        ∀ n ∈ ms.entries, n.Outermost left right) := by
  obtain ⟨found, -⟩ := (matchNodes_ends hl hr).of_ok ok
  obtain ⟨m, member, pair, root⟩ := found.exists_root
  obtain ⟨a, ha, b, hb, tally⟩ := found.tally m member
  obtain ⟨rfl, rfl⟩ := tally.nodes_eq hl hr ha hb left.self_mem_preorder right.self_mem_preorder pair
  have outermost (x : NodeId) : ((recordTree color .empty m).linksAt x).Perm
      ((recordAll color .empty ⟨ms.entries.filter (·.Outermost a b)⟩).linksAt x) := by
    rw [recordTree_eq_recordAll]
    exact linksAt_perm (records_recordAll_perm (tally.nested_perm member found.distinct hl)) x
  refine ⟨m, root, outermost, fun same n hn => ?_, fun all x => ?_⟩
  · by_contra deeper
    have positive : 0 < n.score := found.positive hn fun top => deeper (.inl top)
    -- The flat pass records `n` at its left end; what the other pass records there has another pair.
    have link : (n.left, n.right, n.score) ∈ (recordAll color .empty ms).linksAt n.left :=
      mem_linksAt_recordAll.mpr ⟨n, hn, positive, .inl rfl, rfl⟩
    obtain ⟨k, hk, -, -, equal⟩ := mem_linksAt_recordAll.mp
      ((outermost n.left).mem_iff.mp ((same n.left).mem_iff.mpr link))
    obtain ⟨hk, near⟩ := List.mem_filter.mp hk
    have samePair : k.pair = n.pair := by
      rw [Prod.mk.injEq, Prod.mk.injEq] at equal
      exact Prod.ext equal.1 equal.2.1
    rw [found.distinct.eq hk hn samePair] at near
    exact deeper (of_decide_eq_true near)
  · have everything : ms.entries.filter (·.Outermost a b) = ms.entries :=
      List.filter_eq_self.mpr fun n hn => decide_eq_true (all n hn)
    have each := outermost x
    rwa [everything] at each

theorem recordTree_perm_recordAll_names : ∃ ms d' m, matchNodes {} (names 0 "x" "y") (names 3 "y" "x") {} = .ok ms d' ∧
    ms.get? 0 3 = some m ∧
    ∀ x, ((recordTree .red .empty m).linksAt x).Perm ((recordAll .red .empty ms).linksAt x) := by
  obtain ⟨ms, d', ok, -⟩ := matchNodes_returns (names_numbered 0 "x" "y") (names_numbered 3 "y" "x") names_fits {} {}
  have outermost : (match matchNodes {} (names 0 "x" "y") (names 3 "y" "x") {} with
      | .ok ms _ => decide (∀ n ∈ ms.entries, n.Outermost (names 0 "x" "y") (names 3 "y" "x"))
      | .error _ _ => false) = true := by
    decide +kernel
  rw [ok] at outermost
  obtain ⟨m, root, -, iff⟩ :=
    recordTree_perm_recordAll_iff (names_numbered 0 "x" "y") (names_numbered 3 "y" "x") ok .red
  exact ⟨ms, d', m, ok, root, iff.mpr (of_decide_eq_true outermost)⟩

def sections (first : NodeId) : Node :=
  Tree.number first <| .node ⟨⟨"section", none⟩, true, .plain⟩
    [.node ⟨⟨"group", none⟩, true, .plain⟩ [.node ⟨⟨"name", some "x"⟩, true, .plain⟩ []]]

theorem recordTree_not_perm_recordAll : ∃ ms d' m, matchNodes {} (sections 0) (sections 3) {} = .ok ms d' ∧
    ms.get? 0 3 = some m ∧
    ¬ ∀ x, ((recordTree .red .empty m).linksAt x).Perm ((recordAll .red .empty ms).linksAt x) := by
  refine ⟨_, _, _, rfl, rfl, fun same => ?_⟩
  exact absurd (same 2) (by decide)

end Dispatcher

end TreeAlign
