import TreeAlign.Proofs.Cover.Crossing
import TreeAlign.Proofs.Cover.Rescoring

namespace TreeAlign

theorem Site.Apart.numbered {left right : Site} (apart : left.Apart right) :
    left.node.Numbered ∧ right.node.Numbered := by
  obtain ⟨_, numberedLeft, inLeft⟩ := apart.leftTree
  obtain ⟨_, numberedRight, inRight⟩ := apart.rightTree
  exact ⟨numbered_of_mem numberedLeft inLeft, numbered_of_mem numberedRight inRight⟩

/-- The exact costs of the candidates of a cover, added up and divided by the number of nodes. -/
def Candidates.meanPrice (w : Weights Float32) (cover : Candidates) : Float32 :=
  let sum := (cover.entries.map (cover.exactCost w)).foldl (fun sum cost => sum + cost.toFloat) 0.0
  (sum / Float.ofNat (cover.left.size + cover.right.size)).toFloat32

theorem Cover.price_eq_meanPrice {cover : Candidates} (together : Candidates.Together cover cover) (w : Weights Float32) :
    ((price w cover).run {}).1.2 = cover.meanPrice w := by
  rw [Candidates.meanPrice, ← Recall.exactCosts_recalled together w]
  rfl

namespace CostModel

open Candidates

variable {left right : Site} {ms : Matchings} {pairs : List Candidate}

def remaining (root : Node) (taken : List NodeId) : List NodeId :=
  (root.preorder.map Tree.id).filter fun i => !taken.contains i

def completedKeys (left right : Node) (ms : Matchings) : List Candidate.Key :=
  ms.entries.map keyOf ++ (remaining left (ms.entries.map Matching.left)).map (fun i => (some i, none)) ++
    (remaining right (ms.entries.map Matching.right)).map fun i => (none, some i)

section Remaining

variable {root : Node} (numbered : root.Numbered) {taken : List NodeId}

include numbered

theorem mem_remaining {i : NodeId} : i ∈ remaining root taken ↔ root.containsId i = true ∧ i ∉ taken := by
  rw [remaining, List.mem_filter, numbered.mem_ids]
  simp

theorem nodup_append_remaining : (taken ++ remaining root taken).Nodup ↔ taken.Nodup := by
  rw [List.nodup_append]
  refine ⟨And.left, fun once => ⟨once, numbered.nodup.filter _, ?_⟩⟩
  rintro i member _ other rfl
  exact ((mem_remaining numbered).mp other).2 member

theorem mem_append_remaining {i : NodeId} (inside : root.containsId i = true) : i ∈ taken ++ remaining root taken := by
  rw [List.mem_append, mem_remaining numbered]
  tauto

end Remaining

theorem lefts_completedKeys (left right : Node) (ms : Matchings) :
    lefts (completedKeys left right ms) =
      ms.entries.map Matching.left ++ remaining left (ms.entries.map Matching.left) := by
  simp [lefts, completedKeys, List.filterMap_map, Function.comp_def, keyOf]

theorem rights_completedKeys (left right : Node) (ms : Matchings) :
    rights (completedKeys left right ms) =
      ms.entries.map Matching.right ++ remaining right (ms.entries.map Matching.right) := by
  simp [rights, completedKeys, List.filterMap_map, Function.comp_def, keyOf]

theorem covers_completedKeys_iff (hl : left.node.Numbered) (hr : right.node.Numbered)
    (inside : ∀ m ∈ ms.entries, left.node.containsId m.left = true ∧ right.node.containsId m.right = true) :
    Covers left right (completedKeys left.node right.node ms) ↔ ms.entries.Pairwise Matchings.Apart := by
  have lefts_eq := lefts_completedKeys left.node right.node ms
  have rights_eq := rights_completedKeys left.node right.node ms
  rw [Matchings.pairwise_apart_iff]
  constructor
  · intro covers
    exact ⟨(nodup_append_remaining hl).mp (lefts_eq ▸ covers.onceLeft),
      (nodup_append_remaining hr).mp (rights_eq ▸ covers.onceRight)⟩
  · rintro ⟨onceLeft, onceRight⟩
    refine ⟨⟨?_, ?_, ?_, ?_, ?_⟩, ?_, ?_⟩
    · simp [completedKeys, keyOf]
    · rw [lefts_eq, List.forall_mem_append, List.forall_mem_map]
      exact ⟨fun m hm => (inside m hm).1, fun i hi => ((mem_remaining hl).mp hi).1⟩
    · rw [rights_eq, List.forall_mem_append, List.forall_mem_map]
      exact ⟨fun m hm => (inside m hm).2, fun i hi => ((mem_remaining hr).mp hi).1⟩
    · rw [lefts_eq]
      exact (nodup_append_remaining hl).mpr onceLeft
    · rw [rights_eq]
      exact (nodup_append_remaining hr).mpr onceRight
    · rw [lefts_eq]
      exact fun i => mem_append_remaining hl
    · rw [rights_eq]
      exact fun i => mem_append_remaining hr

theorem mem_ends_iff (keys : pairs.map Candidate.key = ms.entries.map keyOf) {i : NodeId} :
    i ∈ pairs.flatMap (fun c => c.key.1.toList ++ c.key.2.toList) ↔
      i ∈ ms.entries.map Matching.left ∨ i ∈ ms.entries.map Matching.right := by
  have same : pairs.flatMap (fun c => c.key.1.toList ++ c.key.2.toList) =
      (pairs.map Candidate.key).flatMap fun key => key.1.toList ++ key.2.toList := by
    rw [List.flatMap_map]
  rw [same, keys, List.mem_flatMap]
  simp [keyOf, and_or_left, exists_or, eq_comm]

theorem map_id_alone {root : Site} (numbered : root.node.Numbered) {covered taken : List NodeId}
    (same : ∀ i, root.node.containsId i = true → (i ∈ covered ↔ i ∈ taken)) :
    (root.preorder.filter fun s => !covered.contains s.id).map Site.id = remaining root.node taken := by
  rw [remaining, ← Site.map_id_preorder, List.filter_map]
  congr 1
  apply List.filter_congr
  intro s hs
  have here := same s.id (Site.containsId_of_mem numbered hs)
  simp [here]

theorem keys_completed (hl : left.node.Numbered) (hr : right.node.Numbered)
    (disjoint : ∀ i, left.node.containsId i = true → right.node.containsId i = false)
    (inside : ∀ m ∈ ms.entries, left.node.containsId m.left = true ∧ right.node.containsId m.right = true)
    (keys : pairs.map Candidate.key = ms.entries.map keyOf) :
    (completed left right pairs).keys = completedKeys left.node right.node ms := by
  -- One list has the ends of all pairs. The subtrees have no common node, so it tells on either side which are taken.
  have freeLeft (i : NodeId) (here : left.node.containsId i = true) : i ∉ ms.entries.map Matching.right := by
    intro taken
    obtain ⟨m, hm, rfl⟩ := List.mem_map.mp taken
    exact absurd (inside m hm).2 (by simp [disjoint _ here])
  have freeRight (i : NodeId) (here : right.node.containsId i = true) : i ∉ ms.entries.map Matching.left := by
    intro taken
    obtain ⟨m, hm, rfl⟩ := List.mem_map.mp taken
    exact absurd here (by simp [disjoint _ (inside m hm).1])
  have onLeft := map_id_alone hl fun i here => (mem_ends_iff keys).trans (or_iff_left (freeLeft i here))
  have onRight := map_id_alone hr fun i here => (mem_ends_iff keys).trans (or_iff_right (freeRight i here))
  rw [completedKeys, ← keys, ← onLeft, ← onRight]
  simp [completed, Candidates.keys, Candidate.key, Function.comp_def]

theorem within_completed (within : Within left right ⟨left, right, pairs⟩) :
    Within left right (completed left right pairs) := by
  refine ⟨rfl, rfl, fun c hc b s here => ?_⟩
  rcases List.mem_append.mp hc with hc | hc
  · rcases List.mem_append.mp hc with hc | hc
    · exact within.inside c hc b s here
    · obtain ⟨l, hl, rfl⟩ := List.mem_map.mp hc
      cases b with
      | false => exact Option.some_inj.mp here ▸ List.mem_of_mem_filter hl
      | true => cases here
  · obtain ⟨r, hr, rfl⟩ := List.mem_map.mp hc
    cases b with
    | false => cases here
    | true => exact Option.some_inj.mp here ▸ List.mem_of_mem_filter hr

/-- A cover of two subtrees by the pairs that matchings name and every other node alone. -/
structure CompletedBy (left right : Site) (ms : Matchings) (cover : Candidates) : Prop extends
    Within left right cover where
  sane : cover.check = .ok ()
  keys : cover.keys = completedKeys cover.left.node cover.right.node ms

theorem costOf_of_nil (bare : ms.entries = []) (model : CostModel) : model.costOf ms left right = .ok 0.0 := by
  have nothing : ms.isEmpty = true := by simp [Matchings.isEmpty, bare]
  simp only [costOf, nothing]
  rfl

theorem costOf_of_error {failure : Failure} (filled : ms.entries ≠ [])
    (refused : resolve left right ms = .error failure) (model : CostModel) :
    model.costOf ms left right = .error failure := by
  have something : ms.isEmpty = false := by simpa [Matchings.isEmpty] using filled
  simp only [costOf, something, refused]
  rfl

theorem costOf_of_ok (filled : ms.entries ≠ []) (resolved : resolve left right ms = .ok pairs) (model : CostModel) :
    model.costOf ms left right = match (completed left right pairs).check with
      | .error fault => .error (.malformedCover fault)
      | .ok () => .ok ((Cover.price model.weights (completed left right pairs)).run {}).1.2 := by
  have something : ms.isEmpty = false := by simpa [Matchings.isEmpty] using filled
  simp only [costOf, something, resolved]
  rfl

theorem costOf_inside (apart : left.Apart right) (model : CostModel) (filled : ms.entries ≠ [])
    (inside : ∀ m ∈ ms.entries, left.node.containsId m.left = true ∧ right.node.containsId m.right = true) :
    ms.entries.Pairwise Matchings.Apart ∧ (∃ cover, CompletedBy left right ms cover ∧
        model.costOf ms left right = .ok (cover.meanPrice model.weights)) ∨
      ¬ms.entries.Pairwise Matchings.Apart ∧ ∃ fault, model.costOf ms left right = .error (.malformedCover fault) := by
  obtain ⟨hl, hr⟩ := apart.numbered
  obtain ⟨pairs, resolved, keys⟩ := resolve_ok hl hr inside
  have keys := keys_completed hl hr apart.disjoint inside keys
  have sane : (completed left right pairs).check = .ok () ↔ ms.entries.Pairwise Matchings.Apart := by
    rw [check_eq_ok_iff hl hr, keys]
    exact covers_completedKeys_iff hl hr inside
  have within := within_completed (resolve_within resolved)
  rw [← sane, costOf_of_ok filled resolved]
  cases checked : (completed left right pairs).check with
  | error fault => exact .inr ⟨nofun, fault, rfl⟩
  | ok _ =>
    have parallel : Parallel (completed left right pairs) (completed left right pairs) :=
      ⟨rfl, rfl, apart, within.inside, within.inside⟩
    refine .inl ⟨rfl, _, ⟨within, checked, keys⟩, ?_⟩
    exact congrArg Except.ok (Cover.price_eq_meanPrice parallel.together model.weights)

theorem not_stray_iff (hl : left.node.Numbered) (hr : right.node.Numbered) {m : Matching} :
    ¬Stray left.node right.node m ↔ left.node.containsId m.left = true ∧ right.node.containsId m.right = true := by
  rw [Stray, not_or, not_not, not_not, hl.mem_ids, hr.mem_ids]

theorem costOf_optimized (apart : left.Apart right) (model : CostModel)
    (inside : ∀ m ∈ ms.entries, left.node.containsId m.left = true ∧ right.node.containsId m.right = true) :
    ∃ cost, model.costOf ms.optimized left right = .ok cost := by
  by_cases bare : ms.optimized.entries = []
  · exact ⟨_, costOf_of_nil bare model⟩
  · have kept (m : Matching) (hm : m ∈ ms.optimized.entries) :
        left.node.containsId m.left = true ∧ right.node.containsId m.right = true := by
      obtain ⟨n, hn, rfl⟩ := Matchings.mem_optimized hm
      exact inside n hn
    rcases costOf_inside apart model bare kept with ⟨-, cover, -, cost⟩ | ⟨twice, -⟩
    · exact ⟨_, cost⟩
    · exact absurd ms.optimized_apart twice

/-- Matchings have no cost exactly if they name a node outside its subtree or, with all nodes inside, match a node twice.
What has a cost is the cover that they make with every other node alone. So the consistent part of matchings inside the
subtrees always has a cost. -/
theorem costOf_classifies (apart : left.Apart right) (model : CostModel) (ms : Matchings) :
    (ms.entries ≠ [] →
      ((∃ i, model.costOf ms left right = .error (.unknownNode i)) ↔ ∃ m ∈ ms.entries, Stray left.node right.node m) ∧
      ((∀ m ∈ ms.entries, ¬Stray left.node right.node m) →
        ((∃ fault, model.costOf ms left right = .error (.malformedCover fault)) ↔
          ¬ms.entries.Pairwise Matchings.Apart) ∧
        (ms.entries.Pairwise Matchings.Apart → ∃ cover, CompletedBy left right ms cover ∧
          model.costOf ms left right = .ok (cover.meanPrice model.weights)))) ∧
    ((∀ m ∈ ms.entries, ¬Stray left.node right.node m) → ∃ cost, model.costOf ms.optimized left right = .ok cost) := by
  obtain ⟨hl, hr⟩ := apart.numbered
  constructor
  · intro filled
    rcases resolve_cases hl hr ms with inside | ⟨failure, refused, unknown⟩
    · have known : ¬∃ m ∈ ms.entries, Stray left.node right.node m := by
        rintro ⟨m, hm, stray⟩
        exact (not_stray_iff hl hr).mpr (inside m hm) stray
      rcases costOf_inside apart model filled inside with ⟨once, cover, completed, cost⟩ | ⟨twice, fault, malformed⟩
      · rw [cost]
        simp only [reduceCtorEq, exists_false, false_iff]
        exact ⟨known, fun _ => ⟨not_not.mpr once, fun _ => ⟨cover, completed, rfl⟩⟩⟩
      · rw [malformed]
        simp only [reduceCtorEq, Except.error.injEq, exists_false, false_iff]
        exact ⟨known, fun _ => ⟨⟨fun _ => twice, fun _ => ⟨fault, rfl⟩⟩, fun once => absurd once twice⟩⟩
    · obtain ⟨i, rfl, m, hm, stray⟩ := unknown.exists_stray hl hr
      rw [costOf_of_error filled refused]
      exact ⟨⟨fun _ => ⟨m, hm, stray⟩, fun _ => ⟨i, rfl⟩⟩, fun known => absurd stray (known m hm)⟩
  · intro known
    exact costOf_optimized apart model fun m hm => (not_stray_iff hl hr).mp (known m hm)

def ofPairs (pairs : List (NodeId × NodeId)) : Matchings :=
  .ofList (pairs.map fun p => { left := p.1, right := p.2, score := 1, algorithm := .ordered })

theorem costOf_classifies_twigs :
    (∃ cover, CompletedBy (twigsAt 1) (twigsAt 5) (ofPairs [(3, 8), (4, 7)]) cover ∧
      (ofParameters greedy).costOf (ofPairs [(3, 8), (4, 7)]) (twigsAt 1) (twigsAt 5) =
        .ok (cover.meanPrice (ofParameters greedy).weights)) ∧
    (∃ fault, (ofParameters greedy).costOf (ofPairs [(3, 8), (3, 7)]) (twigsAt 1) (twigsAt 5) =
      .error (.malformedCover fault)) ∧
    (∃ cost, (ofParameters greedy).costOf (ofPairs [(3, 8), (3, 7)]).optimized (twigsAt 1) (twigsAt 5) = .ok cost) ∧
    ∃ i, (ofParameters greedy).costOf (ofPairs [(8, 3)]) (twigsAt 1) (twigsAt 5) = .error (.unknownNode i) := by
  have crosswise := costOf_classifies twigs_apart (ofParameters greedy) (ofPairs [(3, 8), (4, 7)])
  have shared := costOf_classifies twigs_apart (ofParameters greedy) (ofPairs [(3, 8), (3, 7)])
  have swapped := costOf_classifies twigs_apart (ofParameters greedy) (ofPairs [(8, 3)])
  have once : (ofPairs [(3, 8), (4, 7)]).entries.Pairwise Matchings.Apart := by
    simp [ofPairs, Matchings.ofList, Matchings.addAll, Matchings.add, Matchings.get?, Matchings.empty, Matchings.Apart]
  have twice : ¬(ofPairs [(3, 8), (3, 7)]).entries.Pairwise Matchings.Apart := by
    simp [ofPairs, Matchings.ofList, Matchings.addAll, Matchings.add, Matchings.get?, Matchings.empty, Matchings.Apart]
  refine ⟨?_, ?_, ?_, ?_⟩
  · exact ((crosswise.1 (by decide)).2 (by decide)).2 once
  · exact ((shared.1 (by decide)).2 (by decide)).1.mpr twice
  · exact shared.2 (by decide)
  · exact (swapped.1 (by decide)).1.mpr (by decide)

end CostModel

end TreeAlign
