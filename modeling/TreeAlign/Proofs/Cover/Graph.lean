import TreeAlign.Proofs.BreadthFirst

namespace TreeAlign.Candidates

open Candidate (Key)

variable {left right : Site}

theorem length_optionalIds (site : Site) : (optionalIds site).length = site.size + 1 := by
  simp [optionalIds, site.breadthFirst_perm.length_eq, Site.length_preorder]

theorem mem_optionalIds_iff {site : Site} {x : Option NodeId} : x ∈ optionalIds site ↔
    ∃ m : Option Site, (∀ s ∈ m, Relation.ReflTransGen Site.IsChild site s) ∧ x = m.map Site.id := by
  simp only [optionalIds, List.map_map, List.mem_append, List.mem_map, List.mem_singleton, site.breadthFirst_perm.mem_iff,
    Site.mem_preorder_iff_reflTransGen]
  constructor
  · rintro (⟨s, below, rfl⟩ | rfl)
    · exact ⟨some s, by simpa using below, rfl⟩
    · exact ⟨none, by simp, rfl⟩
  · rintro ⟨_ | s, below, rfl⟩
    · exact .inr rfl
    · exact .inl ⟨s, below s rfl, rfl⟩

theorem mem_keys_allPairs_iff {k : Key} : k ∈ (allPairs left right).map Candidate.key ↔
    ∃ m n : Option Site, (∀ s ∈ m, Relation.ReflTransGen Site.IsChild left s) ∧
      (∀ t ∈ n, Relation.ReflTransGen Site.IsChild right t) ∧ ¬(m = none ∧ n = none) ∧
      k = (m.map Site.id, n.map Site.id) := by
  rw [keys_allPairs, List.mem_filter, List.mem_product, mem_optionalIds_iff, mem_optionalIds_iff]
  constructor
  · rintro ⟨⟨⟨m, hm, left⟩, n, hn, right⟩, real⟩
    refine ⟨m, n, hm, hn, ?_, Prod.ext left right⟩
    rintro ⟨rfl, rfl⟩
    rw [left, right] at real
    cases real
  · rintro ⟨m, n, hm, hn, real, rfl⟩
    refine ⟨⟨⟨m, hm, rfl⟩, n, hn, rfl⟩, ?_⟩
    cases m <;> cases n <;> simp at real ⊢

theorem cons_keys_allPairs_perm (hl : left.node.Numbered) (hr : right.node.Numbered) :
    ((none, none) :: (allPairs left right).map Candidate.key).Perm (optionalIds left ×ˢ optionalIds right) := by
  have missing : (none, none) ∉ (allPairs left right).map Candidate.key := by
    rw [keys_allPairs, List.mem_filter]
    rintro ⟨-, real⟩
    cases real
  have nodup : ((none, none) :: (allPairs left right).map Candidate.key).Nodup :=
    List.nodup_cons.mpr ⟨missing, nodup_keys_allPairs hl hr⟩
  rw [List.perm_ext_iff_of_nodup nodup ((nodup_optionalIds hl).product (nodup_optionalIds hr))]
  intro k
  rw [List.mem_cons, keys_allPairs, List.mem_filter]
  constructor
  · rintro (rfl | ⟨member, -⟩)
    · exact List.mem_product.mpr ⟨by simp [optionalIds], by simp [optionalIds]⟩
    · exact member
  · intro member
    obtain ⟨_ | _, _ | _⟩ := k
    · exact .inl rfl
    all_goals exact .inr ⟨member, rfl⟩

theorem length_keys_allPairs (hl : left.node.Numbered) (hr : right.node.Numbered) :
    ((allPairs left right).map Candidate.key).length = (left.size + 1) * (right.size + 1) - 1 := by
  have length := (cons_keys_allPairs_perm hl hr).length_eq
  rw [List.length_cons, List.length_product, length_optionalIds, length_optionalIds] at length
  omega

/-- A shuffle loses nothing, a breadth-first traversal ends and lists the nodes of a subtree level by level, and so the
candidates to begin with have all keys there are over the two subtrees, each once. -/
theorem complete_enumerates (hl : left.node.Numbered) (hr : right.node.Numbered) (source : Random) :
    (∀ (α : Type) (items : List α), (source.shuffle items).1.Perm items) ∧
    (∀ a : Site, a.node.Numbered →
      Site.Queue.serve^[a.size] (.start a) = ⟨a.breadthFirst, []⟩ ∧
      (∀ n < a.size, (Site.Queue.serve^[n] (.start a)).waiting ≠ []) ∧ a.LevelOrder a.breadthFirst) ∧
    let graph := (complete left right source).1
    graph.left = left ∧ graph.right = right ∧ graph.keys.Nodup ∧
    (∀ k, k ∈ graph.keys ↔ ∃ m n : Option Site, (∀ s ∈ m, Relation.ReflTransGen Site.IsChild left s) ∧
      (∀ t ∈ n, Relation.ReflTransGen Site.IsChild right t) ∧ ¬(m = none ∧ n = none) ∧
      k = (m.map Site.id, n.map Site.id)) ∧
    graph.keys.length = (left.size + 1) * (right.size + 1) - 1 := by
  have perm : (complete left right source).1.keys.Perm ((allPairs left right).map Candidate.key) :=
    (Random.shuffle_perm _ source).map _
  refine ⟨fun _ items => Random.shuffle_perm items source, fun a numbered => ?_, rfl, rfl, ?_, fun k => ?_, ?_⟩
  · exact ⟨Site.Queue.serve_breadthFirst a, fun _ => Site.Queue.waiting_ne_nil, Site.levelOrder_breadthFirst numbered⟩
  · exact perm.nodup_iff.mpr (nodup_keys_allPairs hl hr)
  · rw [perm.mem_iff, mem_keys_allPairs_iff]
  · rw [perm.length_eq, length_keys_allPairs hl hr]

theorem complete_enumerates_twig : ∃ left right, Pass.twigSites[1]? = some left ∧ Pass.twigSites[0]? = some right ∧
    right.breadthFirst.map Site.id = [0, 1, 3, 2] ∧ right.LevelOrder right.breadthFirst ∧
    ∀ seed, (complete left right (.ofSeed seed)).1.keys.Nodup ∧ (complete left right (.ofSeed seed)).1.keys.length = 14 := by
  obtain ⟨left, right, hl, hr, order⟩ : ∃ left right, Pass.twigSites[1]? = some left ∧ Pass.twigSites[0]? = some right ∧
    right.breadthFirst.map Site.id = [0, 1, 3, 2] := ⟨_, _, rfl, rfl, rfl⟩
  have numberedLeft := Site.numbered_of_mem_inTrees (List.mem_of_getElem? hl)
  have numberedRight := Site.numbered_of_mem_inTrees (List.mem_of_getElem? hr)
  have graph (seed : UInt64) := complete_enumerates numberedLeft numberedRight (.ofSeed seed)
  refine ⟨left, right, hl, hr, order, ((graph 0).2.1 right numberedRight).2.2, fun seed => ?_⟩
  obtain ⟨-, -, -, -, nodup, -, length⟩ := graph seed
  refine ⟨nodup, length.trans ?_⟩
  cases hl
  cases hr
  rfl

end TreeAlign.Candidates
