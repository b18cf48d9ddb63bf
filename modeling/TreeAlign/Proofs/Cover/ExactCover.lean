import TreeAlign.Proofs.Cover.Passes

namespace TreeAlign

theorem Site.numbered_of_mem_inTrees {first : NodeId} {outlines : List Outline} {s : Site}
    (hs : s ∈ inTrees (Tree.numberAll first outlines)) : s.node.Numbered := by
  obtain ⟨tree, member, below⟩ := List.mem_flatMap.mp hs
  exact Tree.numbered_of_mem_numberAll member (node_mem_preorder below)

namespace Candidates

variable {cs : Candidates} {b : Bool}

/-- Every candidate has a node, its nodes lie in the two subtrees, and every node of either subtree is the node of
exactly one candidate on that side. -/
structure ExactCover (cs : Candidates) : Prop where
  real : ∀ c ∈ cs.entries, c.left.isSome = true ∨ c.right.isSome = true
  inside : ∀ b, ∀ c ∈ cs.entries, ∀ s, c.side b = some s → s ∈ (cs.root b).preorder
  once : ∀ b, ∀ s ∈ (cs.root b).preorder, ∃! i : Fin cs.entries.length, (cs.entries.get i).side b = some s

def sideIds (cs : Candidates) (b : Bool) : List NodeId :=
  cs.entries.filterMap fun c => (c.side b).map Site.id

theorem mem_sideIds {i : NodeId} : i ∈ cs.sideIds b ↔ ∃ c ∈ cs.entries, ∃ s, c.side b = some s ∧ s.id = i := by
  simp only [sideIds, List.mem_filterMap, Option.map_eq_some_iff]

theorem covers_iff_sideIds : Covers cs.left cs.right cs.keys ↔ (none, none) ∉ cs.keys ∧
    ∀ b, (∀ i ∈ cs.sideIds b, (cs.root b).node.containsId i = true) ∧ (cs.sideIds b).Nodup ∧
      ∀ i, (cs.root b).node.containsId i = true → i ∈ cs.sideIds b := by
  have lefts_eq : lefts cs.keys = cs.sideIds false := List.filterMap_map
  have rights_eq : rights cs.keys = cs.sideIds true := List.filterMap_map
  constructor
  · intro h
    refine ⟨h.real, fun b => ?_⟩
    cases b with
    | false => exact lefts_eq ▸ ⟨h.insideLeft, h.onceLeft, h.allLeft⟩
    | true => exact rights_eq ▸ ⟨h.insideRight, h.onceRight, h.allRight⟩
  · rintro ⟨real, sides⟩
    obtain ⟨insideLeft, onceLeft, allLeft⟩ := sides false
    obtain ⟨insideRight, onceRight, allRight⟩ := sides true
    rw [← lefts_eq] at insideLeft onceLeft allLeft
    rw [← rights_eq] at insideRight onceRight allRight
    exact ⟨⟨real, insideLeft, insideRight, onceLeft, onceRight⟩, allLeft, allRight⟩

section Side

variable (numbered : (cs.root b).node.Numbered)
  (inside : ∀ c ∈ cs.entries, ∀ s, c.side b = some s → s ∈ (cs.root b).preorder)

include numbered inside

theorem nodup_sideIds_iff : (cs.sideIds b).Nodup ↔ ∀ s, ∀ i j : Fin cs.entries.length,
    (cs.entries.get i).side b = some s → (cs.entries.get j).side b = some s → i = j := by
  rw [sideIds, List.Nodup, List.pairwise_filterMap, List.pairwise_iff_get]
  simp only [Option.map_eq_some_iff]
  constructor
  · intro distinct s i j hi hj
    rcases Nat.lt_trichotomy i j with less | same | more
    · exact absurd rfl (distinct i j less s.id ⟨s, hi, rfl⟩ s.id ⟨s, hj, rfl⟩)
    · exact Fin.ext same
    · exact absurd rfl (distinct j i more s.id ⟨s, hj, rfl⟩ s.id ⟨s, hi, rfl⟩)
  · rintro once i j less _ ⟨s, hi, rfl⟩ _ ⟨t, hj, rfl⟩ same
    have equal := Site.eq_of_id_eq numbered (inside _ (List.get_mem _ _) s hi) (inside _ (List.get_mem _ _) t hj) same
    have := once s i j hi (equal ▸ hj)
    omega

theorem all_sideIds_iff : (∀ i, (cs.root b).node.containsId i = true → i ∈ cs.sideIds b) ↔
    ∀ s ∈ (cs.root b).preorder, ∃ i : Fin cs.entries.length, (cs.entries.get i).side b = some s := by
  constructor
  · intro all s hs
    obtain ⟨c, hc, t, here, same⟩ := mem_sideIds.mp (all s.id (Site.containsId_of_mem numbered hs))
    obtain ⟨i, rfl⟩ := List.get_of_mem hc
    exact ⟨i, Site.eq_of_id_eq numbered (inside _ hc t here) hs same ▸ here⟩
  · intro found i member
    obtain ⟨s, hs, rfl⟩ := Site.exists_mem_preorder numbered member
    obtain ⟨j, here⟩ := found s hs
    exact mem_sideIds.mpr ⟨_, List.get_mem _ _, s, here, rfl⟩

theorem sideIds_iff_once : ((cs.sideIds b).Nodup ∧ ∀ i, (cs.root b).node.containsId i = true → i ∈ cs.sideIds b) ↔
    ∀ s ∈ (cs.root b).preorder, ∃! i : Fin cs.entries.length, (cs.entries.get i).side b = some s := by
  rw [nodup_sideIds_iff numbered inside, all_sideIds_iff numbered inside]
  constructor
  · rintro ⟨unique, found⟩ s hs
    obtain ⟨i, here⟩ := found s hs
    exact ⟨i, here, fun j there => unique s j i there here⟩
  · intro once
    refine ⟨fun s i j hi hj => ?_, fun s hs => (once s hs).exists⟩
    exact (once s (inside _ (List.get_mem _ _) s hi)).unique hi hj

end Side

/-- The check accepts exactly the lists of candidates that cover every node of two subtrees once, whether these lie in
different trees or in one, and whatever trees the nodes of the candidates are from. -/
theorem check_decides_exactCover {first : NodeId} {outlines : List Outline}
    (roots : ∀ b, cs.root b ∈ Site.inTrees (Tree.numberAll first outlines))
    (nodes : ∀ c ∈ cs.entries, ∀ b s, c.side b = some s → s ∈ Site.inTrees (Tree.numberAll first outlines)) :
    cs.check = .ok () ↔ cs.ExactCover := by
  have numbered (b : Bool) : (cs.root b).node.Numbered := Site.numbered_of_mem_inTrees (roots b)
  have real : (none, none) ∉ cs.keys ↔ ∀ c ∈ cs.entries, c.left.isSome = true ∨ c.right.isSome = true := by
    simp only [mem_keys, not_exists, not_and, Candidate.key_eq_none_iff, not_not]
  have inside_iff (b : Bool) : (∀ i ∈ cs.sideIds b, (cs.root b).node.containsId i = true) ↔
      ∀ c ∈ cs.entries, ∀ s, c.side b = some s → s ∈ (cs.root b).preorder := by
    constructor
    · intro inside c hc s here
      obtain ⟨t, ht, same⟩ := Site.exists_mem_preorder (numbered b) (inside s.id (mem_sideIds.mpr ⟨c, hc, s, here, rfl⟩))
      rwa [← Site.eq_of_mem_inTrees (Site.mem_inTrees_below (roots b) ht) (nodes c hc b s here) same]
    · intro inside i member
      obtain ⟨c, hc, s, here, rfl⟩ := mem_sideIds.mp member
      exact Site.containsId_of_mem (numbered b) (inside c hc s here)
  rw [check_eq_ok_iff (numbered false) (numbered true), covers_iff_sideIds, real]
  constructor
  · rintro ⟨real, sides⟩
    have inside (b : Bool) := (inside_iff b).mp (sides b).1
    exact ⟨real, inside, fun b => (sideIds_iff_once (numbered b) (inside b)).mp (sides b).2⟩
  · intro cover
    refine ⟨cover.real, fun b => ⟨(inside_iff b).mpr (cover.inside b), ?_⟩⟩
    exact (sideIds_iff_once (numbered b) (cover.inside b)).mpr (cover.once b)

theorem check_decides_exactCover_twig : ∃ left right, Pass.twigSites[1]? = some left ∧ Pass.twigSites[0]? = some right ∧
    (atPlaces left right Pass.knotPlaces).ExactCover ∧ ¬(atPlaces left right Pass.knotPlaces.tail).ExactCover ∧
    ¬(atPlaces left right (Pass.knotPlaces ++ [(none, some 3)])).ExactCover := by
  obtain ⟨left, right, hl, hr, sane, missing, twice⟩ : ∃ left right, Pass.twigSites[1]? = some left ∧
      Pass.twigSites[0]? = some right ∧ (atPlaces left right Pass.knotPlaces).check = .ok () ∧
      (atPlaces left right Pass.knotPlaces.tail).check = .error (.uncovered 1 2 3 4) ∧
      (atPlaces left right (Pass.knotPlaces ++ [(none, some 3)])).check = .error (.repeated 3) :=
    ⟨_, _, rfl, rfl, rfl, rfl, rfl⟩
  have decides (places : List (Option Nat × Option Nat)) :
      (atPlaces left right places).check = .ok () ↔ (atPlaces left right places).ExactCover := by
    have roots (b : Bool) : (atPlaces left right places).root b ∈ Site.inTrees (Tree.numberAll 0 [Pass.twig]) := by
      cases b with
      | false => exact List.mem_of_getElem? hl
      | true => exact List.mem_of_getElem? hr
    apply check_decides_exactCover roots
    intro c hc b s here
    exact Site.mem_inTrees_below (roots b) (atPlaces_over left right places c hc b s here)
  refine ⟨left, right, hl, hr, (decides _).mp sane, fun cover => ?_, fun cover => ?_⟩
  · rw [(decides _).mpr cover] at missing
    cases missing
  · rw [(decides _).mpr cover] at twice
    cases twice

end Candidates

end TreeAlign
