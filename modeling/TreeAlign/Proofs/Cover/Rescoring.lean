import TreeAlign.Proofs.Cover.Markers
import TreeAlign.Proofs.Cover.Place

namespace TreeAlign

theorem Site.levels_subset {root : Site} {level : List Site} (depth : Nat) (inside : ∀ s ∈ level, s ∈ root.preorder) :
    ∀ s ∈ levels depth level, s ∈ root.preorder := by
  induction depth generalizing level with
  | zero => exact inside
  | succ depth ih =>
    rw [levels, List.forall_mem_append]
    refine ⟨inside, ih fun s member => ?_⟩
    obtain ⟨parent, hparent, child⟩ := List.mem_flatMap.mp member
    exact child_mem_preorder child (inside parent hparent)

theorem Site.breadthFirst_subset (root : Site) : ∀ s ∈ root.breadthFirst, s ∈ root.preorder :=
  levels_subset _ fun _ member => List.mem_singleton.mp member ▸ root.self_mem_preorder

namespace Candidates

variable {left right : Site} {cs more : Candidates} {c : Candidate}

structure Within (left right : Site) (cs : Candidates) : Prop where
  left : cs.left = left
  right : cs.right = right
  inside : cs.Over

theorem Within.of_sides (h : Within left right cs) (sameLeft : more.left = cs.left) (sameRight : more.right = cs.right)
    (sides : ∀ c ∈ more.entries, ∃ d ∈ cs.entries, c.side = d.side) : Within left right more := by
  refine ⟨sameLeft.trans h.left, sameRight.trans h.right, fun c hc b s here => ?_⟩
  obtain ⟨d, hd, same⟩ := sides c hc
  have roots : more.root b = cs.root b := by
    cases b
    · exact sameLeft
    · exact sameRight
  rw [roots]
  exact h.inside d hd b s (same ▸ here)

theorem Within.append (h : Within left right cs) (hm : Within left right more) :
    Within left right ⟨cs.left, cs.right, cs.entries ++ more.entries⟩ := by
  refine ⟨h.left, h.right, List.forall_mem_append.mpr ⟨h.inside, fun c hc b s here => ?_⟩⟩
  have inside := hm.inside c hc b s here
  cases b
  · rwa [root, hm.left, ← h.left] at inside
  · rwa [root, hm.right, ← h.right] at inside

theorem Within.push (h : Within left right cs) (hm : Within left right more) (hc : c ∈ more.entries) :
    Within left right (cs.push c) := by
  have one : Within left right ⟨more.left, more.right, [c]⟩ :=
    hm.of_sides rfl rfl fun d hd => ⟨c, hc, congrArg Candidate.side (List.mem_singleton.mp hd)⟩
  exact h.append one

theorem Within.prune (h : Within left right cs) (c : Candidate) : Within left right (cs.prune c) :=
  h.of_sides rfl rfl fun d hd => ⟨d, List.mem_of_mem_filter hd, rfl⟩

theorem Within.foldl_prune (h : Within left right cs) (entries : List Candidate) :
    Within left right (entries.foldl Candidates.prune cs) := by
  induction entries generalizing cs with
  | nil => exact h
  | cons c entries ih => exact ih (h.prune c)

theorem within_allPairs (left right : Site) : Within left right ⟨left, right, allPairs left right⟩ := by
  refine ⟨rfl, rfl, fun c hc b s here => ?_⟩
  obtain ⟨l, hl, hc⟩ := List.mem_flatMap.mp hc
  obtain ⟨r, hr, made⟩ := List.mem_filterMap.mp hc
  have of_mem {root : Site} {x : Option Site} (hx : x ∈ root.breadthFirst.map some ++ [none]) (same : x = some s) :
      s ∈ root.preorder := by
    subst same
    apply root.breadthFirst_subset
    simpa using hx
  split at made
  · cases made
    cases b
    · exact of_mem hl here
    · exact of_mem hr here
  · cases made

end Candidates

namespace Cover

open Candidates Sampling

variable {w : Weights Float32} {p : SearchParameters} {left right : Site} {graph cover fixed current : Candidates}
  {bad : Failure → Prop}

theorem side_of_mem_zipWith {α : Type} {entries : List Candidate} {xs : List α} {f : Candidate → α → Candidate}
    {c : Candidate} (hc : c ∈ List.zipWith f entries xs) (same : ∀ c x, (f c x).side = c.side) :
    ∃ d ∈ entries, c.side = d.side := by
  rw [← List.map_uncurry_zip_eq_zipWith] at hc
  obtain ⟨⟨d, x⟩, hd, rfl⟩ := List.mem_map.mp hc
  exact ⟨d, (List.of_mem_zip hd).1, same d x⟩

/-- Whatever a walk looks up in candidates over the two subtrees, it does not lose what `inv` says. -/
structure Lasting (w : Weights Float32) (left right : Site) (inv : Walk → Prop) : Prop where
  drawn : Sourceless inv
  ranked : ∀ graph, Within left right graph → ∀ walk, inv walk →
    inv { walk with memo := (Recall.estimates graph w walk.memo).2 }

theorem lasting_true : Lasting w left right fun _ => True := ⟨fun _ _ _ => trivial, fun _ _ _ _ => trivial⟩

section Lasting

variable {inv : Walk → Prop} (lasting : Lasting w left right inv)

include lasting

theorem rank_within (h : Within left right graph) : Keeps inv (rank w graph) (Within left right) bad := by
  unfold rank
  refine Keeps.bind (.of_remember fun walk holds => ⟨trivial, lasting.ranked graph h walk holds⟩) fun bounds (_ : True) => ?_
  refine .of_pure (h.of_sides rfl rfl fun c hc => ?_)
  exact side_of_mem_zipWith (List.mem_mergeSort.mp hc) fun _ _ => rfl

theorem commit_within (rounds : Nat) (hg : Within left right graph) (hc : Within left right cover) :
    Keeps inv (commit w p rounds graph cover) (Within left right) fun _ => True := by
  induction rounds generalizing graph cover with
  | zero => exact .of_pure hc
  | succ rounds ih =>
    unfold commit
    split
    · exact .of_pure hc
    · refine (rank_within lasting hg).bind fun ranked hr => ?_
      simp only
      split
      · exact Keeps.bind (.of_throw trivial) fun _ (never : False) => never.elim
      · refine Keeps.bind (.of_drawUntil lasting.drawn fun _ _ _ _ => trivial) fun i (_ : True) => ?_
        split
        · exact .of_pure hc
        · rename_i chosen found
          have member := List.mem_of_mem_filter (List.mem_of_getElem? found)
          exact ih (hr.prune chosen) (hc.push hr member)

theorem complete_within (h : Within left right fixed) :
    Keeps inv (complete w p fixed) (Within left right) fun _ => True := by
  have drawn : Keeps inv (draw (Candidates.complete fixed.left fixed.right)) (Within left right) fun _ => True := by
    rw [h.left, h.right]
    refine .of_draw lasting.drawn fun source =>
      (within_allPairs left right).of_sides rfl rfl fun c hc => ⟨c, ?_, rfl⟩
    exact (Random.shuffle_perm _ source).mem_iff.mp hc
  unfold complete
  refine drawn.bind fun graph hg => ?_
  simp only
  split
  · exact .of_throw trivial
  · exact commit_within lasting _ (hg.foldl_prune _) h

theorem propose_within (h : Within left right current) (hf : Within left right fixed) :
    Keeps inv (propose w p current fixed) (Within left right) fun _ => True := by
  unfold propose
  refine (keep_keeps lasting.drawn).bind fun kept ⟨order, perm, sub⟩ => complete_within lasting ?_
  have old : Within left right ⟨current.left, current.right, kept⟩ :=
    h.of_sides rfl rfl fun c hc => ⟨c, List.mem_of_mem_filter (perm.mem_iff.mp (sub.subset hc)), rfl⟩
  exact old.append hf

end Lasting

theorem cost_within (h : Within left right cover) :
    Stops (cost w cover) (fun priced => Within left right priced.1) fun _ => True := by
  unfold cost
  split
  · exact .of_throw trivial
  · exact .of_remember fun memo => h.of_sides rfl rfl fun c hc => side_of_mem_zipWith hc fun _ _ => rfl

theorem explore_within (h : Within left right fixed) :
    Stops (explore w p fixed) (fun result => Within left right result.lowest) fun _ => True := by
  unfold explore
  refine (stops_iff_keeps.mpr (complete_within lasting_true h)).bind fun first hfirst => ?_
  refine (cost_within hfirst).bind fun ⟨priced, price⟩ hpriced => ?_
  have proposes (current : Candidates) (within : Within left right current) :
      Stops (propose w p current fixed) (Within left right) fun _ => True :=
    stops_iff_keeps.mpr (propose_within lasting_true within h)
  exact walk_keeps proposes (fun _ within => cost_within within) _ hpriced hpriced

theorem search_within (h : Within left right fixed) {report : SearchReport}
    (searched : search w p fixed = some (.ok (cover, report))) : Within left right cover := by
  have ends := @explore_within w p left right fixed h { source := .ofSeed p.seed }
  unfold search at searched
  split at searched
  · cases searched
  · split at searched
    · cases searched
    · cases searched
    · rename_i explored
      rw [explored] at ends
      cases searched
      exact ends

end Cover

namespace Candidates

theorem getElem?_images {cs : Candidates} (once : (lefts cs.keys).Nodup) {a b : NodeId} :
    cs.images[a]? = some b ↔ (some a, some b) ∈ cs.keys := by
  obtain ⟨left, right, entries⟩ := cs
  -- A later pair would overwrite the partner, so the induction takes off the last candidate.
  induction entries using List.reverseRecOn generalizing a b with
  | nil => simp [images, keys]
  | append_singleton entries c ih =>
    let before : Candidates := ⟨left, right, entries⟩
    have split : (⟨left, right, entries ++ [c]⟩ : Candidates).keys = before.keys ++ [c.key] := List.map_append
    rw [split, lefts, List.filterMap_append, List.nodup_append] at once
    obtain ⟨onceBefore, -, fresh⟩ := once
    rw [split, List.mem_append, List.mem_singleton, ← ih onceBefore]
    cases hl : c.left with
    | none => simp [images, hl, Candidate.key]
    | some l =>
      cases hr : c.right with
      | none => simp [images, hl, hr, Candidate.key]
      | some r =>
        have unpaired (i : NodeId) : before.images[l.id]? ≠ some i := by
          intro paired
          have known := mem_lefts.mpr ⟨_, (ih onceBefore).mp paired, rfl⟩
          exact fresh l.id known l.id (by simp [Candidate.key, hl]) rfl
        have last : (⟨left, right, entries ++ [c]⟩ : Candidates).images = before.images.insert l.id r.id := by
          simp [images, hl, hr, before]
        rw [last, Std.TreeMap.getElem?_insert]
        change _ ↔ before.images[a]? = some b ∨ _
        by_cases same : l.id = a
        · subst same
          simp [Candidate.key, hl, hr, unpaired, eq_comm]
        · simp [Candidate.key, hl, hr, same, Ne.symm same]

end Candidates

namespace Mapping

/-- The pairs with their ends in two subtrees. -/
def between (mapping : Mapping) (x y : Node) : Mapping :=
  mapping.filter fun p => p.1 ∈ x.preorder.map Tree.id ∧ p.2 ∈ y.preorder.map Tree.id

variable {mapping : Mapping} {x y : Node}

theorem card_between_le_left (once : Set.InjOn Prod.fst (mapping : Set (NodeId × NodeId))) :
    (mapping.between x y).card ≤ x.size :=
  card_le_size (fun _ member => (Finset.mem_filter.mp member).2.1) (once.mono (Finset.filter_subset _ _))

theorem card_between_le_right (once : Set.InjOn Prod.snd (mapping : Set (NodeId × NodeId))) :
    (mapping.between x y).card ≤ y.size :=
  card_le_size (fun _ member => (Finset.mem_filter.mp member).2.2) (once.mono (Finset.filter_subset _ _))

end Mapping

theorem Matchings.injOn_mapping {ms : Matchings} {side : NodeId × NodeId → NodeId}
    (once : (ms.entries.map fun m => side m.pair).Nodup) : Set.InjOn side (ms.mapping : Set (NodeId × NodeId)) := by
  intro p hp q hq same
  obtain ⟨m, hm, rfl⟩ := mem_mapping.mp hp
  obtain ⟨n, hn, rfl⟩ := mem_mapping.mp hq
  rw [List.inj_on_of_nodup_map once hm hn same]

namespace CostModel

open Candidates Dispatcher

variable {left right m n : Site} {known ms : Matchings} {cover : Candidates}

theorem mem_of_resolveNode {root s : Site} {i : NodeId} (h : resolveNode root i = .ok s) : s ∈ root.preorder := by
  unfold resolveNode at h
  split at h
  · rename_i found
    cases h
    exact List.mem_of_find?_eq_some found
  · cases h

theorem resolve_within {cs : List Candidate} (h : resolve left right ms = .ok cs) : Within left right ⟨left, right, cs⟩ := by
  obtain ⟨entries⟩ := ms
  induction entries generalizing cs with
  | nil =>
    cases h
    exact ⟨rfl, rfl, nofun⟩
  | cons e entries ih =>
    rw [resolve_cons] at h
    simp only [bind_eq_ok_iff] at h
    obtain ⟨l, foundL, r, foundR, rest, resolved, made⟩ := h
    cases made
    refine ⟨rfl, rfl, List.forall_mem_cons.mpr ⟨fun b s here => ?_, (ih resolved).inside⟩⟩
    cases b
    · cases here
      exact mem_of_resolveNode foundL
    · cases here
      exact mem_of_resolveNode foundR

def matchingOf (cover : Candidates) (m n : Site) : Matching where
  left := m.id
  right := n.id
  score := m.preorder.countP fun a =>
    match cover.images[a.id]? with
    | some partner => n.node.containsId partner
    | none => false
  algorithm := .costModel

theorem exists_matchingOf {e : Matching} (he : e ∈ (matchings cover).entries) :
    ∃ c ∈ cover.entries, ∃ m n, c.left = some m ∧ c.right = some n ∧ e = matchingOf cover m n := by
  have listed := (Matchings.mem_union he).resolve_left List.not_mem_nil
  obtain ⟨c, hc, made⟩ := List.mem_filterMap.mp listed
  split at made
  · rename_i m n hm hn
    exact ⟨c, hc, m, n, hm, hn, (Option.some.inj made).symm⟩
  · cases made

theorem score_matchingOf (hm : m.node.Numbered) (hn : n.node.Numbered) (sound : Sound left right cover.keys) :
    (matchingOf cover m n).score = ((matchings cover).mapping.between m.node n.node).card := by
  let ids := m.node.preorder.map Tree.id
  let inside (a : NodeId) : Bool := match cover.images[a]? with
    | some partner => n.node.containsId partner
    | none => false
  have inside_iff (a : NodeId) : inside a = true ↔ ∃ b, (a, b) ∈ (matchings cover).mapping ∧ n.node.containsId b = true := by
    simp only [mem_mapping_matchings, ← getElem?_images sound.onceLeft, inside]
    cases cover.images[a]? <;> simp
  have counted : (matchingOf cover m n).score = (ids.filter inside).length := by
    rw [← List.countP_eq_length_filter, show ids = m.preorder.map Site.id from m.map_id_preorder.symm, List.countP_map]
    rfl
  have once : Set.InjOn Prod.fst ((matchings cover).mapping.between m.node n.node : Set (NodeId × NodeId)) :=
    (Matchings.injOn_mapping (matchings_oneToOne sound).1).mono (Finset.filter_subset _ _)
  have same : ((matchings cover).mapping.between m.node n.node).image Prod.fst = (ids.filter inside).toFinset := by
    ext a
    simp only [Mapping.between, Finset.mem_image, Finset.mem_filter, List.mem_toFinset, List.mem_filter, inside_iff,
      hn.mem_ids]
    constructor
    · rintro ⟨⟨_, b⟩, ⟨pair, inM, inN⟩, rfl⟩
      exact ⟨inM, b, pair, inN⟩
    · rintro ⟨inM, b, pair, inN⟩
      exact ⟨(a, b), ⟨pair, inM, inN⟩, rfl⟩
  calc (matchingOf cover m n).score
      = (ids.filter inside).toFinset.card := by rw [List.toFinset_card_of_nodup (hm.nodup.filter _), counted]
    _ = ((matchings cover).mapping.between m.node n.node).card := by rw [← same, Finset.card_image_of_injOn once]

/-- What a refinement makes of the pairs that it is to keep: no node is matched twice, all pairs stay, and every pair
is one of nodes of the two subtrees, with as many pairs at or below it as its score says. -/
structure Refines (left right : Node) (known ms : Matchings) : Prop where
  nodup_left : (ms.entries.map Matching.left).Nodup
  nodup_right : (ms.entries.map Matching.right).Nodup
  kept : ∀ m ∈ known.entries, ∃ n ∈ ms.entries, n.pair = m.pair
  scored : ∀ m ∈ ms.entries, ∃ x ∈ left.preorder, ∃ y ∈ right.preorder, m.pair = (x.id, y.id) ∧
    m.score = (ms.mapping.between x y).card ∧ 1 ≤ m.score ∧ m.score ≤ min x.size y.size

theorem refines_matchings (hl : left.node.Numbered) (hr : right.node.Numbered) (within : Within left right cover)
    (sound : Sound left right cover.keys) (held : ∀ e ∈ known.entries, keyOf e ∈ cover.keys) :
    Refines left.node right.node known (matchings cover) := by
  obtain ⟨onceLeft, onceRight⟩ := matchings_oneToOne sound
  refine ⟨onceLeft, onceRight, ?_, ?_⟩
  · intro e he
    exact Matchings.mem_mapping.mp (mem_mapping_matchings.mpr (held e he))
  · intro e he
    obtain ⟨c, hc, m, n, atLeft, atRight, rfl⟩ := exists_matchingOf he
    have memM : m ∈ left.preorder := within.left ▸ within.inside c hc false m atLeft
    have memN : n ∈ right.preorder := within.right ▸ within.inside c hc true n atRight
    have score := score_matchingOf (Site.numbered_of_mem hl memM) (Site.numbered_of_mem hr memN) sound
    have self : (m.id, n.id) ∈ (matchings cover).mapping.between m.node n.node := by
      refine Finset.mem_filter.mpr ⟨Matchings.mem_mapping.mpr ⟨_, he, rfl⟩, ?_, ?_⟩
      · exact List.mem_map_of_mem (Tree.self_mem_preorder _)
      · exact List.mem_map_of_mem (Tree.self_mem_preorder _)
    refine ⟨m.node, Site.node_mem_preorder memM, n.node, Site.node_mem_preorder memN, rfl, score, ?_, ?_⟩
    · rw [score]
      exact Finset.card_pos.mpr ⟨_, self⟩
    · rw [score]
      exact le_min (Mapping.card_between_le_left (Matchings.injOn_mapping onceLeft))
        (Mapping.card_between_le_right (Matchings.injOn_mapping onceRight))

def Stray (left right : Node) (m : Matching) : Prop :=
  m.left ∉ left.preorder.map Tree.id ∨ m.right ∉ right.preorder.map Tree.id

instance (left right : Node) (m : Matching) : Decidable (Stray left right m) :=
  inferInstanceAs (Decidable (_ ∨ _))

theorem Unknown.exists_stray (hl : left.node.Numbered) (hr : right.node.Numbered) {failure : Failure}
    (unknown : Unknown left right ms failure) :
    ∃ i, failure = .unknownNode i ∧ ∃ m ∈ ms.entries, Stray left.node right.node m := by
  obtain ⟨m, hm, ⟨outside, rfl⟩ | ⟨outside, rfl⟩⟩ := unknown
  · exact ⟨_, rfl, m, hm, .inl (by simp [hl.mem_ids, outside])⟩
  · exact ⟨_, rfl, m, hm, .inr (by simp [hr.mem_ids, outside])⟩

theorem not_stray_of_mem (hl : left.node.Numbered) (hr : right.node.Numbered) (sound : Sound left right cover.keys)
    {e : Matching} (held : keyOf e ∈ cover.keys) : ¬Stray left.node right.node e := by
  rintro (outside | outside)
  · exact outside (hl.mem_ids.mpr (sound.insideLeft _ (mem_lefts.mpr ⟨_, held, rfl⟩)))
  · exact outside (hr.mem_ids.mpr (sound.insideRight _ (mem_rights.mpr ⟨_, held, rfl⟩)))

/-- With valid parameters, a refinement that ends fails at an unknown node exactly if one of the pairs that it is to
keep has an end outside its subtree. It succeeds otherwise, and every score counts the pairs at or below its own. -/
theorem refine_rescores (hl : left.node.Numbered) (hr : right.node.Numbered) {model model' : CostModel}
    (valid : model.parameters.fault? = none) {result : Except Failure Matchings}
    (ended : model.refine left right known = some (result, model')) :
    ((∃ i, result = .error (.unknownNode i)) ↔ ∃ m ∈ known.optimized.entries, Stray left.node right.node m) ∧
    ((∀ m ∈ known.optimized.entries, ¬Stray left.node right.node m) → ∃ ms, result = .ok ms) ∧
    ∀ ms, result = .ok ms → Refines left.node right.node known.optimized ms := by
  rcases refine_searches hl hr valid ended with
    ⟨cs, cover, report, resolved, searched, rfl, covers, held⟩ | ⟨failure, rfl, unknown⟩
  · refine ⟨⟨nofun, ?_⟩, fun _ => ⟨_, rfl⟩, ?_⟩
    · rintro ⟨e, he, stray⟩
      exact absurd stray (not_stray_of_mem hl hr covers.toSound (held e he))
    · intro ms same
      cases same
      exact refines_matchings hl hr (Cover.search_within (resolve_within resolved) searched) covers.toSound held
  · obtain ⟨i, rfl, e, he, stray⟩ := unknown.exists_stray hl hr
    exact ⟨⟨fun _ => ⟨e, he, stray⟩, fun _ => ⟨i, rfl⟩⟩, fun inside => absurd stray (inside e he), nofun⟩

theorem refine_rescores_names : (∃ ms model',
    (ofParameters greedy).refine (.root (names 0 "x" "y")) (.root (names 3 "y" "x")) (pairOf 1 5) = some (.ok ms, model') ∧
      Refines (names 0 "x" "y") (names 3 "y" "x") (pairOf 1 5) ms) ∧
    ∃ i model', (ofParameters greedy).refine (.root (names 0 "x" "y")) (.root (names 3 "y" "x")) (pairOf 5 1) =
      some (.error (.unknownNode i), model') := by
  have hl : (Site.root (names 0 "x" "y")).node.Numbered := names_numbered 0 "x" "y"
  have hr : (Site.root (names 3 "y" "x")).node.Numbered := names_numbered 3 "y" "x"
  have first : (ofParameters greedy).parameters.assignProbability ≥ 1.0 := by decide
  have valid : (ofParameters greedy).parameters.fault? = none := by decide
  have ends (known : Matchings) := Option.ne_none_iff_exists'.mp
    (@refine_ne_none (.root (names 0 "x" "y")) (.root (names 3 "y" "x")) known (ofParameters greedy) first)
  constructor
  · obtain ⟨⟨result, model'⟩, ended⟩ := ends (pairOf 1 5)
    obtain ⟨-, succeeds, refines⟩ := refine_rescores hl hr valid ended
    rw [optimized_pairOf] at succeeds refines
    obtain ⟨ms, rfl⟩ := succeeds (by decide)
    exact ⟨ms, model', ended, refines ms rfl⟩
  · obtain ⟨⟨result, model'⟩, ended⟩ := ends (pairOf 5 1)
    obtain ⟨fails, -⟩ := refine_rescores hl hr valid ended
    rw [optimized_pairOf] at fails
    obtain ⟨i, rfl⟩ := fails.mpr (by decide)
    exact ⟨i, model', ended⟩

end CostModel

end TreeAlign
