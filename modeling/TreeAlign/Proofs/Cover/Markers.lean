import TreeAlign.Proofs.Refinement

namespace TreeAlign

namespace CostModel

open Candidates

variable {left right : Site} {known ms : Matchings} {model model' : CostModel}

def Unknown (left right : Site) (ms : Matchings) (failure : Failure) : Prop :=
  ∃ m ∈ ms.entries, left.node.containsId m.left = false ∧ failure = .unknownNode m.left ∨
    right.node.containsId m.right = false ∧ failure = .unknownNode m.right

theorem resolveNode_cases {root : Site} (numbered : root.node.Numbered) (i : NodeId) :
    root.node.containsId i = true ∧ (∃ s, resolveNode root i = .ok s) ∨
      root.node.containsId i = false ∧ resolveNode root i = .error (.unknownNode i) := by
  unfold resolveNode
  cases found : root.find? i with
  | some s =>
    have member := List.mem_of_find?_eq_some found
    have same : s.id = i := by simpa using List.find?_some found
    exact .inl ⟨same ▸ Site.containsId_of_mem numbered member, s, rfl⟩
  | none =>
    refine .inr ⟨?_, rfl⟩
    rw [← Bool.not_eq_true]
    intro inside
    obtain ⟨s, found', -⟩ := Site.exists_find? numbered inside
    rw [found] at found'
    cases found'

theorem resolve_cons (left right : Site) (m : Matching) (entries : List Matching) :
    resolve left right ⟨m :: entries⟩ = do
      let l ← resolveNode left m.left
      let r ← resolveNode right m.right
      let cs ← resolve left right ⟨entries⟩
      return .pair l r :: cs := by
  simp [resolve, List.mapM_cons]

theorem resolve_cases (hl : left.node.Numbered) (hr : right.node.Numbered) (ms : Matchings) :
    (∀ m ∈ ms.entries, left.node.containsId m.left = true ∧ right.node.containsId m.right = true) ∨
      ∃ failure, resolve left right ms = .error failure ∧ Unknown left right ms failure := by
  obtain ⟨entries⟩ := ms
  induction entries with
  | nil => exact .inl fun m member => absurd member List.not_mem_nil
  | cons m entries ih =>
    rw [resolve_cons]
    rcases resolveNode_cases hl m.left with ⟨insideL, l, foundL⟩ | ⟨outside, refused⟩
    · rcases resolveNode_cases hr m.right with ⟨insideR, r, foundR⟩ | ⟨outside, refused⟩
      · rcases ih with inside | ⟨failure, refused, n, hn, cause⟩
        · exact .inl (List.forall_mem_cons.mpr ⟨⟨insideL, insideR⟩, inside⟩)
        · rw [foundL, foundR, refused]
          exact .inr ⟨failure, rfl, n, List.mem_cons_of_mem m hn, cause⟩
      · rw [foundL, refused]
        exact .inr ⟨_, rfl, m, List.mem_cons_self, .inr ⟨outside, rfl⟩⟩
    · rw [refused]
      exact .inr ⟨_, rfl, m, List.mem_cons_self, .inl ⟨outside, rfl⟩⟩

/-- With valid parameters, a refinement that ends has searched from the pairs that it is to keep and found a cover with
all of them, or fails at a node that neither subtree has. -/
theorem refine_searches (hl : left.node.Numbered) (hr : right.node.Numbered) (valid : model.parameters.fault? = none)
    {result : Except Failure Matchings} (ended : model.refine left right known = some (result, model')) :
    (∃ cs cover report, resolve left right known.optimized = .ok cs ∧
      Cover.search model.weights model.parameters ⟨left, right, cs⟩ = some (.ok (cover, report)) ∧
      result = .ok (matchings cover) ∧ Covers left right cover.keys ∧
      ∀ m ∈ known.optimized.entries, keyOf m ∈ cover.keys) ∨
      ∃ failure, result = .error failure ∧ Unknown left right known.optimized failure := by
  rcases resolve_cases hl hr known.optimized with inside | ⟨failure, refused, unknown⟩
  · obtain ⟨cs, resolved, keys⟩ := resolve_ok hl hr inside
    obtain ⟨lefts, rights⟩ := known.optimized_oneToOne
    have sound : Sound left right (cs.map Candidate.key) := keys ▸ sound_keyOf inside lefts rights
    simp only [refine, resolved, search] at ended
    rcases searched : Cover.search model.weights model.parameters ⟨left, right, cs⟩ with
      _ | failure | ⟨cover, report⟩ <;> simp only [searched] at ended
    · cases ended
    · exact absurd ⟨valid, sound⟩ (Cover.search_error hl hr searched)
    · cases ended
      obtain ⟨-, -, holds⟩ := Cover.search_ok hl hr searched
      refine .inl ⟨cs, cover, report, resolved, searched, rfl, holds.covers, fun m member => holds.fixed ?_⟩
      change keyOf m ∈ cs.map Candidate.key
      rw [keys]
      exact List.mem_map_of_mem member
  · simp only [refine, refused] at ended
    cases ended
    exact .inr ⟨failure, rfl, unknown⟩

theorem refine_cases (hl : left.node.Numbered) (hr : right.node.Numbered) (valid : model.parameters.fault? = none)
    {result : Except Failure Matchings} (ended : model.refine left right known = some (result, model')) :
    (∃ cover, result = .ok (matchings cover) ∧ Covers left right cover.keys ∧
      ∀ m ∈ known.optimized.entries, keyOf m ∈ cover.keys) ∨
      ∃ failure, result = .error failure ∧ Unknown left right known.optimized failure := by
  refine (refine_searches hl hr valid ended).imp_left ?_
  rintro ⟨cs, cover, report, -, -, found⟩
  exact ⟨cover, found⟩

def PlainAt (root : Site) (i : NodeId) : Prop :=
  ∃ x ∈ root.node.preorder, Tree.id x = i ∧ Tree.marker x = .plain

theorem plainAt_of_contains {root : Site} (numbered : root.node.Numbered)
    (plain : ∀ x ∈ root.node.preorder, Tree.marker x = .plain) {i : NodeId} (inside : root.node.containsId i = true) :
    PlainAt root i := by
  obtain ⟨x, hx, same⟩ := List.mem_map.mp (numbered.mem_ids.mpr inside)
  exact ⟨x, hx, same, plain x hx⟩

theorem PlainAt.marker {root : Site} (numbered : root.node.Numbered) {x : Node} (hx : x ∈ root.node.preorder)
    (plain : PlainAt root x.id) : x.marker = .plain := by
  obtain ⟨y, hy, same, plain⟩ := plain
  rwa [← numbered.eq_of_id_eq hy hx same]

/-- Parameters of a search that completes a cover by the first candidate left, and makes no more of it. -/
def greedy : SearchParameters := { iterations := 0, assignProbability := 1.0 }

def pairOf (left right : NodeId) : Matchings :=
  .single { left := left, right := right, score := 1, algorithm := .ordered }

theorem optimized_pairOf (i j : NodeId) : (pairOf i j).optimized = pairOf i j := by
  simp [pairOf, Matchings.optimized, Matchings.single, Matchings.takeFree, Matching.shallow]

theorem exists_matched (hl : left.node.Numbered) (hr : right.node.Numbered) {x y : Node} (hx : x ∈ left.node.preorder)
    (hy : y ∈ right.node.preorder) : ∃ ms model',
      (ofParameters greedy).refine left right (pairOf x.id y.id) = some (.ok ms, model') ∧
        ∃ m ∈ ms.entries, m.pair = (x.id, y.id) := by
  have first : (ofParameters greedy).parameters.assignProbability ≥ 1.0 := by decide
  have valid : (ofParameters greedy).parameters.fault? = none := by decide
  obtain ⟨⟨result, model'⟩, ended⟩ := Option.ne_none_iff_exists'.mp
    (@refine_ne_none left right (pairOf x.id y.id) (ofParameters greedy) first)
  rcases refine_cases hl hr valid ended with ⟨cover, rfl, -, kept⟩ | ⟨failure, -, m, hm, cause⟩
  · refine ⟨_, model', ended, ?_⟩
    rw [optimized_pairOf] at kept
    exact Matchings.mem_mapping.mp (mem_mapping_matchings.mpr (kept _ List.mem_cons_self))
  · rw [optimized_pairOf, pairOf, Matchings.single, List.mem_singleton] at hm
    subst hm
    simp [hl.containsId_of_mem hx, hr.containsId_of_mem hy] at cause

/-- Whatever the valid parameters and the pairs to be kept, only plain nodes are matched. -/
def MatchesPlain (left right : Site) : Prop :=
  ∀ (model : CostModel) known ms model', model.parameters.fault? = none →
    model.refine left right known = some (.ok ms, model') →
    ∀ m ∈ ms.entries, PlainAt left m.left ∧ PlainAt right m.right

/-- Only plain nodes are matched exactly if the two subtrees have no others. A search never fails at a marked node,
but only at one that neither subtree has. -/
theorem matchesPlain_iff (hl : left.node.Numbered) (hr : right.node.Numbered) :
    (MatchesPlain left right ↔
      (∀ x ∈ left.node.preorder, Tree.marker x = .plain) ∧ ∀ x ∈ right.node.preorder, Tree.marker x = .plain) ∧
    ∀ (model : CostModel) known failure model', model.parameters.fault? = none →
      model.refine left right known = some (.error failure, model') → Unknown left right known failure := by
  refine ⟨⟨?_, ?_⟩, ?_⟩
  · intro plain
    have matched {x y : Node} (hx : x ∈ left.node.preorder) (hy : y ∈ right.node.preorder) :
        PlainAt left x.id ∧ PlainAt right y.id := by
      obtain ⟨ms, model', ended, m, hm, pair⟩ := exists_matched hl hr hx hy
      have ends := plain _ _ ms model' (by decide) ended m hm
      obtain ⟨eqL, eqR⟩ := Prod.ext_iff.mp pair
      rwa [show m.left = x.id from eqL, show m.right = y.id from eqR] at ends
    constructor
    · intro x hx
      exact (matched hx (Tree.self_mem_preorder _)).1.marker hl hx
    · intro y hy
      exact (matched (Tree.self_mem_preorder _) hy).2.marker hr hy
  · intro ⟨plainL, plainR⟩ model known ms model' valid ended m hm
    rcases refine_cases hl hr valid ended with ⟨cover, same, covers, -⟩ | ⟨failure, wrong, -⟩
    · cases same
      have key : keyOf m ∈ cover.keys := mem_mapping_matchings.mp (Matchings.mem_mapping.mpr ⟨m, hm, rfl⟩)
      exact ⟨plainAt_of_contains hl plainL (covers.insideLeft _ (mem_lefts.mpr ⟨_, key, rfl⟩)),
        plainAt_of_contains hr plainR (covers.insideRight _ (mem_rights.mpr ⟨_, key, rfl⟩))⟩
    · cases wrong
  · intro model known failure model' valid ended
    rcases refine_cases hl hr valid ended with ⟨cover, wrong, -⟩ | ⟨_, same, m, hm, cause⟩
    · cases wrong
    · cases same
      obtain ⟨n, hn, rfl⟩ := Matchings.mem_optimized hm
      exact ⟨n, hn, cause⟩

def lone (first : NodeId) (marker : Marker) : Node :=
  Tree.number first (.node ⟨⟨"a", none⟩, false, marker⟩ [])

theorem lone_numbered (first : NodeId) (marker : Marker) : (Site.root (lone first marker)).node.Numbered :=
  (Tree.number_numbered _ _).2

theorem matchesPlain_iff_lone : MatchesPlain (.root (lone 1 .plain)) (.root (lone 2 .plain)) ∧
    ¬MatchesPlain (.root (lone 1 .choice)) (.root (lone 2 .plain)) := by
  constructor
  · apply (matchesPlain_iff (lone_numbered 1 .plain) (lone_numbered 2 .plain)).1.mpr
    decide
  · intro plain
    have markers := (matchesPlain_iff (lone_numbered 1 .choice) (lone_numbered 2 .plain)).1.mp plain
    cases markers.1 _ (Tree.self_mem_preorder _)

theorem refine_choice : ∃ ms model',
    (ofParameters greedy).refine (.root (lone 1 .choice)) (.root (lone 2 .plain)) (pairOf 1 2) = some (.ok ms, model') ∧
    ∃ m ∈ ms.entries, m.pair = (1, 2) ∧ ¬PlainAt (.root (lone 1 .choice)) m.left := by
  have numbered := lone_numbered 1 .choice
  have root := (lone 1 .choice).self_mem_preorder
  obtain ⟨ms, model', ended, m, hm, pair⟩ :=
    exists_matched numbered (lone_numbered 2 .plain) root (Tree.self_mem_preorder _)
  refine ⟨ms, model', ended, m, hm, pair, fun plain => ?_⟩
  rw [show m.left = (lone 1 .choice).id from congrArg Prod.fst pair] at plain
  cases plain.marker numbered root

end CostModel

end TreeAlign
