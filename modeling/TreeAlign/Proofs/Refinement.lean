import TreeAlign.Proofs.Cover.Search
import TreeAlign.Proofs.Dispatch
import TreeAlign.Proofs.Overlaps
import TreeAlign.Strategy.Whole

namespace TreeAlign

theorem Site.exists_find? {site : Site} (numbered : site.node.Numbered) {i : NodeId}
    (inside : site.node.containsId i = true) : ∃ s, site.find? i = some s ∧ s.id = i := by
  obtain ⟨s, member, same⟩ := exists_mem_preorder numbered inside
  have found : (site.find? i).isSome = true := by
    rw [find?, List.find?_isSome]
    exact ⟨s, member, beq_iff_eq.mpr same⟩
  obtain ⟨t, eq⟩ := Option.isSome_iff_exists.mp found
  have last := List.find?_some eq
  exact ⟨t, eq, beq_iff_eq.mp last⟩

namespace CostModel

open Candidates

variable {left right : Site} {ms : Matchings}

def keyOf (m : Matching) : Candidate.Key :=
  (some m.left, some m.right)

theorem resolve_ok (hl : left.node.Numbered) (hr : right.node.Numbered)
    (inside : ∀ m ∈ ms.entries, left.node.containsId m.left = true ∧ right.node.containsId m.right = true) :
    ∃ cs, resolve left right ms = .ok cs ∧ cs.map Candidate.key = ms.entries.map keyOf := by
  obtain ⟨entries⟩ := ms
  unfold resolve
  induction entries with
  | nil => exact ⟨[], rfl, rfl⟩
  | cons m entries ih =>
    obtain ⟨cs, resolved, keys⟩ := ih fun n member => inside n (List.mem_cons_of_mem _ member)
    obtain ⟨insideL, insideR⟩ := inside m List.mem_cons_self
    obtain ⟨l, foundL, idL⟩ := Site.exists_find? hl insideL
    obtain ⟨r, foundR, idR⟩ := Site.exists_find? hr insideR
    refine ⟨.pair l r :: cs, ?_, ?_⟩
    · simp only [List.mapM_cons, resolveNode, foundL, foundR] at resolved ⊢
      rw [resolved]
      rfl
    · simp [keys, keyOf, Candidate.key, Candidate.pair, idL, idR]

theorem sound_keyOf {entries : List Matching}
    (inside : ∀ m ∈ entries, left.node.containsId m.left = true ∧ right.node.containsId m.right = true)
    (lefts : (entries.map Matching.left).Nodup) (rights : (entries.map Matching.right).Nodup) :
    Sound left right (entries.map keyOf) := by
  have leftIds : Candidates.lefts (entries.map keyOf) = entries.map Matching.left := by
    simp [Candidates.lefts, keyOf, Function.comp_def]
  have rightIds : Candidates.rights (entries.map keyOf) = entries.map Matching.right := by
    simp [Candidates.rights, keyOf, Function.comp_def]
  refine ⟨?_, ?_, ?_, leftIds ▸ lefts, rightIds ▸ rights⟩
  · intro member
    obtain ⟨m, -, same⟩ := List.mem_map.mp member
    cases same
  · intro i member
    rw [leftIds] at member
    obtain ⟨m, hm, rfl⟩ := List.mem_map.mp member
    exact (inside m hm).1
  · intro i member
    rw [rightIds] at member
    obtain ⟨m, hm, rfl⟩ := List.mem_map.mp member
    exact (inside m hm).2

theorem mem_mapping_matchings {cover : Candidates} {l r : NodeId} :
    (l, r) ∈ (matchings cover).mapping ↔ (some l, some r) ∈ cover.keys := by
  rw [matchings, Matchings.mem_mapping_ofList, mem_keys]
  constructor
  · rintro ⟨m, member, pair⟩
    obtain ⟨c, hc, made⟩ := List.mem_filterMap.mp member
    refine ⟨c, hc, ?_⟩
    split at made
    · rename_i x y hx hy
      cases made
      cases pair
      simp [Candidate.key, hx, hy]
    · cases made
  · rintro ⟨c, hc, key⟩
    simp only [Candidate.key, Prod.mk.injEq, Option.map_eq_some_iff] at key
    obtain ⟨⟨x, hx, rfl⟩, y, hy, rfl⟩ := key
    refine ⟨⟨x.id, y.id, ?_, .costModel, none, none, []⟩, List.mem_filterMap.mpr ⟨c, hc, ?_⟩, rfl⟩
    rotate_left
    · simp only [hx, hy]
      rfl

theorem matchings_oneToOne {cover : Candidates} (sound : Sound left right cover.keys) :
    ((matchings cover).entries.map Matching.left).Nodup ∧ ((matchings cover).entries.map Matching.right).Nodup := by
  have key {m : Matching} (member : m ∈ (matchings cover).entries) : keyOf m ∈ cover.keys :=
    mem_mapping_matchings.mp (Matchings.mem_mapping.mpr ⟨m, member, rfl⟩)
  have pair {m n : Matching} (same : keyOf m = keyOf n) : m.pair = n.pair := by
    simpa [keyOf, Matching.pair] using same
  constructor
  · apply (Matchings.distinct_ofList _).nodup_map
    intro m hm n hn same
    exact pair ((sound.separate (key hm) (key hn)).resolve_right fun apart => apart (.inl ⟨_, rfl, congrArg some same.symm⟩))
  · apply (Matchings.distinct_ofList _).nodup_map
    intro m hm n hn same
    exact pair ((sound.separate (key hm) (key hn)).resolve_right fun apart => apart (.inr ⟨_, rfl, congrArg some same.symm⟩))

section Refine

variable {left right : Node} (model : CostModel) {model' : CostModel} {result : Except Failure Matchings}

/-- The candidates that the search starts from, for a matching found by recursion: they are sound, and they are its
positive pairs. -/
theorem exists_fixed (hl : left.Numbered) (hr : right.Numbered) (found : Found left right ms) :
    ∃ cs, resolve (.root left) (.root right) ms.optimized = .ok cs ∧
      Sound (.root left) (.root right) (cs.map Candidate.key) ∧
      ∀ k, k ∈ cs.map Candidate.key ↔ ∃ m ∈ ms.entries, 0 < m.score ∧ keyOf m = k := by
  have perm := Matchings.optimized_perm found.nodup_left found.nodup_right
  have inside : ∀ m ∈ ms.optimized.entries, left.containsId m.left = true ∧ right.containsId m.right = true := by
    intro m member
    obtain ⟨n, hn, rfl⟩ := Matchings.mem_optimized member
    obtain ⟨inL, inR⟩ := found.admissible.inside _ (Matchings.mem_mapping.mpr ⟨n, hn, rfl⟩)
    exact ⟨hl.mem_ids.mp inL, hr.mem_ids.mp inR⟩
  obtain ⟨lefts, rights⟩ := ms.optimized_oneToOne
  obtain ⟨cs, resolved, keys⟩ := @resolve_ok (.root left) (.root right) _ hl hr inside
  refine ⟨cs, resolved, keys ▸ sound_keyOf inside lefts rights, fun k => ?_⟩
  rw [keys, (perm.map keyOf).mem_iff, List.map_map, List.mem_map]
  simp only [List.mem_filter, decide_eq_true_eq, and_assoc]
  rfl

theorem refine_valid (hl : left.Numbered) (hr : right.Numbered) (found : Found left right ms)
    (valid : model.parameters.fault? = none)
    (ended : model.refine (.root left) (.root right) ms = some (result, model')) :
    ∃ refined, result = .ok refined ∧ (refined.entries.map Matching.left).Nodup ∧
      (refined.entries.map Matching.right).Nodup ∧
      ∀ m ∈ ms.entries, 0 < m.score → ∃ n ∈ refined.entries, n.pair = m.pair := by
  obtain ⟨cs, resolved, sound, positive⟩ := exists_fixed hl hr found
  simp only [refine, resolved, search] at ended
  rcases searched : Cover.search model.weights model.parameters ⟨.root left, .root right, cs⟩ with
    _ | failure | ⟨cover, report⟩ <;> simp only [searched] at ended
  · cases ended
  · exact absurd ⟨valid, sound⟩ (Cover.search_error hl hr searched)
  · cases ended
    obtain ⟨-, -, holds⟩ := Cover.search_ok hl hr searched
    obtain ⟨lefts, rights⟩ := matchings_oneToOne holds.covers.toSound
    refine ⟨_, rfl, lefts, rights, fun m member score => ?_⟩
    have key : keyOf m ∈ cover.keys := holds.fixed ((positive _).mpr ⟨m, member, score, rfl⟩)
    exact Matchings.mem_mapping.mp (mem_mapping_matchings.mpr key)

theorem refine_invalid (hl : left.Numbered) (hr : right.Numbered) (found : Found left right ms)
    {fault : ParameterFault} (invalid : model.parameters.fault? = some fault) :
    model.refine (.root left) (.root right) ms = some (.error (.invalidParameter fault), model) := by
  obtain ⟨cs, resolved, -⟩ := exists_fixed hl hr found
  simp only [refine, resolved, search, Cover.search, invalid]

theorem refine_ne_none {left right : Site} {known : Matchings} {model : CostModel}
    (first : model.parameters.assignProbability ≥ 1.0) : model.refine left right known ≠ none := by
  unfold refine
  split
  · nofun
  · split
    · rename_i endless
      exact absurd endless (search_ne_none first _)
    · nofun
    · nofun

end Refine

end CostModel

namespace Dispatcher

variable {p : MatchParameters} {left right : Node} {d d' : Dispatcher} {ms : Matchings}

theorem matchTrees_of_error {failure : Failure} (error : matchNodes p left right d = .error failure d') :
    matchTrees p left right d = some (.error failure, d') := by
  simp only [matchTrees, error]

theorem matchTrees_of_ok (use : p.useSearch = true) (ok : matchNodes p left right d = .ok ms d') :
    matchTrees p left right d =
      match (CostModel.ofParameters p.search).refine (.root left) (.root right) ms with
      | none => none
      | some (.ok refined, _) => some (.ok refined, d')
      | some (.error failure, _) => some (if p.keepOnSearchFailure then .ok ms else .error failure, d') := by
  have searches : ¬ (!p.useSearch) = true := by simp [use]
  rw [matchTrees, ok]
  exact if_neg searches

theorem matchTrees_ends (use : p.useSearch = true) (first : p.search.assignProbability ≥ 1.0)
    (ok : matchNodes p left right d = .ok ms d') : ∃ result, matchTrees p left right d = some (result, d') := by
  rw [matchTrees_of_ok use ok]
  rcases refined : (CostModel.ofParameters p.search).refine (.root left) (.root right) ms with _ | ⟨_ | _, _⟩
  · exact absurd refined (CostModel.refine_ne_none first)
  · exact ⟨_, rfl⟩
  · exact ⟨_, rfl⟩

/-- Refining never contradicts the recursive matching. With valid parameters of the search, whole trees are matched
exactly if the recursion succeeds, no node is matched twice, and every pair with a positive score is kept. With invalid
ones the result is that of the recursion, or the fault if it is not to be passed over. -/
theorem matchTrees_refines (hl : left.Numbered) (hr : right.Numbered) (use : p.useSearch = true) :
    (p.search.fault? = none → ∀ result d', matchTrees p left right d = some (result, d') →
      ((∃ refined, result = .ok refined) ↔ ∃ ms, matchNodes p left right d = .ok ms d') ∧
      ∀ refined, result = .ok refined → (refined.entries.map Matching.left).Nodup ∧
        (refined.entries.map Matching.right).Nodup ∧
        ∀ ms, matchNodes p left right d = .ok ms d' → ∀ m ∈ ms.entries, 0 < m.score →
          ∃ n ∈ refined.entries, n.pair = m.pair) ∧
    ∀ fault, p.search.fault? = some fault → ∀ ms d', matchNodes p left right d = .ok ms d' →
      matchTrees p left right d =
        some (if p.keepOnSearchFailure then .ok ms else .error (.invalidParameter fault), d') := by
  constructor
  · intro valid result d' ended
    cases recursion : matchNodes p left right d with
    | error failure e =>
      rw [matchTrees_of_error recursion] at ended
      cases ended
      simp
    | ok ms e =>
      have found : Found left right ms := ((matchNodes_ends hl hr).of_ok recursion).1
      rw [matchTrees_of_ok use recursion] at ended
      rcases refined : (CostModel.ofParameters p.search).refine (.root left) (.root right) ms with _ | ⟨outcome, model⟩
      · simp [refined] at ended
      · obtain ⟨more, rfl, lefts, rights, kept⟩ :=
          CostModel.refine_valid (.ofParameters p.search) hl hr found valid refined
        simp only [refined] at ended
        cases ended
        refine ⟨⟨fun _ => ⟨ms, rfl⟩, fun _ => ⟨more, rfl⟩⟩, fun _ same => ?_⟩
        cases same
        refine ⟨lefts, rights, fun _ same => ?_⟩
        cases same
        exact kept
  · intro fault invalid ms d' ok
    have found : Found left right ms := ((matchNodes_ends hl hr).of_ok ok).1
    rw [matchTrees_of_ok use ok, CostModel.refine_invalid (.ofParameters p.search) hl hr found invalid]

def refining : MatchParameters := { useSearch := true, search := CostModel.brief }

def stalling (keep : Bool) : MatchParameters :=
  { useSearch := true, keepOnSearchFailure := keep, search := { assignProbability := 0.0 } }

/-- The last names differ, so the search has to place them; whatever it does, the other pairs stay. -/
theorem matchTrees_refines_names :
    (∃ refined d', matchTrees refining (names 0 "x" "y") (names 3 "x" "z") {} = some (.ok refined, d') ∧
      (refined.entries.map Matching.left).Nodup ∧ (refined.entries.map Matching.right).Nodup ∧
      ∀ pair ∈ [(0, 3), (1, 4)], ∃ n ∈ refined.entries, n.pair = pair) ∧
    (∃ ms d', matchNodes (stalling true) (names 0 "x" "y") (names 3 "x" "z") {} = .ok ms d' ∧
      matchTrees (stalling true) (names 0 "x" "y") (names 3 "x" "z") {} = some (.ok ms, d')) ∧
    ∃ fault d', matchTrees (stalling false) (names 0 "x" "y") (names 3 "x" "z") {} =
      some (.error (.invalidParameter fault), d') := by
  have hl := names_numbered 0 "x" "y"
  have hr := names_numbered 3 "x" "z"
  have fits : Fits (names 0 "x" "y") (names 3 "x" "z") := ⟨by decide, by decide, by decide, by decide⟩
  refine ⟨?_, ?_, ?_⟩
  · have valid : refining.search.fault? = none := by decide
    have first : refining.search.assignProbability ≥ 1.0 := by decide
    have scores : ((matchNodes refining (names 0 "x" "y") (names 3 "x" "z")).run' {}).map
        (fun ms => ms.entries.map fun m => (m.pair, m.score)) = some [((0, 3), 2), ((1, 4), 1)] := by decide +kernel
    obtain ⟨ms, d', recursion, -⟩ := matchNodes_returns hl hr fits refining {}
    delta EStateM.run' EStateM.run at scores
    rw [recursion] at scores
    obtain ⟨result, ended⟩ := matchTrees_ends rfl first recursion
    obtain ⟨succeeds, kept⟩ := (matchTrees_refines hl hr rfl).1 valid result d' ended
    obtain ⟨more, rfl⟩ := succeeds.mpr ⟨ms, recursion⟩
    obtain ⟨lefts, rights, keeps⟩ := kept more rfl
    refine ⟨more, d', ended, lefts, rights, fun pair listed => ?_⟩
    have scored : ∀ pair ∈ [(0, 3), (1, 4)], ∃ scored ∈ [((0, 3), 2), ((1, 4), 1)], scored.1 = pair ∧ 0 < scored.2 := by
      decide
    obtain ⟨_, inList, rfl, score⟩ := scored pair listed
    rw [← Option.some_inj.mp scores] at inList
    obtain ⟨m, hm, rfl⟩ := List.mem_map.mp inList
    exact keeps ms recursion m hm score
  · obtain ⟨ms, d', recursion, -⟩ := matchNodes_returns hl hr fits (stalling true) {}
    exact ⟨ms, d', recursion, (matchTrees_refines hl hr rfl).2 (.probability 0.0) rfl ms d' recursion⟩
  · obtain ⟨ms, d', recursion, -⟩ := matchNodes_returns hl hr fits (stalling false) {}
    exact ⟨_, d', (matchTrees_refines hl hr rfl).2 (.probability 0.0) rfl ms d' recursion⟩

end Dispatcher

end TreeAlign
