import Mathlib.Data.List.Pairwise
import Mathlib.Data.List.ProdSigma
import TreeAlign.Proofs.Cover.Keys
import TreeAlign.Proofs.Cover.Sampling

namespace TreeAlign

namespace Candidates

open Candidate (Key Clash)

variable {left right : Site}

structure Possible (left right : Site) (k : Key) : Prop where
  real : k ≠ (none, none)
  insideLeft : ∀ i ∈ k.1, left.node.containsId i = true
  insideRight : ∀ i ∈ k.2, right.node.containsId i = true

def optionalIds (site : Site) : List (Option NodeId) :=
  (site.breadthFirst.map Site.id).map some ++ [none]

theorem mem_optionalIds {site : Site} (numbered : site.node.Numbered) {x : Option NodeId} :
    x ∈ optionalIds site ↔ ∀ i ∈ x, site.node.containsId i = true := by
  cases x with
  | none => simp [optionalIds]
  | some i => 
    have := Site.mem_ids_breadthFirst numbered (i := i)
    simp [optionalIds] at this ⊢
    exact this

theorem nodup_optionalIds {site : Site} (numbered : site.node.Numbered) : (optionalIds site).Nodup := by
  rw [optionalIds, List.nodup_append]
  refine ⟨(Site.nodup_ids_breadthFirst numbered).map (Option.some_injective _), List.nodup_singleton _, ?_⟩
  simp

theorem keys_row (l : Option Site) (rs : List (Option Site)) :
    (rs.filterMap fun r => if l.isSome || r.isSome then some ({ left := l, right := r } : Candidate) else none).map
      Candidate.key = ((rs.map (Option.map Site.id)).map (Prod.mk (l.map Site.id))).filter
        fun k => k.1.isSome || k.2.isSome := by
  induction rs with
  | nil => rfl
  | cons r rs ih =>
    simp only [List.filterMap_cons, List.map_cons, List.filter_cons, Option.isSome_map]
    by_cases real : (l.isSome || r.isSome) = true
    · simp only [if_pos real, List.map_cons, ih]
      rfl
    · simp only [if_neg real, ih]

theorem keys_allPairs (left right : Site) : (allPairs left right).map Candidate.key =
    (optionalIds left ×ˢ optionalIds right).filter fun k => k.1.isSome || k.2.isSome := by
  have ids (site : Site) : optionalIds site = (site.breadthFirst.map some ++ [none]).map (Option.map Site.id) := by
    simp [optionalIds]
  simp only [allPairs, List.map_flatMap, keys_row, ids, SProd.sprod, List.product, List.flatMap_map, List.filter_flatMap]

theorem mem_keys_allPairs (hl : left.node.Numbered) (hr : right.node.Numbered) {k : Key} :
    k ∈ (allPairs left right).map Candidate.key ↔ Possible left right k := by
  rw [keys_allPairs, List.mem_filter, List.mem_product, mem_optionalIds hl, mem_optionalIds hr]
  constructor
  · rintro ⟨⟨insideLeft, insideRight⟩, real⟩
    refine ⟨?_, insideLeft, insideRight⟩
    rintro rfl
    cases real
  · rintro ⟨real, insideLeft, insideRight⟩
    refine ⟨⟨insideLeft, insideRight⟩, ?_⟩
    obtain ⟨_ | _, _ | _⟩ := k <;> simp at real ⊢

theorem nodup_keys_allPairs (hl : left.node.Numbered) (hr : right.node.Numbered) :
    ((allPairs left right).map Candidate.key).Nodup := by
  rw [keys_allPairs]
  exact ((nodup_optionalIds hl).product (nodup_optionalIds hr)).filter _

/-- What a completion has come to: the keys left and those committed to. -/
structure Open (left right : Site) (graph cover : List Key) : Prop where
  possible : ∀ k ∈ graph, Possible left right k
  distinct : graph.Nodup
  committed : cover ⊆ graph
  apart : cover.Pairwise fun j k => ¬ Clash j k
  pruned : ∀ k ∈ graph, ∀ j ∈ cover, Clash k j → k = j
  aloneLeft : ∀ i, left.node.containsId i = true → i ∈ lefts cover ∨ (some i, none) ∈ graph
  aloneRight : ∀ i, right.node.containsId i = true → i ∈ rights cover ∨ (none, some i) ∈ graph

variable {graph cover : List Key}

theorem Open.perm {more : List Key} (h : Open left right graph cover) (perm : more.Perm graph) :
    Open left right more cover where
  possible := fun k member => h.possible k (perm.mem_iff.mp member)
  distinct := perm.nodup_iff.mpr h.distinct
  committed := fun _ member => perm.mem_iff.mpr (h.committed member)
  apart := h.apart
  pruned := fun _ member => h.pruned _ (perm.mem_iff.mp member)
  aloneLeft := fun i inside => (h.aloneLeft i inside).imp_right perm.mem_iff.mpr
  aloneRight := fun i inside => (h.aloneRight i inside).imp_right perm.mem_iff.mpr

theorem Open.sound (h : Open left right graph cover) : Sound left right cover := by
  obtain ⟨onceLeft, onceRight⟩ := pairwise_not_clash_iff.mp h.apart
  refine ⟨fun member => (h.possible _ (h.committed member)).real rfl, ?_, ?_, onceLeft, onceRight⟩
  · intro i member
    obtain ⟨k, hk, same⟩ := mem_lefts.mp member
    exact (h.possible k (h.committed hk)).insideLeft i same
  · intro i member
    obtain ⟨k, hk, same⟩ := mem_rights.mp member
    exact (h.possible k (h.committed hk)).insideRight i same

theorem Open.covers (h : Open left right graph cover) (full : graph.length ≤ cover.length) : Covers left right cover := by
  have sub : cover.Subperm graph := List.subperm_of_subset h.sound.nodup h.committed
  have perm := sub.perm_of_length_le full
  refine ⟨h.sound, ?_, ?_⟩
  · intro i inside
    rcases h.aloneLeft i inside with found | alone
    · exact found
    · exact mem_lefts.mpr ⟨_, perm.mem_iff.mpr alone, rfl⟩
  · intro i inside
    rcases h.aloneRight i inside with found | alone
    · exact found
    · exact mem_rights.mpr ⟨_, perm.mem_iff.mpr alone, rfl⟩

theorem Open.exists_free (h : Open left right graph cover) (more : cover.length < graph.length) :
    ∃ k ∈ graph, k ∉ cover := by
  by_contra none
  simp only [not_exists, not_and, not_not] at none
  have := (List.subperm_of_subset h.distinct none).length_le
  omega

theorem mem_keys_prune {cs : Candidates} {c : Candidate} {k : Key} :
    k ∈ (cs.prune c).keys ↔ k ∈ cs.keys ∧ (k = c.key ∨ ¬ Clash k c.key) := by
  have kept (a : Candidate) : (a == c || !a.conflicts c) = true ↔ a.key = c.key ∨ ¬ Clash a.key c.key := by
    rw [Bool.or_eq_true, Candidate.beq_iff, Bool.not_eq_true', ← Bool.not_eq_true, Candidate.conflicts_iff]
  simp only [mem_keys, prune, List.mem_filter, kept]
  constructor
  · rintro ⟨a, ⟨member, keeps⟩, rfl⟩
    exact ⟨⟨a, member, rfl⟩, keeps⟩
  · rintro ⟨⟨a, member, rfl⟩, keeps⟩
    exact ⟨a, ⟨member, keeps⟩, rfl⟩

theorem keys_prune_sublist (cs : Candidates) (c : Candidate) : (cs.prune c).keys.Sublist cs.keys :=
  List.filter_sublist.map _

theorem foldl_prune_sublist (cs : Candidates) (fixed : List Candidate) : (fixed.foldl prune cs).keys.Sublist cs.keys := by
  induction fixed generalizing cs with
  | nil => exact .refl _
  | cons c fixed ih => exact (ih _).trans (keys_prune_sublist cs c)

theorem mem_keys_foldl_prune {cs : Candidates} {fixed : List Candidate} {k : Key} :
    k ∈ (fixed.foldl prune cs).keys ↔ k ∈ cs.keys ∧ ∀ c ∈ fixed, k = c.key ∨ ¬ Clash k c.key := by
  induction fixed generalizing cs with
  | nil => simp
  | cons c fixed ih => rw [List.foldl_cons, ih, mem_keys_prune, List.forall_mem_cons, and_assoc]

theorem clash_comm {j k : Key} : Clash j k ↔ Clash k j := by
  simp only [Clash, and_comm]

theorem clash_aloneLeft {i : NodeId} {k : Key} : Clash (some i, none) k ↔ k.1 = some i := by
  simp [Clash]

theorem clash_aloneRight {i : NodeId} {k : Key} : Clash (none, some i) k ↔ k.2 = some i := by
  simp [Clash]

theorem Sound.separate {keys : List Key} (h : Sound left right keys) {j k : Key} (hj : j ∈ keys) (hk : k ∈ keys) :
    j = k ∨ ¬ Clash j k := by
  have apart := pairwise_not_clash_iff.mpr ⟨h.onceLeft, h.onceRight⟩
  have weaker : keys.Pairwise fun j k => j = k ∨ ¬ Clash j k := apart.imp .inr
  have symmetric : Std.Symm fun j k : Key => j = k ∨ ¬ Clash j k := ⟨fun j k => .imp Eq.symm (mt clash_comm.mp)⟩
  exact weaker.forall_of_forall (fun _ _ => .inl rfl) hj hk

/-- Candidates that are left after all that clashes with them is removed are open to begin with, `once` being their
keys without repetition. -/
theorem open_of_subset {cs all : Candidates} {once : List Key} (hl : left.node.Numbered) (hr : right.node.Numbered)
    (perm : all.keys.Perm ((allPairs left right).map Candidate.key)) (kept : cs.keys ⊆ (cs.entries.foldl prune all).keys)
    (nodup : once.Nodup) (same : ∀ k, k ∈ once ↔ k ∈ cs.keys) :
    Open left right (cs.entries.foldl prune all).keys once := by
  have distinct : all.keys.Nodup := perm.nodup_iff.mpr (nodup_keys_allPairs hl hr)
  have possible (k : Key) : k ∈ all.keys ↔ Possible left right k := perm.mem_iff.trans (mem_keys_allPairs hl hr)
  have clear {k j : Key} (hk : k ∈ (cs.entries.foldl prune all).keys) (hj : j ∈ once) : k = j ∨ ¬ Clash k j := by
    obtain ⟨c, hc, rfl⟩ := mem_keys.mp ((same j).mp hj)
    exact (mem_keys_foldl_prune.mp hk).2 c hc
  have kept' : once ⊆ (cs.entries.foldl prune all).keys := fun k hk => kept ((same k).mp hk)
  refine ⟨?_, ?_, kept', ?_, ?_, ?_, ?_⟩
  · intro k member
    exact (possible k).mp (mem_keys_foldl_prune.mp member).1
  · exact distinct.sublist (foldl_prune_sublist _ _)
  · exact nodup.imp_of_mem fun hj hk other => (clear (kept' hj) hk).resolve_left other
  · exact fun k hk j hj clash => (clear hk hj).resolve_right (not_not.mpr clash)
  · intro i inside
    by_cases found : i ∈ lefts once
    · exact .inl found
    · refine .inr (mem_keys_foldl_prune.mpr ⟨(possible _).mpr ⟨by simp, ?_, by simp⟩, fun c hc => .inr ?_⟩)
      · simpa using inside
      · rw [clash_aloneLeft]
        exact fun here => found (mem_lefts.mpr ⟨c.key, (same _).mpr (mem_keys.mpr ⟨c, hc, rfl⟩), here⟩)
  · intro i inside
    by_cases found : i ∈ rights once
    · exact .inl found
    · refine .inr (mem_keys_foldl_prune.mpr ⟨(possible _).mpr ⟨by simp, by simp, ?_⟩, fun c hc => .inr ?_⟩)
      · simpa using inside
      · rw [clash_aloneRight]
        exact fun here => found (mem_rights.mpr ⟨c.key, (same _).mpr (mem_keys.mpr ⟨c, hc, rfl⟩), here⟩)

theorem Sound.open {cs all : Candidates} (sound : Sound left right cs.keys) (hl : left.node.Numbered)
    (hr : right.node.Numbered) (perm : all.keys.Perm ((allPairs left right).map Candidate.key)) :
    Open left right (cs.entries.foldl prune all).keys cs.keys := by
  refine open_of_subset hl hr perm (fun k member => ?_) sound.nodup fun _ => Iff.rfl
  have possible : Possible left right k := by
    refine ⟨fun none => sound.real (none ▸ member), fun i same => ?_, fun i same => ?_⟩
    · exact sound.insideLeft i (mem_lefts.mpr ⟨k, member, same⟩)
    · exact sound.insideRight i (mem_rights.mpr ⟨k, member, same⟩)
  refine mem_keys_foldl_prune.mpr ⟨perm.mem_iff.mpr ((mem_keys_allPairs hl hr).mpr possible), fun c hc => ?_⟩
  exact sound.separate member (mem_keys.mpr ⟨c, hc, rfl⟩)

theorem Open.push {graph : Candidates} {c : Candidate} (h : Open left right graph.keys cover)
    (member : c.key ∈ graph.keys) (free : c.key ∉ cover) :
    Open left right (graph.prune c).keys (cover ++ [c.key]) := by
  have clear : ∀ j ∈ cover, ¬ Clash c.key j := fun j hj clash => free (h.pruned _ member j hj clash ▸ hj)
  refine ⟨?_, ?_, ?_, ?_, ?_, ?_, ?_⟩
  · exact fun k hk => h.possible k (mem_keys_prune.mp hk).1
  · exact h.distinct.sublist (keys_prune_sublist _ _)
  · intro k hk
    rcases List.mem_append.mp hk with hk | hk
    · exact mem_keys_prune.mpr ⟨h.committed hk, .inr fun clash => clear k hk (clash_comm.mp clash)⟩
    · rw [List.mem_singleton.mp hk]
      exact mem_keys_prune.mpr ⟨member, .inl rfl⟩
  · rw [List.pairwise_append]
    refine ⟨h.apart, List.pairwise_singleton _ _, ?_⟩
    intro j hj k hk
    rw [List.mem_singleton.mp hk, clash_comm]
    exact clear j hj
  · intro k hk j hj clash
    obtain ⟨hk, keeps⟩ := mem_keys_prune.mp hk
    rcases List.mem_append.mp hj with hj | hj
    · exact h.pruned k hk j hj clash
    · rw [List.mem_singleton.mp hj] at clash ⊢
      exact keeps.resolve_right (not_not.mpr clash)
  -- A node alone is removed only if the new candidate has the node.
  · intro i inside
    rcases h.aloneLeft i inside with found | alone
    · exact .inl (by rw [lefts, List.filterMap_append]; exact List.mem_append_left _ found)
    · by_cases here : c.key.1 = some i
      · exact .inl (mem_lefts.mpr ⟨c.key, by simp, here⟩)
      · exact .inr (mem_keys_prune.mpr ⟨alone, .inr (mt clash_aloneLeft.mp here)⟩)
  · intro i inside
    rcases h.aloneRight i inside with found | alone
    · exact .inl (by rw [rights, List.filterMap_append]; exact List.mem_append_left _ found)
    · by_cases here : c.key.2 = some i
      · exact .inl (mem_rights.mpr ⟨c.key, by simp, here⟩)
      · exact .inr (mem_keys_prune.mpr ⟨alone, .inr (mt clash_aloneRight.mp here)⟩)

end Candidates

namespace Recall

theorem length_mapM {α β : Type} (f : α → Recall β) (xs : List α) (memo : Memo) :
    (xs.mapM f memo).1.length = xs.length := by
  induction xs generalizing memo with
  | nil => rfl
  | cons x xs ih =>
    rw [List.mapM_cons]
    exact congrArg Nat.succ (ih _)

theorem length_exactCosts (cs : Candidates) (w : Weights Float32) (memo : Memo) :
    (exactCosts cs w memo).1.length = cs.entries.length :=
  length_mapM _ _ _

theorem length_estimates (cs : Candidates) (w : Weights Float32) (memo : Memo) :
    (estimates cs w memo).1.length = cs.entries.length :=
  length_mapM _ _ _

end Recall

namespace Cover

open Candidates Sampling

variable {w : Weights Float32} {p : SearchParameters} {bad : Failure → Prop}

theorem map_key_zipWith {α : Type} {entries : List Candidate} {xs : List α} {f : Candidate → α → Candidate}
    (same : ∀ c x, (f c x).key = c.key) (length : xs.length = entries.length) :
    (List.zipWith f entries xs).map Candidate.key = entries.map Candidate.key := by
  induction entries generalizing xs with
  | nil => rfl
  | cons c entries ih =>
    cases xs with
    | nil => cases length
    | cons x xs => simp [same, ih (Nat.succ.inj length)]

theorem rank_stops (graph : Candidates) : Stops (rank w graph)
    (fun ranked => ranked.left = graph.left ∧ ranked.right = graph.right ∧ ranked.keys.Perm graph.keys) bad := by
  have counted : Stops (remember (Recall.estimates graph w)) (fun bounds => bounds.length = graph.entries.length) bad :=
    .of_remember fun memo => Recall.length_estimates graph w memo
  unfold rank
  refine counted.bind fun bounds length => ?_
  refine .of_pure ⟨rfl, rfl, ?_⟩
  refine ((List.mergeSort_perm _ _).map Candidate.key).trans ?_
  exact .of_eq (map_key_zipWith (fun c x => rfl) length)

structure Extends (cover result : Candidates) : Prop where
  left : result.left = cover.left
  right : result.right = cover.right
  entries : cover.entries <+: result.entries

theorem pickBelow_lt {probability : Float} {bound tries i : Nat} {source next : Random}
    (h : pickBelow probability bound tries source = some (i, next)) : i < bound := by
  induction tries generalizing source with
  | zero => cases h
  | succ tries ih =>
    unfold pickBelow at h
    split at h
    · cases h
    · split at h
      · cases h
        assumption
      · exact ih h

theorem Extends.refl (cover : Candidates) : Extends cover cover := ⟨rfl, rfl, List.prefix_refl _⟩

theorem Extends.of_push {cover result : Candidates} {c : Candidate} (h : Extends (cover.push c) result) :
    Extends cover result :=
  ⟨h.left, h.right, (List.prefix_append _ _).trans h.entries⟩

theorem length_keys (cs : Candidates) : cs.keys.length = cs.size := List.length_map _

theorem keys_push (cs : Candidates) (c : Candidate) : (cs.push c).keys = cs.keys ++ [c.key] := by
  simp [keys, Candidates.push]

theorem size_push (cs : Candidates) (c : Candidate) : (cs.push c).size = cs.size + 1 := by
  simp [Candidates.push, Candidates.size]

theorem size_prune_le (cs : Candidates) (c : Candidate) : (cs.prune c).size ≤ cs.size := by
  rw [← length_keys, ← length_keys]
  exact (keys_prune_sublist cs c).length_le

def freeIn (ranked cover : Candidates) : List Candidate :=
  ranked.entries.filter fun c => !cover.keys.contains c.key

theorem mem_freeIn {ranked cover : Candidates} {c : Candidate} :
    c ∈ freeIn ranked cover ↔ c ∈ ranked.entries ∧ c.key ∉ cover.keys := by
  simp [freeIn]

section Step

-- The keys committed to may be repeated in the cover; `once` holds each of them once.
variable {graph ranked cover : Candidates} {once : List Candidate.Key} (perm : ranked.keys.Perm graph.keys)
  (opened : Open cover.left cover.right graph.keys once) (same : ∀ k, k ∈ once ↔ k ∈ cover.keys)

include perm opened same

/-- As long as there are more candidates left than committed to, one of them is free, whatever their order. -/
theorem freeIn_ne_nil (more : cover.size < graph.size) : freeIn ranked cover ≠ [] := by
  have fewer : once.length ≤ cover.keys.length :=
    (List.subperm_of_subset opened.sound.nodup fun k => (same k).mp).length_le
  rw [length_keys] at fewer
  obtain ⟨k, hk, free⟩ := opened.exists_free (by rw [length_keys]; omega)
  obtain ⟨c, member, rfl⟩ := mem_keys.mp (perm.mem_iff.mpr hk)
  exact List.ne_nil_of_mem (mem_freeIn.mpr ⟨member, mt (same _).mpr free⟩)

theorem open_push {c : Candidate} (hc : c ∈ freeIn ranked cover) :
    Open (cover.push c).left (cover.push c).right (ranked.prune c).keys (once ++ [c.key]) := by
  obtain ⟨member, free⟩ := mem_freeIn.mp hc
  exact (opened.perm perm).push (mem_keys.mpr ⟨c, member, rfl⟩) (mt (same _).mp free)

end Step

theorem commit_stops (rounds : Nat) (graph cover : Candidates) : Stops (commit w p rounds graph cover)
    (fun result => Extends cover result ∧ (Open cover.left cover.right graph.keys cover.keys →
      graph.size ≤ cover.size + rounds → Covers cover.left cover.right result.keys))
    fun _ => ¬ Open cover.left cover.right graph.keys cover.keys := by
  have full (graph cover : Candidates) (opened : Open cover.left cover.right graph.keys cover.keys)
      (enough : graph.size ≤ cover.size) : Covers cover.left cover.right cover.keys :=
    opened.covers (by rwa [length_keys, length_keys])
  induction rounds generalizing graph cover with
  | zero => exact .of_pure ⟨.refl cover, full graph cover⟩
  | succ rounds ih =>
    unfold commit
    split
    · rename_i enough
      exact .of_pure ⟨.refl cover, fun opened _ => full graph cover opened enough⟩
    · rename_i more
      refine (rank_stops graph).bind fun ranked ⟨_, _, perm⟩ => ?_
      have size : ranked.size = graph.size := by rw [← length_keys, perm.length_eq, length_keys]
      simp only
      split
      · rename_i none
        refine Stops.bind (.of_throw fun opened => ?_) fun _ (h : False) => h.elim
        exact freeIn_ne_nil perm opened (fun _ => Iff.rfl) (by omega) (List.isEmpty_iff.mp none)
      · refine Stops.bind (.of_drawUntil fun source i next drawn => pickBelow_lt drawn) fun i below => ?_
        rw [List.getElem?_eq_getElem below]
        have member : _ ∈ freeIn ranked cover := List.getElem_mem below
        have pushed (opened : Open cover.left cover.right graph.keys cover.keys) := by
          have pushed := open_push perm opened (fun _ => Iff.rfl) member
          rwa [← keys_push] at pushed
        refine (ih _ _).imp ?_ fun _ closed opened => closed (pushed opened)
        rintro result ⟨extended, completes⟩
        refine ⟨extended.of_push, fun opened enough => completes (pushed opened) ?_⟩
        refine Nat.le_trans (size_prune_le ranked _) ?_
        rw [size_push]
        omega

/-- A completion succeeds if the candidates to begin with are sound, and then it is a cover. -/
theorem complete_stops {fixed : Candidates} (hl : fixed.left.node.Numbered) (hr : fixed.right.node.Numbered) :
    Stops (complete w p fixed)
      (fun result => Extends fixed result ∧ (Sound fixed.left fixed.right fixed.keys →
        Covers fixed.left fixed.right result.keys))
      fun _ => ¬ Sound fixed.left fixed.right fixed.keys := by
  have shuffled : Stops (draw (Candidates.complete fixed.left fixed.right))
      (fun graph => graph.keys.Perm ((allPairs fixed.left fixed.right).map Candidate.key))
      fun _ => ¬ Sound fixed.left fixed.right fixed.keys :=
    .of_draw fun source => (Random.shuffle_perm _ source).map _
  unfold complete
  refine shuffled.bind fun graph perm => ?_
  have opened (sound : Sound fixed.left fixed.right fixed.keys) :
      Open fixed.left fixed.right (fixed.entries.foldl prune graph).keys fixed.keys := sound.open hl hr perm
  simp only
  split
  · rename_i key stray
    refine .of_throw fun sound => ?_
    have missing := List.find?_some stray
    have present := (opened sound).committed (List.mem_of_find?_eq_some stray)
    simp [present] at missing
  · refine (commit_stops _ _ fixed).imp ?_ fun _ closed sound => closed (opened sound)
    rintro result ⟨extended, completes⟩
    exact ⟨extended, fun sound => completes (opened sound) (Nat.le_add_left _ _)⟩

def startGraph (fixed : Candidates) (source : Random) : Candidates :=
  fixed.entries.foldl prune (Candidates.complete fixed.left fixed.right source).1

theorem complete_of_subset {fixed : Candidates} (walk : Walk) (kept : fixed.keys ⊆ (startGraph fixed walk.source).keys) :
    complete w p fixed walk = commit w p (startGraph fixed walk.source).size (startGraph fixed walk.source) fixed
      { walk with source := (Candidates.complete fixed.left fixed.right walk.source).2 } := by
  have present : fixed.keys.find? (fun key => !(startGraph fixed walk.source).keys.contains key) = none := by
    rw [List.find?_eq_none]
    intro key member
    simpa using kept member
  have drawn : draw (Candidates.complete fixed.left fixed.right) walk =
      some (.ok ((Candidates.complete fixed.left fixed.right walk.source).1,
        { walk with source := (Candidates.complete fixed.left fixed.right walk.source).2 })) := rfl
  unfold complete
  rw [bind_apply, drawn]
  simp only [startGraph] at present
  simp only [present]
  rfl

end Cover

end TreeAlign
