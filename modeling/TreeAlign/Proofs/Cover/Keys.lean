import TreeAlign.Cover.Candidate
import TreeAlign.Proofs.Sites

namespace TreeAlign

namespace Candidate

/-- Two keys have a node in common on the same side. -/
def Clash (j k : Key) : Prop :=
  (∃ i, j.1 = some i ∧ k.1 = some i) ∨ ∃ i, j.2 = some i ∧ k.2 = some i

variable {a b : Candidate}

theorem isSome_and_beq_iff {x y : Option NodeId} : (x.isSome && x == y) = true ↔ ∃ i, x = some i ∧ y = some i := by
  rw [Bool.and_eq_true, Option.isSome_iff_exists, beq_iff_eq]
  constructor
  · rintro ⟨⟨i, rfl⟩, rfl⟩
    exact ⟨i, rfl, rfl⟩
  · rintro ⟨i, rfl, rfl⟩
    exact ⟨⟨i, rfl⟩, rfl⟩

theorem conflicts_iff : a.conflicts b = true ↔ Clash a.key b.key := by
  rw [conflicts, Bool.or_eq_true, isSome_and_beq_iff, isSome_and_beq_iff, Clash]

theorem beq_iff : (a == b) = true ↔ a.key = b.key := by
  change (a.key == b.key) = true ↔ _
  exact beq_iff_eq

theorem key_eq_none_iff : a.key = (none, none) ↔ ¬ (a.left.isSome = true ∨ a.right.isSome = true) := by
  simp [key, Prod.ext_iff]

end Candidate

namespace Candidates

open Candidate (Key Clash)

variable {left right : Site} {cs : Candidates} {keys : List Key} {c : Candidate}

/-- Every candidate has a node, its nodes lie in the two subtrees, and no node occurs twice. -/
structure WellFormed (cs : Candidates) : Prop where
  real : ∀ c ∈ cs.entries, c.left.isSome = true ∨ c.right.isSome = true
  insideLeft : ∀ c ∈ cs.entries, ∀ l, c.left = some l → cs.left.contains l = true
  insideRight : ∀ c ∈ cs.entries, ∀ r, c.right = some r → cs.right.contains r = true
  distinct : cs.keys.Nodup
  apart : cs.entries.Pairwise fun a b => a.conflicts b = false

def lefts (keys : List Key) : List NodeId := keys.filterMap Prod.fst

def rights (keys : List Key) : List NodeId := keys.filterMap Prod.snd

structure Sound (left right : Site) (keys : List Key) : Prop where
  real : (none, none) ∉ keys
  insideLeft : ∀ i ∈ lefts keys, left.node.containsId i = true
  insideRight : ∀ i ∈ rights keys, right.node.containsId i = true
  onceLeft : (lefts keys).Nodup
  onceRight : (rights keys).Nodup

theorem mem_lefts {i : NodeId} : i ∈ lefts keys ↔ ∃ k ∈ keys, k.1 = some i := List.mem_filterMap

theorem mem_rights {i : NodeId} : i ∈ rights keys ↔ ∃ k ∈ keys, k.2 = some i := List.mem_filterMap

theorem lefts_cons (k : Key) (keys : List Key) : lefts (k :: keys) = k.1.toList ++ lefts keys := by
  cases h : k.1 <;> simp [lefts, h]

theorem rights_cons (k : Key) (keys : List Key) : rights (k :: keys) = k.2.toList ++ rights keys := by
  cases h : k.2 <;> simp [rights, h]

theorem Sound.perm {more : List Key} (h : Sound left right keys) (perm : more.Perm keys) : Sound left right more where
  real := fun member => h.real (perm.mem_iff.mp member)
  insideLeft := fun i member => h.insideLeft i ((perm.filterMap _).mem_iff.mp member)
  insideRight := fun i member => h.insideRight i ((perm.filterMap _).mem_iff.mp member)
  onceLeft := (perm.filterMap _).nodup_iff.mpr h.onceLeft
  onceRight := (perm.filterMap _).nodup_iff.mpr h.onceRight

theorem Sound.sublist {less : List Key} (h : Sound left right keys) (sub : less.Sublist keys) : Sound left right less where
  real := fun member => h.real (sub.subset member)
  insideLeft := fun i member => h.insideLeft i ((sub.filterMap _).subset member)
  insideRight := fun i member => h.insideRight i ((sub.filterMap _).subset member)
  onceLeft := h.onceLeft.sublist (sub.filterMap _)
  onceRight := h.onceRight.sublist (sub.filterMap _)

theorem pairwise_not_clash_iff :
    keys.Pairwise (fun j k => ¬ Clash j k) ↔ (lefts keys).Nodup ∧ (rights keys).Nodup := by
  unfold lefts rights List.Nodup
  rw [List.pairwise_filterMap, List.pairwise_filterMap, ← List.pairwise_and_iff]
  refine List.Pairwise.iff fun j k => ?_
  rw [Clash, not_or]
  refine and_congr ?_ ?_
  · exact ⟨fun h a ha b hb same => h ⟨a, ha, same ▸ hb⟩, fun h ⟨i, hj, hk⟩ => h i hj i hk rfl⟩
  · exact ⟨fun h a ha b hb same => h ⟨a, ha, same ▸ hb⟩, fun h ⟨i, hj, hk⟩ => h i hj i hk rfl⟩

theorem mem_keys {k : Key} : k ∈ cs.keys ↔ ∃ c ∈ cs.entries, c.key = k := List.mem_map

theorem ne_of_not_clash {j k : Key} (real : j ≠ (none, none)) (apart : ¬ Clash j k) : j ≠ k := by
  rintro rfl
  obtain ⟨l, r⟩ := j
  cases l with
  | some i => exact apart (.inl ⟨i, rfl, rfl⟩)
  | none =>
    cases r with
    | some i => exact apart (.inr ⟨i, rfl, rfl⟩)
    | none => exact real rfl

theorem Sound.nodup (h : Sound left right keys) : keys.Nodup :=
  (pairwise_not_clash_iff.mpr ⟨h.onceLeft, h.onceRight⟩).imp_of_mem
    fun hj _ clear => ne_of_not_clash (fun none => h.real (none ▸ hj)) clear

theorem wellFormed_iff : cs.WellFormed ↔ Sound cs.left cs.right cs.keys := by
  have conflicts : cs.entries.Pairwise (fun a b => a.conflicts b = false) ↔
      cs.keys.Pairwise fun j k => ¬ Clash j k := by
    rw [keys, List.pairwise_map]
    refine List.Pairwise.iff fun a b => ?_
    rw [← Bool.not_eq_true, Candidate.conflicts_iff]
  constructor
  · intro h
    obtain ⟨onceLeft, onceRight⟩ := pairwise_not_clash_iff.mp (conflicts.mp h.apart)
    refine ⟨?_, ?_, ?_, onceLeft, onceRight⟩
    · intro member
      obtain ⟨c, hc, none⟩ := mem_keys.mp member
      exact Candidate.key_eq_none_iff.mp none (h.real c hc)
    · intro i member
      obtain ⟨k, hk, same⟩ := mem_lefts.mp member
      obtain ⟨c, hc, rfl⟩ := mem_keys.mp hk
      obtain ⟨l, hl, rfl⟩ := Option.map_eq_some_iff.mp same
      exact h.insideLeft c hc l hl
    · intro i member
      obtain ⟨k, hk, same⟩ := mem_rights.mp member
      obtain ⟨c, hc, rfl⟩ := mem_keys.mp hk
      obtain ⟨r, hr, rfl⟩ := Option.map_eq_some_iff.mp same
      exact h.insideRight c hc r hr
  · intro h
    have apart := pairwise_not_clash_iff.mpr ⟨h.onceLeft, h.onceRight⟩
    have real : ∀ c ∈ cs.entries, c.key ≠ (none, none) :=
      fun c hc none => h.real (mem_keys.mpr ⟨c, hc, none⟩)
    refine ⟨?_, ?_, ?_, h.nodup, conflicts.mpr apart⟩
    · intro c hc
      by_contra none
      exact real c hc (Candidate.key_eq_none_iff.mpr none)
    · intro c hc l hl
      refine h.insideLeft l.id (mem_lefts.mpr ⟨c.key, mem_keys.mpr ⟨c, hc, rfl⟩, ?_⟩)
      simp [Candidate.key, hl]
    · intro c hc r hr
      refine h.insideRight r.id (mem_rights.mpr ⟨c.key, mem_keys.mpr ⟨c, hc, rfl⟩, ?_⟩)
      simp [Candidate.key, hr]

theorem bind_eq_ok_iff {ε α β : Type} {x : Except ε α} {f : α → Except ε β} {b : β} :
    (x >>= f) = .ok b ↔ ∃ a, x = .ok a ∧ f a = .ok b := by
  cases x <;> simp [bind, Except.bind]

def checkSide (root : Site) (outside : NodeId → CoverFault) (seen : List NodeId) :
    Option Site → Except CoverFault (List NodeId)
  | none => .ok seen
  | some s =>
    if !root.contains s then .error (outside s.id)
    else if seen.contains s.id then .error (.repeated s.id)
    else .ok (s.id :: seen)

theorem checkEntry_eq (left right : Site) (seen : List NodeId × List NodeId) (c : Candidate) :
    checkEntry left right seen c =
      if c.left.isNone && c.right.isNone then .error .withoutNode
      else checkSide left .outsideLeft seen.1 c.left >>= fun l =>
        checkSide right .outsideRight seen.2 c.right >>= fun r => .ok (l, r) := by
  obtain ⟨l, r, exact, bounds⟩ := c
  unfold checkEntry checkSide
  cases l <;> cases r <;> dsimp only <;> split_ifs <;> rfl

theorem checkSide_eq_ok_iff {root : Site} {outside : NodeId → CoverFault} {side : Option Site} {seen next : List NodeId} :
    checkSide root outside seen side = .ok next ↔
      (∀ i ∈ side.map Site.id, root.node.containsId i = true ∧ i ∉ seen) ∧ next = (side.map Site.id).toList ++ seen := by
  cases side with
  | none => simp [checkSide, @eq_comm _ seen]
  | some s =>
    by_cases inside : root.contains s = true
    · have inside' : root.node.containsId s.id = true := inside
      by_cases known : s.id ∈ seen
      · simp [checkSide, inside, known]
      · simp [checkSide, inside, inside', known, @eq_comm _ (s.id :: seen)]
    · have outside' : ¬ root.node.containsId s.id = true := inside
      simp [checkSide, inside, outside']

theorem checkEntry_eq_ok_iff {seen next : List NodeId × List NodeId} :
    checkEntry left right seen c = .ok next ↔ c.key ≠ (none, none) ∧
      (∀ i ∈ c.key.1, left.node.containsId i = true ∧ i ∉ seen.1) ∧
      (∀ i ∈ c.key.2, right.node.containsId i = true ∧ i ∉ seen.2) ∧
      next = (c.key.1.toList ++ seen.1, c.key.2.toList ++ seen.2) := by
  have empty : (c.left.isNone && c.right.isNone) = true ↔ c.key = (none, none) := by
    rw [Candidate.key_eq_none_iff]
    simp
  rw [checkEntry_eq]
  split
  · rename_i none
    simp [empty.mp none]
  · rename_i real
    rw [empty] at real
    simp only [bind_eq_ok_iff, checkSide_eq_ok_iff, Except.ok.injEq]
    constructor
    · rintro ⟨l, ⟨hl, rfl⟩, r, ⟨hr, rfl⟩, rfl⟩
      exact ⟨real, hl, hr, rfl⟩
    · rintro ⟨-, hl, hr, rfl⟩
      exact ⟨_, ⟨hl, rfl⟩, _, ⟨hr, rfl⟩, rfl⟩

theorem nodup_toList_append {x : Option NodeId} {seen : List NodeId} (once : seen.Nodup) :
    (x.toList ++ seen).Nodup ↔ ∀ i ∈ x, i ∉ seen := by
  cases x <;> simp [once]

theorem reverse_toList_append (x : Option NodeId) (xs seen : List NodeId) :
    (x.toList ++ xs).reverse ++ seen = xs.reverse ++ (x.toList ++ seen) := by
  cases x <;> simp

theorem foldlM_checkEntry_eq_ok_iff {entries : List Candidate} {seen next : List NodeId × List NodeId}
    (onceLeft : seen.1.Nodup) (onceRight : seen.2.Nodup) :
    entries.foldlM (checkEntry left right) seen = .ok next ↔
      (none, none) ∉ entries.map Candidate.key ∧
      (∀ i ∈ lefts (entries.map Candidate.key), left.node.containsId i = true) ∧
      (∀ i ∈ rights (entries.map Candidate.key), right.node.containsId i = true) ∧
      next = ((lefts (entries.map Candidate.key)).reverse ++ seen.1,
        (rights (entries.map Candidate.key)).reverse ++ seen.2) ∧ next.1.Nodup ∧ next.2.Nodup := by
  induction entries generalizing seen with
  | nil =>
    simp only [List.foldlM_nil, pure, Except.pure, Except.ok.injEq, List.map_nil, lefts, rights, List.filterMap_nil]
    constructor
    · rintro rfl
      exact ⟨by simp, by simp, by simp, rfl, onceLeft, onceRight⟩
    · rintro ⟨-, -, -, rfl, -, -⟩
      rfl
  | cons c entries ih =>
    rw [List.foldlM_cons, bind_eq_ok_iff, List.map_cons, lefts_cons, rights_cons, reverse_toList_append,
      reverse_toList_append]
    constructor
    · rintro ⟨mid, first, rest⟩
      obtain ⟨real, hl, hr, rfl⟩ := checkEntry_eq_ok_iff.mp first
      have freshLeft := (nodup_toList_append onceLeft).mpr fun i member => (hl i member).2
      have freshRight := (nodup_toList_append onceRight).mpr fun i member => (hr i member).2
      obtain ⟨real', insideLeft, insideRight, rfl, nodupLeft, nodupRight⟩ := (ih freshLeft freshRight).mp rest
      refine ⟨?_, ?_, ?_, rfl, nodupLeft, nodupRight⟩
      · rw [List.mem_cons, not_or]
        exact ⟨fun none => real none.symm, real'⟩
      · exact List.forall_mem_append.mpr ⟨fun i member => (hl i (Option.mem_toList.mp member)).1, insideLeft⟩
      · exact List.forall_mem_append.mpr ⟨fun i member => (hr i (Option.mem_toList.mp member)).1, insideRight⟩
    · rintro ⟨real, insideLeft, insideRight, rfl, nodupLeft, nodupRight⟩
      rw [List.mem_cons, not_or] at real
      have freshLeft := (List.nodup_append.mp nodupLeft).2.1
      have freshRight := (List.nodup_append.mp nodupRight).2.1
      refine ⟨_, checkEntry_eq_ok_iff.mpr ⟨fun none => real.1 none.symm, ?_, ?_, rfl⟩, (ih freshLeft freshRight).mpr ?_⟩
      · intro i member
        exact ⟨insideLeft i (List.mem_append_left _ (Option.mem_toList.mpr member)),
          (nodup_toList_append onceLeft).mp freshLeft i member⟩
      · intro i member
        exact ⟨insideRight i (List.mem_append_left _ (Option.mem_toList.mpr member)),
          (nodup_toList_append onceRight).mp freshRight i member⟩
      · exact ⟨real.2, fun i member => insideLeft i (List.mem_append_right _ member),
          fun i member => insideRight i (List.mem_append_right _ member), rfl, nodupLeft, nodupRight⟩

/-- Every node of the two subtrees occurs, and none occurs twice. -/
structure Covers (left right : Site) (keys : List Key) : Prop extends Sound left right keys where
  allLeft : ∀ i, left.node.containsId i = true → i ∈ lefts keys
  allRight : ∀ i, right.node.containsId i = true → i ∈ rights keys

section Ids

variable {root : Site} {ids : List NodeId}

theorem length_ids (root : Site) : (root.node.preorder.map Tree.id).length = root.size := by
  rw [List.length_map, Tree.length_preorder, Site.size]

theorem subperm_ids (numbered : root.node.Numbered) (once : ids.Nodup)
    (inside : ∀ i ∈ ids, root.node.containsId i = true) : ids.Subperm (root.node.preorder.map Tree.id) :=
  List.subperm_of_subset once fun i member => numbered.mem_ids.mpr (inside i member)

theorem length_le_size (numbered : root.node.Numbered) (once : ids.Nodup)
    (inside : ∀ i ∈ ids, root.node.containsId i = true) : ids.length ≤ root.size := by
  rw [← length_ids root]
  exact (subperm_ids numbered once inside).length_le

/-- Among identities of a subtree, each at most once, all occur if there are enough of them. -/
theorem length_eq_size_iff (numbered : root.node.Numbered) (once : ids.Nodup)
    (inside : ∀ i ∈ ids, root.node.containsId i = true) :
    ids.length = root.size ↔ ∀ i, root.node.containsId i = true → i ∈ ids := by
  have sub := subperm_ids numbered once inside
  constructor
  · intro enough i member
    have perm := sub.perm_of_length_le (by rw [length_ids, enough])
    exact perm.mem_iff.mpr (numbered.mem_ids.mpr member)
  · intro all
    have back : (root.node.preorder.map Tree.id).Subperm ids :=
      List.subperm_of_subset numbered.nodup fun i member => all i (numbered.mem_ids.mp member)
    rw [← length_ids root]
    exact Nat.le_antisymm sub.length_le back.length_le

end Ids

theorem check_eq_ok_iff (hl : cs.left.node.Numbered) (hr : cs.right.node.Numbered) :
    cs.check = .ok () ↔ Covers cs.left cs.right cs.keys := by
  have fold (next : List NodeId × List NodeId) : cs.entries.foldlM (checkEntry cs.left cs.right) ([], []) = .ok next ↔ _ :=
    foldlM_checkEntry_eq_ok_iff List.nodup_nil List.nodup_nil
  simp only [List.append_nil] at fold
  unfold check
  rw [bind_eq_ok_iff]
  constructor
  · rintro ⟨next, collected, counted⟩
    obtain ⟨real, insideLeft, insideRight, rfl, nodupLeft, nodupRight⟩ := (fold _).mp collected
    rw [List.nodup_reverse] at nodupLeft nodupRight
    simp only [List.length_reverse] at counted
    split at counted
    · cases counted
    · rename_i complete
      rw [not_or, not_not, not_not] at complete
      exact ⟨⟨real, insideLeft, insideRight, nodupLeft, nodupRight⟩,
        (length_eq_size_iff hl nodupLeft insideLeft).mp complete.1,
        (length_eq_size_iff hr nodupRight insideRight).mp complete.2⟩
  · intro h
    refine ⟨_, (fold _).mpr ⟨h.real, h.insideLeft, h.insideRight, rfl, List.nodup_reverse.mpr h.onceLeft,
      List.nodup_reverse.mpr h.onceRight⟩, ?_⟩
    have enoughLeft : (lefts (cs.entries.map Candidate.key)).length = cs.left.size :=
      (length_eq_size_iff hl h.onceLeft h.insideLeft).mpr h.allLeft
    have enoughRight : (rights (cs.entries.map Candidate.key)).length = cs.right.size :=
      (length_eq_size_iff hr h.onceRight h.insideRight).mpr h.allRight
    simp [enoughLeft, enoughRight, pure, Except.pure]

end Candidates

end TreeAlign
