import TreeAlign.Proofs.Found

namespace TreeAlign.Matchings

section Free

variable {ms : Matchings} {m : Matching} {taken rest : List Matching}

def Apart (a b : Matching) : Prop :=
  a.left ≠ b.left ∧ a.right ≠ b.right

theorem pairwise_apart_iff {entries : List Matching} :
    entries.Pairwise Apart ↔ (entries.map Matching.left).Nodup ∧ (entries.map Matching.right).Nodup := by
  simp only [List.Nodup, List.pairwise_map]
  exact List.pairwise_and_iff

theorem takeFree_eq (free : ∀ t ∈ taken, ∀ m ∈ rest, Apart t m)
    (apart : rest.Pairwise Apart) : takeFree taken rest = taken.reverse ++ rest.map Matching.shallow := by
  induction rest generalizing taken with
  | nil => simp [takeFree]
  | cons m rest ih =>
    obtain ⟨first, later⟩ := List.pairwise_cons.mp apart
    have unclaimed : (taken.any fun t => t.left == m.left || t.right == m.right) = false := by
      rw [List.any_eq_false]
      intro t member
      have := free t member m List.mem_cons_self
      simp [this.1, this.2]
    have free' : ∀ t ∈ m.shallow :: taken, ∀ n ∈ rest, Apart t n := by
      intro t member n hn
      rcases List.mem_cons.mp member with rfl | member
      · exact first n hn
      · exact free t member n (List.mem_cons_of_mem _ hn)
    -- Nothing taken so far claims an end of what is to come, so `m` is taken and the same holds of the rest.
    rw [takeFree, unclaimed, if_neg Bool.false_ne_true, ih free' later]
    simp

theorem optimized_perm (lefts : (ms.entries.map Matching.left).Nodup) (rights : (ms.entries.map Matching.right).Nodup) :
    ms.optimized.entries.Perm ((ms.entries.filter (0 < ·.score)).map Matching.shallow) := by
  have apart := pairwise_apart_iff.mpr ⟨lefts, rights⟩
  have sorted := List.mergeSort_perm (ms.entries.filter (0 < ·.score)) fun a b => decide (b.score ≤ a.score)
  have symm : ∀ a b, Apart a b → Apart b a := fun a b h => ⟨h.1.symm, h.2.symm⟩
  have apart' := (sorted.pairwise_iff (fun {a b} => symm a b)).mpr (apart.sublist List.filter_sublist)
  rw [optimized, takeFree_eq (fun t member => absurd member List.not_mem_nil) apart']
  exact sorted.map _

theorem mem_takeFree (h : m ∈ takeFree taken rest) : m ∈ taken ∨ ∃ n ∈ rest, n.shallow = m := by
  induction rest generalizing taken with
  | nil => exact .inl (List.mem_reverse.mp h)
  | cons first rest ih =>
    rw [takeFree] at h
    split at h
    · rcases ih h with member | ⟨n, hn, same⟩
      · exact .inl member
      · exact .inr ⟨n, List.mem_cons_of_mem first hn, same⟩
    · rcases ih h with member | ⟨n, hn, same⟩
      · rcases List.mem_cons.mp member with rfl | member
        · exact .inr ⟨first, List.mem_cons_self, rfl⟩
        · exact .inl member
      · exact .inr ⟨n, List.mem_cons_of_mem first hn, same⟩

theorem takeFree_apart (apart : taken.Pairwise Apart) : (takeFree taken rest).Pairwise Apart := by
  induction rest generalizing taken with
  | nil =>
    rw [takeFree, List.pairwise_reverse]
    exact apart.imp fun h => ⟨h.1.symm, h.2.symm⟩
  | cons first rest ih =>
    rw [takeFree]
    split
    · exact ih apart
    · rename_i unclaimed
      apply ih
      rw [List.pairwise_cons]
      refine ⟨fun t member => ?_, apart⟩
      rw [Bool.not_eq_true, List.any_eq_false] at unclaimed
      have unclaimed := unclaimed t member
      simp only [Bool.or_eq_true, beq_iff_eq, not_or] at unclaimed
      exact ⟨Ne.symm unclaimed.1, Ne.symm unclaimed.2⟩

theorem mem_optimized (h : m ∈ ms.optimized.entries) : ∃ n ∈ ms.entries, n.shallow = m := by
  obtain ⟨n, hn, same⟩ := (mem_takeFree h).resolve_left List.not_mem_nil
  exact ⟨n, (List.mem_filter.mp (List.mem_mergeSort.mp hn)).1, same⟩

theorem optimized_apart (ms : Matchings) : ms.optimized.entries.Pairwise Apart :=
  takeFree_apart .nil

theorem optimized_oneToOne (ms : Matchings) :
    (ms.optimized.entries.map Matching.left).Nodup ∧ (ms.optimized.entries.map Matching.right).Nodup :=
  pairwise_apart_iff.mp ms.optimized_apart

end Free

/-- Of two matchings at their places in a set, the first has the higher score, or the same score and the earlier place. -/
def Outranks (a b : Matching × Nat) : Prop :=
  b.1.score < a.1.score ∨ a.1.score = b.1.score ∧ a.2 < b.2

def noWorse (a b : Matching) : Bool :=
  decide (b.score ≤ a.score)

variable {ms : Matchings}

section Ranking

theorem noWorse_trans (a b c : Matching) (hab : noWorse a b = true) (hbc : noWorse b c = true) : noWorse a c = true := by
  simp only [noWorse, decide_eq_true_eq] at *
  omega

theorem noWorse_total (a b : Matching) : (noWorse a b || noWorse b a) = true := by
  simp only [noWorse, Bool.or_eq_true, decide_eq_true_eq]
  omega

variable {entries : List (Matching × Nat)}

theorem filter_mergeSort (entries : List (Matching × Nat)) (score : Nat) :
    (entries.mergeSort fun a b => noWorse a.1 b.1).filter (fun e => e.1.score == score) =
      entries.filter fun e => e.1.score == score := by
  have level : (entries.filter fun e => e.1.score == score).Pairwise fun a b => noWorse a.1 b.1 = true := by
    rw [List.pairwise_filter]
    refine List.pairwise_of_forall fun a b ha hb => ?_
    rw [beq_iff_eq] at ha hb
    simp [noWorse, ha, hb]
  have sub := List.sublist_mergeSort (fun a b c => noWorse_trans a.1 b.1 c.1) (fun a b => noWorse_total a.1 b.1) level
    List.filter_sublist
  have again := sub.filter fun e => e.1.score == score
  rw [List.filter_filter] at again
  simp only [Bool.and_self] at again
  have perm := (List.mergeSort_perm entries fun a b => noWorse a.1 b.1).filter fun e => e.1.score == score
  exact (again.eq_of_length perm.length_eq.symm).symm

theorem mergeSort_outranks (placed : entries.Pairwise fun a b => a.2 < b.2) :
    (entries.mergeSort fun a b => noWorse a.1 b.1).Pairwise Outranks := by
  have falling := List.pairwise_mergeSort (fun a b c => noWorse_trans a.1 b.1 c.1) (fun a b => noWorse_total a.1 b.1) entries
  rw [List.pairwise_iff_forall_sublist] at falling placed ⊢
  intro a b sub
  have score : b.1.score ≤ a.1.score := of_decide_eq_true (falling sub)
  rcases Nat.lt_or_eq_of_le score with less | same
  · exact .inl less
  · have level := sub.filter fun e => e.1.score == a.1.score
    rw [filter_mergeSort] at level
    simp only [List.filter_cons, same, beq_self_eq_true, if_true, List.filter_nil] at level
    exact .inr ⟨same.symm, placed (level.trans List.filter_sublist)⟩

end Ranking

theorem takeFree_blocks {rest : List (Matching × Nat)} (ranked : rest.Pairwise Outranks) (taken : List Matching) :
    ∃ kept : List (Matching × Nat), kept.Sublist rest ∧
      takeFree taken (rest.map Prod.fst) = taken.reverse ++ kept.map (fun k => k.1.shallow) ∧
      ∀ e ∈ rest, e ∈ kept ∨ (∃ t ∈ taken, t.left = e.1.left ∨ t.right = e.1.right) ∨
        ∃ k ∈ kept, Outranks k e ∧ (k.1.left = e.1.left ∨ k.1.right = e.1.right) := by
  induction rest generalizing taken with
  | nil => exact ⟨[], .slnil, by simp [takeFree], by simp⟩
  | cons m rest ih =>
    obtain ⟨first, later⟩ := List.pairwise_cons.mp ranked
    rw [List.map_cons, takeFree]
    split
    · rename_i claimed
      obtain ⟨kept, sub, eq, blocks⟩ := ih later taken
      refine ⟨kept, sub.cons m, eq, List.forall_mem_cons.mpr ⟨.inr (.inl ?_), blocks⟩⟩
      simpa using claimed
    · obtain ⟨kept, sub, eq, blocks⟩ := ih later (m.1.shallow :: taken)
      refine ⟨m :: kept, sub.cons_cons m, by simp [eq], List.forall_mem_cons.mpr ⟨.inl List.mem_cons_self, ?_⟩⟩
      intro e he
      -- What the first matching blocks comes later, so the first one outranks it.
      rcases blocks e he with member | ⟨t, ht, shared⟩ | ⟨k, hk, better, shared⟩
      · exact .inl (List.mem_cons_of_mem m member)
      · rcases List.mem_cons.mp ht with rfl | ht
        · exact .inr (.inr ⟨m, List.mem_cons_self, first e he, shared⟩)
        · exact .inr (.inl ⟨t, ht, shared⟩)
      · exact .inr (.inr ⟨k, List.mem_cons_of_mem m hk, better, shared⟩)

/-- Matchings of a set, at their places, that a greedy choice keeps. -/
structure Greedy (entries : List Matching) (kept : List (Matching × Nat)) : Prop where
  placed : kept ⊆ entries.zipIdx
  positive : ∀ k ∈ kept, 0 < k.1.score
  ranked : kept.Pairwise Outranks
  apart : kept.Pairwise fun a b => Apart a.1 b.1
  blocked : ∀ e ∈ entries.zipIdx, 0 < e.1.score → e ∉ kept →
    ∃ k ∈ kept, Outranks k e ∧ (k.1.left = e.1.left ∨ k.1.right = e.1.right)

theorem exists_greedy (ms : Matchings) :
    ∃ kept, Greedy ms.entries kept ∧ ms.optimized.entries = kept.map fun k => k.1.shallow := by
  let positive := ms.entries.zipIdx.filter fun e => decide (0 < e.1.score)
  let sorted := positive.mergeSort fun a b => noWorse a.1 b.1
  have mem_sorted {e : Matching × Nat} : e ∈ sorted ↔ e ∈ ms.entries.zipIdx ∧ 0 < e.1.score := by
    rw [List.mem_mergeSort, List.mem_filter, decide_eq_true_eq]
  have placed : ms.entries.zipIdx.Pairwise fun a b => a.2 < b.2 := by
    rw [← List.pairwise_map, List.zipIdx_map_snd]
    exact List.pairwise_lt_range'
  have ranked : sorted.Pairwise Outranks := mergeSort_outranks (placed.sublist List.filter_sublist)
  have entries : sorted.map Prod.fst = (ms.entries.filter (0 < ·.score)).mergeSort noWorse := by
    have undone : sorted.map Prod.fst = (positive.map Prod.fst).mergeSort noWorse := List.map_mergeSort fun _ _ _ _ => rfl
    have unplaced : positive.map Prod.fst = ms.entries.filter (0 < ·.score) := by
      conv_rhs => rw [← List.zipIdx_map_fst 0 ms.entries, List.filter_map]
      rfl
    rw [undone, unplaced]
  obtain ⟨kept, sub, eq, blocks⟩ := takeFree_blocks ranked []
  rw [entries, List.reverse_nil, List.nil_append] at eq
  have eq : ms.optimized.entries = kept.map fun k => k.1.shallow := eq
  have apart := ms.optimized_apart
  refine ⟨kept, ⟨?_, ?_, ranked.sublist sub, ?_, ?_⟩, eq⟩
  · exact fun k hk => (mem_sorted.mp (sub.subset hk)).1
  · exact fun k hk => (mem_sorted.mp (sub.subset hk)).2
  · rw [eq, List.pairwise_map] at apart
    exact apart
  · intro e he score left_out
    rcases blocks e (mem_sorted.mpr ⟨he, score⟩) with member | ⟨t, none, -⟩ | blocked
    · exact absurd member left_out
    · exact absurd none List.not_mem_nil
    · exact blocked

section Charging

variable {kept chosen : List Matching} {side : Matching → NodeId}

def chargedTo (side : Matching → NodeId) (k : Matching) (chosen : List Matching) : List Matching :=
  chosen.filter fun c => decide (c.score ≤ k.score ∧ side c = side k)

def uncharged (side : Matching → NodeId) (k : Matching) (chosen : List Matching) : List Matching :=
  chosen.filter fun c => !decide (c.score ≤ k.score ∧ side c = side k)

theorem mem_chargedTo {k c : Matching} : c ∈ chargedTo side k chosen ↔ c ∈ chosen ∧ c.score ≤ k.score ∧ side c = side k := by
  rw [chargedTo, List.mem_filter, decide_eq_true_eq]

theorem mem_uncharged {k c : Matching} :
    c ∈ uncharged side k chosen ↔ c ∈ chosen ∧ ¬(c.score ≤ k.score ∧ side c = side k) := by
  rw [uncharged, List.mem_filter, Bool.not_eq_true', decide_eq_false_iff_not]

theorem sum_chargedTo_le (distinct : chosen.Pairwise fun a b => side a ≠ side b) (k : Matching) :
    ((chargedTo side k chosen).map Matching.score).sum ≤ k.score := by
  have once := distinct.sublist (List.filter_sublist (p := fun c => decide (c.score ≤ k.score ∧ side c = side k)))
  change (chargedTo side k chosen).Pairwise _ at once
  have charged {c : Matching} (hc : c ∈ chargedTo side k chosen) := (mem_chargedTo.mp hc).2
  match eq : chargedTo side k chosen with
  | [] => simp
  | [c] =>
    rw [eq] at charged
    simpa using (charged (List.mem_singleton_self c)).1
  | c :: d :: rest =>
    rw [eq] at once charged
    have same : side c = side d := by
      rw [(charged List.mem_cons_self).2, (charged (List.mem_cons_of_mem c List.mem_cons_self)).2]
    exact absurd same (List.rel_of_pairwise_cons once List.mem_cons_self)

theorem sum_chargedTo_add (side : Matching → NodeId) (k : Matching) (chosen : List Matching) :
    ((chargedTo side k chosen).map Matching.score).sum + ((uncharged side k chosen).map Matching.score).sum =
      (chosen.map Matching.score).sum := by
  rw [← List.sum_append, ← List.map_append]
  exact ((List.filter_append_perm _ chosen).map Matching.score).sum_eq

/-- Every chosen matching is charged to a kept one, which is charged at most once at either end. -/
theorem sum_le_of_charged (apart : chosen.Pairwise Apart)
    (charged : ∀ c ∈ chosen, 0 < c.score → ∃ k ∈ kept, c.score ≤ k.score ∧ (c.left = k.left ∨ c.right = k.right)) :
    (chosen.map Matching.score).sum ≤ 2 * (kept.map Matching.score).sum := by
  induction kept generalizing chosen with
  | nil =>
    have worthless : ∀ x ∈ chosen.map Matching.score, x = 0 := by
      intro x hx
      obtain ⟨c, hc, rfl⟩ := List.mem_map.mp hx
      by_contra positive
      obtain ⟨k, none, -⟩ := charged c hc (Nat.pos_of_ne_zero positive)
      exact absurd none List.not_mem_nil
    simp [List.sum_eq_zero worthless]
  | cons k kept ih =>
    let others := uncharged Matching.left k chosen
    let rest := uncharged Matching.right k others
    have apartOthers : others.Pairwise Apart := apart.sublist List.filter_sublist
    have later : (rest.map Matching.score).sum ≤ 2 * (kept.map Matching.score).sum := by
      refine ih (apartOthers.sublist List.filter_sublist) fun c hc positive => ?_
      obtain ⟨member, notRight⟩ := mem_uncharged.mp hc
      obtain ⟨member, notLeft⟩ := mem_uncharged.mp member
      obtain ⟨j, hj, score, shared⟩ := charged c member positive
      rcases List.mem_cons.mp hj with rfl | hj
      · rcases shared with shared | shared
        · exact absurd ⟨score, shared⟩ notLeft
        · exact absurd ⟨score, shared⟩ notRight
      · exact ⟨j, hj, score, shared⟩
    have byLeft := sum_chargedTo_le (apart.imp And.left) k
    have byRight := sum_chargedTo_le (apartOthers.imp And.right) k
    have split : _ + (others.map Matching.score).sum = _ := sum_chargedTo_add Matching.left k chosen
    have splitOthers : _ + (rest.map Matching.score).sum = _ := sum_chargedTo_add Matching.right k others
    rw [List.map_cons, List.sum_cons]
    omega

end Charging

theorem Greedy.sum_le {kept : List (Matching × Nat)} (greedy : Greedy ms.entries kept) {chosen : List Matching}
    (inside : chosen ⊆ ms.entries) (apart : chosen.Pairwise Apart) :
    (chosen.map Matching.score).sum ≤ 2 * (kept.map fun k => k.1.score).sum := by
  have scores : (kept.map fun k => k.1.score) = (kept.map Prod.fst).map Matching.score := by rw [List.map_map]; rfl
  rw [scores]
  refine sum_le_of_charged apart fun c hc positive => ?_
  obtain ⟨i, place⟩ := List.mem_iff_getElem?.mp (inside hc)
  have entry : (c, i) ∈ ms.entries.zipIdx := List.mem_zipIdx_iff_getElem?.mpr place
  by_cases member : (c, i) ∈ kept
  · exact ⟨c, List.mem_map_of_mem member, Nat.le_refl _, .inl rfl⟩
  · obtain ⟨k, hk, better, shared⟩ := greedy.blocked _ entry positive member
    refine ⟨k.1, List.mem_map_of_mem hk, ?_, shared.imp Eq.symm Eq.symm⟩
    rcases better with less | ⟨same, -⟩
    · exact Nat.le_of_lt less
    · exact Nat.le_of_eq same.symm

theorem optimized_eq (positive : ∀ m ∈ ms.entries, 0 < m.score) (shallow : ∀ m ∈ ms.entries, m.shallow = m)
    (sorted : ms.entries.Pairwise fun a b => b.score ≤ a.score) (apart : ms.entries.Pairwise Apart) :
    ms.optimized = ms := by
  have all : ms.entries.filter (0 < ·.score) = ms.entries := by
    rw [List.filter_eq_self]
    exact fun m hm => decide_eq_true (positive m hm)
  have still : ms.entries.mergeSort (fun a b => decide (b.score ≤ a.score)) = ms.entries :=
    List.mergeSort_of_pairwise (sorted.imp fun h => decide_eq_true h)
  have nothing : ∀ t ∈ ([] : List Matching), ∀ m ∈ ms.entries, Apart t m := fun t none => absurd none List.not_mem_nil
  simp only [optimized]
  rw [all, still, takeFree_eq nothing apart, List.map_congr_left shallow, List.map_id']
  rfl

/-- The greedy choice among the matchings of a set: positive ones, best first, none of which overlap. A positive one is
left out only for a better one that is kept. So no choice without overlaps is worth more than twice as much, and choosing
again changes nothing. -/
theorem optimized_greedy (ms : Matchings) :
    (∃ kept, Greedy ms.entries kept ∧ ms.optimized.entries = kept.map fun k => k.1.shallow) ∧
    (∀ chosen ⊆ ms.entries, chosen.Pairwise Apart →
      (chosen.map Matching.score).sum ≤ 2 * (ms.optimized.entries.map Matching.score).sum) ∧
    ms.optimized.optimized = ms.optimized := by
  obtain ⟨kept, greedy, eq⟩ := ms.exists_greedy
  have origin : ∀ m ∈ ms.optimized.entries, ∃ k ∈ kept, k.1.shallow = m := by
    intro m hm
    rwa [eq, List.mem_map] at hm
  refine ⟨⟨kept, greedy, eq⟩, ?_, optimized_eq ?_ ?_ ?_ ?_⟩
  · intro chosen inside apart
    rw [eq, List.map_map]
    exact greedy.sum_le inside apart
  · intro m hm
    obtain ⟨k, hk, rfl⟩ := origin m hm
    exact greedy.positive k hk
  · intro m hm
    obtain ⟨k, -, rfl⟩ := origin m hm
    rfl
  · rw [eq, List.pairwise_map]
    refine greedy.ranked.imp fun {a b} better => ?_
    rcases better with less | ⟨same, -⟩
    · exact Nat.le_of_lt less
    · exact Nat.le_of_eq same.symm
  · rw [eq, List.pairwise_map]
    exact greedy.apart

def tempting : Matchings :=
  .ofList [⟨1, 10, 2, .ordered, none, none, []⟩, ⟨1, 11, 3, .ordered, none, none, []⟩, ⟨2, 11, 2, .ordered, none, none, []⟩]

theorem optimized_greedy_tempting :
    tempting.optimized.entries.map (fun m => (m.pair, m.score)) = [((1, 11), 3)] ∧
    ∃ chosen ⊆ tempting.entries, chosen.Pairwise Apart ∧ (chosen.map Matching.score).sum = 4 ∧
      4 ≤ 2 * (tempting.optimized.entries.map Matching.score).sum := by
  let chosen := tempting.entries.eraseIdx 1
  have inside : chosen ⊆ tempting.entries := fun _ => List.mem_of_mem_eraseIdx
  have apart : chosen.Pairwise Apart := by simp [chosen, tempting, ofList, addAll, add, get?, empty, Apart]
  have best : tempting.optimized.entries.map (fun m => (m.pair, m.score)) = [((1, 11), 3)] := by
    simp [tempting, ofList, addAll, add, get?, empty, optimized, List.mergeSort, List.MergeSort.Internal.splitInTwo,
      takeFree, Matching.shallow, Matching.pair]
  refine ⟨best, chosen, inside, apart, by decide, ?_⟩
  exact (optimized_greedy tempting).2.1 chosen inside apart

end TreeAlign.Matchings
