import TreeAlign.Cover.CostModel
import TreeAlign.Proofs.Cover.Progress

namespace TreeAlign

namespace Candidates

open Candidate (Key)

variable {left right : Site} {keys : List Key}

theorem Sound.subperm {less : List Key} (h : Sound left right keys) (sub : less.Subperm keys) : Sound left right less := by
  obtain ⟨order, perm, sublist⟩ := sub
  exact (h.sublist sublist).perm perm.symm

end Candidates

namespace Cover

open Candidates Sampling

variable {w : Weights Float32} {p : SearchParameters} {fixed current : Candidates} {bad : Failure → Prop}

/-- A cover of the same subtrees that holds the candidates `fixed`. -/
structure Holds (fixed cover : Candidates) : Prop where
  left : cover.left = fixed.left
  right : cover.right = fixed.right
  covers : Covers fixed.left fixed.right cover.keys
  fixed : fixed.keys ⊆ cover.keys

theorem keys_price (cover : Candidates) (memo : Memo) : (price w cover memo).1.1.keys = cover.keys :=
  map_key_zipWith (fun _ _ => rfl) (Recall.length_exactCosts cover w memo)

theorem cost_stops {cover : Candidates} (hl : cover.left.node.Numbered) (hr : cover.right.node.Numbered) :
    Stops (cost w cover)
      (fun priced => Covers cover.left cover.right cover.keys ∧ priced.1.left = cover.left ∧
        priced.1.right = cover.right ∧ priced.1.keys = cover.keys)
      fun _ => ¬ Covers cover.left cover.right cover.keys := by
  unfold cost
  rw [← check_eq_ok_iff hl hr]
  split
  · rename_i fault refused
    exact .of_throw (by simp [refused])
  · rename_i passed
    exact .of_remember fun memo => ⟨passed, rfl, rfl, keys_price cover memo⟩

def freeOf (current fixed : Candidates) : List Candidate :=
  current.entries.filter fun c => !fixed.keys.contains c.key

theorem keep_keeps {inv : Walk → Prop} (sourceless : Sourceless inv) : Keeps inv (keep p current fixed)
    (fun kept => ∃ order, order.Perm (freeOf current fixed) ∧ kept.Sublist order) bad := by
  unfold keep
  simp only
  split
  · have shuffled : Keeps inv (draw (Random.shuffle (freeOf current fixed))) (fun free => free.Perm (freeOf current fixed))
        bad :=
      .of_draw sourceless fun source => Random.shuffle_perm _ source
    refine shuffled.bind fun free perm => ?_
    refine Keeps.bind (.of_draw sourceless fun _ => trivial) fun x (_ : True) => ?_
    exact .of_pure ⟨free, perm, List.take_sublist _ _⟩
  · refine Keeps.bind (.of_draw sourceless fun _ => trivial) fun count (_ : True) => ?_
    exact .of_pure ⟨_, List.mergeSort_perm _ _, List.take_sublist _ _⟩

theorem keep_stops : Stops (keep p current fixed)
    (fun kept => ∃ order, order.Perm (freeOf current fixed) ∧ kept.Sublist order) bad :=
  stops_iff_keeps.mpr (keep_keeps fun _ _ _ => trivial)

theorem Holds.sound_keep (holds : Holds fixed current) (sound : Sound fixed.left fixed.right fixed.keys)
    {order kept : List Candidate} (perm : order.Perm (freeOf current fixed)) (sub : kept.Sublist order) :
    Sound fixed.left fixed.right ((kept ++ fixed.entries).map Candidate.key) := by
  have free : ((freeOf current fixed).map Candidate.key).Sublist current.keys := List.filter_sublist.map _
  have nodup : (kept.map Candidate.key).Nodup :=
    ((perm.map Candidate.key).nodup_iff.mpr (holds.covers.nodup.sublist free)).sublist (sub.map _)
  refine holds.covers.toSound.subperm (List.subperm_of_subset ?_ ?_)
  · rw [List.map_append, List.nodup_append]
    refine ⟨nodup, sound.nodup, ?_⟩
    rintro k hk _ hk' rfl
    obtain ⟨c, hc, rfl⟩ := List.mem_map.mp hk
    have unfixed := (List.mem_filter.mp (perm.mem_iff.mp (sub.subset hc))).2
    have fixed : c.key ∈ fixed.keys := hk'
    simp [fixed] at unfixed
  · intro k hk
    rw [List.map_append] at hk
    rcases List.mem_append.mp hk with hk | hk
    · exact free.subset ((perm.map _).mem_iff.mp ((sub.map _).subset hk))
    · exact holds.fixed hk

theorem Holds.of_extends {begin cover : Candidates} (left : begin.left = fixed.left) (right : begin.right = fixed.right)
    (held : fixed.keys ⊆ begin.keys) (covers : Covers fixed.left fixed.right cover.keys) (extended : Extends begin cover) :
    Holds fixed cover where
  left := extended.left.trans left
  right := extended.right.trans right
  covers := covers
  fixed := fun _ member => (extended.entries.sublist.map _).subset (held member)

theorem propose_stops (hl : fixed.left.node.Numbered) (hr : fixed.right.node.Numbered) (holds : Holds fixed current)
    (sound : Sound fixed.left fixed.right fixed.keys) :
    Stops (propose w p current fixed) (Holds fixed) fun _ => False := by
  unfold propose
  refine keep_stops.bind fun kept ⟨order, perm, sub⟩ => ?_
  obtain ⟨left, right, entries⟩ := current
  obtain ⟨rfl, rfl⟩ : left = fixed.left ∧ right = fixed.right := ⟨holds.left, holds.right⟩
  let begin : Candidates := ⟨fixed.left, fixed.right, kept ++ fixed.entries⟩
  have sound' : Sound begin.left begin.right begin.keys := holds.sound_keep sound perm sub
  have held : fixed.keys ⊆ begin.keys := by
    intro k member
    obtain ⟨c, hc, rfl⟩ := mem_keys.mp member
    exact mem_keys.mpr ⟨c, List.mem_append_right _ hc, rfl⟩
  refine (@complete_stops w p begin hl hr).imp ?_ fun _ unsound => unsound sound'
  rintro cover ⟨extended, completes⟩
  exact .of_extends (show begin.left = fixed.left from rfl) rfl held (completes sound') extended

theorem Holds.of_keys {cover priced : Candidates} (holds : Holds fixed cover) (left : priced.left = cover.left)
    (right : priced.right = cover.right) (keys : priced.keys = cover.keys) : Holds fixed priced where
  left := left.trans holds.left
  right := right.trans holds.right
  covers := keys ▸ holds.covers
  fixed := keys ▸ holds.fixed

theorem Holds.cost_stops {cover : Candidates} (hl : fixed.left.node.Numbered) (hr : fixed.right.node.Numbered)
    (holds : Holds fixed cover) : Stops (cost w cover) (fun priced => Holds fixed priced.1) bad := by
  have paid := @Cover.cost_stops w cover (holds.left ▸ hl) (holds.right ▸ hr)
  rw [holds.left, holds.right] at paid
  apply paid.imp
  · rintro priced ⟨-, left, right, keys⟩
    exact holds.of_keys (left.trans holds.left.symm) (right.trans holds.right.symm) keys
  · exact fun _ unpaid => absurd holds.covers unpaid

/-- What every proposal keeps of the cover it starts from, and no price changes, is kept by a walk. -/
theorem walk_keeps {kept : Candidates → Prop}
    (proposes : ∀ current, kept current → Stops (propose w p current fixed) kept bad)
    (pays : ∀ cover, kept cover → Stops (cost w cover) (fun priced => kept priced.1) bad) (steps : Nat)
    {progress : Progress} (atCurrent : kept progress.current) (atLowest : kept progress.lowest) :
    Stops (walk w p fixed steps progress) (fun result => kept result.lowest) bad := by
  induction steps generalizing progress with
  | zero => exact .of_pure atLowest
  | succ steps ih =>
    unfold walk
    refine (proposes _ atCurrent).bind fun proposal proposed => ?_
    refine (pays _ proposed).bind fun ⟨priced, price⟩ atPriced => ?_
    refine (Stops.draw_any _).bind fun accept _ => ih ?_ ?_
    · change kept (if accept = true then priced else progress.current)
      split <;> assumption
    · change kept (if price < progress.lowestCost then priced else progress.lowest)
      split <;> assumption

theorem walk_stops (hl : fixed.left.node.Numbered) (hr : fixed.right.node.Numbered)
    (sound : Sound fixed.left fixed.right fixed.keys) (steps : Nat) {progress : Progress}
    (atCurrent : Holds fixed progress.current) (atLowest : Holds fixed progress.lowest) :
    Stops (walk w p fixed steps progress) (fun result => Holds fixed result.lowest) fun _ => False :=
  walk_keeps (fun _ holds => propose_stops hl hr holds sound) (fun _ holds => holds.cost_stops hl hr) steps atCurrent
    atLowest

theorem explore_stops (hl : fixed.left.node.Numbered) (hr : fixed.right.node.Numbered) : Stops (explore w p fixed)
    (fun result => Sound fixed.left fixed.right fixed.keys ∧ Holds fixed result.lowest)
    fun _ => ¬ Sound fixed.left fixed.right fixed.keys := by
  unfold explore
  refine (complete_stops hl hr).bind fun first ⟨extended, completes⟩ => ?_
  have paid := @cost_stops w first (extended.left ▸ hl) (extended.right ▸ hr)
  rw [extended.left, extended.right] at paid
  refine (paid.imp (fun _ priced => priced) fun _ unpaid sound => unpaid (completes sound)).bind ?_
  rintro ⟨priced, price⟩ ⟨covers, left, right, keys⟩
  -- Candidates that are part of a cover are sound.
  have sound := covers.toSound.sublist (extended.entries.sublist.map Candidate.key)
  have holds : Holds fixed first := .of_extends rfl rfl (fun _ member => member) covers extended
  have holds' : Holds fixed priced := holds.of_keys (left.trans holds.left.symm) (right.trans holds.right.symm) keys
  exact (walk_stops hl hr sound _ holds' holds').imp (fun _ found => ⟨sound, found⟩) fun _ never => never.elim

theorem search_error (hl : fixed.left.node.Numbered) (hr : fixed.right.node.Numbered) {failure : Failure}
    (h : search w p fixed = some (.error failure)) :
    ¬ (p.fault? = none ∧ Sound fixed.left fixed.right fixed.keys) := by
  rintro ⟨valid, sound⟩
  have ends := @explore_stops w p fixed hl hr { source := .ofSeed p.seed }
  unfold search at h
  rw [valid] at h
  rcases explored : explore w p fixed { source := .ofSeed p.seed } with _ | failure | ⟨progress, walk⟩ <;>
    simp only [explored] at h
  · cases h
  · rw [explored] at ends
    exact ends sound
  · cases h

theorem search_ok (hl : fixed.left.node.Numbered) (hr : fixed.right.node.Numbered) {cover : Candidates}
    {report : SearchReport} (h : search w p fixed = some (.ok (cover, report))) :
    p.fault? = none ∧ Sound fixed.left fixed.right fixed.keys ∧ Holds fixed cover := by
  have ends := @explore_stops w p fixed hl hr { source := .ofSeed p.seed }
  unfold search at h
  cases valid : p.fault? with
  | some fault =>
    rw [valid] at h
    cases h
  | none =>
    rw [valid] at h
    rcases explored : explore w p fixed { source := .ofSeed p.seed } with _ | failure | ⟨progress, walk⟩ <;>
      simp only [explored] at h
    · cases h
    · cases h
    · cases h
      rw [explored] at ends
      exact ⟨rfl, ends⟩

section Halting

variable (w)

theorem cost_halts (cover : Candidates) : Halts (cost w cover) := by
  unfold cost
  split
  · exact .of_throw _
  · exact .of_remember _

section Greedy

-- Each candidate committed is the first of those left, so no draw is repeated.
variable (greedy : p.assignProbability ≥ 1.0)

include greedy

theorem picksEnd : PicksEnd p := by
  intro bound source positive
  obtain ⟨tries, count⟩ := Nat.exists_eq_succ_of_ne_zero (show Random.stateCount ≠ 0 by decide)
  rw [count]
  simp [pickBelow, Random.geometric, greedy, positive]

theorem propose_halts (current fixed : Candidates) : Halts (propose w p current fixed) := by
  have kept : Halts (keep p current fixed) := by
    unfold keep
    simp only
    split
    · exact (Halts.of_draw _).bind fun _ => (Halts.of_draw _).bind fun _ => .of_pure _
    · exact (Halts.of_draw _).bind fun _ => .of_pure _
  unfold propose
  exact kept.bind fun _ => complete_halts (picksEnd greedy) _

theorem walk_halts (fixed : Candidates) (steps : Nat) (progress : Progress) : Halts (walk w p fixed steps progress) := by
  induction steps generalizing progress with
  | zero => exact .of_pure progress
  | succ steps ih =>
    unfold walk
    apply (propose_halts w greedy progress.current fixed).bind
    intro proposal
    apply (cost_halts w proposal).bind
    intro priced
    apply (Halts.of_draw _).bind
    intro accept
    exact ih _

theorem search_ne_none (fixed : Candidates) : search w p fixed ≠ none := by
  have explored : Halts (explore w p fixed) := by
    unfold explore
    apply (complete_halts (picksEnd greedy) fixed).bind
    intro first
    apply (cost_halts w first).bind
    intro priced
    exact walk_halts w greedy fixed p.iterations _
  unfold search
  split
  · nofun
  · split
    · rename_i endless
      exact absurd endless (explored _)
    · nofun
    · nofun

end Greedy

end Halting

end Cover

namespace CostModel

open Candidates

variable {model model' : CostModel} {fixed : Candidates} {result : Except Failure Candidates}

theorem search_ne_none (first : model.parameters.assignProbability ≥ 1.0) (fixed : Candidates) :
    model.search fixed ≠ none := by
  unfold search
  split
  · rename_i endless
    exact absurd endless (Cover.search_ne_none model.weights first fixed)
  · nofun
  · nofun

/-- A search that ends succeeds exactly for valid parameters and well-formed candidates. What it finds is a
cover with every node in one candidate, the given ones among them, and a failure leaves the report alone. -/
theorem search_cover (hl : fixed.left.node.Numbered) (hr : fixed.right.node.Numbered)
    (ended : model.search fixed = some (result, model')) :
    ((∃ cover, result = .ok cover) ↔ model.parameters.fault? = none ∧ fixed.WellFormed) ∧
    (∀ cover, result = .ok cover → cover.check = .ok () ∧ cover.left = fixed.left ∧ cover.right = fixed.right ∧
      Covers fixed.left fixed.right cover.keys ∧ fixed.keys ⊆ cover.keys) ∧
    (∀ failure, result = .error failure → model'.report = model.report) := by
  unfold search at ended
  rw [wellFormed_iff]
  rcases searched : Cover.search model.weights model.parameters fixed with _ | failure | ⟨cover, report⟩ <;>
    simp only [searched] at ended
  · cases ended
  · cases ended
    refine ⟨⟨?_, ?_⟩, ?_, fun _ _ => rfl⟩
    · rintro ⟨cover, found⟩
      cases found
    · exact fun valid => absurd valid (Cover.search_error hl hr searched)
    · intro cover found
      cases found
  · cases ended
    obtain ⟨valid, sound, holds⟩ := Cover.search_ok hl hr searched
    refine ⟨⟨fun _ => ⟨valid, sound⟩, fun _ => ⟨cover, rfl⟩⟩, ?_, ?_⟩
    · rintro _ ⟨⟩
      refine ⟨?_, holds.left, holds.right, holds.covers, holds.fixed⟩
      have covers := holds.covers
      rw [← holds.left, ← holds.right] at covers
      exact (check_eq_ok_iff (holds.left ▸ hl) (holds.right ▸ hr)).mpr covers
    · intro failure found
      cases found

def brief : SearchParameters := { iterations := 3, assignProbability := 1.0 }

def heads : Candidates :=
  ⟨.root (chain 0), .root (chain 2), [.pair (.root (chain 0)) (.root (chain 2))]⟩

theorem search_cover_heads :
    (∃ cover model', (ofParameters brief).search heads = some (.ok cover, model') ∧ cover.check = .ok () ∧
      Covers heads.left heads.right cover.keys ∧ (some 0, some 2) ∈ cover.keys) ∧
    ∃ failure model', (ofParameters brief).search Cover.doubled = some (.error failure, model') ∧ model'.report = none := by
  have first : (ofParameters brief).parameters.assignProbability ≥ 1.0 := by decide
  have valid : (ofParameters brief).parameters.fault? = none := by decide
  constructor
  · have hl : heads.left.node.Numbered := (Tree.number_numbered _ 0).2
    have hr : heads.right.node.Numbered := (Tree.number_numbered _ 2).2
    have sound : Sound heads.left heads.right heads.keys := by constructor <;> decide
    obtain ⟨⟨result, model'⟩, ended⟩ := Option.ne_none_iff_exists'.mp (search_ne_none first heads)
    obtain ⟨succeeds, found, -⟩ := search_cover hl hr ended
    obtain ⟨cover, rfl⟩ := succeeds.mpr ⟨valid, wellFormed_iff.mpr sound⟩
    obtain ⟨sane, -, -, covers, kept⟩ := found cover rfl
    exact ⟨cover, model', ended, sane, covers, kept (.head _)⟩
  · have hl : Cover.doubled.left.node.Numbered := (Tree.number_numbered _ 0).2
    have hr : Cover.doubled.right.node.Numbered := (Tree.number_numbered _ 2).2
    have twice : ¬Cover.doubled.WellFormed := fun formed => absurd formed.distinct (by decide)
    obtain ⟨⟨result, model'⟩, ended⟩ := Option.ne_none_iff_exists'.mp (search_ne_none first Cover.doubled)
    obtain ⟨succeeds, -, unchanged⟩ := search_cover hl hr ended
    cases result with
    | ok cover => exact absurd (succeeds.mp ⟨cover, rfl⟩).2 twice
    | error failure => exact ⟨failure, model', ended, unchanged failure rfl⟩

end CostModel

end TreeAlign
