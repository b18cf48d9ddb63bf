import TreeAlign.Cover.CostModel
import TreeAlign.Proofs.Cover.Completion
import TreeAlign.Proofs.Generator

namespace TreeAlign

namespace Candidates

open Candidate (Key)

variable {left right : Site} {keys : List Key}

theorem length_le_sides (real : (none, none) ∉ keys) : keys.length ≤ (lefts keys).length + (rights keys).length := by
  induction keys with
  | nil => exact Nat.le_refl _
  | cons k keys ih =>
    rw [List.mem_cons, not_or] at real
    have rest := ih real.2
    have head : 1 ≤ k.1.toList.length + k.2.toList.length := by
      obtain ⟨_ | _, _ | _⟩ := k <;> simp at real ⊢
    rw [lefts_cons, rights_cons, List.length_append, List.length_append, List.length_cons]
    omega

theorem Sound.length_le (h : Sound left right keys) (hl : left.node.Numbered) (hr : right.node.Numbered) :
    keys.length ≤ left.size + right.size :=
  calc keys.length
      ≤ (lefts keys).length + (rights keys).length := length_le_sides h.real
    _ ≤ left.size + right.size :=
      Nat.add_le_add (length_le_size hl h.onceLeft h.insideLeft) (length_le_size hr h.onceRight h.insideRight)

end Candidates

namespace Cover

open Candidates Sampling
open Candidate (Key)

variable {w : Weights Float32} {p : SearchParameters} {n : Nat}

structure Stage where
  graph : Candidates
  cover : Candidates

namespace Stage

def gap (stage : Stage) : Int :=
  stage.graph.size - stage.cover.size

/-- What is committed to is left once, without anything that conflicts with it, and every node that is not committed to
can still stay alone. -/
structure Intact (stage : Stage) : Prop where
  once : ∀ c ∈ stage.cover.entries, stage.graph.keys.count c.key = 1
  clear : ∀ c ∈ stage.cover.entries, ∀ other ∈ stage.graph.entries, other.conflicts c = true → other.key = c.key
  aloneLeft : ∀ s ∈ stage.cover.left.preorder, (∀ c ∈ stage.cover.entries, c.key.1 ≠ some s.id) →
    (some s.id, none) ∈ stage.graph.keys
  aloneRight : ∀ s ∈ stage.cover.right.preorder, (∀ c ∈ stage.cover.entries, c.key.2 ≠ some s.id) →
    (none, some s.id) ∈ stage.graph.keys

end Stage

/-- One round, for any order of the candidates and any choice among those not committed to yet. -/
inductive Round : Stage → Stage → Prop
  | commit {graph cover ranked : Candidates} {chosen : Candidate} (more : cover.size < graph.size)
      (perm : ranked.keys.Perm graph.keys) (free : chosen ∈ freeIn ranked cover) :
      Round ⟨graph, cover⟩ ⟨ranked.prune chosen, cover.push chosen⟩

inductive Rounds : Nat → Stage → Stage → Prop
  | none (stage : Stage) : Rounds 0 stage stage
  | next {n : Nat} {stage stage' final : Stage} (first : Round stage stage') (rest : Rounds n stage' final) :
      Rounds (n + 1) stage final

theorem Round.gap_lt {stage stage' : Stage} (h : Round stage stage') : stage'.gap < stage.gap := by
  obtain ⟨more, perm, free⟩ := h
  rename_i graph cover ranked chosen
  have fewer := size_prune_le ranked chosen
  have size : ranked.size = graph.size := by rw [← length_keys, perm.length_eq, length_keys]
  simp only [Stage.gap, size_push]
  omega

structure Stage.OpenWith (stage : Stage) (once : List Key) : Prop where
  opened : Open stage.cover.left stage.cover.right stage.graph.keys once
  same : ∀ k, k ∈ once ↔ k ∈ stage.cover.keys

section Open

variable {stage stage' : Stage} {once : List Key}

theorem Stage.OpenWith.intact (h : stage.OpenWith once) (hl : stage.cover.left.node.Numbered)
    (hr : stage.cover.right.node.Numbered) : stage.Intact where
  once c hc := List.count_eq_one_of_mem h.opened.distinct
    (h.opened.committed ((h.same _).mpr (mem_keys.mpr ⟨c, hc, rfl⟩)))
  clear c hc other hother conflict := h.opened.pruned _ (mem_keys.mpr ⟨other, hother, rfl⟩) _
    ((h.same _).mpr (mem_keys.mpr ⟨c, hc, rfl⟩)) (Candidate.conflicts_iff.mp conflict)
  aloneLeft s hs free := by
    refine (h.opened.aloneLeft s.id (Site.containsId_of_mem hl hs)).resolve_left fun found => ?_
    obtain ⟨k, hk, here⟩ := mem_lefts.mp found
    obtain ⟨c, hc, rfl⟩ := mem_keys.mp ((h.same k).mp hk)
    exact free c hc here
  aloneRight s hs free := by
    refine (h.opened.aloneRight s.id (Site.containsId_of_mem hr hs)).resolve_left fun found => ?_
    obtain ⟨k, hk, here⟩ := mem_rights.mp found
    obtain ⟨c, hc, rfl⟩ := mem_keys.mp ((h.same k).mp hk)
    exact free c hc here

/-- A round commits to one key that is new. -/
theorem Round.openWith (round : Round stage stage') (h : stage.OpenWith once) :
    ∃ k, stage'.OpenWith (once ++ [k]) ∧ stage'.cover.left = stage.cover.left ∧ stage'.cover.right = stage.cover.right := by
  obtain ⟨-, perm, free⟩ := round
  rename_i graph cover ranked chosen
  refine ⟨chosen.key, ⟨open_push perm h.opened h.same free, fun k => ?_⟩, rfl, rfl⟩
  rw [keys_push, List.mem_append, List.mem_append, h.same]

theorem Rounds.openWith (rounds : Rounds n stage stage') (h : stage.OpenWith once) :
    ∃ more, more.length = n ∧ stage'.OpenWith (once ++ more) ∧ stage'.cover.left = stage.cover.left ∧
      stage'.cover.right = stage.cover.right := by
  induction rounds generalizing once with
  | none => exact ⟨[], rfl, by rwa [List.append_nil], rfl, rfl⟩
  | next first rest ih =>
    obtain ⟨k, h, left, right⟩ := first.openWith h
    obtain ⟨more, length, h, left', right'⟩ := ih h
    refine ⟨k :: more, by rw [List.length_cons, length], ?_, left'.trans left, right'.trans right⟩
    rwa [List.append_assoc] at h

end Open

def round (w : Weights Float32) (p : SearchParameters) (stage : Stage) : Sampling (Option Stage) := do
  let ranked ← rank w stage.graph
  let free := freeIn ranked stage.cover
  if free.isEmpty then throw (.malformedCover .exhausted)
  let i ← drawUntil (pickBelow p.assignProbability free.length Random.stateCount)
  return free[i]?.map fun chosen => ⟨ranked.prune chosen, stage.cover.push chosen⟩

theorem commit_succ (rounds : Nat) (stage : Stage) : commit w p (rounds + 1) stage.graph stage.cover =
    if stage.graph.size ≤ stage.cover.size then pure stage.cover
    else round w p stage >>= fun next => next.elim (pure stage.cover) fun next => commit w p rounds next.graph next.cover := by
  unfold round
  rw [commit]
  split
  · rfl
  · rw [bind_assoc]
    refine bind_congr fun ranked => ?_
    have listed : (ranked.entries.filter fun c => !stage.cover.keys.contains c.key) = freeIn ranked stage.cover := rfl
    simp only [listed]
    split
    · rw [bind_assoc]
      rfl
    · rw [bind_assoc]
      refine bind_congr fun i => ?_
      rw [pure_bind]
      cases (freeIn ranked stage.cover)[i]? <;> rfl

section Run

variable {stage : Stage} {once : List Key}

/-- A round that ends commits to a candidate: some are free, and one of them is at the place that was drawn. -/
theorem round_stops (h : stage.OpenWith once) (more : stage.cover.size < stage.graph.size) :
    Stops (round w p stage) (fun next => ∃ stage', next = some stage' ∧ Round stage stage') fun _ => False := by
  unfold round
  refine (rank_stops stage.graph).bind fun ranked ⟨_, _, perm⟩ => ?_
  simp only
  split
  · rename_i none
    exact absurd (List.isEmpty_iff.mp none) (freeIn_ne_nil perm h.opened h.same more)
  · refine Stops.bind (.of_drawUntil fun source i next drawn => pickBelow_lt drawn) fun i below => ?_
    rw [List.getElem?_eq_getElem below]
    exact .of_pure ⟨_, rfl, .commit more perm (List.getElem_mem below)⟩

theorem commit_rounds (rounds : Nat) (h : stage.OpenWith once) (enough : stage.graph.size ≤ stage.cover.size + rounds) :
    Stops (commit w p rounds stage.graph stage.cover)
      (fun result => ∃ n final, Rounds n stage final ∧ final.cover = result ∧ final.graph.size ≤ final.cover.size)
      fun _ => False := by
  induction rounds generalizing stage once with
  | zero => exact .of_pure ⟨0, stage, .none stage, rfl, enough⟩
  | succ rounds ih =>
    rw [commit_succ]
    split
    · rename_i full
      exact .of_pure ⟨0, stage, .none stage, rfl, full⟩
    · rename_i more
      refine (round_stops h (not_le.mp more)).bind fun next ⟨stage', committed, first⟩ => ?_
      obtain ⟨k, h', -, -⟩ := first.openWith h
      have less := first.gap_lt
      simp only [Stage.gap] at less
      rw [committed]
      refine (ih h' (by omega)).imp ?_ fun _ never => never
      rintro result ⟨n, final, rest, same, full⟩
      exact ⟨n + 1, final, .next first rest, same, full⟩

end Run

section Picks

variable {probability : Float} {bound : Nat}

theorem pickBelow_mono {tries more : Nat} {source : Random} {drawn : Nat × Random} (le : tries ≤ more)
    (h : pickBelow probability bound tries source = some drawn) : pickBelow probability bound more source = some drawn := by
  induction tries generalizing more source with
  | zero => cases h
  | succ tries ih =>
    obtain ⟨more, rfl⟩ := Nat.exists_eq_add_one.mpr (show 0 < more by omega)
    unfold pickBelow at h ⊢
    cases pick : source.geometric probability with
    | none =>
      rw [pick] at h
      cases h
    | some pick' =>
      simp only [pick] at h ⊢
      split at h
      · rwa [if_pos ‹_›]
      · rw [if_neg ‹_›]
        exact ih (by omega) h

/-- The first `k` picks are too large, and the next one is not. -/
structure Misses (probability : Float) (bound k : Nat) (source : Random) : Prop where
  missed : pickBelow probability bound k source = none
  hit : pickBelow probability bound (k + 1) source ≠ none

theorem Misses.le {k l : Nat} {source : Random} (hk : Misses probability bound k source)
    (hl : Misses probability bound l source) : k ≤ l := by
  by_contra less
  obtain ⟨drawn, hit⟩ := Option.ne_none_iff_exists'.mp hl.hit
  have := pickBelow_mono (show l + 1 ≤ k by omega) hit
  rw [hk.missed] at this
  cases this

theorem Misses.next {k : Nat} {source : Random} (h : Misses probability bound (k + 1) source) :
    ∃ next, Misses probability bound k next := by
  obtain ⟨missed, hit⟩ := h
  unfold pickBelow at missed hit
  cases drawn : source.geometric probability with
  | none => simp [drawn] at hit
  | some pick =>
    simp only [drawn] at missed hit
    split at missed
    · cases missed
    · rw [if_neg ‹_›] at hit
      exact ⟨pick.2, missed, hit⟩

theorem Misses.exists_sources {k : Nat} {source : Random} (h : Misses probability bound k source) :
    ∃ sources : Nat → Random, ∀ l ≤ k, Misses probability bound l (sources l) := by
  induction k generalizing source with
  | zero => exact ⟨fun _ => source, fun l le => Nat.le_zero.mp le ▸ h⟩
  | succ k ih =>
    obtain ⟨next, rest⟩ := h.next
    obtain ⟨sources, missed⟩ := ih rest
    refine ⟨fun l => if l ≤ k then sources l else source, fun l le => ?_⟩
    by_cases inner : l ≤ k
    · simpa only [if_pos inner] using missed l inner
    · obtain rfl : l = k + 1 := by omega
      simpa only [if_neg inner] using h

theorem Misses.lt_stateCount {k : Nat} {source : Random} (h : Misses probability bound k source) :
    k < Random.stateCount := by
  obtain ⟨sources, missed⟩ := h.exists_sources
  have distinct : Function.Injective fun l : Fin (k + 1) => sources l := by
    intro l l' same
    have first := missed l (by omega)
    have second := missed l' (by omega)
    rw [show sources l = sources l' from same] at first
    exact Fin.ext (Nat.le_antisymm (first.le second) (second.le first))
  exact Random.le_stateCount distinct

theorem pickBelow_eq_none_iff {source : Random} : pickBelow probability bound Random.stateCount source = none ↔
    ∀ tries, pickBelow probability bound tries source = none := by
  refine ⟨fun given => ?_, fun never => never _⟩
  intro tries
  induction tries with
  | zero => rfl
  | succ tries ih =>
    by_contra hit
    obtain ⟨drawn, found⟩ := Option.ne_none_iff_exists'.mp hit
    have := pickBelow_mono (Misses.mk ih hit).lt_stateCount found
    rw [given] at this
    cases this

end Picks

/-- Every pick among some candidates ends. -/
def PicksEnd (p : SearchParameters) : Prop :=
  ∀ bound source, 0 < bound → pickBelow p.assignProbability bound Random.stateCount source ≠ none

theorem picksEnd_of_not_exists
    (none : ¬ ∃ bound source, 0 < bound ∧ ∀ tries, pickBelow p.assignProbability bound tries source = none) :
    PicksEnd p := by
  intro bound source positive endless
  exact none ⟨bound, source, positive, pickBelow_eq_none_iff.mp endless⟩

section Halting

variable (ends : PicksEnd p)

include ends

theorem round_halts (stage : Stage) : Halts (round w p stage) := by
  unfold round
  apply (show Halts (rank w stage.graph) from (Halts.of_remember _).bind fun _ => .of_pure _).bind
  intro ranked
  simp only
  split
  · exact nofun
  · rename_i some
    have positive := List.length_pos_iff.mpr (mt List.isEmpty_iff.mpr some)
    exact (Halts.of_drawUntil fun source => ends _ source positive).bind fun _ => .of_pure _

theorem commit_halts (rounds : Nat) (stage : Stage) : Halts (commit w p rounds stage.graph stage.cover) := by
  induction rounds generalizing stage with
  | zero => exact .of_pure _
  | succ rounds ih =>
    rw [commit_succ]
    split
    · exact .of_pure _
    · apply (round_halts ends stage).bind
      intro next
      cases next with
      | none => exact .of_pure _
      | some next => exact ih next

theorem complete_halts (fixed : Candidates) : Halts (complete w p fixed) := by
  unfold complete
  apply (Halts.of_draw _).bind
  intro graph
  simp only
  split
  · exact .of_throw _
  · exact commit_halts ends _ ⟨_, fixed⟩

end Halting

def Stage.start (fixed : Candidates) (source : Random) : Stage :=
  ⟨startGraph fixed source, fixed⟩

theorem Stage.start_openWith {fixed : Candidates} (hl : fixed.left.node.Numbered) (hr : fixed.right.node.Numbered)
    {source : Random} (kept : fixed.keys ⊆ (startGraph fixed source).keys) :
    (Stage.start fixed source).OpenWith fixed.keys.dedup where
  opened := open_of_subset hl hr ((Random.shuffle_perm _ source).map _) kept (List.nodup_dedup _) fun _ => List.mem_dedup
  same _ := List.mem_dedup

/-- A completion of candidates that are still there after all that conflicts with them is removed makes progress. It runs
one round after another. After any number of rounds, whatever was chosen, what is committed to is intact, each
round narrows the gap, and there are no more rounds than nodes. As long as there are more candidates left than committed
to, a round that ends commits to one more, so that the completion runs rounds to the end, unless a pick goes on for
ever. -/
theorem complete_progress {fixed : Candidates} (hl : fixed.left.node.Numbered) (hr : fixed.right.node.Numbered)
    (w : Weights Float32) (p : SearchParameters) (walk : Walk)
    (kept : fixed.keys ⊆ (Stage.start fixed walk.source).graph.keys) :
    (∀ rounds stage, commit w p (rounds + 1) stage.graph stage.cover =
      if stage.graph.size ≤ stage.cover.size then pure stage.cover
      else round w p stage >>= fun next => next.elim (pure stage.cover) fun next => commit w p rounds next.graph next.cover) ∧
    (∀ n stage, Rounds n (.start fixed walk.source) stage →
      stage.Intact ∧ n ≤ fixed.left.size + fixed.right.size ∧
      (∀ next, Round stage next → next.gap < stage.gap) ∧
      (stage.cover.size < stage.graph.size →
        Stops (round w p stage) (fun next => ∃ stage', next = some stage' ∧ Round stage stage') fun _ => False)) ∧
    match complete w p fixed walk with
    | none => ∃ bound source, 0 < bound ∧ ∀ tries, pickBelow p.assignProbability bound tries source = none
    | some (.error _) => False
    | some (.ok (cover, _)) =>
      ∃ n final, Rounds n (.start fixed walk.source) final ∧ final.cover = cover ∧ final.graph.size ≤ final.cover.size := by
  have opened := Stage.start_openWith hl hr kept
  refine ⟨commit_succ, fun n stage rounds => ?_, ?_⟩
  · obtain ⟨more, rfl, h, left, right⟩ := rounds.openWith opened
    have hl' : stage.cover.left.node.Numbered := left ▸ hl
    have hr' : stage.cover.right.node.Numbered := right ▸ hr
    refine ⟨h.intact hl' hr', ?_, fun _ => Round.gap_lt, round_stops h⟩
    have bound := h.opened.sound.length_le hl' hr'
    rw [List.length_append, left, right] at bound
    exact (Nat.le_add_left _ _).trans bound
  · have runs := commit_rounds (w := w) (p := p) (startGraph fixed walk.source).size opened (Nat.le_add_left _ _)
      { walk with source := (Candidates.complete fixed.left fixed.right walk.source).2 }
    dsimp only [Stage.start] at runs
    rw [complete_of_subset walk kept]
    split
    · rename_i ended
      by_contra endless
      exact commit_halts (picksEnd_of_not_exists endless) _ (.start fixed walk.source) _ ended
    · rename_i ended
      rwa [ended] at runs
    · rename_i ended
      rwa [ended] at runs

end Cover

def CostModel.chain (first : NodeId) : Node :=
  Tree.number first (.node ⟨⟨"list", none⟩, false, .plain⟩ [.node ⟨⟨"item", none⟩, false, .plain⟩ []])

namespace Cover

def doubled : Candidates :=
  let roots : Candidate := .pair (.root (CostModel.chain 0)) (.root (CostModel.chain 2))
  ⟨.root (CostModel.chain 0), .root (CostModel.chain 2), [roots, roots]⟩

theorem complete_progress_doubled : ∃ stage, Rounds 1 (.start doubled (.ofSeed 0)) stage ∧ stage.Intact ∧
    (Stage.start doubled (.ofSeed 0)).gap = 2 ∧ stage.gap < 2 := by
  have hl : doubled.left.node.Numbered := (Tree.number_numbered _ 0).2
  have hr : doubled.right.node.Numbered := (Tree.number_numbered _ 2).2
  have kept : doubled.keys ⊆ (Stage.start doubled (.ofSeed 0)).graph.keys := by decide +kernel
  have gap : (Stage.start doubled (.ofSeed 0)).gap = 2 := by decide +kernel
  obtain ⟨-, progress, -⟩ := complete_progress hl hr (CostModel.ofParameters {}).weights {} { source := .ofSeed 0 } kept
  have more : (Stage.start doubled (.ofSeed 0)).cover.size < (Stage.start doubled (.ofSeed 0)).graph.size := by
    simp only [Stage.gap] at gap
    omega
  have opened := Stage.start_openWith hl hr kept
  obtain ⟨chosen, free⟩ := List.exists_mem_of_ne_nil _ (freeIn_ne_nil (.refl _) opened.opened opened.same more)
  have first : Round (.start doubled (.ofSeed 0)) _ := .commit more (.refl _) free
  obtain ⟨-, -, narrows, -⟩ := progress 0 _ (.none _)
  have less := narrows _ first
  obtain ⟨intact, -⟩ := progress 1 _ (.next first (.none _))
  exact ⟨_, .next first (.none _), intact, gap, gap ▸ less⟩

end Cover

end TreeAlign
