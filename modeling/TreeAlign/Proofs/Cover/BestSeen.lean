import TreeAlign.Proofs.Cover.Repricing
import TreeAlign.Proofs.FloatOrder

namespace TreeAlign

namespace Cover

open Candidates Sampling

section Noting

variable (w : Weights Float32) (p : SearchParameters)

/-- A walk that also notes every cover it prices, with the cost. -/
def walkNoting (fixed : Candidates) :
    Nat → Progress → List (Candidates × Float32) → Sampling (Progress × List (Candidates × Float32))
  | 0, progress, seen => return (progress, seen)
  | steps + 1, progress, seen => do
    let proposal ← propose w p progress.current fixed
    let paid ← cost w proposal
    let accept ← draw (Random.chance (acceptance p.beta progress.currentCost paid.2))
    walkNoting fixed steps (progress.consider paid.1 paid.2 accept) (seen ++ [paid])

def Progress.begin (first : Candidates × Float32) : Progress where
  initialCost := first.2
  current := first.1
  currentCost := first.2
  lowest := first.1
  lowestCost := first.2
  accepted := 0
  trace := []

def exploreNoting (fixed : Candidates) : Sampling (Progress × List (Candidates × Float32)) := do
  let first ← complete w p fixed
  let paid ← cost w first
  walkNoting w p fixed p.iterations (.begin paid) [paid]

def evaluated (fixed : Candidates) : List (Candidates × Float32) :=
  match exploreNoting w p fixed { source := .ofSeed p.seed } with
  | some (.ok ((_, seen), _)) => seen
  | _ => []

theorem fst_walkNoting (fixed : Candidates) (steps : Nat) (progress : Progress) (seen : List (Candidates × Float32)) :
    Prod.fst <$> walkNoting w p fixed steps progress seen = walk w p fixed steps progress := by
  induction steps generalizing progress seen with
  | zero => rfl
  | succ steps ih => simp only [walkNoting, walk, map_bind, ih]

theorem fst_exploreNoting (fixed : Candidates) : Prod.fst <$> exploreNoting w p fixed = explore w p fixed := by
  simp only [exploreNoting, explore, map_bind, fst_walkNoting]
  rfl

end Noting

variable {w : Weights Float32} {p : SearchParameters} {left right : Site} {first : NodeId} {outlines : List Outline}
  {cover fixed : Candidates} {seen : List (Candidates × Float32)} {progress : Progress} {paid : Candidates × Float32}

/-- The cost is what the cover costs, and pricing it again changes nothing. -/
structure Settled (w : Weights Float32) (left right : Site) (paid : Candidates × Float32) : Prop where
  within : Within left right paid.1
  again : paid.1.priced w = paid.1
  price : paid.1.meanPrice w = paid.2

theorem Settled.of_within (h : Within left right cover) : Settled w left right (cover.priced w, cover.meanPrice w) where
  within := h.of_sides rfl rfl fun c hc => by
    obtain ⟨d, hd, rfl⟩ := List.mem_map.mp hc
    exact ⟨d, hd, rfl⟩
  again := priced_priced w cover
  price := meanPrice_priced w cover

/-- What a walk has noted of the covers it has priced so far. -/
structure Books (w : Weights Float32) (left right : Site) (seen : List (Candidates × Float32)) (progress : Progress) :
    Prop where
  settled : ∀ paid ∈ seen, Settled w left right paid
  begun : seen.head?.map Prod.snd = some progress.initialCost
  counted : seen.length = progress.trace.length + 1
  stands : (progress.current, progress.currentCost) ∈ seen
  kept : (progress.lowest, progress.lowestCost) ∈ seen
  least : ∀ paid ∈ seen, ¬paid.2 < progress.lowestCost
  falls : (progress.initialCost :: progress.trace).IsChain fun before after => after = before ∨ after < before
  last : progress.lowestCost = progress.trace.getLastD progress.initialCost
  accepted : progress.accepted ≤ progress.trace.length

theorem Books.begin (settled : Settled w left right paid) : Books w left right [paid] (.begin paid) where
  settled := by simpa using settled
  begun := rfl
  counted := rfl
  stands := List.mem_singleton_self _
  kept := List.mem_singleton_self _
  least := by
    intro other member
    rw [List.mem_singleton.mp member]
    exact FloatOrder.less_irrefl _
  falls := .singleton _
  last := rfl
  accepted := Nat.le_refl 0

section Consider

variable (progress : Progress) (paid : Candidates × Float32) (accept : Bool)

theorem Progress.current_consider : ((progress.consider paid.1 paid.2 accept).current,
    (progress.consider paid.1 paid.2 accept).currentCost) =
      if accept = true then paid else (progress.current, progress.currentCost) := by
  unfold consider
  cases accept <;> rfl

theorem Progress.lowest_consider : ((progress.consider paid.1 paid.2 accept).lowest,
    (progress.consider paid.1 paid.2 accept).lowestCost) =
      if paid.2 < progress.lowestCost then paid else (progress.lowest, progress.lowestCost) := by
  unfold consider
  simp only
  split <;> rfl

theorem Progress.accepted_consider : (progress.consider paid.1 paid.2 accept).accepted ≤ progress.accepted + 1 := by
  unfold consider
  cases accept <;> simp

theorem Progress.length_trace_consider :
    (progress.consider paid.1 paid.2 accept).trace.length = progress.trace.length + 1 :=
  List.length_append

end Consider

theorem Books.lowestCost_consider (books : Books w left right seen progress) (accept : Bool) :
    let next := (progress.consider paid.1 paid.2 accept).lowestCost
    (next = progress.lowestCost ∨ next < progress.lowestCost) ∧ ∀ other ∈ seen ++ [paid], ¬other.2 < next := by
  have lowest := congrArg Prod.snd (progress.lowest_consider paid accept)
  simp only [List.forall_mem_append, List.forall_mem_singleton]
  split at lowest
  · rename_i improved
    have same : (progress.consider paid.1 paid.2 accept).lowestCost = paid.2 := lowest
    rw [same]
    exact ⟨.inr improved, fun other member less => books.least other member (FloatOrder.less_trans less improved),
      FloatOrder.less_irrefl _⟩
  · rename_i dearer
    have same : (progress.consider paid.1 paid.2 accept).lowestCost = progress.lowestCost := lowest
    rw [same]
    exact ⟨.inl rfl, books.least, dearer⟩

theorem Books.consider (books : Books w left right seen progress) (settled : Settled w left right paid) (accept : Bool) :
    Books w left right (seen ++ [paid]) (progress.consider paid.1 paid.2 accept) where
  settled := List.forall_mem_append.mpr ⟨books.settled, List.forall_mem_singleton.mpr settled⟩
  begun := by
    rw [List.head?_append_of_ne_nil _ (List.ne_nil_of_mem books.kept)]
    exact books.begun
  counted := by
    rw [Progress.length_trace_consider, List.length_append, books.counted]
    rfl
  stands := by
    rw [Progress.current_consider]
    split
    · exact List.mem_append_right _ List.mem_cons_self
    · exact List.mem_append_left _ books.stands
  kept := by
    rw [Progress.lowest_consider]
    split
    · exact List.mem_append_right _ List.mem_cons_self
    · exact List.mem_append_left _ books.kept
  least := (books.lowestCost_consider accept).2
  falls := by
    change ((progress.initialCost :: progress.trace) ++ [_]).IsChain _
    refine List.isChain_append.mpr ⟨books.falls, .singleton _, ?_⟩
    rintro before atEnd after ⟨⟩
    rw [List.getLast?_cons, ← List.getLastD_eq_getLast?, ← books.last] at atEnd
    cases atEnd
    exact (books.lowestCost_consider accept).1
  last := List.getLastD_concat.symm
  accepted := by
    have more := progress.accepted_consider paid accept
    have before := books.accepted
    rw [Progress.length_trace_consider]
    omega

section Told

variable (hl : left ∈ Site.inTrees (Tree.numberAll first outlines)) (hr : right ∈ Site.inTrees (Tree.numberAll first outlines))

include hl hr

theorem walkNoting_books (hf : Within left right fixed) {steps total : Nat} (books : Books w left right seen progress)
    (ahead : progress.trace.length + steps = total) : Keeps (BlankAt left right) (walkNoting w p fixed steps progress seen)
      (fun result => Books w left right result.2 result.1 ∧ result.1.trace.length = total) fun _ => True := by
  have lasting : Lasting w left right (BlankAt left right) := lasting_blankAt hl hr
  induction steps generalizing progress seen with
  | zero => exact .of_pure ⟨books, ahead⟩
  | succ steps ih =>
    unfold walkNoting
    apply (propose_within lasting (books.settled _ books.stands).within hf).bind
    intro proposal within
    apply (cost_priced hl hr within).bind
    rintro paid rfl
    -- Whether the proposal is accepted or not, it is noted, and the books hold for either.
    refine Keeps.bind (.of_draw lasting.drawn fun _ => trivial) fun accept (_ : True) => ?_
    apply ih (books.consider (.of_within within) accept)
    rw [Progress.length_trace_consider]
    omega

theorem exploreNoting_books (hf : Within left right fixed) : Keeps (BlankAt left right) (exploreNoting w p fixed)
    (fun result => Books w left right result.2 result.1 ∧ result.1.trace.length = p.iterations) fun _ => True := by
  unfold exploreNoting
  apply (complete_within (lasting_blankAt hl hr) hf).bind
  intro cover within
  apply (cost_priced hl hr within).bind
  rintro paid rfl
  exact walkNoting_books hl hr hf (.begin (.of_within within)) (Nat.zero_add _)

theorem Settled.cost_again (settled : Settled w left right paid) (covers : Covers left right paid.1.keys)
    (source : Random) : ∃ walk, cost w paid.1 { source } = some (.ok (paid, walk)) := by
  rw [← settled.within.left, ← settled.within.right, ← check_eq_ok_iff] at covers
  · have ended : ∃ result walk, cost w paid.1 { source } = some (.ok (result, walk)) := by
      unfold cost
      rw [covers]
      exact ⟨_, _, rfl⟩
    obtain ⟨result, walk, ended⟩ := ended
    have blank : BlankAt left right { source } := fun _ _ _ _ => Memo.holds_empty _ _
    have own : result = paid := by
      rw [((cost_priced hl hr settled.within).ok blank ended).1, settled.again, settled.price]
    exact ⟨walk, own ▸ ended⟩
  · rw [settled.within.left]
    exact Site.numbered_of_mem_inTrees hl
  · rw [settled.within.right]
    exact Site.numbered_of_mem_inTrees hr

end Told

theorem exploreNoting_of_search {report : SearchReport} (searched : search w p fixed = some (.ok (cover, report))) :
    ∃ progress walk, exploreNoting w p fixed { source := .ofSeed p.seed } = some (.ok ((progress, evaluated w p fixed), walk)) ∧
      cover = progress.lowest ∧ report = progress.report p := by
  unfold search at searched
  split at searched
  · cases searched
  · rw [← fst_exploreNoting, map_eq_pure_bind, bind_apply] at searched
    unfold evaluated
    rcases noted : exploreNoting w p fixed { source := .ofSeed p.seed } with _ | failure | ⟨⟨progress, seen⟩, walk⟩ <;>
      rw [noted] at searched
    · cases searched
    · cases searched
    · cases searched
      exact ⟨progress, walk, rfl, rfl, rfl⟩

theorem within_of_sound (roots : ∀ b, fixed.root b ∈ Site.inTrees (Tree.numberAll first outlines))
    (nodes : ∀ c ∈ fixed.entries, ∀ b s, c.side b = some s → s ∈ Site.inTrees (Tree.numberAll first outlines))
    (sound : Sound fixed.left fixed.right fixed.keys) : Within fixed.left fixed.right fixed := by
  refine ⟨rfl, rfl, fun c hc b s here => ?_⟩
  have contained : (fixed.root b).node.containsId s.id = true := by
    have key := mem_keys.mpr ⟨c, hc, rfl⟩
    cases b with
    | false => exact sound.insideLeft _ (mem_lefts.mpr ⟨_, key, congrArg (Option.map Site.id) here⟩)
    | true => exact sound.insideRight _ (mem_rights.mpr ⟨_, key, congrArg (Option.map Site.id) here⟩)
  obtain ⟨t, ht, same⟩ := Site.exists_mem_preorder (Site.numbered_of_mem_inTrees (roots b)) contained
  rwa [← Site.eq_of_mem_inTrees (Site.mem_inTrees_below (roots b) ht) (nodes c hc b s here) same]

end Cover

namespace CostModel

variable {model model' : CostModel} {fixed cover : Candidates} {first : NodeId} {outlines : List Outline}

/-- The books of a search that succeeds. Its cover costs what it reports as the lowest cost, which no cover priced on
the way undercuts; after each iteration that cost is the same as before or less. -/
theorem search_bookkeeping (roots : ∀ b, fixed.root b ∈ Site.inTrees (Tree.numberAll first outlines))
    (nodes : ∀ c ∈ fixed.entries, ∀ b s, c.side b = some s → s ∈ Site.inTrees (Tree.numberAll first outlines))
    (ended : model.search fixed = some (.ok cover, model')) : ∃ report, model'.report = some report ∧
      (∀ source, ∃ walk, Cover.cost model.weights cover { source } = some (.ok ((cover, report.lowestCost), walk))) ∧
      report.iterations = model.parameters.iterations ∧ report.trace.length = model.parameters.iterations ∧
      (report.initialCost :: report.trace).IsChain (fun before after => after = before ∨ after < before) ∧
      report.lowestCost = report.trace.getLastD report.initialCost ∧ report.accepted ≤ model.parameters.iterations ∧
      let evaluated := Cover.evaluated model.weights model.parameters fixed
      evaluated.length = model.parameters.iterations + 1 ∧ evaluated.head?.map Prod.snd = some report.initialCost ∧
        (cover, report.lowestCost) ∈ evaluated ∧ ∀ paid ∈ evaluated, ¬paid.2 < report.lowestCost := by
  unfold search at ended
  rcases searched : Cover.search model.weights model.parameters fixed with _ | failure | ⟨cover, report⟩ <;>
    simp only [searched] at ended <;> cases ended
  have hl := roots false
  have hr := roots true
  obtain ⟨-, sound, holds⟩ :=
    Cover.search_ok (Site.numbered_of_mem_inTrees hl) (Site.numbered_of_mem_inTrees hr) searched
  have within := Cover.within_of_sound roots nodes sound
  obtain ⟨progress, walk, noted, rfl, rfl⟩ := Cover.exploreNoting_of_search searched
  have blank : Cover.BlankAt fixed.left fixed.right { source := .ofSeed model.parameters.seed } :=
    fun _ _ _ _ => Memo.holds_empty _ _
  obtain ⟨⟨books, full⟩, -⟩ := (Cover.exploreNoting_books hl hr within).ok blank noted
  have again := (books.settled _ books.kept).cost_again hl hr holds.covers
  have few := books.accepted
  have counted := books.counted
  rw [full] at few counted
  exact ⟨progress.report model.parameters, rfl, again, rfl, full, books.falls, books.last, few, counted, books.begun,
    books.kept, books.least⟩

theorem search_bookkeeping_heads : ∃ cover model' report, (ofParameters brief).search heads = some (.ok cover, model') ∧
    model'.report = some report ∧ report.trace.length = 3 ∧
    (Cover.evaluated (ofParameters brief).weights brief heads).length = 4 ∧
    ∀ paid ∈ Cover.evaluated (ofParameters brief).weights brief heads, ¬paid.2 < report.lowestCost := by
  have roots (b : Bool) : heads.root b ∈ Site.inTrees (Tree.numberAll 0 [(chain 0).outline, (chain 2).outline]) := by
    change heads.root b ∈ Site.inTrees [chain 0, chain 2]
    cases b <;> simp [Site.inTrees, heads, Candidates.root, Site.self_mem_preorder]
  have nodes : ∀ c ∈ heads.entries, ∀ b s, c.side b = some s →
      s ∈ Site.inTrees (Tree.numberAll 0 [(chain 0).outline, (chain 2).outline]) := by
    intro c hc b s here
    obtain rfl := List.mem_singleton.mp hc
    cases b with
    | false => exact Option.some_inj.mp here ▸ roots false
    | true => exact Option.some_inj.mp here ▸ roots true
  have sound : Candidates.Sound heads.left heads.right heads.keys := by constructor <;> decide
  have hl := Site.numbered_of_mem_inTrees (roots false)
  have hr := Site.numbered_of_mem_inTrees (roots true)
  rcases searched : Cover.search (ofParameters brief).weights (ofParameters brief).parameters heads with
    _ | failure | ⟨cover, report⟩
  · exact absurd searched (Cover.search_ne_none _ (by decide) heads)
  · exact absurd ⟨by decide, sound⟩ (Cover.search_error hl hr searched)
  · have ended : (ofParameters brief).search heads =
        some (.ok cover, { ofParameters brief with report := some report }) := by
      simp only [search, searched]
    obtain ⟨report, reported, -, -, full, -, -, -, count, -, -, least⟩ := search_bookkeeping roots nodes ended
    exact ⟨cover, _, report, ended, reported, full, count, least⟩

end CostModel

end TreeAlign
