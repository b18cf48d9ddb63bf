import Mathlib.Algebra.BigOperators.Ring.Finset
import Mathlib.Algebra.BigOperators.Ring.List
import TreeAlign.Proofs.KnownUnequal
import TreeAlign.Proofs.Refusal

namespace TreeAlign

namespace Tree

universe u

variable {α : Type u}

/-- The number of pairs of a left and a right node at the same depth. -/
def sameDepthPairs (left right : Tree α) : Nat :=
  ∑ depth ∈ Finset.range (left.height + 1), (left.level depth).length * (right.level depth).length

theorem level_eq_nil {t : Tree α} {depth : Nat} (deep : t.height < depth) : t.level depth = [] := by
  induction depth generalizing t with
  | zero => omega
  | succ depth ih =>
    rw [level, List.flatMap_eq_nil_iff]
    intro c child
    have := height_lt_of_child child
    exact ih (by omega)

theorem length_level_succ (t : Tree α) (depth : Nat) :
    (t.level (depth + 1)).length = (t.children.map fun c => (c.level depth).length).sum := by
  rw [level, List.length_flatMap]

theorem sameDepthPairs_eq {left : Tree α} {depths : Nat} (all : left.height < depths) (right : Tree α) :
    left.sameDepthPairs right =
      ∑ depth ∈ Finset.range depths, (left.level depth).length * (right.level depth).length := by
  apply Finset.sum_subset
  · intro depth inside
    simp only [Finset.mem_range] at inside ⊢
    omega
  · intro depth _ below
    rw [Finset.mem_range, not_lt] at below
    rw [level_eq_nil (by omega), List.length_nil, Nat.zero_mul]

theorem sum_mul_sum_map {ls rs : List (Tree α)} (f g : Tree α → Nat) :
    (ls.map f).sum * (rs.map g).sum = (ls.map fun l => (rs.map fun r => f l * g r).sum).sum := by
  rw [← List.sum_map_mul_right]
  simp only [List.sum_map_mul_left]

theorem sum_range_map (ls : List (Tree α)) (depths : Nat) (f : Nat → Tree α → Nat) :
    ∑ depth ∈ Finset.range depths, (ls.map (f depth)).sum =
      (ls.map fun l => ∑ depth ∈ Finset.range depths, f depth l).sum := by
  induction ls with
  | nil => simp
  | cons l ls ih => simp only [List.map_cons, List.sum_cons, Finset.sum_add_distrib, ih]

theorem sameDepthPairs_children (left right : Tree α) :
    left.sameDepthPairs right =
      (left.children.map fun l => (right.children.map fun r => l.sameDepthPairs r).sum).sum + 1 := by
  have below (l : Tree α) (child : l ∈ left.children) (r : Tree α) : l.sameDepthPairs r =
      ∑ depth ∈ Finset.range left.height, (l.level depth).length * (r.level depth).length :=
    sameDepthPairs_eq (height_lt_of_child child) r
  have rows : (left.children.map fun l => (right.children.map fun r => l.sameDepthPairs r).sum) =
      left.children.map fun l => ∑ depth ∈ Finset.range left.height,
        (right.children.map fun r => (l.level depth).length * (r.level depth).length).sum := by
    apply List.map_congr_left
    intro l child
    rw [sum_range_map]
    exact congrArg List.sum (List.map_congr_left fun r _ => below l child r)
  rw [rows, ← sum_range_map, sameDepthPairs, Finset.sum_range_succ']
  congr 1
  apply Finset.sum_congr rfl
  intro depth _
  rw [length_level_succ, length_level_succ, sum_mul_sum_map]

end Tree

namespace Statistics

instance : Add Statistics where
  add s g :=
    { calls := s.calls + g.calls
      orderedCalls := s.orderedCalls + g.orderedCalls
      unorderedCalls := s.unorderedCalls + g.unorderedCalls
      equalityAttempts := s.equalityAttempts + g.equalityAttempts
      equalityHits := s.equalityHits + g.equalityHits }

@[simp] theorem calls_add (s g : Statistics) : (s + g).calls = s.calls + g.calls := rfl

@[simp] theorem orderedCalls_add (s g : Statistics) : (s + g).orderedCalls = s.orderedCalls + g.orderedCalls := rfl

@[simp] theorem unorderedCalls_add (s g : Statistics) :
    (s + g).unorderedCalls = s.unorderedCalls + g.unorderedCalls := rfl

@[simp] theorem equalityAttempts_add (s g : Statistics) :
    (s + g).equalityAttempts = s.equalityAttempts + g.equalityAttempts := rfl

@[simp] theorem equalityHits_add (s g : Statistics) : (s + g).equalityHits = s.equalityHits + g.equalityHits := rfl

theorem add_assoc (s g h : Statistics) : s + g + h = s + (g + h) := by
  simp only [HAdd.hAdd, Add.add, mk.injEq]
  exact ⟨Nat.add_assoc _ _ _, Nat.add_assoc _ _ _, Nat.add_assoc _ _ _, Nat.add_assoc _ _ _, Nat.add_assoc _ _ _⟩

structure Fair (s : Statistics) : Prop where
  calls : s.calls = s.orderedCalls + s.unorderedCalls
  hits : s.equalityHits ≤ s.equalityAttempts

theorem fair_start : Fair {} := ⟨rfl, Nat.le_refl _⟩

theorem Fair.add {s g : Statistics} (hs : s.Fair) (hg : g.Fair) : (s + g).Fair := by
  constructor
  · have := hs.calls
    have := hg.calls
    simp only [calls_add, orderedCalls_add, unorderedCalls_add]
    omega
  · exact Nat.add_le_add hs.hits hg.hits

/-- What the matching of nodes with so many pairs adds to the counts. -/
structure Spent (p : MatchParameters) (pairs : Nat) (g : Statistics) : Prop where
  bound : g.calls ≤ pairs
  all : p.useEquality = false → g.calls = pairs
  tried : p.useEquality = true → p.skipKnownUnequal = false → g.calls + g.equalityHits = g.equalityAttempts

variable {p : MatchParameters} {pairs more : Nat} {g h : Statistics}

theorem spent_start (p : MatchParameters) : Spent p 0 {} := ⟨Nat.le_refl _, fun _ => rfl, fun _ _ => rfl⟩

theorem Spent.add (hg : Spent p pairs g) (hh : Spent p more h) : Spent p (pairs + more) (g + h) := by
  refine ⟨Nat.add_le_add hg.bound hh.bound, fun off => ?_, fun on all => ?_⟩
  · rw [calls_add, hg.all off, hh.all off]
  · have := hg.tried on all
    have := hh.tried on all
    simp only [calls_add, equalityHits_add, equalityAttempts_add]
    omega

structure Missed (p : MatchParameters) (g : Statistics) : Prop where
  calls : g.calls = 0
  hits : g.equalityHits = 0
  tried : p.useEquality = true → p.skipKnownUnequal = false → g.equalityAttempts = 1

def Called (p : MatchParameters) (pairs : Nat) (g : Statistics) : Prop :=
  ∃ cells, Spent p pairs cells ∧ g.calls = cells.calls + 1 ∧ g.equalityHits = cells.equalityHits ∧
    g.equalityAttempts = cells.equalityAttempts

theorem Missed.spent (missed : Missed p g) (called : Called p pairs h) : Spent p (pairs + 1) (g + h) := by
  obtain ⟨cells, spent, calls, hits, attempts⟩ := called
  have none := missed.calls
  have misses := missed.hits
  refine ⟨?_, fun off => ?_, fun on all => ?_⟩
  · have := spent.bound
    rw [calls_add]
    omega
  · have := spent.all off
    rw [calls_add]
    omega
  · have := spent.tried on all
    have := missed.tried on all
    rw [calls_add, equalityHits_add, equalityAttempts_add]
    omega

end Statistics

namespace Dispatcher

open Statistics

variable {α β : Type} {p : MatchParameters} {left right : Node} {pairs : Nat}

/-- A run adds to the counts what is `good` for its result. A run that fails keeps them fair, and its failure is
none that is caught. -/
def Adds (run : Run α) (good : α → Statistics → Prop) : Prop :=
  ∀ d, match run d with
    | .ok a d' => ∃ g, d'.statistics = d.statistics + g ∧ g.Fair ∧ good a g
    | .error failure d' => (∃ g, d'.statistics = d.statistics + g ∧ g.Fair) ∧ failure.isLocal = false

namespace Adds

variable {good : α → Statistics → Prop} {run : Run α}

theorem of_pure {a : α} (h : good a {}) : Adds (pure a) good :=
  fun _ => ⟨{}, rfl, fair_start, h⟩

theorem after_check {x : Node} (rest : Adds run good) : Adds (MonadExcept.ofExcept x.checkPlain >>= fun _ => run) good := by
  cases checked : x.checkPlain with
  | ok _ => exact rest
  | error failure =>
    have marked := (Tree.checkPlain_eq_error_iff.mp checked).2
    exact fun d => ⟨⟨{}, rfl, fair_start⟩, by rw [marked]; rfl⟩

theorem of_count {step : Statistics → Statistics} {g : Statistics} (same : ∀ s, step s = s + g) (fair : g.Fair) :
    Adds (count step) fun _ h => h = g :=
  fun _ => ⟨g, same _, fair, rfl⟩

theorem bind {next : β → Statistics → Prop} {f : α → Run β} (first : Adds run good)
    (rest : ∀ a g, good a g → Adds (f a) fun b h => next b (g + h)) : Adds (run >>= f) next := by
  intro d
  have added := first d
  change match EStateM.bind run f d with
    | .ok b d' => _
    | .error failure d' => _
  rw [EStateM.bind.eq_def]
  cases eq : run d with
  | error failure d' =>
    rw [eq] at added
    exact added
  | ok a d' =>
    rw [eq] at added
    obtain ⟨g, grown, fair, holds⟩ := added
    have more := rest a g holds d'
    simp only
    cases eq' : f a d' with
    | ok b d'' =>
      rw [eq'] at more
      obtain ⟨h, grown', fair', holds'⟩ := more
      exact ⟨g + h, by rw [grown', grown, add_assoc], fair.add fair', holds'⟩
    | error failure d'' =>
      rw [eq'] at more
      obtain ⟨⟨h, grown', fair'⟩, caught⟩ := more
      exact ⟨⟨g + h, by rw [grown', grown, add_assoc], fair.add fair'⟩, caught⟩

theorem imp {better : α → Statistics → Prop} (h : Adds run good) (results : ∀ a g, good a g → better a g) :
    Adds run better := by
  intro d
  have added := h d
  cases eq : run d with
  | ok a d' =>
    rw [eq] at added
    obtain ⟨g, grown, fair, holds⟩ := added
    exact ⟨g, grown, fair, results a g holds⟩
  | error failure d' =>
    rw [eq] at added
    exact added

theorem tryCatch_apply (run : Run α) (f : α → Except Failure β) (handle : Failure → Run β) (d : Dispatcher) :
    MonadExcept.tryCatch (run >>= fun a => MonadExcept.ofExcept (f a)) handle d = match run d with
      | .ok a d' => match f a with
        | .ok b => .ok b d'
        | .error failure => handle failure d'
      | .error failure d' => handle failure d' := by
  change EStateM.tryCatch (EStateM.bind run _) handle d = _
  rw [EStateM.tryCatch.eq_def, EStateM.bind.eq_def]
  cases run d with
  | error failure d' => rfl
  | ok a d' =>
    cases result : f a <;> simp only [result] <;> rfl

theorem tryCatch {f : α → Except Failure β} {b : β} (h : Adds run good) :
    Adds (MonadExcept.tryCatch (run >>= fun a => MonadExcept.ofExcept (f a)) fun failure =>
      if failure.isLocal then pure b else throw failure) fun _ g => ∃ a, good a g := by
  intro d
  have added := h d
  rw [tryCatch_apply]
  cases eq : run d with
  | error failure d' =>
    rw [eq] at added
    simp only [added.2]
    exact added
  | ok a d' =>
    rw [eq] at added
    obtain ⟨g, grown, fair, holds⟩ := added
    simp only
    cases f a with
    | ok b => exact ⟨g, grown, fair, a, holds⟩
    | error failure =>
      cases caught : failure.isLocal with
      | true =>
        simp only [caught]
        exact ⟨g, grown, fair, a, holds⟩
      | false =>
        simp only [caught]
        exact ⟨⟨g, grown, fair⟩, caught⟩

theorem mapM {pairs : β → Nat} {f : β → Run α} {xs : List β}
    (each : ∀ x ∈ xs, Adds (f x) fun _ g => Spent p (pairs x) g) :
    Adds (xs.mapM f) fun _ g => Spent p (xs.map pairs).sum g := by
  induction xs with
  | nil => exact of_pure (spent_start p)
  | cons x xs ih =>
    rw [List.mapM_cons, List.map_cons, List.sum_cons]
    apply (each x List.mem_cons_self).bind
    intro a g spent
    apply (ih fun y member => each y (List.mem_cons_of_mem _ member)).bind
    intro as h spent'
    exact of_pure (spent.add spent')

end Adds

theorem Adds.called {step : Statistics → Statistics} {run : Run Matchings} (one : Statistics)
    (same : ∀ s, step s = s + one) (fair : one.Fair) (calls : one.calls = 1) (hits : one.equalityHits = 0)
    (attempts : one.equalityAttempts = 0) (rest : Adds run fun _ g => Spent p pairs g) :
    Adds (count step >>= fun _ => run) fun _ g => Called p pairs g := by
  apply (Adds.of_count same fair).bind
  intro _ _ eq
  apply rest.imp
  intro _ g spent
  subst eq
  refine ⟨g, spent, ?_, ?_, ?_⟩
  · rw [calls_add, calls, Nat.add_comm]
  · rw [equalityHits_add, hits, Nat.zero_add]
  · rw [equalityAttempts_add, attempts, Nat.zero_add]

theorem alignChildren_adds {run : Run (List (List Matchings))} (cells : Adds run fun _ g => Spent p pairs g) :
    Adds (alignChildren left right run) fun _ g => Called p pairs g := by
  apply Adds.called { calls := 1, orderedCalls := 1 } (fun _ => rfl) ⟨rfl, Nat.le_refl _⟩ rfl rfl rfl
  exact cells.bind fun _ g spent => .of_pure spent

theorem pairChildren_adds {run : Run (List (List Matchings))} (cells : Adds run fun _ g => Spent p pairs g) :
    Adds (pairChildren left right run) fun _ g => Called p pairs g := by
  rw [pairChildren_eq]
  apply Adds.called { calls := 1, unorderedCalls := 1 } (fun _ => rfl) ⟨rfl, Nat.le_refl _⟩ rfl rfl rfl
  exact cells.tryCatch.imp fun _ _ ⟨_, spent⟩ => spent

theorem attempt_apply (left right : Node) (d : Dispatcher) :
    attempt left right d = match Equality.matchNodes left right d.unequal with
      | .error failure unequal => .error failure ⟨d.statistics.countAttempt, unequal⟩
      | .ok ms unequal => match ms.get? left.id right.id with
        | none => .ok none ⟨d.statistics.countAttempt, unequal⟩
        | some _ => .ok (some ms) ⟨d.statistics.countAttempt.countHit, unequal⟩ := by
  change EStateM.bind (compare left right) _ { d with statistics := d.statistics.countAttempt } = _
  rw [EStateM.bind.eq_def, compare]
  cases Equality.matchNodes left right d.unequal with
  | error failure unequal => rfl
  | ok ms unequal =>
    simp only
    cases ms.get? left.id right.id <;> rfl

theorem attempt_adds (left right : Node) : Adds (attempt left right) fun found g =>
    g.calls = 0 ∧ g.equalityAttempts = 1 ∧ g.equalityHits = if found.isSome then 1 else 0 := by
  intro d
  have refuses := Equality.matchNodes_refuses left right d.unequal
  rw [attempt_apply]
  cases compared : Equality.matchNodes left right d.unequal with
  | error failure unequal =>
    rw [compared] at refuses
    exact ⟨⟨{ equalityAttempts := 1 }, rfl, rfl, Nat.zero_le _⟩, (Met.blocked refuses).isLocal⟩
  | ok ms unequal =>
    simp only
    cases ms.get? left.id right.id with
    | none => exact ⟨{ equalityAttempts := 1 }, rfl, ⟨rfl, Nat.zero_le _⟩, rfl, rfl, rfl⟩
    | some m => exact ⟨{ equalityAttempts := 1, equalityHits := 1 }, rfl, ⟨rfl, Nat.le_refl _⟩, rfl, rfl, rfl⟩

theorem tryEquality_adds (p : MatchParameters) (left right : Node) : Adds (tryEquality p left right) fun found g =>
    (found.isSome = true → ∀ pairs, Spent p pairs g) ∧ (found.isSome = false → Missed p g) := by
  intro d
  rw [tryEquality_apply]
  cases due : p.useEquality && !(p.skipKnownUnequal && d.unequal.contains left.id right.id) with
  | true =>
    have on : p.useEquality = true := (Bool.and_eq_true_iff.mp due).1
    apply (attempt_adds left right).imp _ d
    intro found g ⟨calls, attempts, hits⟩
    refine ⟨fun hit pairs => ⟨?_, fun off => ?_, fun _ _ => ?_⟩, fun miss => ⟨calls, ?_, fun _ _ => attempts⟩⟩
    · rw [calls]
      exact Nat.zero_le _
    · rw [on] at off
      cases off
    · rw [calls, attempts, hits, hit]
      rfl
    · rw [hits, miss]
      rfl
  | false =>
    refine ⟨{}, rfl, fair_start, nofun, fun _ => ⟨rfl, rfl, fun on all => ?_⟩⟩
    rw [on, all] at due
    cases due

theorem matchChildren_adds {pairs : Node → Node → Nat} {lefts rights : List Node}
    (each : ∀ l ∈ lefts, ∀ r ∈ rights, Adds (matchNodes p l r) fun _ g => Spent p (pairs l r) g) :
    Adds (matchChildren p lefts rights) fun _ g => Spent p (lefts.map fun l => (rights.map (pairs l)).sum).sum g := by
  induction lefts with
  | nil => exact .of_pure (spent_start p)
  | cons l lefts ih =>
    rw [matchChildren, List.map_cons, List.sum_cons]
    apply (Adds.mapM (each l List.mem_cons_self)).bind
    intro row g spent
    apply (ih fun l hl => each l (List.mem_cons_of_mem _ hl)).bind
    intro rows h spent'
    exact .of_pure (spent.add spent')

/-- The children of every two nodes at the same depth are aligned or paired once, unless the nodes are found equal or
lie below nodes that are. -/
theorem matchNodes_adds (p : MatchParameters) (left right : Node) :
    Adds (matchNodes p left right) fun _ g => Spent p (left.sameDepthPairs right) g := by
  induction left using Tree.childInduction generalizing right with
  | step left ih =>
    have cells := matchChildren_adds fun l child r (_ : r ∈ right.children) => ih l child r
    rw [Tree.sameDepthPairs_children]
    obtain ⟨value, ls⟩ := left
    rw [matchNodes]
    apply Adds.after_check
    apply Adds.after_check
    apply (tryEquality_adds p _ _).bind
    intro found g attempted
    obtain ⟨hit, miss⟩ := attempted
    cases found with
    | some ms => exact .of_pure (hit rfl _)
    | none =>
      cases isOrdered (.node value ls) right with
      | true => exact (alignChildren_adds cells).imp fun _ h called => (miss rfl).spent called
      | false => exact (pairChildren_adds cells).imp fun _ h called => (miss rfl).spent called

def KeepsFair (run : Run α) : Prop :=
  ∀ d, d.statistics.Fair → match run d with
    | .ok _ d' => d'.statistics.Fair
    | .error _ d' => d'.statistics.Fair

theorem Adds.keepsFair {good : α → Statistics → Prop} {run : Run α} (h : Adds run good) : KeepsFair run := by
  intro d fair
  have added := h d
  cases eq : run d with
  | ok a d' =>
    rw [eq] at added
    obtain ⟨g, grown, fair', -⟩ := added
    simp only [grown]
    exact fair.add fair'
  | error failure d' =>
    rw [eq] at added
    obtain ⟨⟨g, grown, fair'⟩, -⟩ := added
    simp only [grown]
    exact fair.add fair'

theorem Call.run_keepsFair (p : MatchParameters) (call : Call) : KeepsFair (call.run p) := by
  have answered {run : Run Matchings} {good : Matchings → Statistics → Prop} (h : Adds run good) :
      KeepsFair (run >>= fun ms => pure (some ms)) := by
    have silent : Adds (run >>= fun ms => pure (some ms)) fun _ _ => True := h.bind fun _ _ _ => .of_pure trivial
    exact silent.keepsFair
  have cells (left right : Node) := @matchChildren_adds p _ left.children right.children
    fun l _ r _ => matchNodes_adds p l r
  cases call with
  | nodes left right => exact answered (matchNodes_adds p left right)
  | ordered left right => exact answered (.after_check (.after_check (alignChildren_adds (cells left right))))
  | unordered left right => exact answered (.after_check (.after_check (pairChildren_adds (cells left right))))
  | reset => exact fun _ _ => fair_start

theorem play_fair (p : MatchParameters) {calls : List Call} {d : Dispatcher} (fair : d.statistics.Fair) :
    ∀ step ∈ play p calls d, step.2.statistics.Fair := by
  induction calls generalizing d with
  | nil => exact nofun
  | cons call calls ih =>
    have next := call.run_keepsFair p d fair
    rw [play]
    cases eq : call.run p d with
    | ok result d' =>
      rw [eq] at next
      exact List.forall_mem_cons.mpr ⟨next, ih next⟩
    | error failure d' =>
      rw [eq] at next
      exact List.forall_mem_cons.mpr ⟨next, ih next⟩

/-- After any calls, failed ones among them, every call has aligned or paired and no attempt hit twice. A matching
that returns without the equality strategy has made one call for every two nodes at the same depth. With it, it has
made no more, and if no pair is skipped, one for every attempt that did not hit. -/
theorem play_counts (p : MatchParameters) :
    (∀ calls, ∀ step ∈ play p calls {},
      step.2.statistics.calls = step.2.statistics.orderedCalls + step.2.statistics.unorderedCalls ∧
      step.2.statistics.equalityHits ≤ step.2.statistics.equalityAttempts) ∧
    ∀ left right d ms d', matchNodes p left right d = .ok ms d' →
      (p.useEquality = false →
        d'.statistics.calls = d.statistics.calls + left.sameDepthPairs right) ∧
      (p.useEquality = true →
        d'.statistics.calls ≤ d.statistics.calls + left.sameDepthPairs right) ∧
      (p.useEquality = true → p.skipKnownUnequal = false → ∃ attempts hits, hits ≤ attempts ∧
        d'.statistics.equalityAttempts = d.statistics.equalityAttempts + attempts ∧
        d'.statistics.equalityHits = d.statistics.equalityHits + hits ∧
        d'.statistics.calls = d.statistics.calls + (attempts - hits)) := by
  constructor
  · intro calls step member
    have fair := play_fair p fair_start step member
    exact ⟨fair.calls, fair.hits⟩
  · intro left right d ms d' ok
    have added := matchNodes_adds p left right d
    rw [ok] at added
    obtain ⟨g, grown, fair, spent⟩ := added
    rw [grown]
    refine ⟨fun off => ?_, fun _ => ?_, fun on all => ?_⟩
    · rw [calls_add, spent.all off]
    · exact Nat.add_le_add_left spent.bound _
    · have balance := spent.tried on all
      refine ⟨g.equalityAttempts, g.equalityHits, fair.hits, rfl, rfl, ?_⟩
      rw [calls_add]
      omega

theorem play_counts_names :
    (∀ step ∈ play {} rounds {},
      step.2.statistics.calls = step.2.statistics.orderedCalls + step.2.statistics.unorderedCalls ∧
      step.2.statistics.equalityHits ≤ step.2.statistics.equalityAttempts) ∧
    (∃ ms d', matchNodes { useEquality := false } (names 0 "x" "y") (names 3 "y" "x") {} = .ok ms d' ∧
      d'.statistics.calls = 5) ∧
    ∃ ms d', matchNodes { skipKnownUnequal := false } (names 0 "x" "y") (names 3 "y" "x") {} = .ok ms d' ∧
      d'.statistics.calls ≤ 5 ∧ d'.statistics.calls = d'.statistics.equalityAttempts - d'.statistics.equalityHits := by
  have pairs : (names 0 "x" "y").sameDepthPairs (names 3 "y" "x") = 5 := by decide
  have returns (p : MatchParameters) :=
    matchNodes_returns (names_numbered 0 "x" "y") (names_numbered 3 "y" "x") names_fits p {}
  refine ⟨(play_counts {}).1 rounds, ?_, ?_⟩
  · obtain ⟨ms, d', ok, -⟩ := returns { useEquality := false }
    have every := ((play_counts { useEquality := false }).2 _ _ _ _ _ ok).1 rfl
    rw [pairs] at every
    exact ⟨ms, d', ok, every⟩
  · obtain ⟨ms, d', ok, -⟩ := returns { skipKnownUnequal := false }
    obtain ⟨-, bound, tried⟩ := (play_counts { skipKnownUnequal := false }).2 _ _ _ _ _ ok
    obtain ⟨attempts, hits, -, same, same', calls⟩ := tried rfl rfl
    have bound := bound rfl
    rw [pairs] at bound
    simp only [Nat.zero_add] at bound same same' calls
    exact ⟨ms, d', ok, bound, by rw [calls, same, same']⟩

end Dispatcher

end TreeAlign
