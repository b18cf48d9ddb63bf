import TreeAlign.Proofs.Comparison
import TreeAlign.Proofs.Dispatch

namespace TreeAlign

structure Statistics.Spares (s t : Statistics) : Prop where
  calls : s.calls = t.calls
  orderedCalls : s.orderedCalls = t.orderedCalls
  unorderedCalls : s.unorderedCalls = t.unorderedCalls
  equalityHits : s.equalityHits = t.equalityHits
  equalityAttempts : s.equalityAttempts ≤ t.equalityAttempts

namespace Dispatcher

variable {α β : Type} {p : MatchParameters} {nodes : Set Node} {d e : Dispatcher} {left right : Node}

/-- Two matchers remember the same unequal pairs, and the first spared itself attempts. -/
structure Mirror (nodes : Set Node) (d e : Dispatcher) : Prop where
  unequal : d.unequal = e.unequal
  settled : Settled nodes d.unequal
  statistics : d.statistics.Spares e.statistics

/-- From states that mirror each other, two runs give the same result or fail alike, and end in such states again. -/
def Mirrors (nodes : Set Node) (run run' : Run α) : Prop :=
  ∀ d e, Mirror nodes d e → ∃ d' e', Mirror nodes d' e' ∧
    ((∃ a, run d = .ok a d' ∧ run' e = .ok a e') ∨ ∃ failure, run d = .error failure d' ∧ run' e = .error failure e')

namespace Mirrors

variable {run run' : Run α}

theorem of_pure (a : α) : Mirrors nodes (pure a) (pure a) :=
  fun d e mirror => ⟨d, e, mirror, .inl ⟨a, rfl, rfl⟩⟩

theorem ofExcept (x : Except Failure α) :
    Mirrors nodes (MonadExcept.ofExcept x : Run α) (MonadExcept.ofExcept x) := by
  intro d e mirror
  cases x with
  | ok a => exact ⟨d, e, mirror, .inl ⟨a, rfl, rfl⟩⟩
  | error failure => exact ⟨d, e, mirror, .inr ⟨failure, rfl, rfl⟩⟩

theorem of_count {step : Statistics → Statistics} (spares : ∀ s t, s.Spares t → (step s).Spares (step t)) :
    Mirrors nodes (count step) (count step) := by
  intro d e mirror
  exact ⟨{ d with statistics := step d.statistics }, { e with statistics := step e.statistics },
    ⟨mirror.unequal, mirror.settled, spares _ _ mirror.statistics⟩, .inl ⟨(), rfl, rfl⟩⟩

theorem bind {f f' : α → Run β} (first : Mirrors nodes run run') (rest : ∀ a, Mirrors nodes (f a) (f' a)) :
    Mirrors nodes (run >>= f) (run' >>= f') := by
  intro d e mirror
  change ∃ d' e', Mirror nodes d' e' ∧ ((∃ b, EStateM.bind run f d = .ok b d' ∧ EStateM.bind run' f' e = .ok b e') ∨
    ∃ failure, EStateM.bind run f d = .error failure d' ∧ EStateM.bind run' f' e = .error failure e')
  rw [EStateM.bind.eq_def, EStateM.bind.eq_def]
  obtain ⟨d', e', mirror', ⟨a, eq, eq'⟩ | ⟨failure, eq, eq'⟩⟩ := first d e mirror <;> rw [eq, eq']
  · exact rest a d' e' mirror'
  · exact ⟨d', e', mirror', .inr ⟨failure, rfl, rfl⟩⟩

theorem tryCatch {handle : Failure → Run α} (body : Mirrors nodes run run')
    (handler : ∀ failure, Mirrors nodes (handle failure) (handle failure)) :
    Mirrors nodes (MonadExcept.tryCatch run handle) (MonadExcept.tryCatch run' handle) := by
  intro d e mirror
  change ∃ d' e', Mirror nodes d' e' ∧
    ((∃ a, EStateM.tryCatch run handle d = .ok a d' ∧ EStateM.tryCatch run' handle e = .ok a e') ∨
    ∃ failure, EStateM.tryCatch run handle d = .error failure d' ∧ EStateM.tryCatch run' handle e = .error failure e')
  rw [EStateM.tryCatch.eq_def, EStateM.tryCatch.eq_def]
  obtain ⟨d', e', mirror', ⟨a, eq, eq'⟩ | ⟨failure, eq, eq'⟩⟩ := body d e mirror <;> rw [eq, eq']
  · exact ⟨d', e', mirror', .inl ⟨a, rfl, rfl⟩⟩
  · exact handler failure d' e' mirror'

theorem mapM {f f' : β → Run α} {xs : List β} (each : ∀ x ∈ xs, Mirrors nodes (f x) (f' x)) :
    Mirrors nodes (xs.mapM f) (xs.mapM f') := by
  induction xs with
  | nil => exact .of_pure []
  | cons x xs ih =>
    rw [List.mapM_cons, List.mapM_cons]
    apply (each x List.mem_cons_self).bind
    intro a
    apply (ih fun y member => each y (List.mem_cons_of_mem _ member)).bind
    exact fun as => .of_pure (a :: as)

end Mirrors

def skipping (p : MatchParameters) (skip : Bool) : MatchParameters :=
  { p with skipKnownUnequal := skip }

def attempt (left right : Node) : Run (Option Matchings) := do
  count .countAttempt
  let ms ← compare left right
  match ms.get? left.id right.id with
  | none => return none
  | some _ =>
    count .countHit
    return some ms

theorem tryEquality_apply (p : MatchParameters) (left right : Node) (d : Dispatcher) :
    tryEquality p left right d =
      if p.useEquality && !(p.skipKnownUnequal && d.unequal.contains left.id right.id) then attempt left right d
      else .ok none d := by
  unfold tryEquality
  cases p.useEquality with
  | false => rfl
  | true =>
    change (if (p.skipKnownUnequal && d.unequal.contains left.id right.id) = true then pure none
      else attempt left right : Run (Option Matchings)) d = _
    cases p.skipKnownUnequal && d.unequal.contains left.id right.id <;> rfl

section Attempts

variable (forest : Forest nodes) (hl : left ∈ nodes) (hr : right ∈ nodes)

include forest hl hr

theorem compare_mirrors : Mirrors nodes (compare left right) (compare left right) := by
  intro d e mirror
  have settles := Equality.matchNodes_settles forest hl hr mirror.settled
  unfold From at settles
  unfold compare
  rw [← mirror.unequal]
  cases compared : Equality.matchNodes left right d.unequal with
  | ok ms unequal =>
    rw [compared] at settles
    exact ⟨⟨d.statistics, unequal⟩, ⟨e.statistics, unequal⟩, ⟨rfl, settles.1, mirror.statistics⟩, .inl ⟨ms, rfl, rfl⟩⟩
  | error failure unequal =>
    rw [compared] at settles
    exact ⟨⟨d.statistics, unequal⟩, ⟨e.statistics, unequal⟩, ⟨rfl, settles, mirror.statistics⟩,
      .inr ⟨failure, rfl, rfl⟩⟩

theorem attempt_mirrors : Mirrors nodes (attempt left right) (attempt left right) := by
  have counted : Mirrors nodes (count .countAttempt) (count .countAttempt) :=
    .of_count fun s t h => ⟨h.calls, h.orderedCalls, h.unorderedCalls, h.equalityHits, Nat.succ_le_succ h.equalityAttempts⟩
  have hit : Mirrors nodes (count .countHit) (count .countHit) :=
    .of_count fun s t h => ⟨h.calls, h.orderedCalls, h.unorderedCalls, congrArg (· + 1) h.equalityHits, h.equalityAttempts⟩
  apply counted.bind
  intro _
  apply (compare_mirrors forest hl hr).bind
  intro ms
  cases ms.get? left.id right.id with
  | none => exact .of_pure none
  | some m => exact hit.bind fun _ => .of_pure (some ms)

theorem attempt_known (settled : Settled nodes d.unequal) (known : d.unequal.contains left.id right.id = true) :
    attempt left right d = .ok none { d with statistics := d.statistics.countAttempt } := by
  obtain ⟨differ, explored⟩ := settled left hl right hr known
  have numberedL := forest.numbered left hl
  have numberedR := forest.numbered right hr
  have again := (Equality.matchNodes_explored numberedL numberedR explored).and_ends
    (Equality.compared_ends numberedL numberedR)
  unfold From at again
  cases compared : Equality.matchNodes left right d.unequal with
  | error failure unequal =>
    rw [compared] at again
    exact again.elim
  | ok ms unequal =>
    rw [compared] at again
    obtain ⟨found, rfl⟩ := again
    have missing : ms.get? left.id right.id = none := by
      rw [← Option.not_isSome_iff_eq_none, Matchings.isSome_get?_iff, found.equal]
      exact differ
    have step : compare left right { d with statistics := d.statistics.countAttempt } =
        .ok ms { d with statistics := d.statistics.countAttempt } := by
      simp only [compare, compared]
    change EStateM.bind (compare left right) _ { d with statistics := d.statistics.countAttempt } = _
    rw [EStateM.bind.eq_def, step]
    simp only [missing]
    rfl

theorem tryEquality_mirrors :
    Mirrors nodes (tryEquality (skipping p true) left right) (tryEquality (skipping p false) left right) := by
  intro d e mirror
  rw [tryEquality_apply, tryEquality_apply]
  have shared : (skipping p false).useEquality = (skipping p true).useEquality := rfl
  rw [shared]
  cases (skipping p true).useEquality with
  | false => exact ⟨d, e, mirror, .inl ⟨none, rfl, rfl⟩⟩
  | true =>
    cases known : d.unequal.contains left.id right.id with
    | false => exact attempt_mirrors forest hl hr d e mirror
    | true =>
      -- The one skips the pair. The other tries it in vain, which changes nothing but its count.
      have settled : Settled nodes e.unequal := mirror.unequal ▸ mirror.settled
      have repeated := attempt_known forest hl hr settled (mirror.unequal ▸ known)
      refine ⟨d, { e with statistics := e.statistics.countAttempt }, ⟨mirror.unequal, mirror.settled, ?_⟩,
        .inl ⟨none, rfl, repeated⟩⟩
      have spares := mirror.statistics
      exact ⟨spares.calls, spares.orderedCalls, spares.unorderedCalls, spares.equalityHits,
        Nat.le_succ_of_le spares.equalityAttempts⟩

end Attempts

theorem matchChildren_mirrors {q : MatchParameters} {lefts rights : List Node}
    (each : ∀ l ∈ lefts, ∀ r ∈ rights, Mirrors nodes (matchNodes p l r) (matchNodes q l r)) :
    Mirrors nodes (matchChildren p lefts rights) (matchChildren q lefts rights) := by
  induction lefts with
  | nil => exact .of_pure []
  | cons l lefts ih =>
    rw [matchChildren, matchChildren]
    apply (Mirrors.mapM (each l List.mem_cons_self)).bind
    intro row
    apply (ih fun l hl => each l (List.mem_cons_of_mem _ hl)).bind
    exact fun rows => .of_pure (row :: rows)

theorem alignChildren_mirrors {cells cells' : Run (List (List Matchings))} (grid : Mirrors nodes cells cells') :
    Mirrors nodes (alignChildren left right cells) (alignChildren left right cells') := by
  have counted : Mirrors nodes (count .countOrdered) (count .countOrdered) :=
    .of_count fun s t h => ⟨congrArg (· + 1) h.calls, congrArg (· + 1) h.orderedCalls, h.unorderedCalls, h.equalityHits,
      h.equalityAttempts⟩
  exact counted.bind fun _ => grid.bind fun _ => .of_pure _

theorem pairChildren_mirrors {cells cells' : Run (List (List Matchings))} (grid : Mirrors nodes cells cells') :
    Mirrors nodes (pairChildren left right cells) (pairChildren left right cells') := by
  have counted : Mirrors nodes (count .countUnordered) (count .countUnordered) :=
    .of_count fun s t h => ⟨congrArg (· + 1) h.calls, h.orderedCalls, congrArg (· + 1) h.unorderedCalls, h.equalityHits,
      h.equalityAttempts⟩
  rw [pairChildren_eq, pairChildren_eq]
  apply counted.bind
  intro _
  apply (grid.bind fun _ => .ofExcept _).tryCatch
  intro failure
  split
  · exact .of_pure _
  · exact .ofExcept (.error failure)

theorem matchNodes_mirrors (forest : Forest nodes) (hl : left ∈ nodes) (hr : right ∈ nodes) :
    Mirrors nodes (matchNodes (skipping p true) left right) (matchNodes (skipping p false) left right) := by
  induction left using Tree.childInduction generalizing right with
  | step left ih =>
    have cells : Mirrors nodes (matchChildren (skipping p true) left.children right.children)
        (matchChildren (skipping p false) left.children right.children) :=
      matchChildren_mirrors fun l childL r childR =>
        ih l childL (forest.children left hl l childL) (forest.children right hr r childR)
    have equality := @tryEquality_mirrors p nodes left right forest hl hr
    obtain ⟨value, ls⟩ := left
    rw [matchNodes, matchNodes]
    apply (Mirrors.ofExcept _).bind
    intro _
    apply (Mirrors.ofExcept _).bind
    intro _
    apply equality.bind
    intro found
    cases found with
    | some ms => exact .of_pure ms
    | none =>
      cases isOrdered (.node value ls) right with
      | true => exact alignChildren_mirrors cells
      | false => exact pairChildren_mirrors cells

inductive Call where
  | nodes (left right : Node)
  | ordered (left right : Node)
  | unordered (left right : Node)
  | reset

namespace Call

def run (p : MatchParameters) : Call → Run (Option Matchings)
  | .nodes left right => do return some (← matchNodes p left right)
  | .ordered left right => do return some (← matchOrdered p left right)
  | .unordered left right => do return some (← matchUnordered p left right)
  | .reset => do
    Dispatcher.reset
    return none

def Within (among : Set Node) : Call → Prop
  | .nodes left right | .ordered left right | .unordered left right => left ∈ among ∧ right ∈ among
  | .reset => True

end Call

def play (p : MatchParameters) : List Call → Dispatcher → List (Except Failure (Option Matchings) × Dispatcher)
  | [], _ => []
  | call :: calls, d =>
    match call.run p d with
    | .ok result d => (.ok result, d) :: play p calls d
    | .error failure d => (.error failure, d) :: play p calls d

theorem mirror_start (nodes : Set Node) : Mirror nodes {} {} :=
  ⟨rfl, settled_empty nodes, rfl, rfl, rfl, rfl, Nat.le_refl _⟩

theorem run_mirrors (forest : Forest nodes) {call : Call} (within : call.Within nodes) :
    Mirrors nodes (call.run (skipping p true)) (call.run (skipping p false)) := by
  have cells (left right : Node) (hl : left ∈ nodes) (hr : right ∈ nodes) :
      Mirrors nodes (matchChildren (skipping p true) left.children right.children)
        (matchChildren (skipping p false) left.children right.children) :=
    matchChildren_mirrors fun l childL r childR =>
      matchNodes_mirrors forest (forest.children left hl l childL) (forest.children right hr r childR)
  cases call with
  | nodes left right => exact (matchNodes_mirrors forest within.1 within.2).bind fun _ => .of_pure _
  | ordered left right =>
    refine Mirrors.bind ?_ fun _ => .of_pure _
    exact (Mirrors.ofExcept _).bind fun _ => (Mirrors.ofExcept _).bind fun _ =>
      alignChildren_mirrors (cells left right within.1 within.2)
  | unordered left right =>
    refine Mirrors.bind ?_ fun _ => .of_pure _
    exact (Mirrors.ofExcept _).bind fun _ => (Mirrors.ofExcept _).bind fun _ =>
      pairChildren_mirrors (cells left right within.1 within.2)
  | reset => exact fun d e _ => ⟨{}, {}, mirror_start nodes, .inl ⟨none, rfl, rfl⟩⟩

theorem play_mirrors (forest : Forest nodes) {calls : List Call} (within : ∀ call ∈ calls, call.Within nodes)
    (mirror : Mirror nodes d e) :
    List.Forall₂ (fun s t => s.1 = t.1 ∧ Mirror nodes s.2 t.2) (play (skipping p true) calls d)
      (play (skipping p false) calls e) := by
  induction calls generalizing d e with
  | nil => exact .nil
  | cons call calls ih =>
    have rest := fun call member => within call (List.mem_cons_of_mem _ member)
    rw [play, play]
    obtain ⟨d', e', mirror', ⟨result, eq, eq'⟩ | ⟨failure, eq, eq'⟩⟩ :=
      run_mirrors forest (within call List.mem_cons_self) d e mirror <;> rw [eq, eq']
    · exact .cons ⟨rfl, mirror'⟩ (ih rest mirror')
    · exact .cons ⟨rfl, mirror'⟩ (ih rest mirror')

/-- Skipping known unequal pairs changes nothing but the number of attempts: every one of a sequence of calls, on any
nodes of any trees, gives the same result or the same failure, and leaves the same unequal pairs and the same counts.
No pair that is remembered as unequal ever has the same labels throughout. -/
theorem play_skipping (first : NodeId) (outlines : List Outline) (calls : List Call)
    (within : ∀ call ∈ calls, call.Within {x | x ∈ (Tree.numberAll first outlines).flatMap Tree.preorder})
    (p : MatchParameters) :
    List.Forall₂ (fun s t => s.1 = t.1 ∧ s.2.unequal = t.2.unequal ∧ s.2.statistics.calls = t.2.statistics.calls ∧
        s.2.statistics.orderedCalls = t.2.statistics.orderedCalls ∧
        s.2.statistics.unorderedCalls = t.2.statistics.unorderedCalls ∧
        s.2.statistics.equalityHits = t.2.statistics.equalityHits ∧
        s.2.statistics.equalityAttempts ≤ t.2.statistics.equalityAttempts)
      (play (skipping p true) calls {}) (play (skipping p false) calls {}) ∧
    ∀ step ∈ play p calls {}, ∀ a ∈ (Tree.numberAll first outlines).flatMap Tree.preorder,
      ∀ b ∈ (Tree.numberAll first outlines).flatMap Tree.preorder,
      step.2.unequal.contains a.id b.id = true → a.labels ≠ b.labels := by
  have mirrored := @play_mirrors p _ {} {} (forest_numberAll first outlines) calls within (mirror_start _)
  constructor
  · apply mirrored.imp
    intro s t ⟨same, mirror⟩
    have spares := mirror.statistics
    exact ⟨same, mirror.unequal, spares.calls, spares.orderedCalls, spares.unorderedCalls, spares.equalityHits,
      spares.equalityAttempts⟩
  · have settled : ∀ skip, ∀ step ∈ play (skipping p skip) calls {},
        Settled {x | x ∈ (Tree.numberAll first outlines).flatMap Tree.preorder} step.2.unequal := by
      intro skip step member
      obtain ⟨i, hi⟩ := List.mem_iff_getElem?.mp member
      cases skip with
      | true =>
        obtain ⟨t, -, -, mirror⟩ := forall₂_getElem? mirrored hi
        exact mirror.settled
      | false =>
        obtain ⟨s, -, -, mirror⟩ := forall₂_getElem? mirrored.flip hi
        exact mirror.unequal ▸ mirror.settled
    intro step member a ha b hb known
    exact (settled p.skipKnownUnequal step member a ha b hb known).1

def lists : List Outline :=
  [.node ⟨⟨"list", none⟩, false, .plain⟩ [.node ⟨⟨"item", some "x"⟩, false, .plain⟩ []],
   .node ⟨⟨"list", none⟩, false, .plain⟩
    [.node ⟨⟨"item", some "y"⟩, false, .plain⟩ [], .node ⟨⟨"item", none⟩, false, .choice⟩ []]]

def rounds : List Call :=
  match Tree.numberAll 0 lists with
  | [one, two] => [.nodes one two, .nodes two one, .ordered one two, .unordered one one, .reset, .nodes one two]
  | _ => []

theorem play_skipping_lists :
    (play (skipping {} true) rounds {}).map (fun step => step.2.statistics.equalityAttempts) = [1, 1, 1, 2, 0, 1] ∧
    (play (skipping {} false) rounds {}).map (fun step => step.2.statistics.equalityAttempts) = [2, 4, 5, 6, 0, 2] ∧
    List.Forall₂ (fun s t => s.1 = t.1) (play (skipping {} true) rounds {}) (play (skipping {} false) rounds {}) := by
  have within : ∀ call ∈ rounds,
      call.Within {x | x ∈ (Tree.numberAll 0 lists).flatMap Tree.preorder} := by
    have root : ∀ x ∈ Tree.numberAll 0 lists, x ∈ (Tree.numberAll 0 lists).flatMap Tree.preorder :=
      fun x tree => List.mem_flatMap.mpr ⟨x, tree, x.self_mem_preorder⟩
    have one := root _ List.mem_cons_self
    have two := root _ (List.mem_cons_of_mem _ List.mem_cons_self)
    intro call member
    change call ∈ [_, _, _, _, _, _] at member
    simp only [List.mem_cons, List.not_mem_nil, or_false] at member
    rcases member with rfl | rfl | rfl | rfl | rfl | rfl
    · exact ⟨one, two⟩
    · exact ⟨two, one⟩
    · exact ⟨one, two⟩
    · exact ⟨one, one⟩
    · trivial
    · exact ⟨one, two⟩
  refine ⟨by decide +kernel, by decide +kernel, ?_⟩
  exact (play_skipping 0 lists rounds within {}).1.imp fun _ _ agree => agree.1

end Dispatcher

end TreeAlign
