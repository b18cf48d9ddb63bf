import TreeAlign.Proofs.Alignment
import TreeAlign.Proofs.Equality
import TreeAlign.Proofs.Pairing

namespace TreeAlign

namespace Dispatcher

variable {p : MatchParameters} {left right : Node}

/-- Trees of plain nodes that are small enough for their scores to be assigned. -/
structure Fits (left right : Node) : Prop where
  plainLeft : ∀ x ∈ left.preorder, Tree.marker x = .plain
  plainRight : ∀ x ∈ right.preorder, Tree.marker x = .plain
  smallLeft : left.size < 2 ^ 31
  smallRight : right.size < 2 ^ 31

structure Small (left right : Node) : Prop where
  left : left.size < 2 ^ 31
  right : right.size < 2 ^ 31

theorem Small.child {a b : Node} (small : Small left right) (ha : a ∈ left.children) (hb : b ∈ right.children) :
    Small a b where
  left := Nat.lt_trans (Tree.size_lt_of_child ha) small.left
  right := Nat.lt_trans (Tree.size_lt_of_child hb) small.right

theorem Fits.small (fits : Fits left right) : Small left right := ⟨fits.smallLeft, fits.smallRight⟩

def Refused (left right : Node) (failure : Failure) : Prop :=
  ∃ x, (x ∈ left.preorder ∨ x ∈ right.preorder) ∧ Tree.checkPlain x = .error failure

theorem Refused.of_child {a b : Node} {failure : Failure} (refused : Refused a b failure) (ha : a ∈ left.children)
    (hb : b ∈ right.children) : Refused left right failure := by
  obtain ⟨x, member, error⟩ := refused
  exact ⟨x, member.imp (Tree.mem_preorder_of_child ha) (Tree.mem_preorder_of_child hb), error⟩

theorem Refused.isLocal {failure : Failure} (refused : Refused left right failure) : failure.isLocal = false := by
  obtain ⟨x, -, error⟩ := refused
  rw [Tree.checkPlain] at error
  split at error <;> cases error
  rfl

theorem Fits.not_refused {failure : Failure} (fits : Fits left right) : ¬ Refused left right failure := by
  rintro ⟨x, member, error⟩
  rw [Tree.checkPlain, member.elim (fits.plainLeft x) (fits.plainRight x)] at error
  cases error

def Best (left right : Node) (ms : Matchings) : Prop :=
  IsGreatest (Mapping.agreements left right) (ms.scoreOf left.id right.id)

/-- What is known of the matchings of two nodes. -/
def Matched (left right : Node) (ms : Matchings) : Prop :=
  Found left right ms ∧ (Small left right → Best left right ms)

theorem Best.scoreOf_le {ms : Matchings} (best : Best left right ms) : ms.scoreOf left.id right.id ≤ left.size := by
  obtain ⟨mapping, admissible, eq⟩ := best.1
  rw [eq]
  exact admissible.agreement_le

variable {cells : List (List Matchings)} {total : Nat} {picked : List Answer} {algorithm : Algorithm}

theorem best_of_grid (grid : Grid Matched left.children right.children cells) (small : Small left right) :
    Grid Best left.children right.children cells :=
  grid.imp_of_mem fun _ ha _ hb _ matched => matched.2 (small.child ha hb)

theorem matched_of_selects (hl : left.Numbered) (hr : right.Numbered)
    (grid : Grid Matched left.children right.children cells)
    (selects : Selects (Selectable (isOrdered left right)) Answer.score
      (Answer.table left.children right.children cells) total picked) :
    Matched left right (.ofPicked algorithm left right total picked) := by
  constructor
  · exact selects.found hl hr (grid.imp_of_mem fun _ _ _ _ _ matched => matched.1)
  · intro small
    obtain ⟨m, root, score⟩ := get?_ofPicked algorithm left right total picked
    rw [Best, Matchings.scoreOf, root]
    simp only [score]
    exact selects.isGreatest_agreements hl hr (best_of_grid grid small)

theorem matched_align (hl : left.Numbered) (hr : right.Numbered) (grid : Grid Matched left.children right.children cells)
    (ordered : isOrdered left right = true) : Matched left right (Alignment.combine left right cells) := by
  refine matched_of_selects hl hr grid ?_
  rw [ordered]
  exact Alignment.answers_selects left right cells

theorem matched_pair (hl : left.Numbered) (hr : right.Numbered) (grid : Grid Matched left.children right.children cells)
    (unordered : isOrdered left right = false) {ms : Matchings} (h : Pairing.combine left right cells = .ok ms) :
    Matched left right ms := by
  rw [Pairing.combine] at h
  cases solved : Assignment.solve (Pairing.weights (Answer.table left.children right.children cells)) with
  | error fault =>
    rw [solved] at h
    cases h
  | ok solution =>
    rw [solved] at h
    cases h
    refine matched_of_selects hl hr grid ?_
    rw [unordered]
    exact Pairing.selects_of_solve solved

theorem combine_returns (grid : Grid Matched left.children right.children cells) (small : Small left right) :
    ∃ ms, Pairing.combine left right cells = .ok ms := by
  have rows := Nat.lt_trans left.length_children_lt_size small.left
  have columns := Nat.lt_trans right.length_children_lt_size small.right
  have solvable := Pairing.solvable_weights grid.table_wide (grid.length_table ▸ rows) columns <| by
    intro row hrow a ha
    obtain ⟨place, cell⟩ := exists_cellAt hrow ha
    obtain ⟨l, r, hl, -, best, same⟩ := (best_of_grid grid small).answer cell
    have score : a.score = a.all.scoreOf l.id r.id := congrArg Answer.score same
    have smaller := Tree.size_lt_of_child (List.mem_of_getElem? hl)
    rw [score]
    exact Nat.lt_of_le_of_lt best.scoreOf_le (Nat.lt_trans smaller small.left)
  obtain ⟨solution, solved, -⟩ := Assignment.solve_of_solvable solvable
  rw [Pairing.combine, solved]
  exact ⟨_, rfl⟩

theorem compare_ends {good : Matchings → Prop} {bad : Failure → Prop} (h : Ends (Equality.matchNodes left right) good bad) :
    Ends (compare left right) good bad := by
  intro d
  have ends := h d.unequal
  rw [compare]
  cases eq : Equality.matchNodes left right d.unequal with
  | ok ms unequal =>
    rw [eq] at ends
    exact ends
  | error e unequal =>
    rw [eq] at ends
    exact ends

theorem tryEquality_ends (hl : left.Numbered) (hr : right.Numbered) : Ends (tryEquality p left right)
    (fun result => ∀ ms, result = some ms → Matched left right ms) (Refused left right) := by
  have nothing : Ends (pure none : Run (Option Matchings)) (fun result => ∀ ms, result = some ms → Matched left right ms)
      (Refused left right) := .of_pure fun ms h => nomatch h
  have compared : Ends (compare left right) (Equality.Compared left right) (Refused left right) :=
    compare_ends <| Equality.matchNodes_ends hl hr fun x member e error => ⟨x, member, error⟩
  rw [tryEquality]
  split
  · exact nothing
  · refine Ends.of_get.bind fun d _ => ?_
    split
    · exact nothing
    · refine (Ends.of_modify _).bind fun _ _ => ?_
      refine compared.bind fun ms compared => ?_
      cases root : ms.get? left.id right.id with
      | none => exact nothing
      | some m =>
        refine (Ends.of_modify _).bind fun _ _ => ?_
        refine .of_pure fun _ same => ?_
        cases same
        have equal := Matchings.isSome_get?_iff.mp (Option.isSome_iff_exists.mpr ⟨m, root⟩)
        have found := compared.found equal
        refine ⟨found, fun _ => ?_⟩
        rw [Best, compared.scoreOf_eq equal]
        exact Mapping.isGreatest_of_agreement_eq_size found.admissible (compared.agreement equal)

theorem matchChildren_ends {good : Node → Node → Matchings → Prop} {bad : Failure → Prop} {lefts rights : List Node}
    (each : ∀ l ∈ lefts, ∀ r ∈ rights, Ends (matchNodes p l r) (good l r) bad) :
    Ends (matchChildren p lefts rights) (Grid good lefts rights) bad := by
  induction lefts with
  | nil => exact .of_pure .nil
  | cons l lefts ih =>
    rw [matchChildren]
    refine (Ends.mapM (each l List.mem_cons_self)).bind fun row head => ?_
    refine (ih fun l hl => each l (List.mem_cons_of_mem _ hl)).bind fun rows tail => ?_
    exact .of_pure (.cons head tail)

theorem alignChildren_ends (hl : left.Numbered) (hr : right.Numbered) (ordered : isOrdered left right = true)
    {run : Run (List (List Matchings))}
    (grid : Ends run (Grid Matched left.children right.children) (Refused left right)) :
    Ends (alignChildren left right run) (Matched left right) (Refused left right) := by
  rw [alignChildren]
  refine (Ends.of_modify _).bind fun _ _ => ?_
  refine grid.bind fun cells grid => ?_
  exact .of_pure (matched_align hl hr grid ordered)

def unmatched (left right : Node) : Matchings :=
  .single { left := left.id, right := right.id, score := 0, algorithm := .unordered }

theorem pairChildren_eq (left right : Node) (run : Run (List (List Matchings))) :
    pairChildren left right run = count .countUnordered >>= fun _ =>
      tryCatch (run >>= fun cells => MonadExcept.ofExcept (Pairing.combine left right cells)) fun failure =>
        if failure.isLocal then pure (unmatched left right) else throw failure := by
  rw [pairChildren]
  congr 1
  funext _ d
  change EStateM.bind (EStateM.tryCatch (EStateM.bind run _) _) _ d = EStateM.tryCatch (EStateM.bind run _) _ d
  rw [EStateM.bind, EStateM.tryCatch.eq_def, EStateM.tryCatch.eq_def, EStateM.bind.eq_def, EStateM.bind.eq_def]
  cases run d with
  | ok cells e =>
    cases combined : Pairing.combine left right cells with
    | ok ms =>
      simp only [combined]
      rfl
    | error failure =>
      simp only [combined]
      cases failure <;> rfl
  | error failure d => cases failure <;> rfl

theorem pairChildren_ends (hl : left.Numbered) (hr : right.Numbered) (unordered : isOrdered left right = false)
    {run : Run (List (List Matchings))}
    (grid : Ends run (Grid Matched left.children right.children) (Refused left right)) :
    Ends (pairChildren left right run) (Matched left right) (Refused left right) := by
  rw [pairChildren_eq]
  refine (Ends.of_modify _).bind fun _ _ => ?_
  have body : Ends (run >>= fun cells => MonadExcept.ofExcept (Pairing.combine left right cells)) (Matched left right)
      fun failure => Refused left right failure ∨ ¬ Small left right ∧ failure.isLocal = true := by
    refine (grid.imp (fun _ grid => grid) fun _ => .inl).bind fun cells grid => ?_
    refine .ofExcept (fun ms ok => matched_pair hl hr grid unordered ok) fun failure error => .inr ⟨fun small => ?_, ?_⟩
    · obtain ⟨ms, ok⟩ := combine_returns grid small
      rw [ok] at error
      cases error
    · rw [Pairing.combine] at error
      split at error <;> cases error
      rfl
  refine body.tryCatch fun failure caught => ?_
  rcases caught with refused | ⟨large, unsolved⟩
  · rw [if_neg (by rw [refused.isLocal]; exact Bool.false_ne_true)]
    exact fun d => refused
  · rw [if_pos unsolved]
    exact .of_pure ⟨Found.single hl hr rfl rfl (.inl rfl), fun small => absurd small large⟩

theorem matchNodes_ends (hl : left.Numbered) (hr : right.Numbered) :
    Ends (matchNodes p left right) (Matched left right) (Refused left right) := by
  induction left using Tree.childInduction generalizing right with
  | step left ih =>
    have each : ∀ l ∈ left.children, ∀ r ∈ right.children,
        Ends (matchNodes p l r) (Matched l r) (Refused left right) := by
      intro l childL r childR
      exact (ih l childL (hl.child childL) (hr.child childR)).imp (fun _ matched => matched)
        fun _ refused => refused.of_child childL childR
    have cells := matchChildren_ends each
    obtain ⟨value, ls⟩ := left
    rw [matchNodes]
    refine (Ends.ofExcept (fun _ _ => trivial) fun e error => ?_).bind fun _ _ => ?_
    · exact ⟨_, .inl (Tree.self_mem_preorder _), error⟩
    refine (Ends.ofExcept (fun _ _ => trivial) fun e error => ?_).bind fun _ _ => ?_
    · exact ⟨_, .inr right.self_mem_preorder, error⟩
    refine (tryEquality_ends hl hr).bind fun result equal => ?_
    cases result with
    | some ms => exact .of_pure (equal ms rfl)
    | none =>
      cases ordered : isOrdered (.node value ls) right with
      | true => exact alignChildren_ends hl hr ordered cells
      | false => exact pairChildren_ends hl hr ordered cells

theorem matchNodes_returns (hl : left.Numbered) (hr : right.Numbered) (fits : Fits left right) (p : MatchParameters)
    (d : Dispatcher) :
    ∃ ms d', matchNodes p left right d = .ok ms d' ∧ Found left right ms ∧ Best left right ms := by
  obtain ⟨ms, d', ok, matched⟩ := ((matchNodes_ends hl hr).imp (fun _ matched => matched)
    fun _ refused => fits.not_refused refused).returns d
  exact ⟨ms, d', ok, matched.1, matched.2 fits.small⟩

/-- Whatever is returned is a mapping of the two trees. Only the two nodes themselves may have score zero,
and then nothing else is matched. -/
theorem matchNodes_mapping (hl : left.Numbered) (hr : right.Numbered) {d d' : Dispatcher} {ms : Matchings}
    (ok : matchNodes p left right d = .ok ms d') :
    (∃ m ∈ ms.entries, m.pair = (left.id, right.id)) ∧
    (∀ m ∈ ms.entries, m.left ∈ left.preorder.map Tree.id ∧ m.right ∈ right.preorder.map Tree.id) ∧
    (ms.entries.map Matching.left).Nodup ∧ (ms.entries.map Matching.right).Nodup ∧
    (∀ m ∈ ms.entries, m.pair ≠ (left.id, right.id) →
      0 < m.score ∧ ∃ n ∈ ms.entries, left.Edge n.left m.left ∧ right.Edge n.right m.right) ∧
    (∀ m ∈ ms.entries, m.score = 0 → ms.entries = [m]) ∧
    (∀ a ∈ left.preorder, ∀ b ∈ right.preorder, isOrdered a b = true → NonCrossing (ms.mapping.places a b)) := by
  have found : Found left right ms := ((matchNodes_ends hl hr).of_ok ok).1
  have paired : ∀ m ∈ ms.entries, m.pair ∈ ms.mapping := fun m member => Matchings.mem_mapping.mpr ⟨m, member, rfl⟩
  refine ⟨Matchings.mem_mapping.mp found.admissible.root, ?_, found.nodup_left, found.nodup_right, ?_, found.alone,
    found.admissible.ordered⟩
  · exact fun m member => found.admissible.inside _ (paired m member)
  · intro m member other
    obtain ⟨q, hq, edgeL, edgeR⟩ := found.admissible.parents _ (paired m member) other
    obtain ⟨n, member', rfl⟩ := Matchings.mem_mapping.mp hq
    exact ⟨found.positive member other, n, member', edgeL, edgeR⟩

def names (first : NodeId) (one two : String) : Node :=
  Tree.number first <| .node ⟨⟨"names", none⟩, false, .plain⟩
    [.node ⟨⟨"name", some one⟩, false, .plain⟩ [], .node ⟨⟨"name", some two⟩, false, .plain⟩ []]

theorem names_numbered (first : NodeId) (one two : String) : (names first one two).Numbered :=
  (Tree.number_numbered _ _).2

theorem names_fits : Fits (names 0 "x" "y") (names 3 "y" "x") :=
  ⟨by decide, by decide, by decide, by decide⟩

theorem matchNodes_mapping_names : ∃ ms d', matchNodes {} (names 0 "x" "y") (names 3 "y" "x") {} = .ok ms d' ∧
    (∃ m ∈ ms.entries, m.pair = (0, 3)) ∧ (ms.entries.map Matching.left).Nodup := by
  obtain ⟨ms, d', ok, -⟩ := matchNodes_returns (names_numbered 0 "x" "y") (names_numbered 3 "y" "x") names_fits {} {}
  have structured := matchNodes_mapping (names_numbered 0 "x" "y") (names_numbered 3 "y" "x") ok
  exact ⟨ms, d', ok, structured.1, structured.2.2.1⟩

/-- The score of two trees is the most labels that a mapping of them brings together, whatever the parameters
and whatever is remembered. -/
theorem matchNodes_optimal (hl : left.Numbered) (hr : right.Numbered) (fits : Fits left right) :
    ∃ best, IsGreatest (Mapping.agreements left right) best ∧ ∀ p d, ∃ ms d' m,
      matchNodes p left right d = .ok ms d' ∧ ms.get? left.id right.id = some m ∧ m.score = best := by
  obtain ⟨_, _, -, -, best⟩ := matchNodes_returns hl hr fits {} {}
  refine ⟨_, best, fun p d => ?_⟩
  obtain ⟨ms, d', ok, found, best'⟩ := matchNodes_returns hl hr fits p d
  obtain ⟨m, -, -, root⟩ := found.exists_root
  refine ⟨ms, d', m, ok, root, ?_⟩
  rw [Best, Matchings.scoreOf, root] at best'
  exact best'.unique best

theorem matchNodes_optimal_names : ∃ best,
    IsGreatest (Mapping.agreements (names 0 "x" "y") (names 3 "y" "x")) best ∧ ∀ p d, ∃ ms d' m,
      matchNodes p (names 0 "x" "y") (names 3 "y" "x") d = .ok ms d' ∧ ms.get? 0 3 = some m ∧ m.score = best :=
  matchNodes_optimal (names_numbered 0 "x" "y") (names_numbered 3 "y" "x") names_fits

end Dispatcher

end TreeAlign
