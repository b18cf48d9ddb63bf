import TreeAlign.Proofs.Refusal

namespace TreeAlign.Equality

variable {left right : Node} {lefts rights : List Node} {parts : List (Option Matching × Matchings)} {ms : Matchings}
  {entry : Matching} {u u' : PairSet}

/-- The entry of two equal nodes: it scores their size, and its children are copies of the entries for their
children. -/
structure Equates (ms : Matchings) (a b : Node) (m : Matching) : Prop where
  pair : m.pair = (a.id, b.id)
  score : m.score = a.size
  algorithm : m.algorithm = .equality
  children : m.children.map some =
    (a.children.zip b.children).map fun c => (ms.get? c.1.id c.2.id).map Matching.shallow

/-- One entry for every two equal nodes at the same position, and no others. -/
structure Exact (left right : Node) (ms : Matchings) : Prop where
  distinct : ms.Distinct
  complete : ∀ a b, Aligned left right a b → a.labels = b.labels → (a.id, b.id) ∈ ms.mapping
  entry : ∀ m ∈ ms.entries, ∃ a b, Aligned left right a b ∧ a.labels = b.labels ∧ Equates ms a b m

def Differs (left right : Node) (x y : NodeId) : Prop :=
  ∃ a b, Aligned left right a b ∧ a.labels ≠ b.labels ∧ (a.id = x ∧ b.id = y ∨ a.id = y ∧ b.id = x)

def DiffersAll (lefts rights : List Node) (x y : NodeId) : Prop :=
  ∃ (i : Nat) (c d : Node), lefts[i]? = some c ∧ rights[i]? = some d ∧ Differs c d x y

theorem differs_iff {x y : NodeId} : Differs left right x y ↔
    left.labels ≠ right.labels ∧ (left.id = x ∧ right.id = y ∨ left.id = y ∧ right.id = x) ∨
      DiffersAll left.children right.children x y := by
  constructor
  · intro h
    obtain ⟨a, b, aligned, differ, ids⟩ := h
    cases aligned with
    | here => exact .inl ⟨differ, ids⟩
    | deeper hc hd aligned => exact .inr ⟨_, _, _, hc, hd, a, b, aligned, differ, ids⟩
  · intro h
    rcases h with ⟨differ, ids⟩ | ⟨i, c, d, hc, hd, a, b, aligned, differ, ids⟩
    · exact ⟨left, right, .here left right, differ, ids⟩
    · exact ⟨a, b, .deeper hc hd aligned, differ, ids⟩

theorem differsAll_cons {l r : Node} {x y : NodeId} :
    DiffersAll (l :: lefts) (r :: rights) x y ↔ Differs l r x y ∨ DiffersAll lefts rights x y := by
  constructor
  · intro h
    obtain ⟨i, c, d, hc, hd, differs⟩ := h
    cases i with
    | zero =>
      cases hc
      cases hd
      exact .inl differs
    | succ i => exact .inr ⟨i, c, d, hc, hd, differs⟩
  · intro h
    rcases h with differs | ⟨i, c, d, hc, hd, differs⟩
    · exact ⟨0, l, r, rfl, rfl, differs⟩
    · exact ⟨i + 1, c, d, hc, hd, differs⟩

theorem matchChildren_remembers
    (each : ∀ l ∈ lefts, ∀ r ∈ rights, ∀ u, From u (matchNodes l r) (fun _ u' => ∀ x y,
      u'.contains x y = true ↔ Differs l r x y ∨ u.contains x y = true) fun _ => True) :
    From u (matchChildren lefts rights) (fun _ u' => ∀ x y,
      u'.contains x y = true ↔ DiffersAll lefts rights x y ∨ u.contains x y = true) fun _ => True := by
  induction lefts generalizing rights u with
  | nil =>
    apply From.of_pure
    intro x y
    apply (or_iff_right _).symm
    intro h
    obtain ⟨i, c, d, hc, -⟩ := h
    cases hc
  | cons l lefts ih =>
    cases rights with
    | nil =>
      apply From.of_pure
      intro x y
      apply (or_iff_right _).symm
      intro h
      obtain ⟨i, c, d, -, hd, -⟩ := h
      cases hd
    | cons r rights =>
      rw [matchChildren]
      apply (each l List.mem_cons_self r List.mem_cons_self u).bind
      intro ms u₁ head
      apply (ih fun l hl r hr => each l (List.mem_cons_of_mem _ hl) r (List.mem_cons_of_mem _ hr)).bind
      intro rest u₂ tail
      apply From.of_pure
      intro x y
      rw [tail, head, differsAll_cons]
      tauto

theorem matchNodes_remembers (hl : left.Numbered) (hr : right.Numbered) (u : PairSet) :
    From u (matchNodes left right) (fun _ u' => ∀ x y,
      u'.contains x y = true ↔ Differs left right x y ∨ u.contains x y = true) fun _ => True := by
  induction left using Tree.childInduction generalizing right u with
  | step left ih =>
    have children := (matchChildren_remembers (u := u) fun l childL r childR u =>
      ih l childL (hl.child childL) (hr.child childR) u).and_ends (walked_ends hl hr)
    obtain ⟨value, ls⟩ := left
    obtain ⟨value', rs⟩ := right
    rw [matchNodes]
    apply (From.ofExcept fun _ _ => trivial).bind
    intro _ s₁ plainL
    apply (From.ofExcept fun _ _ => trivial).bind
    intro _ s₂ plainR
    rw [plainR.1, plainL.1]
    apply children.bind
    intro parts u₁ known
    obtain ⟨walked, remembered⟩ := known
    cases verdict : verdict? (.node value ls) (.node value' rs) parts with
    | some entry =>
      have equal := walked.isSome_verdict?_iff.mp (Option.isSome_iff_exists.mpr ⟨entry, verdict⟩)
      apply From.of_pure
      intro x y
      rw [remembered, differs_iff]
      simp [equal]
    | none =>
      have differ := walked.labels_ne verdict
      apply From.of_modify.bind
      intro _ u₂ inserted
      apply From.of_pure
      intro x y
      rw [inserted, PairSet.contains_insert, remembered, differs_iff]
      tauto

section Below

variable {i : Nat} {part : Option Matching × Matchings} {c : Node}

theorem Walked.mem_belowOf_iff (walked : Walked left.children right.children parts) (hl : left.Numbered)
    (hpart : parts[i]? = some part) (hc : left.children[i]? = some c) {m : Matching}
    (inside : c.containsId m.left = true) : m ∈ (belowOf parts).entries ↔ m ∈ part.2.entries := by
  have only : ∀ n ∈ (belowOf parts).entries, n.pair = m.pair → n ∈ part.2.entries := by
    intro n member same
    obtain ⟨part', member', found⟩ := mem_belowOf member
    obtain ⟨j, hj⟩ := List.mem_iff_getElem?.mp member'
    obtain ⟨l, r, hleft, -, -, compared⟩ := walked.at hj
    have inside' := compared.inside m.pair (Matchings.mem_mapping.mpr ⟨n, found, same⟩)
    rw [← hl.children_disjoint hc hleft inside inside', hpart, Option.some_inj] at hj
    rwa [hj]
  constructor
  · intro member
    exact only m member rfl
  · intro member
    have known : m.pair ∈ (belowOf parts).mapping :=
      mem_mapping_belowOf.mpr ⟨part, List.mem_of_getElem? hpart, Matchings.mem_mapping.mpr ⟨m, member, rfl⟩⟩
    obtain ⟨n, found, same⟩ := Matchings.mem_mapping.mp known
    obtain ⟨l, r, -, -, -, compared⟩ := walked.at hpart
    rwa [← compared.distinct.eq (only n found same) member same]

theorem Walked.get?_belowOf (walked : Walked left.children right.children parts) (hl : left.Numbered)
    (hpart : parts[i]? = some part) (hc : left.children[i]? = some c) {x : NodeId} (y : NodeId)
    (inside : c.containsId x = true) : (belowOf parts).get? x y = part.2.get? x y := by
  obtain ⟨l, r, -, -, -, compared⟩ := walked.at hpart
  apply Option.ext
  intro m
  rw [(distinct_belowOf parts).get?_eq_some_iff, compared.distinct.get?_eq_some_iff]
  apply and_congr_left
  intro pair
  apply walked.mem_belowOf_iff hl hpart hc
  have left_eq : m.left = x := congrArg Prod.fst pair
  rwa [left_eq]

end Below

def ExactAll (lefts rights : List Node) (parts : List (Option Matching × Matchings)) : Prop :=
  List.Forall₂ (fun pair part => part.1 = part.2.get? pair.1.id pair.2.id ∧ Compared pair.1 pair.2 part.2 ∧
    Exact pair.1 pair.2 part.2) (lefts.zip rights) parts

theorem ExactAll.walked (all : ExactAll lefts rights parts) : Walked lefts rights parts :=
  all.imp fun _ _ each => ⟨each.1, each.2.1⟩

theorem ExactAll.at (all : ExactAll lefts rights parts) {i : Nat} {c d : Node} (hc : lefts[i]? = some c)
    (hd : rights[i]? = some d) : ∃ part, parts[i]? = some part ∧ part.1 = part.2.get? c.id d.id ∧ Exact c d part.2 := by
  have place : (lefts.zip rights)[i]? = some (c, d) := List.getElem?_zip_eq_some.mpr ⟨hc, hd⟩
  obtain ⟨part, hpart, direct, -, exact⟩ := forall₂_getElem? all place
  exact ⟨part, hpart, direct, exact⟩

/-- What is found below two nodes, wherever the entries for it are kept. -/
structure Keeps (left right : Node) (parts : List (Option Matching × Matchings)) (ms : Matchings) : Prop where
  all : ExactAll left.children right.children parts
  numbered : left.Numbered
  same : ∀ (c : Node), c ∈ left.children → ∀ x y, c.containsId x = true → ms.get? x y = (belowOf parts).get? x y

theorem Keeps.get?_eq (keeps : Keeps left right parts ms) {i : Nat} {part : Option Matching × Matchings} {c : Node}
    (hpart : parts[i]? = some part) (hc : left.children[i]? = some c) {x : NodeId} (y : NodeId)
    (inside : c.containsId x = true) : ms.get? x y = part.2.get? x y := by
  rw [keeps.same c (List.mem_of_getElem? hc) x y inside]
  exact keeps.all.walked.get?_belowOf keeps.numbered hpart hc y inside

theorem Keeps.complete (keeps : Keeps left right parts ms) {a b c d : Node} {i : Nat} (hc : left.children[i]? = some c)
    (hd : right.children[i]? = some d) (aligned : Aligned c d a b) (equal : a.labels = b.labels) :
    (a.id, b.id) ∈ ms.mapping := by
  obtain ⟨part, hpart, -, exact⟩ := keeps.all.at hc hd
  have inside : c.containsId a.id = true :=
    (keeps.numbered.child (List.mem_of_getElem? hc)).containsId_of_mem aligned.mem_preorder.1
  rw [← Matchings.isSome_get?_iff, keeps.get?_eq hpart hc b.id inside, Matchings.isSome_get?_iff]
  exact exact.complete a b aligned equal

theorem Keeps.equates (keeps : Keeps left right parts ms) {m : Matching} (member : m ∈ (belowOf parts).entries) :
    ∃ a b, Aligned left right a b ∧ a.labels = b.labels ∧ Equates ms a b m := by
  obtain ⟨part, listed, found⟩ := mem_belowOf member
  obtain ⟨i, hpart⟩ := List.mem_iff_getElem?.mp listed
  obtain ⟨c, d, hc, hd, -, -⟩ := keeps.all.walked.at hpart
  obtain ⟨part', hpart', -, exact⟩ := keeps.all.at hc hd
  rw [hpart, Option.some_inj] at hpart'
  subst hpart'
  obtain ⟨a, b, aligned, equal, pair, score, algorithm, children⟩ := exact.entry m found
  have numbered := keeps.numbered.child (List.mem_of_getElem? hc)
  refine ⟨a, b, .deeper hc hd aligned, equal, pair, score, algorithm, ?_⟩
  rw [children]
  apply List.map_congr_left
  intro e child
  have inside : c.containsId e.1.id = true := by
    apply numbered.containsId_of_mem
    exact Tree.mem_preorder_trans (Tree.child_mem_preorder (List.of_mem_zip child).1) aligned.mem_preorder.1
  rw [keeps.get?_eq hpart hc e.2.id inside]

theorem Keeps.children (keeps : Keeps left right parts ms) (all : ∀ part ∈ parts, part.1.isSome = true) :
    ((parts.filterMap Prod.fst).map Matching.shallow).map some =
      (left.children.zip right.children).map fun c => (ms.get? c.1.id c.2.id).map Matching.shallow := by
  have direct : parts.map Prod.fst = (left.children.zip right.children).map fun c => ms.get? c.1.id c.2.id := by
    apply List.ext_getElem?
    intro i
    rw [List.getElem?_map, List.getElem?_map]
    cases place : (left.children.zip right.children)[i]? with
    | none =>
      have length := keeps.all.length_eq
      rw [List.getElem?_eq_none_iff] at place
      rw [List.getElem?_eq_none (by omega)]
      rfl
    | some pair =>
      obtain ⟨hc, hd⟩ := List.getElem?_zip_eq_some.mp place
      obtain ⟨part, hpart, same, -⟩ := keeps.all.at hc hd
      rw [hpart, Option.map_some, Option.map_some, same, keeps.get?_eq hpart hc _ (Tree.containsId_self pair.1)]
  calc ((parts.filterMap Prod.fst).map Matching.shallow).map some
      = ((parts.filterMap Prod.fst).map some).map (Option.map Matching.shallow) := by
        rw [List.map_map, List.map_map]
        rfl
    _ = (parts.map Prod.fst).map (Option.map Matching.shallow) := by rw [map_some_filterMap all]
    _ = _ := by
        rw [direct, List.map_map]
        rfl

theorem ExactAll.exact_below (all : ExactAll left.children right.children parts) (hl : left.Numbered)
    (verdict : verdict? left right parts = none) : Exact left right (belowOf parts) := by
  have keeps : Keeps left right parts (belowOf parts) := ⟨all, hl, fun _ _ _ _ _ => rfl⟩
  refine ⟨distinct_belowOf parts, ?_, fun m member => keeps.equates member⟩
  intro a b aligned equal
  cases aligned with
  | here => exact absurd equal (all.walked.labels_ne verdict)
  | deeper hc hd aligned => exact keeps.complete hc hd aligned equal

theorem ExactAll.exact_add (all : ExactAll left.children right.children parts) (hl : left.Numbered) (hr : right.Numbered)
    (verdict : verdict? left right parts = some entry) : Exact left right ((belowOf parts).add entry) := by
  have walked := all.walked
  obtain ⟨direct, -, -, pair, -, listed⟩ := verdict?_eq_some verdict
  have equal := walked.isSome_verdict?_iff.mp (Option.isSome_iff_exists.mpr ⟨entry, verdict⟩)
  have distinct : ((belowOf parts).add entry).Distinct := (distinct_belowOf parts).add entry
  have keeps : Keeps left right parts ((belowOf parts).add entry) := by
    refine ⟨all, hl, ?_⟩
    intro c child x y inside
    apply Matchings.get?_add_of_ne
    rw [pair]
    intro same
    have root : left.id = x := congrArg Prod.fst same
    rw [← root] at inside
    exact hl.not_containsId_child child inside
  have new : entry ∈ ((belowOf parts).add entry).entries := by
    rcases (belowOf parts).add_cases entry with ⟨known, -⟩ | ⟨-, eq⟩
    · rw [pair] at known
      exact absurd known (walked.root_notMem hl)
    · rw [eq]
      exact List.mem_append_right _ List.mem_cons_self
  refine ⟨distinct, ?_, ?_⟩
  · intro a b aligned equal
    cases aligned with
    | here => exact Matchings.mem_mapping.mpr ⟨entry, new, pair⟩
    | deeper hc hd aligned => exact keeps.complete hc hd aligned equal
  · intro m member
    rcases Matchings.mem_add member with below | rfl
    · exact keeps.equates below
    · have score := (walked.compared_add hl hr verdict).score m (distinct.get? new pair)
      refine ⟨left, right, .here left right, equal, pair, score, algorithm_verdict? verdict, ?_⟩
      rw [listed]
      exact keeps.children direct

theorem matchNodes_exact (hl : left.Numbered) (hr : right.Numbered) :
    Ends (matchNodes left right) (fun ms => Compared left right ms ∧ Exact left right ms) fun _ => True := by
  induction left using Tree.childInduction generalizing right with
  | step left ih =>
    have children : Ends (matchChildren left.children right.children) (ExactAll left.children right.children)
        fun _ => True :=
      matchChildren_each fun l childL r childR => ih l childL (hl.child childL) (hr.child childR)
    obtain ⟨value, ls⟩ := left
    obtain ⟨value', rs⟩ := right
    rw [matchNodes]
    apply (Ends.ofExcept (fun _ _ => trivial) fun _ _ => trivial).bind
    intro _ _
    apply (Ends.ofExcept (fun _ _ => trivial) fun _ _ => trivial).bind
    intro _ _
    apply children.bind
    intro parts all
    cases verdict : verdict? (.node value ls) (.node value' rs) parts with
    | some entry => exact .of_pure ⟨all.walked.compared_add hl hr verdict, all.exact_add hl hr verdict⟩
    | none =>
      apply (Ends.of_modify _).bind
      intro _ _
      exact .of_pure ⟨all.walked.compared_below hl verdict, all.exact_below hl verdict⟩

/-- What a comparison ends with, whatever is remembered before it: it fails at nodes that are not plain and at
these only, it matches what is equal and remembers what is not. -/
theorem matchNodes_verdict (hl : left.Numbered) (hr : right.Numbered) (unequal : PairSet) :
    ((∃ failure u', matchNodes left right unequal = .error failure u') ↔
      ∃ x y : Node, Aligned left right x y ∧ ¬ (x.marker = .plain ∧ y.marker = .plain)) ∧
    (∀ failure u', matchNodes left right unequal = .error failure u' → ∃ x y z : Node, Aligned left right x y ∧
      (z = x ∨ z = y) ∧ z.marker ≠ .plain ∧ failure = .unsupported z.id z.marker) ∧
    ∀ ms u', matchNodes left right unequal = .ok ms u' → Exact left right ms ∧
      (∀ x y, u'.contains x y = true ↔ Differs left right x y ∨ unequal.contains x y = true) ∧
      (ms.get? left.id right.id = none →
        u'.contains left.id right.id = true ∧ u'.contains right.id left.id = true) := by
  have refused := matchNodes_refuses left right unequal
  have exact := matchNodes_exact hl hr unequal
  have remembered := matchNodes_remembers hl hr unequal
  unfold From at remembered
  cases run : matchNodes left right unequal with
  | ok ms u =>
    rw [run] at refused exact remembered
    refine ⟨iff_of_false nofun ?_, nofun, ?_⟩
    · intro blocked
      obtain ⟨x, y, aligned, marked⟩ := blocked
      obtain ⟨plainX, plainY⟩ := refused x y aligned
      exact marked ⟨Tree.checkPlain_eq_ok_iff.mp plainX, Tree.checkPlain_eq_ok_iff.mp plainY⟩
    · intro ms' u' same
      cases same
      refine ⟨exact.2, remembered, ?_⟩
      intro missing
      have differ : left.labels ≠ right.labels := by
        intro equal
        have known := Matchings.isSome_get?_iff.mpr (exact.1.equal.mpr equal)
        rw [missing] at known
        cases known
      have known : u.contains left.id right.id = true :=
        (remembered _ _).mpr (.inl ⟨left, right, .here left right, differ, .inl ⟨rfl, rfl⟩⟩)
      exact ⟨known, (PairSet.contains_comm u _ _).trans known⟩
  | error failure u =>
    rw [run] at refused
    obtain ⟨x, y, aligned, error⟩ := refused
    have named : ∃ z : Node, (z = x ∨ z = y) ∧ z.marker ≠ .plain ∧ failure = .unsupported z.id z.marker := by
      rcases error with error | error
      · exact ⟨x, .inl rfl, Tree.checkPlain_eq_error_iff.mp error⟩
      · exact ⟨y, .inr rfl, Tree.checkPlain_eq_error_iff.mp error⟩
    obtain ⟨z, which, marked, message⟩ := named
    refine ⟨iff_of_true ⟨failure, u, rfl⟩ ⟨x, y, aligned, ?_⟩, ?_, nofun⟩
    · intro plain
      rcases which with rfl | rfl
      · exact marked plain.1
      · exact marked plain.2
    · intro failure' u' same
      cases same
      exact ⟨x, y, z, aligned, which, marked, message⟩

theorem matchNodes_verdict_names :
    ∃ ms u', matchNodes (Dispatcher.names 0 "x" "y") (Dispatcher.names 3 "x" "z") .empty = .ok ms u' ∧
      Exact (Dispatcher.names 0 "x" "y") (Dispatcher.names 3 "x" "z") ms ∧ u'.contains 3 0 = true := by
  have verdict := matchNodes_verdict (Dispatcher.names_numbered 0 "x" "y") (Dispatcher.names_numbered 3 "x" "z") .empty
  cases run : matchNodes (Dispatcher.names 0 "x" "y") (Dispatcher.names 3 "x" "z") .empty with
  | error failure u' =>
    obtain ⟨x, y, aligned, marked⟩ := verdict.1.mp ⟨failure, u', run⟩
    have plainL : ∀ x ∈ (Dispatcher.names 0 "x" "y").preorder, x.marker = .plain := by decide
    have plainR : ∀ y ∈ (Dispatcher.names 3 "x" "z").preorder, y.marker = .plain := by decide
    exact absurd ⟨plainL x aligned.mem_preorder.1, plainR y aligned.mem_preorder.2⟩ marked
  | ok ms u' =>
    obtain ⟨exact, remembered, -⟩ := verdict.2.2 ms u' run
    refine ⟨ms, u', rfl, exact, (remembered 3 0).mpr (.inl ⟨_, _, .here _ _, ?_, .inr ⟨rfl, rfl⟩⟩)⟩
    intro same
    have names := congrArg (fun t => t.children.map Tree.value) same
    revert names
    decide

end TreeAlign.Equality
