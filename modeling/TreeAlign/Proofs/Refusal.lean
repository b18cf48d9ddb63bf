import TreeAlign.Proofs.Comparison
import TreeAlign.Proofs.Scores
import TreeAlign.Proofs.Sites

namespace TreeAlign

namespace Tree

universe u

variable {α : Type u}

def level : Nat → Tree α → List (Tree α)
  | 0, t => [t]
  | depth + 1, t => t.children.flatMap (level depth)

theorem mem_level_zero {t x : Tree α} : x ∈ t.level 0 ↔ x = t := by
  simp [level]

theorem mem_level_succ {t x : Tree α} {depth : Nat} :
    x ∈ t.level (depth + 1) ↔ ∃ c ∈ t.children, x ∈ c.level depth := by
  simp [level]

theorem mem_preorder_of_level {t x : Tree α} {depth : Nat} (h : x ∈ t.level depth) : x ∈ t.preorder := by
  induction depth generalizing t with
  | zero =>
    rw [mem_level_zero.mp h]
    exact t.self_mem_preorder
  | succ depth ih =>
    obtain ⟨c, child, below⟩ := mem_level_succ.mp h
    exact mem_preorder_of_child child (ih below)

theorem exists_of_lt_heights {ts : List (Tree α)} {depth : Nat} (h : depth < heights ts) :
    ∃ t ∈ ts, depth ≤ t.height := by
  induction ts with
  | nil => simp [heights] at h
  | cons t ts ih =>
    rw [heights, lt_max_iff] at h
    rcases h with here | there
    · exact ⟨t, List.mem_cons_self, Nat.le_of_lt_succ here⟩
    · obtain ⟨s, member, deep⟩ := ih there
      exact ⟨s, List.mem_cons_of_mem t member, deep⟩

theorem lt_height_iff {t : Tree α} {depth : Nat} : depth < t.height ↔ ∃ c ∈ t.children, depth ≤ c.height := by
  constructor
  · intro h
    cases t with
    | node value children => exact exists_of_lt_heights h
  · intro ⟨c, child, deep⟩
    have := height_lt_of_child child
    omega

/-- A node of one subtree at a depth that the other subtree has too. -/
def Exposed (left right x : Tree α) : Prop :=
  (∃ depth, depth ≤ right.height ∧ x ∈ left.level depth) ∨ ∃ depth, depth ≤ left.height ∧ x ∈ right.level depth

variable {left right x : Tree α}

theorem Exposed.swap (h : Exposed left right x) : Exposed right left x := Or.symm h

theorem exposed_left (left right : Tree α) : Exposed left right left :=
  .inl ⟨0, Nat.zero_le _, mem_level_zero.mpr rfl⟩

theorem exposed_right (left right : Tree α) : Exposed left right right :=
  (exposed_left right left).swap

theorem Exposed.of_children {c d : Tree α} (hc : c ∈ left.children) (hd : d ∈ right.children) (h : Exposed c d x) :
    Exposed left right x := by
  rcases h with ⟨depth, deep, member⟩ | ⟨depth, deep, member⟩
  · exact .inl ⟨depth + 1, lt_height_iff.mpr ⟨d, hd, deep⟩, mem_level_succ.mpr ⟨c, hc, member⟩⟩
  · exact .inr ⟨depth + 1, lt_height_iff.mpr ⟨c, hc, deep⟩, mem_level_succ.mpr ⟨d, hd, member⟩⟩

theorem Exposed.mem_preorder (h : Exposed left right x) : x ∈ left.preorder ∨ x ∈ right.preorder := by
  rcases h with ⟨depth, -, member⟩ | ⟨depth, -, member⟩
  · exact .inl (mem_preorder_of_level member)
  · exact .inr (mem_preorder_of_level member)

theorem exposed_cases (h : Exposed left right x) :
    x = left ∨ x = right ∨ ∃ c ∈ left.children, ∃ d ∈ right.children, Exposed c d x := by
  rcases h with ⟨depth, deep, member⟩ | ⟨depth, deep, member⟩
  · cases depth with
    | zero => exact .inl (mem_level_zero.mp member)
    | succ depth =>
      obtain ⟨c, hc, below⟩ := mem_level_succ.mp member
      obtain ⟨d, hd, deep⟩ := lt_height_iff.mp deep
      exact .inr (.inr ⟨c, hc, d, hd, .inl ⟨depth, deep, below⟩⟩)
  · cases depth with
    | zero => exact .inr (.inl (mem_level_zero.mp member))
    | succ depth =>
      obtain ⟨d, hd, below⟩ := mem_level_succ.mp member
      obtain ⟨c, hc, deep⟩ := lt_height_iff.mp deep
      exact .inr (.inr ⟨c, hc, d, hd, .inr ⟨depth, deep, below⟩⟩)

theorem checkPlain_eq_ok_iff {x : Node} : x.checkPlain = .ok () ↔ x.marker = .plain := by
  unfold checkPlain
  split <;> simp_all

theorem checkPlain_eq_error_iff {x : Node} {failure : Failure} :
    x.checkPlain = .error failure ↔ x.marker ≠ .plain ∧ failure = .unsupported x.id x.marker := by
  unfold checkPlain
  split
  · simp_all
  · rename_i marked
    rw [Except.error.injEq, eq_comm]
    exact (and_iff_right marked).symm

end Tree

theorem Aligned.exposed {a b x y : Node} (h : Aligned a b x y) : Tree.Exposed a b x ∧ Tree.Exposed a b y := by
  induction h with
  | here a b => exact ⟨Tree.exposed_left a b, Tree.exposed_right a b⟩
  | deeper hc hd _ ih =>
    have memberC := List.mem_of_getElem? hc
    have memberD := List.mem_of_getElem? hd
    exact ⟨ih.1.of_children memberC memberD, ih.2.of_children memberC memberD⟩

def Blocked (left right : Node) (failure : Failure) : Prop :=
  ∃ x : Node, Tree.Exposed left right x ∧ x.checkPlain = .error failure

def Clear (left right : Node) : Prop :=
  ∀ x : Node, Tree.Exposed left right x → x.checkPlain = .ok ()

/-- All nodes at the same position are plain. -/
def AlignedPlain (left right : Node) : Prop :=
  ∀ x y : Node, Aligned left right x y → x.checkPlain = .ok () ∧ y.checkPlain = .ok ()

variable {left right : Node} {failure : Failure}

theorem Blocked.of_children {c d : Node} (hc : c ∈ left.children) (hd : d ∈ right.children) (h : Blocked c d failure) :
    Blocked left right failure := by
  obtain ⟨x, exposed, error⟩ := h
  exact ⟨x, exposed.of_children hc hd, error⟩

theorem Blocked.isLocal (h : Blocked left right failure) : failure.isLocal = false := by
  obtain ⟨x, -, error⟩ := h
  rw [(Tree.checkPlain_eq_error_iff.mp error).2]
  rfl

theorem clear_of_children (plainL : left.checkPlain = .ok ()) (plainR : right.checkPlain = .ok ())
    (below : ∀ c ∈ left.children, ∀ d ∈ right.children, Clear c d) : Clear left right := by
  intro x exposed
  rcases Tree.exposed_cases exposed with rfl | rfl | ⟨c, hc, d, hd, exposed⟩
  · exact plainL
  · exact plainR
  · exact below c hc d hd x exposed

theorem AlignedPlain.clear (plain : AlignedPlain left right) (same : left.labels = right.labels) : Clear left right := by
  intro x exposed
  rcases exposed.mem_preorder with member | member
  · obtain ⟨y, aligned⟩ := exists_aligned same member
    exact (plain x y aligned).1
  · obtain ⟨y, aligned⟩ := exists_aligned same.symm member
    exact (plain y x aligned.swap).2

def Met (left right : Node) (failure : Failure) : Prop :=
  ∃ x y : Node, Aligned left right x y ∧ (x.checkPlain = .error failure ∨ y.checkPlain = .error failure)

theorem Met.blocked (h : Met left right failure) : Blocked left right failure := by
  obtain ⟨x, y, aligned, error | error⟩ := h
  · exact ⟨x, aligned.exposed.1, error⟩
  · exact ⟨y, aligned.exposed.2, error⟩

namespace Equality

theorem matchChildren_refuses {lefts rights : List Node} {bad : Failure → Prop}
    (each : ∀ (i : Nat) (l r : Node), lefts[i]? = some l → rights[i]? = some r →
      Ends (matchNodes l r) (fun _ => AlignedPlain l r) bad) :
    Ends (matchChildren lefts rights)
      (fun _ => ∀ (i : Nat) (l r : Node), lefts[i]? = some l → rights[i]? = some r → AlignedPlain l r) bad := by
  induction lefts generalizing rights with
  | nil => exact .of_pure fun _ _ _ hl => nomatch hl
  | cons l lefts ih =>
    cases rights with
    | nil => exact .of_pure fun _ _ _ _ hr => nomatch hr
    | cons r rights =>
      rw [matchChildren]
      apply (each 0 l r rfl rfl).bind
      intro ms head
      apply (ih fun i l r hl hr => each (i + 1) l r hl hr).bind
      intro rest tail
      apply Ends.of_pure
      intro i c d hc hd
      cases i with
      | zero =>
        cases hc
        cases hd
        exact head
      | succ i => exact tail i c d hc hd

theorem matchNodes_refuses (left right : Node) :
    Ends (matchNodes left right) (fun _ => AlignedPlain left right) (Met left right) := by
  induction left using Tree.childInduction generalizing right with
  | step left ih =>
    have below : ∀ (i : Nat) (l r : Node), left.children[i]? = some l → right.children[i]? = some r →
        Ends (matchNodes l r) (fun _ => AlignedPlain l r) (Met left right) := by
      intro i l r hl hr
      apply (ih l (List.mem_of_getElem? hl) r).imp (fun _ plain => plain)
      intro failure met
      obtain ⟨x, y, aligned, error⟩ := met
      exact ⟨x, y, .deeper hl hr aligned, error⟩
    have children := matchChildren_refuses below
    have metL : ∀ e, left.checkPlain = .error e → Met left right e :=
      fun e error => ⟨left, right, .here left right, .inl error⟩
    have metR : ∀ e, right.checkPlain = .error e → Met left right e :=
      fun e error => ⟨left, right, .here left right, .inr error⟩
    obtain ⟨value, ls⟩ := left
    obtain ⟨value', rs⟩ := right
    rw [matchNodes]
    apply (Ends.ofExcept (fun _ ok => ok) metL).bind
    intro _ plainL
    apply (Ends.ofExcept (fun _ ok => ok) metR).bind
    intro _ plainR
    apply children.bind
    intro parts below
    have plain : AlignedPlain (.node value ls) (.node value' rs) := by
      intro x y aligned
      cases aligned with
      | here => exact ⟨plainL, plainR⟩
      | deeper hc hd aligned => exact below _ _ _ hc hd x y aligned
    cases verdict? (.node value ls) (.node value' rs) parts with
    | some entry => exact .of_pure plain
    | none => exact (Ends.of_modify _).bind fun _ _ => .of_pure plain

end Equality

namespace Dispatcher

variable {p : MatchParameters}

theorem tryEquality_refuses (hl : left.Numbered) (hr : right.Numbered) : Ends (tryEquality p left right)
    (fun result => result.isSome = true → Clear left right) (Blocked left right) := by
  have nothing : Ends (pure none : Run (Option Matchings)) (fun result => result.isSome = true → Clear left right)
      (Blocked left right) := .of_pure nofun
  have plain : Ends (compare left right) (fun _ => AlignedPlain left right) (Blocked left right) :=
    compare_ends ((Equality.matchNodes_refuses left right).imp (fun _ plain => plain) fun _ met => met.blocked)
  have compared : Ends (compare left right) (Equality.Compared left right) (fun _ => True) :=
    compare_ends (Equality.compared_ends hl hr)
  rw [tryEquality]
  split
  · exact nothing
  · apply Ends.of_get.bind
    intro d _
    split
    · exact nothing
    · apply (Ends.of_modify _).bind
      intro _ _
      apply ((plain.and compared).imp (fun _ both => both) fun _ both => both.1).bind
      rintro ms ⟨plain, compared⟩
      cases root : ms.get? left.id right.id with
      | none => exact nothing
      | some m =>
        apply (Ends.of_modify _).bind
        intro _ _
        have equal := Matchings.isSome_get?_iff.mp (Option.isSome_iff_exists.mpr ⟨m, root⟩)
        exact .of_pure fun _ => plain.clear (compared.equal.mp equal)

theorem alignChildren_refuses {run : Run (List (List Matchings))} {clear : Prop}
    (cells : Ends run (fun _ => clear) (Blocked left right)) :
    Ends (alignChildren left right run) (fun _ => clear) (Blocked left right) := by
  rw [alignChildren]
  apply (Ends.of_modify _).bind
  intro _ _
  apply cells.bind
  intro _ clear
  exact .of_pure clear

/-- What is caught is the failure to assign, and by then all cells have been found. -/
theorem pairChildren_refuses {run : Run (List (List Matchings))} {clear : Prop}
    (cells : Ends run (fun _ => clear) (Blocked left right)) :
    Ends (pairChildren left right run) (fun _ => clear) (Blocked left right) := by
  rw [pairChildren_eq]
  apply (Ends.of_modify _).bind
  intro _ _
  have body : Ends (run >>= fun cells => MonadExcept.ofExcept (Pairing.combine left right cells)) (fun _ => clear)
      fun failure => Blocked left right failure ∨ clear ∧ failure.isLocal = true := by
    apply (cells.imp (fun _ clear => clear) fun _ => .inl).bind
    intro cells clear
    apply Ends.ofExcept fun _ _ => clear
    intro failure error
    rw [Pairing.combine] at error
    split at error <;> cases error
    exact .inr ⟨clear, rfl⟩
  apply body.tryCatch
  intro failure caught
  rcases caught with blocked | ⟨clear, unsolved⟩
  · rw [if_neg (by rw [blocked.isLocal]; exact Bool.false_ne_true)]
    exact fun d => blocked
  · rw [if_pos unsolved]
    exact .of_pure clear

/-- A matching that ends has met all exposed nodes, and one that fails has met one that is not plain. -/
theorem matchNodes_refuses (hl : left.Numbered) (hr : right.Numbered) :
    Ends (matchNodes p left right) (fun _ => Clear left right) (Blocked left right) := by
  induction left using Tree.childInduction generalizing right with
  | step left ih =>
    have each : ∀ l ∈ left.children, ∀ r ∈ right.children,
        Ends (matchNodes p l r) (fun _ => Clear l r) (Blocked left right) := by
      intro l childL r childR
      exact (ih l childL (hl.child childL) (hr.child childR)).imp (fun _ clear => clear)
        fun _ blocked => blocked.of_children childL childR
    have cells : Ends (matchChildren p left.children right.children)
        (fun _ => ∀ l ∈ left.children, ∀ r ∈ right.children, Clear l r) (Blocked left right) := by
      apply (matchChildren_ends each).imp _ fun _ blocked => blocked
      intro cells grid l childL r childR
      obtain ⟨i, hi⟩ := List.mem_iff_getElem?.mp childL
      obtain ⟨j, hj⟩ := List.mem_iff_getElem?.mp childR
      obtain ⟨_, -, clear⟩ := grid.exists_cell (show left.children[(i, j).1]? = some l from hi) hj
      exact clear
    have blockedL : ∀ e, left.checkPlain = .error e → Blocked left right e :=
      fun e error => ⟨left, Tree.exposed_left left right, error⟩
    have blockedR : ∀ e, right.checkPlain = .error e → Blocked left right e :=
      fun e error => ⟨right, Tree.exposed_right left right, error⟩
    obtain ⟨value, ls⟩ := left
    rw [matchNodes]
    apply (Ends.ofExcept (fun _ ok => ok) blockedL).bind
    intro _ plainL
    apply (Ends.ofExcept (fun _ ok => ok) blockedR).bind
    intro _ plainR
    have cells := cells.imp (fun _ below => clear_of_children plainL plainR below) fun _ blocked => blocked
    apply (tryEquality_refuses hl hr).bind
    intro result equal
    cases result with
    | some ms => exact .of_pure (equal rfl)
    | none =>
      cases isOrdered (.node value ls) right with
      | true => exact alignChildren_refuses cells
      | false => exact pairChildren_refuses cells

theorem cells_ends (hl : left.Numbered) (hr : right.Numbered) :
    Ends (matchChildren p left.children right.children) (Grid Matched left.children right.children)
      (Refused left right) := by
  apply matchChildren_ends
  intro l childL r childR
  exact (matchNodes_ends (hl.child childL) (hr.child childR)).imp (fun _ matched => matched)
    fun _ refused => refused.of_child childL childR

theorem pairChildren_solved (small : Small left right) {run : Run (List (List Matchings))}
    (grid : Ends run (Grid Matched left.children right.children) (Refused left right)) {d d' : Dispatcher} {ms : Matchings}
    (ok : pairChildren left right run d = .ok ms d') :
    ∃ cells, run { d with statistics := d.statistics.countUnordered } = .ok cells d' ∧
      Pairing.combine left right cells = .ok ms := by
  rw [pairChildren_eq] at ok
  change EStateM.tryCatch (EStateM.bind run _) _ { d with statistics := d.statistics.countUnordered } = _ at ok
  rw [EStateM.tryCatch.eq_def, EStateM.bind.eq_def] at ok
  cases eq : run { d with statistics := d.statistics.countUnordered } with
  | ok cells e =>
    obtain ⟨ms', solved⟩ := combine_returns (grid.of_ok eq) small
    simp only [eq, solved] at ok
    cases ok
    exact ⟨cells, rfl, solved⟩
  | error failure e =>
    have refused : Refused left right failure := by
      have ends := grid { d with statistics := d.statistics.countUnordered }
      rwa [eq] at ends
    simp only [eq, refused.isLocal] at ok
    cases ok

/-- A matching fails exactly if one of the subtrees has a node that is not plain at a depth that the other has too,
and it names such a node. Whatever the pairing of children returns for small trees has been assigned. -/
theorem matchNodes_fails_iff (hl : left.Numbered) (hr : right.Numbered) (p : MatchParameters) (d : Dispatcher) :
    ((∃ failure d', matchNodes p left right d = .error failure d') ↔
      (∃ depth, depth ≤ right.height ∧ ∃ x ∈ left.level depth, Tree.marker x ≠ .plain) ∨
      ∃ depth, depth ≤ left.height ∧ ∃ x ∈ right.level depth, Tree.marker x ≠ .plain) ∧
    (∀ failure d', matchNodes p left right d = .error failure d' →
      ∃ x, (x ∈ left.preorder ∨ x ∈ right.preorder) ∧ Tree.marker x ≠ .plain ∧
        failure = .unsupported (Tree.id x) (Tree.marker x)) ∧
    (Small left right → ∀ a ∈ left.preorder, ∀ b ∈ right.preorder, ∀ d ms d',
      pairChildren a b (matchChildren p a.children b.children) d = .ok ms d' →
      ∃ cells, matchChildren p a.children b.children { d with statistics := d.statistics.countUnordered } = .ok cells d' ∧
        Pairing.combine a b cells = .ok ms) := by
  have ends := matchNodes_refuses (p := p) hl hr d
  have exposed : (∃ x, Tree.Exposed left right x ∧ Tree.marker x ≠ .plain) ↔
      (∃ depth, depth ≤ right.height ∧ ∃ x ∈ left.level depth, Tree.marker x ≠ .plain) ∨
      ∃ depth, depth ≤ left.height ∧ ∃ x ∈ right.level depth, Tree.marker x ≠ .plain := by
    unfold Tree.Exposed
    grind
  rw [← exposed]
  refine ⟨⟨?_, ?_⟩, ?_, ?_⟩
  · intro ⟨failure, d', error⟩
    rw [error] at ends
    obtain ⟨x, member, refused⟩ := ends
    exact ⟨x, member, (Tree.checkPlain_eq_error_iff.mp refused).1⟩
  · intro ⟨x, member, marked⟩
    cases eq : matchNodes p left right d with
    | ok ms d' =>
      rw [eq] at ends
      exact absurd (Tree.checkPlain_eq_ok_iff.mp (ends x member)) marked
    | error failure d' => exact ⟨failure, d', rfl⟩
  · intro failure d' error
    rw [error] at ends
    obtain ⟨x, member, refused⟩ := ends
    exact ⟨x, member.mem_preorder, Tree.checkPlain_eq_error_iff.mp refused⟩
  · intro small a ha b hb d ms d' ok
    obtain ⟨smallA, smallB⟩ := small.below ha hb
    exact pairChildren_solved ⟨smallA, smallB⟩ (cells_ends (hl.below ha) (hr.below hb)) ok

def menu (first : NodeId) (item : Marker) : Node :=
  Tree.number first (.node ⟨⟨"menu", none⟩, false, .plain⟩ [.node ⟨⟨"item", none⟩, false, item⟩ []])

def heading (first : NodeId) : Node :=
  Tree.number first (.node ⟨⟨"menu", none⟩, false, .plain⟩ [])

theorem matchNodes_fails_iff_menus :
    (∃ failure d', matchNodes {} (menu 0 .plain) (menu 2 .choice) {} = .error failure d') ∧
    (¬∃ failure d', matchNodes {} (heading 0) (menu 2 .choice) {} = .error failure d') ∧
    ∃ cells ms d', Pairing.combine (menu 0 .plain) (menu 2 .plain) cells = .ok ms ∧
      pairChildren (menu 0 .plain) (menu 2 .plain)
        (matchChildren {} (menu 0 .plain).children (menu 2 .plain).children) {} = .ok ms d' := by
  have numbered (first : NodeId) (item : Marker) : (menu first item).Numbered := (Tree.number_numbered _ _).2
  obtain ⟨fails, -, -⟩ := matchNodes_fails_iff (numbered 0 .plain) (numbered 2 .choice) {} {}
  obtain ⟨ends, -, -⟩ := matchNodes_fails_iff (show (heading 0).Numbered from (Tree.number_numbered _ _).2)
    (numbered 2 .choice) {} {}
  obtain ⟨-, -, assigned⟩ := matchNodes_fails_iff (numbered 0 .plain) (numbered 2 .plain) {} {}
  have fits : Fits (menu 0 .plain) (menu 2 .plain) := ⟨by decide, by decide, by decide, by decide⟩
  have pairs := pairChildren_ends (numbered 0 .plain) (numbered 2 .plain) rfl
    (cells_ends (p := {}) (numbered 0 _) (numbered 2 _))
  obtain ⟨ms, d', ok, -⟩ := (pairs.imp (fun _ matched => matched) fun _ refused => fits.not_refused refused).returns {}
  obtain ⟨cells, -, solved⟩ := assigned fits.small _ (Tree.self_mem_preorder _) _ (Tree.self_mem_preorder _)
    {} ms d' ok
  exact ⟨fails.mpr (by decide), ends.not.mpr (by decide), cells, ms, d', solved, ok⟩

end Dispatcher

end TreeAlign
