import TreeAlign.Proofs.Equality

namespace TreeAlign

namespace PairSet

variable {set more : PairSet} {a b c d : NodeId}

theorem key_comm (a b : NodeId) : key a b = key b a := by
  unfold key
  split <;> split <;> rw [Prod.mk.injEq] <;> lia

theorem contains_comm (set : PairSet) (a b : NodeId) : set.contains a b = set.contains b a := by
  rw [contains, contains, key_comm]

theorem key_eq_iff : key a b = key c d ↔ a = c ∧ b = d ∨ a = d ∧ b = c := by
  unfold key
  split <;> split <;> rw [Prod.mk.injEq] <;> lia

theorem contains_insert :
    (set.insert a b).contains c d = true ↔ (a = c ∧ b = d ∨ a = d ∧ b = c) ∨ set.contains c d = true := by
  rw [← key_eq_iff, insert, contains, contains, Std.TreeSet.contains_insert, Bool.or_eq_true, beq_iff_eq]
  apply or_congr_left
  simp only [compareLex, compareOn, Ordering.then_eq_eq, Nat.compare_eq_eq, Prod.ext_iff]

theorem insert_of_contains (h : set.contains a b = true) : set.insert a b = set := by
  obtain ⟨⟨⟨⟨tree, wf⟩⟩⟩⟩ := set
  let : Ord (NodeId × NodeId) := ⟨compareLex (compareOn Prod.fst) (compareOn Prod.snd)⟩
  have inner : tree.contains (key a b) = true := h
  simp only [insert, Std.TreeSet.insert, Std.TreeMap.insertIfNew, Std.DTreeMap.insertIfNew,
    Std.DTreeMap.Internal.Impl.insertIfNew, inner, if_true]

def Within (set more : PairSet) : Prop :=
  ∀ a b, set.contains a b = true → more.contains a b = true

theorem Within.refl (set : PairSet) : set.Within set := fun _ _ h => h

theorem Within.trans {most : PairSet} (h : set.Within more) (h' : more.Within most) : set.Within most :=
  fun a b member => h' a b (h a b member)

theorem within_insert : set.Within (set.insert a b) := fun _ _ member => contains_insert.mpr (.inr member)

end PairSet

def From {ε σ α : Type} (s : σ) (run : EStateM ε σ α) (good : α → σ → Prop) (bad : σ → Prop) : Prop :=
  match run s with
  | .ok a s' => good a s'
  | .error _ s' => bad s'

namespace From

variable {ε σ α β : Type} {s : σ} {good : α → σ → Prop} {bad : σ → Prop}

theorem of_pure {a : α} (h : good a s) : From s (pure a : EStateM ε σ α) good bad := h

theorem of_modify {f : σ → σ} : From s (modify f : EStateM ε σ Unit) (fun _ s' => s' = f s) bad := rfl

theorem ofExcept {x : Except ε α} (error : ∀ e, x = .error e → bad s) :
    From s (MonadExcept.ofExcept x : EStateM ε σ α) (fun a s' => s' = s ∧ x = .ok a) bad := by
  cases x with
  | ok a => exact ⟨rfl, rfl⟩
  | error e => exact error e rfl

theorem bind {run : EStateM ε σ α} {f : α → EStateM ε σ β} {next : β → σ → Prop} (first : From s run good bad)
    (rest : ∀ a s', good a s' → From s' (f a) next bad) : From s (run >>= f) next bad := by
  unfold From at first ⊢
  change match EStateM.bind run f s with
    | .ok b s' => next b s'
    | .error _ s' => bad s'
  rw [EStateM.bind.eq_def]
  cases eq : run s with
  | ok a s' =>
    rw [eq] at first
    exact rest a s' first
  | error e s' =>
    rw [eq] at first
    exact first

theorem and_ends {run : EStateM ε σ α} {known : α → Prop} {failed : ε → Prop} (h : From s run good bad)
    (ends : Ends run known failed) : From s run (fun a s' => known a ∧ good a s') bad := by
  have ends := ends s
  unfold From at h ⊢
  cases eq : run s with
  | ok a s' =>
    rw [eq] at h ends
    exact ⟨ends, h⟩
  | error e s' =>
    rw [eq] at h
    exact h

end From

inductive Aligned : Node → Node → Node → Node → Prop where
  | here (a b : Node) : Aligned a b a b
  | deeper {a b c d x y : Node} {i : Nat} (hc : a.children[i]? = some c) (hd : b.children[i]? = some d)
      (aligned : Aligned c d x y) : Aligned a b x y

theorem Aligned.swap {a b x y : Node} (h : Aligned a b x y) : Aligned b a y x := by
  induction h with
  | here a b => exact .here b a
  | deeper hc hd _ ih => exact .deeper hd hc ih

theorem Aligned.trans {a b c d x y : Node} (h : Aligned a b c d) (below : Aligned c d x y) : Aligned a b x y := by
  induction h with
  | here a b => exact below
  | deeper hc hd _ ih => exact .deeper hc hd (ih below)

theorem Aligned.mem_preorder {a b x y : Node} (h : Aligned a b x y) : x ∈ a.preorder ∧ y ∈ b.preorder := by
  induction h with
  | here a b => exact ⟨a.self_mem_preorder, b.self_mem_preorder⟩
  | deeper hc hd _ ih =>
    exact ⟨Tree.mem_preorder_of_child (List.mem_of_getElem? hc) ih.1,
      Tree.mem_preorder_of_child (List.mem_of_getElem? hd) ih.2⟩

theorem Aligned.labels_eq {a b x y : Node} (h : Aligned a b x y) (same : a.labels = b.labels) : x.labels = y.labels := by
  induction h with
  | here a b => exact same
  | @deeper a b c d x y i hc hd _ ih =>
    apply ih
    have at_i := congrArg (fun ls => ls[i]?) (Tree.labels_eq_iff.mp same).2
    simpa [hc, hd] using at_i

theorem exists_aligned {a b x : Node} (same : a.labels = b.labels) (hx : x ∈ a.preorder) : ∃ y, Aligned a b x y := by
  induction a using Tree.childInduction generalizing b with
  | step a ih =>
    rcases Tree.mem_preorder_iff.mp hx with rfl | ⟨c, child, below⟩
    · exact ⟨b, .here x b⟩
    · obtain ⟨i, hc⟩ := List.mem_iff_getElem?.mp child
      have at_i := congrArg (fun ls => ls[i]?) (Tree.labels_eq_iff.mp same).2
      simp only [List.getElem?_map, hc, Option.map_some] at at_i
      obtain ⟨d, hd, labels⟩ := Option.map_eq_some_iff.mp at_i.symm
      obtain ⟨y, aligned⟩ := ih c child labels.symm below
      exact ⟨y, .deeper hc hd aligned⟩

/-- Everything at the same position below two nodes is plain, and what differs is known to. -/
def Explored (unequal : PairSet) (a b : Node) : Prop :=
  ∀ x y, Aligned a b x y → (x.checkPlain = .ok () ∧ y.checkPlain = .ok ()) ∧
    (x.labels ≠ y.labels → unequal.contains x.id y.id = true)

def ExploredAll (unequal : PairSet) (lefts rights : List Node) : Prop :=
  ∀ (i : Nat) (c d : Node), lefts[i]? = some c → rights[i]? = some d → Explored unequal c d

namespace Explored

variable {unequal more : PairSet} {a b : Node}

theorem mono (h : Explored unequal a b) (sub : unequal.Within more) : Explored more a b :=
  fun x y aligned => ⟨(h x y aligned).1, fun differ => sub _ _ ((h x y aligned).2 differ)⟩

theorem swap (h : Explored unequal a b) : Explored unequal b a := by
  intro y x aligned
  obtain ⟨⟨plainX, plainY⟩, known⟩ := h x y aligned.swap
  refine ⟨⟨plainY, plainX⟩, fun differ => ?_⟩
  rw [PairSet.contains_comm]
  exact known (Ne.symm differ)

theorem of_children (plainA : a.checkPlain = .ok ()) (plainB : b.checkPlain = .ok ())
    (known : a.labels ≠ b.labels → unequal.contains a.id b.id = true)
    (children : ExploredAll unequal a.children b.children) : Explored unequal a b := by
  intro x y aligned
  cases aligned with
  | here => exact ⟨⟨plainA, plainB⟩, known⟩
  | deeper hc hd aligned => exact children _ _ _ hc hd x y aligned

theorem children (h : Explored unequal a b) : ExploredAll unequal a.children b.children :=
  fun _ _ _ hc hd x y aligned => h x y (.deeper hc hd aligned)

end Explored

theorem ExploredAll.mono {unequal more : PairSet} {lefts rights : List Node} (h : ExploredAll unequal lefts rights)
    (sub : unequal.Within more) : ExploredAll more lefts rights :=
  fun i c d hc hd => (h i c d hc hd).mono sub

theorem exploredAll_cons {unequal : PairSet} {l r : Node} {lefts rights : List Node} :
    ExploredAll unequal (l :: lefts) (r :: rights) ↔ Explored unequal l r ∧ ExploredAll unequal lefts rights := by
  constructor
  · exact fun h => ⟨h 0 l r rfl rfl, fun i c d hc hd => h (i + 1) c d hc hd⟩
  · intro ⟨head, tail⟩ i c d hc hd
    cases i with
    | zero =>
      cases hc
      cases hd
      exact head
    | succ i => exact tail i c d hc hd

structure Forest (nodes : Set Node) : Prop where
  numbered : ∀ x ∈ nodes, x.Numbered
  children : ∀ x ∈ nodes, ∀ c ∈ x.children, c ∈ nodes
  unique : ∀ x ∈ nodes, ∀ y ∈ nodes, x.id = y.id → x = y

theorem forest_numberAll (first : NodeId) (outlines : List Outline) :
    Forest {x | x ∈ (Tree.numberAll first outlines).flatMap Tree.preorder} where
  numbered := by
    intro x member
    obtain ⟨t, tree, below⟩ := List.mem_flatMap.mp member
    exact Tree.numbered_of_mem_numberAll tree below
  children := by
    intro x member c child
    obtain ⟨t, tree, below⟩ := List.mem_flatMap.mp member
    exact List.mem_flatMap.mpr ⟨t, tree, Tree.mem_preorder_trans (Tree.child_mem_preorder child) below⟩
  unique := by
    have nodup : (((Tree.numberAll first outlines).flatMap Tree.preorder).map Tree.id).Nodup := by
      have numbered := Tree.numbers_numberedFrom outlines first
      rw [Tree.NumberedFrom] at numbered
      rw [Tree.numberAll, numbered]
      exact List.nodup_range'
    exact fun x hx y hy same => List.inj_on_of_nodup_map nodup hx hy same

/-- Pairs of nodes that are known to be unequal are, and comparing them again finds nothing new. -/
def Settled (nodes : Set Node) (unequal : PairSet) : Prop :=
  ∀ a ∈ nodes, ∀ b ∈ nodes, unequal.contains a.id b.id = true → a.labels ≠ b.labels ∧ Explored unequal a b

theorem settled_empty (nodes : Set Node) : Settled nodes .empty := by
  intro a _ b _ member
  cases member

theorem Settled.insert {nodes : Set Node} (forest : Forest nodes) {unequal : PairSet} (settled : Settled nodes unequal)
    {a b : Node} (ha : a ∈ nodes) (hb : b ∈ nodes) (differ : a.labels ≠ b.labels)
    (explored : Explored (unequal.insert a.id b.id) a b) : Settled nodes (unequal.insert a.id b.id) := by
  intro x hx y hy member
  rcases PairSet.contains_insert.mp member with (⟨left, right⟩ | ⟨left, right⟩) | known
  · obtain rfl := forest.unique a ha x hx left
    obtain rfl := forest.unique b hb y hy right
    exact ⟨differ, explored⟩
  · obtain rfl := forest.unique a ha y hy left
    obtain rfl := forest.unique b hb x hx right
    exact ⟨Ne.symm differ, explored.swap⟩
  · obtain ⟨differ', explored'⟩ := settled x hx y hy known
    exact ⟨differ', explored'.mono PairSet.within_insert⟩

namespace Equality

variable {nodes : Set Node} {unequal : PairSet} {left right : Node} {lefts rights : List Node}

theorem matchChildren_settles (settled : Settled nodes unequal)
    (each : ∀ l ∈ lefts, ∀ r ∈ rights, ∀ u, Settled nodes u →
      From u (matchNodes l r) (fun _ u' => Settled nodes u' ∧ u.Within u' ∧ Explored u' l r) (Settled nodes)) :
    From unequal (matchChildren lefts rights)
      (fun _ u' => Settled nodes u' ∧ unequal.Within u' ∧ ExploredAll u' lefts rights) (Settled nodes) := by
  induction lefts generalizing rights unequal with
  | nil => exact .of_pure ⟨settled, .refl _, fun _ _ _ hc => nomatch hc⟩
  | cons l lefts ih =>
    cases rights with
    | nil => exact .of_pure ⟨settled, .refl _, fun _ _ _ _ hd => nomatch hd⟩
    | cons r rights =>
      rw [matchChildren]
      refine (each l List.mem_cons_self r List.mem_cons_self unequal settled).bind ?_
      rintro ms u ⟨settledU, subU, exploredU⟩
      refine (ih settledU fun l hl r hr => each l (List.mem_cons_of_mem _ hl) r (List.mem_cons_of_mem _ hr)).bind ?_
      rintro rest u' ⟨settledU', subU', exploredU'⟩
      exact .of_pure ⟨settledU', subU.trans subU', exploredAll_cons.mpr ⟨exploredU.mono subU', exploredU'⟩⟩

theorem compared_ends (hl : left.Numbered) (hr : right.Numbered) :
    Ends (matchNodes left right) (Compared left right) fun _ => True :=
  matchNodes_ends hl hr fun _ _ _ _ => trivial

theorem walked_ends (hl : left.Numbered) (hr : right.Numbered) :
    Ends (matchChildren left.children right.children) (Walked left.children right.children) fun _ => True :=
  matchChildren_ends fun _ childL _ childR => compared_ends (hl.child childL) (hr.child childR)

/-- Whether a comparison ends or fails, all that it has remembered by then is settled. -/
theorem matchNodes_settles (forest : Forest nodes) (ha : left ∈ nodes) (hb : right ∈ nodes)
    (settled : Settled nodes unequal) :
    From unequal (matchNodes left right)
      (fun _ u' => Settled nodes u' ∧ unequal.Within u' ∧ Explored u' left right) (Settled nodes) := by
  induction left using Tree.childInduction generalizing right unequal with
  | step left ih =>
    have numberedL := forest.numbered left ha
    have children := (matchChildren_settles settled fun l childL r childR u settledU =>
      ih l childL (forest.children left ha l childL) (forest.children right hb r childR) settledU).and_ends
        (walked_ends numberedL (forest.numbered right hb))
    obtain ⟨value, ls⟩ := left
    obtain ⟨value', rs⟩ := right
    rw [matchNodes]
    refine (From.ofExcept fun _ _ => settled).bind ?_
    rintro _ _ ⟨same, plainL⟩
    refine (From.ofExcept fun _ _ => same ▸ settled).bind ?_
    rintro _ _ ⟨same', plainR⟩
    rw [same', same]
    refine children.bind ?_
    rintro parts u ⟨walked, settledU, subU, exploredU⟩
    cases verdict : verdict? (.node value ls) (.node value' rs) parts with
    | some entry =>
      have equal := walked.isSome_verdict?_iff.mp (Option.isSome_iff_exists.mpr ⟨entry, verdict⟩)
      exact .of_pure ⟨settledU, subU, .of_children plainL plainR (fun differ => absurd equal differ) exploredU⟩
    | none =>
      -- Only here is a pair remembered, and all positions below it have been explored by now.
      have differ := walked.labels_ne verdict
      have explored : Explored (u.insert _ _) (.node value ls) (.node value' rs) :=
        .of_children plainL plainR (fun _ => PairSet.contains_insert.mpr (.inl (.inl ⟨rfl, rfl⟩)))
          (exploredU.mono PairSet.within_insert)
      refine From.of_modify.bind fun _ _ same => ?_
      rw [same]
      exact .of_pure ⟨settledU.insert forest ha hb differ explored, subU.trans PairSet.within_insert, explored⟩

theorem matchChildren_explored (explored : ExploredAll unequal lefts rights)
    (each : ∀ l ∈ lefts, ∀ r ∈ rights, Explored unequal l r →
      From unequal (matchNodes l r) (fun _ u' => u' = unequal) fun _ => False) :
    From unequal (matchChildren lefts rights) (fun _ u' => u' = unequal) fun _ => False := by
  induction lefts generalizing rights with
  | nil => exact .of_pure rfl
  | cons l lefts ih =>
    cases rights with
    | nil => exact .of_pure rfl
    | cons r rights =>
      obtain ⟨head, tail⟩ := exploredAll_cons.mp explored
      rw [matchChildren]
      refine (each l List.mem_cons_self r List.mem_cons_self head).bind fun ms _ same => ?_
      rw [same]
      refine (ih tail fun l hl r hr => each l (List.mem_cons_of_mem _ hl) r (List.mem_cons_of_mem _ hr)).bind ?_
      intro rest _ same
      exact .of_pure same

theorem matchNodes_explored (hl : left.Numbered) (hr : right.Numbered) (explored : Explored unequal left right) :
    From unequal (matchNodes left right) (fun _ u' => u' = unequal) fun _ => False := by
  induction left using Tree.childInduction generalizing right with
  | step left ih =>
    have children := (matchChildren_explored explored.children fun l childL r childR =>
      ih l childL (hl.child childL) (hr.child childR)).and_ends (walked_ends hl hr)
    obtain ⟨⟨plainL, plainR⟩, known⟩ := explored left right (.here left right)
    obtain ⟨value, ls⟩ := left
    obtain ⟨value', rs⟩ := right
    rw [matchNodes, plainL, plainR]
    refine (From.ofExcept (by rintro _ ⟨⟩)).bind ?_
    rintro _ _ ⟨same, -⟩
    refine (From.ofExcept (by rintro _ ⟨⟩)).bind ?_
    rintro _ _ ⟨same', -⟩
    rw [same', same]
    refine children.bind ?_
    rintro parts u ⟨walked, same⟩
    rw [same]
    cases verdict : verdict? (.node value ls) (.node value' rs) parts with
    | some entry => exact .of_pure rfl
    | none =>
      have present := PairSet.insert_of_contains (known (walked.labels_ne verdict))
      exact From.of_modify.bind fun _ _ same => .of_pure (same.trans present)

end Equality

end TreeAlign
