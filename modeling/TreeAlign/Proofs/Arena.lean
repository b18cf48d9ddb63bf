import Mathlib.Data.Set.Card
import Mathlib.Logic.Relation
import TreeAlign.Proofs.Cover.Crossing
import TreeAlign.Proofs.Outlines
import TreeAlign.Proofs.Refinement

namespace TreeAlign

/-- What a table says of one node: the places of its parent and its children, what it carries, and the number of nodes
at and below it. -/
structure Slot where
  parent : Option Nat
  children : List Nat
  content : Content
  size : Nat
deriving DecidableEq, Repr

def Slot.adopt (slot : Slot) (places : List Nat) (size : Nat) : Slot :=
  { slot with children := slot.children ++ places, size := slot.size + size }

namespace Outline

def adoptAt (index place : Nat) (slots : Array Slot) : Array Slot :=
  match slots[place]? with
  | some child => slots.modify index (·.adopt [place] child.size)
  | none => slots

mutual

def flatten (parent : Option Nat) : Outline → Array Slot → Array Slot
  | .node content children, slots =>
    flattenAll slots.size children (slots.push { parent, children := [], content, size := 1 })

def flattenAll (index : Nat) : List Outline → Array Slot → Array Slot
  | [], slots => slots
  | t :: ts, slots => flattenAll index ts (adoptAt index slots.size (flatten (some index) t slots))

end

/-- The outline of the node at a place, read from the contents and the places of the children; `none` for one that is
deeper than `depth`. -/
def rebuild (slots : Array Slot) : (depth : Nat) → (place : Nat) → Option Outline
  | 0, _ => none
  | depth + 1, place => do
    let slot ← slots[place]?
    return .node slot.content (← slot.children.mapM (rebuild slots depth))

end Outline

def Site.slot (base : NodeId) (site : Site) : Slot where
  parent := site.parent?.map (·.id - base)
  children := site.children.map (·.id - base)
  content := site.node.content
  size := site.size

namespace Site

variable {root s t : Site}

theorem length_preorder (site : Site) : site.preorder.length = site.size := by
  rw [← List.length_map node, map_node_preorder, Tree.length_preorder, Site.size]

theorem getElem?_preorder (numbered : root.node.Numbered) (hs : s ∈ root.preorder) :
    root.preorder[s.id - root.id]? = some s := by
  obtain ⟨i, found⟩ := List.mem_iff_getElem?.mp hs
  rwa [id_of_getElem? numbered found, Nat.add_sub_cancel_left]

theorem preorder_infix (hs : s ∈ root.preorder) : s.preorder <:+: root.preorder := by
  obtain ⟨node, above⟩ := root
  induction node using Tree.childInduction generalizing above with
  | step node ih =>
    rcases mem_preorder_iff.mp hs with rfl | ⟨child, hchild, below⟩
    · exact List.infix_rfl
    · have inner := ih child.node (node_mem_of_mem_children hchild) child.above below
      have among : child.preorder <:+: (children ⟨node, above⟩).flatMap preorder :=
        List.infix_of_mem_flatten (List.mem_map_of_mem hchild)
      rw [preorder_eq ⟨node, above⟩]
      exact (inner.trans among).trans (List.infix_cons List.infix_rfl)

theorem preorder_eq_block (numbered : root.node.Numbered) (hs : s ∈ root.preorder) :
    s.preorder = (root.preorder.drop (s.id - root.id)).take s.size := by
  obtain ⟨before, after, split⟩ := preorder_infix hs
  have found : root.preorder[before.length]? = some s := by
    rw [← split, preorder_eq s]
    simp
  have place : s.id - root.id = before.length := by
    rw [id_of_getElem? numbered found, Nat.add_sub_cancel_left]
  rw [place, ← split, List.append_assoc, List.drop_left, ← length_preorder, List.take_left]

theorem nodup_preorder (numbered : s.node.Numbered) : s.preorder.Nodup := by
  have nodup : (s.preorder.map id).Nodup := s.map_id_preorder ▸ numbered.nodup
  exact nodup.of_map

def IsChild (s t : Site) : Prop :=
  t ∈ s.children

theorem mem_preorder_iff_reflTransGen : t ∈ s.preorder ↔ Relation.ReflTransGen IsChild s t := by
  constructor
  · intro below
    obtain ⟨node, above⟩ := s
    induction node using Tree.childInduction generalizing above with
    | step node ih =>
      rcases mem_preorder_iff.mp below with rfl | ⟨child, hchild, inner⟩
      · exact .refl
      · exact .head hchild (ih child.node (node_mem_of_mem_children hchild) child.above inner)
  · intro way
    induction way with
    | refl => exact s.self_mem_preorder
    | tail _ child ih => exact child_mem_preorder child ih

theorem size_eq_descendants (numbered : s.node.Numbered) : s.size = {t | Relation.TransGen IsChild s t}.ncard + 1 := by
  classical
  have below : {t | Relation.TransGen IsChild s t} = ((s.children.flatMap preorder).toFinset : Set Site) := by
    ext t
    simp only [Set.mem_ofPred_eq, Relation.TransGen.head'_iff, List.coe_toFinset, List.mem_flatMap,
      mem_preorder_iff_reflTransGen]
    rfl
  have nodup := nodup_preorder numbered
  rw [preorder_eq, List.nodup_cons] at nodup
  rw [below, Set.ncard_coe_finset, List.toFinset_card_of_nodup nodup.2, ← length_preorder, preorder_eq, List.length_cons]

end Site

namespace Outline

open Site

section Flatten

variable {slots : Array Slot} {before after : List Slot} {slot child : Slot}

theorem toList_adoptAt (split : slots.toList = before ++ slot :: after) {place : Nat} (found : slots[place]? = some child) :
    (adoptAt before.length place slots).toList = before ++ slot.adopt [place] child.size :: after := by
  unfold adoptAt
  rw [found]
  simp only [Array.toList_modify, split]
  rw [List.modify_eq_take_cons_drop (by simp)]
  simp

theorem adopt_adopt (places more : List Nat) (size rest : Nat) :
    (slot.adopt places size).adopt more rest = slot.adopt (places ++ more) (size + rest) := by
  simp [Slot.adopt, Nat.add_assoc]

theorem preorderBelow_eq_cons (above : List Node) (node : Node) :
    preorderBelow above node = ⟨node, above⟩ :: preordersBelow (node :: above) node.children := by
  obtain ⟨value, children⟩ := node
  rfl

theorem adopt_children (base first : NodeId) (above : List Node) (content : Content) (children : List Outline) :
    Slot.adopt { parent := above.head?.map (·.id - base), children := [], content, size := 1 }
        ((Tree.numbers (first + 1) children).map (·.id - base)) (Tree.sizes children) =
      Site.slot base ⟨Tree.number first (.node content children), above⟩ := by
  have size : (Tree.number first (.node content children)).size = 1 + Tree.sizes children := by
    rw [Tree.size_number, Tree.size, Nat.add_comm]
  have parent : above.head?.map (·.id - base) =
      (parent? ⟨Tree.number first (.node content children), above⟩).map (·.id - base) := by
    cases above <;> rfl
  simp only [Slot.adopt, Site.slot, Site.size, size, parent, List.nil_append, Site.children, List.map_map]
  rfl

mutual

theorem toList_flatten (t : Outline) (base : NodeId) (above : List Node) (slots : Array Slot) :
    (flatten (above.head?.map (·.id - base)) t slots).toList =
      slots.toList ++ (preorderBelow above (t.number (base + slots.size))).map (Site.slot base) := by
  cases t with
  | node content children =>
    let slot : Slot := { parent := above.head?.map (·.id - base), children := [], content, size := 1 }
    have laid := toList_flattenAll children base (Tree.number (base + slots.size) (.node content children)) above
      (slots.push slot) slots.toList [] slot Array.toList_push rfl
    rw [Array.length_toList, Array.size_push, ← Nat.add_assoc, adopt_children, List.nil_append] at laid
    rw [flatten, laid, preorderBelow_eq_cons, List.map_cons]
    rfl

theorem toList_flattenAll (ts : List Outline) (base : NodeId) (parent : Node) (above : List Node) (slots : Array Slot)
    (before after : List Slot) (slot : Slot) (split : slots.toList = before ++ slot :: after)
    (here : parent.id = base + before.length) :
    (flattenAll before.length ts slots).toList =
      before ++ slot.adopt ((Tree.numbers (base + slots.size) ts).map (·.id - base)) (Tree.sizes ts) ::
        (after ++ (preordersBelow (parent :: above) (Tree.numbers (base + slots.size) ts)).map (Site.slot base)) := by
  cases ts with
  | nil => simp [flattenAll, split, Slot.adopt, Tree.numbers, Tree.sizes, preordersBelow]
  | cons t ts =>
    -- The slots before the end stay where they are, so the parent is still found after the child is appended.
    let node := t.number (base + slots.size)
    have laid := toList_flatten t base (parent :: above) slots
    rw [show ((parent :: above).head?.map (·.id - base)) = some before.length by simp [here]] at laid
    have split' : (flatten (some before.length) t slots).toList =
        before ++ slot :: (after ++ (preorderBelow (parent :: above) node).map (Site.slot base)) := by
      rw [laid, split, List.append_assoc, List.cons_append]
    have found : (flatten (some before.length) t slots)[slots.size]? = some (Site.slot base ⟨node, parent :: above⟩) := by
      rw [← Array.getElem?_toList, laid, preorderBelow_eq_cons]
      simp [node]
    have adopted := toList_adoptAt split' found
    have size : (adoptAt before.length slots.size (flatten (some before.length) t slots)).size = slots.size + t.size := by
      have length : (preorderBelow (parent :: above) node).length = t.size :=
        (length_preorder ⟨node, parent :: above⟩).trans (Tree.size_number t _)
      have width := congrArg List.length split
      rw [← Array.length_toList, adopted]
      simp only [Array.length_toList, List.length_append, List.length_cons, List.length_map, length] at width ⊢
      omega
    have rest := toList_flattenAll ts base parent above _ before _ _ adopted here
    have place : node.id - base = slots.size := by
      rw [(Tree.number_numbered t _).1, Nat.add_sub_cancel_left]
    have own : (Site.slot base ⟨node, parent :: above⟩).size = t.size := Tree.size_number t _
    rw [flattenAll, rest, size, adopt_adopt, own, ← Nat.add_assoc, List.append_assoc, ← List.map_append,
      Tree.numbers, List.map_cons, place, Tree.sizes, preordersBelow]
    rfl

end

end Flatten

def table (outline : Outline) : Array Slot :=
  flatten none outline #[]

theorem toList_table (outline : Outline) (first : NodeId) :
    outline.table.toList = (Site.root (outline.number first)).preorder.map (Site.slot (outline.number first).id) := by
  rw [(outline.number_numbered first).1]
  exact toList_flatten outline first [] #[]

example (c : Content) : (table (.node c [.node c [.node c []], .node c []])).toList =
    [⟨none, [1, 3], c, 4⟩, ⟨some 0, [2], c, 2⟩, ⟨some 1, [], c, 1⟩, ⟨some 0, [], c, 1⟩] := rfl

section Rebuild

mutual

theorem outline_number (t : Outline) (first : NodeId) : (t.number first).outline = t := by
  cases t with
  | node content children =>
    exact congrArg (Tree.node content) (outline_numbers children (first + 1))

theorem outline_numbers (ts : List Outline) (first : NodeId) : Tree.maps Prod.snd (Tree.numbers first ts) = ts := by
  cases ts with
  | nil => rfl
  | cons t ts =>
    rw [Tree.numbers, Tree.maps, outline_numbers ts]
    exact congrArg (· :: ts) (outline_number t first)

end

theorem mapM_eq_some {α β : Type} {f : α → Option β} {g : α → β} {xs : List α} (each : ∀ x ∈ xs, f x = some (g x)) :
    xs.mapM f = some (xs.map g) := by
  induction xs with
  | nil => rfl
  | cons x xs ih =>
    rw [List.mapM_cons, each x List.mem_cons_self, ih fun y member => each y (List.mem_cons_of_mem x member)]
    rfl

theorem rebuild_of_mem {tree : Node} (numbered : tree.Numbered) {slots : Array Slot}
    (laid : slots.toList = (Site.root tree).preorder.map (Site.slot tree.id)) {site : Site}
    (member : site ∈ (Site.root tree).preorder) {depth : Nat} (enough : site.size ≤ depth) :
    rebuild slots depth (site.id - tree.id) = some site.node.outline := by
  induction depth generalizing site with
  | zero => exact absurd site.node.size_pos (Nat.not_lt.mpr enough)
  | succ depth ih =>
    have found : slots[site.id - tree.id]? = some (Site.slot tree.id site) := by
      have here : (Site.root tree).preorder[site.id - tree.id]? = some site := getElem?_preorder numbered member
      rw [← Array.getElem?_toList, laid, List.getElem?_map, here, Option.map_some]
    have below : (Site.slot tree.id site).children.mapM (rebuild slots depth) =
        some (site.children.map (·.node.outline)) := by
      rw [Site.slot, List.mapM_map]
      apply mapM_eq_some
      intro child hchild
      have smaller : child.size < site.size := Tree.size_lt_of_child (node_mem_of_mem_children hchild)
      exact ih (child_mem_preorder hchild member) (by omega)
    have outline : site.node.outline = .node site.node.content (site.children.map (·.node.outline)) := by
      rw [← Tree.value_outline, ← Function.comp_def, ← List.map_map, map_node_children, ← Tree.children_outline]
      cases site.node.outline
      rfl
    rw [rebuild, found, Option.bind_eq_bind, Option.bind_some, below, outline]
    rfl

end Rebuild

/-- The table of an outline has its nodes in pre-order, each as it stands in the tree, and is enough to rebuild it. -/
structure Tabulates (outline : Outline) (tree : Node) : Prop where
  count : outline.table.size = outline.size
  inPreorder : outline.table.toList = (Site.root tree).preorder.map (Site.slot tree.id)
  rebuilt : rebuild outline.table outline.table.size 0 = some outline

theorem tabulates_number (outline : Outline) (first : NodeId) : outline.Tabulates (outline.number first) := by
  have laid := outline.toList_table first
  have size : (Site.root (outline.number first)).size = outline.size := outline.size_number first
  have count : outline.table.size = outline.size := by
    rw [← Array.length_toList, laid, List.length_map, length_preorder, size]
  refine ⟨count, laid, ?_⟩
  have whole := rebuild_of_mem (outline.number_numbered first).2 laid (self_mem_preorder _) (size.trans count.symm).le
  rwa [show (Site.root (outline.number first)).id - (outline.number first).id = 0 from Nat.sub_self _, Site.root,
    outline_number] at whole

theorem tabulates_numbers (outlines : List Outline) (first : NodeId) :
    List.Forall₂ Tabulates outlines (Tree.numbers first outlines) := by
  induction outlines generalizing first with
  | nil => exact .nil
  | cons outline outlines ih => exact .cons (outline.tabulates_number first) (ih _)

end Outline

namespace Site

variable {first : NodeId} {outlines : List Outline} {tree : Node} {a b : Site}

theorem mem_of_parent? (hb : b ∈ (root tree).preorder) (above : b.parent? = some a) :
    a ∈ (root tree).preorder ∧ b ∈ a.children := by
  have inner : b ≠ root tree := by
    rintro rfl
    cases above
  obtain ⟨parent, hparent, child⟩ := exists_parent hb inner
  rw [parent?_of_mem_children child, Option.some_inj] at above
  exact above ▸ ⟨hparent, child⟩

section Lookup

variable {site : Site} {i : NodeId}

theorem find?_eq_some_iff (numbered : site.node.Numbered) : site.find? i = some a ↔ a ∈ site.preorder ∧ a.id = i := by
  have sound {s : Site} (found : site.find? i = some s) : s ∈ site.preorder ∧ s.id = i := by
    have same := List.find?_some found
    exact ⟨List.mem_of_find?_eq_some found, beq_iff_eq.mp same⟩
  refine ⟨sound, fun ⟨member, same⟩ => ?_⟩
  obtain ⟨s, found, -⟩ := exists_find? numbered (same ▸ containsId_of_mem numbered member)
  rw [found, eq_of_id_eq numbered (sound found).1 member ((sound found).2.trans same.symm)]

theorem isSome_find? (numbered : site.node.Numbered) : (site.find? i).isSome = site.node.containsId i := by
  rw [Bool.eq_iff_iff, Option.isSome_iff_exists]
  constructor
  · rintro ⟨s, found⟩
    obtain ⟨member, rfl⟩ := (find?_eq_some_iff numbered).mp found
    exact containsId_of_mem numbered member
  · intro inside
    obtain ⟨s, found, -⟩ := exists_find? numbered inside
    exact ⟨s, found⟩

theorem find?_eq_none (numbered : site.node.Numbered) (outside : site.node.containsId i = false) : site.find? i = none := by
  rw [← isSome_find? numbered] at outside
  exact Option.isNone_iff_eq_none.mp (Option.isSome_eq_false_iff.mp outside)

theorem map_node_find? (tree : Node) : tree.find? i = ((root tree).find? i).map node := by
  rw [Tree.find?, ← show (root tree).preorder.map node = tree.preorder from map_node_preorder _, List.find?_map]
  rfl

end Lookup

section Told

variable (ha : a ∈ inTrees (Tree.numberAll first outlines)) (hb : b ∈ inTrees (Tree.numberAll first outlines))

include ha hb

theorem hasChild_iff_mem_children : a.hasChild b = true ↔ b ∈ a.children := by
  refine ⟨fun child => ?_, Candidates.hasChild_of_mem⟩
  obtain ⟨tree, member, below⟩ := List.mem_flatMap.mp hb
  obtain ⟨parent, above, same⟩ := Option.map_eq_some_iff.mp (Candidates.hasChild_iff.mp child)
  obtain ⟨inside, hchild⟩ := mem_of_parent? below above
  exact eq_of_mem_inTrees (List.mem_flatMap.mpr ⟨tree, member, inside⟩) ha same ▸ hchild

theorem contains_iff_mem_path : a.contains b = true ↔ a ∈ b.path := by
  obtain ⟨tree, member, below⟩ := List.mem_flatMap.mp hb
  rw [mem_path_iff below]
  constructor
  · intro inside
    obtain ⟨t, ht, same⟩ := exists_mem_preorder (numbered_of_mem_inTrees ha) inside
    exact eq_of_mem_inTrees (mem_inTrees_below ha ht) hb same ▸ ht
  · exact containsId_of_mem (numbered_of_mem_inTrees ha)

end Told

/-- What the subtree of a node of a tree is: the nodes below it, once each and each before its children, next to each
other in the tree. -/
structure Spans (tree : Node) (a : Site) : Prop where
  size : a.size = {b | Relation.TransGen IsChild a b}.ncard + 1
  below : ∀ b, b ∈ a.preorder ↔ Relation.ReflTransGen IsChild a b
  once : a.preorder.Nodup
  order : a.preorder = a :: a.children.flatMap preorder
  block : a.preorder = ((root tree).preorder.drop (a.id - tree.id)).take a.size

theorem spans_of_mem (numbered : tree.Numbered) (ha : a ∈ (root tree).preorder) : Spans tree a where
  size := size_eq_descendants (numbered_of_mem numbered ha)
  below _ := mem_preorder_iff_reflTransGen
  once := nodup_preorder (numbered_of_mem numbered ha)
  order := preorder_eq a
  block := preorder_eq_block numbered ha

end Site

namespace Tree

theorem sum_sizes_numberAll (first : NodeId) (outlines : List Outline) :
    ((numberAll first outlines).map size).sum = (outlines.map size).sum := by
  rw [← sizes_eq_sum, ← sizes_eq_sum]
  exact sizes_numbers outlines first

theorem pairwise_containsId (first : NodeId) (outlines : List Outline) :
    (numberAll first outlines).Pairwise fun s t => ∀ i, s.containsId i = true → t.containsId i = false := by
  refine (numbers_numberedFrom outlines first).pairwise.imp fun {s t} after i inside => ?_
  rw [← Bool.not_eq_true, containsId_iff]
  rw [containsId_iff] at inside
  lia

end Tree

/-- Trees numbered one after another hold what their outlines say, and their nodes know their places: the table of each
outline is that of its tree, children, parents and ways to the root agree, every subtree is one block of its tree, and
an identity is found in one tree at most. -/
theorem Tree.numberAll_arena (first : NodeId) (outlines : List Outline) :
    let trees := Tree.numberAll first outlines
    let sites := Site.inTrees trees
    List.Forall₂ Outline.Tabulates outlines trees ∧
    (∀ tree ∈ trees, ∀ a ∈ (Site.root tree).preorder, Site.Spans tree a) ∧
    (∀ a ∈ sites, ∀ b ∈ sites, (b ∈ a.children ↔ a.hasChild b = true) ∧ (a.hasChild b = true ↔ b.parent? = some a) ∧
      (a.contains b = true ↔ a ∈ b.path)) ∧
    (sites.map Site.id = List.range' first (outlines.map Tree.size).sum ∧
      (∀ tree ∈ trees, (Site.root tree).preorder.map Site.id = List.range' tree.id tree.size) ∧
      trees.Pairwise fun s t => ((Site.root s).preorder.map Site.id).Disjoint ((Site.root t).preorder.map Site.id)) ∧
    (∀ tree ∈ trees, ∀ i, (∀ a, (Site.root tree).find? i = some a ↔ a ∈ (Site.root tree).preorder ∧ a.id = i) ∧
      ((Site.root tree).find? i).isSome = tree.containsId i ∧ tree.find? i = ((Site.root tree).find? i).map Site.node) ∧
    trees.Pairwise fun s t => ∀ i, (Site.root s).find? i = none ∨ (Site.root t).find? i = none := by
  intro trees sites
  have numberedFrom : NumberedFrom first trees := numbers_numberedFrom outlines first
  have numbered {tree : Node} (member : tree ∈ trees) : tree.Numbered := (numberedFrom.of_mem member).1
  have block {tree : Node} (member : tree ∈ trees) :
      (Site.root tree).preorder.map Site.id = List.range' tree.id tree.size := by
    rw [Site.map_id_preorder]
    exact numbered member
  have apart := pairwise_containsId first outlines
  refine ⟨Outline.tabulates_numbers outlines first, fun tree member a ha => Site.spans_of_mem (numbered member) ha, ?_,
    ⟨?_, fun tree member => block member, ?_⟩, ?_, ?_⟩
  · intro a ha b hb
    obtain ⟨tree, -, below⟩ := List.mem_flatMap.mp hb
    have child := Site.hasChild_iff_mem_children ha hb
    refine ⟨child.symm, child.trans ⟨Site.parent?_of_mem_children, fun above => ?_⟩, Site.contains_iff_mem_path ha hb⟩
    exact (Site.mem_of_parent? below above).2
  · rw [Site.map_id_inTrees, numberedFrom, sum_sizes_numberAll]
  · refine apart.imp_of_mem fun {s t} hs ht apart i inS inT => ?_
    rw [Site.map_id_preorder] at inS inT
    have outside := apart i ((numbered hs).mem_ids.mp inS)
    rw [(numbered ht).mem_ids.mp inT] at outside
    cases outside
  · intro tree member i
    exact ⟨fun a => Site.find?_eq_some_iff (numbered member), Site.isSome_find? (numbered member), Site.map_node_find? tree⟩
  · refine apart.imp_of_mem fun {s t} hs ht apart i => ?_
    cases inside : s.containsId i with
    | false => exact .inl (Site.find?_eq_none (numbered hs) inside)
    | true => exact .inr (Site.find?_eq_none (numbered ht) (apart i inside))

end TreeAlign
