import ScoutfsItemCache.Key

/-! # Binary search trees, search paths and augmented erase

The item cache keeps its items and its cached ranges in Linux rbtrees.
This module models the part of the rbtree API `item.c` relies on, over a
plain binary tree:

* a search path (`Frame` list, innermost frame first) stands for the
  `rb_node **` a descent leaves behind and for the parent pointers of a
  node; `plug` re-attaches a subtree below a path;
* `descend` is the `while (node)` loop every lookup and insertion runs,
  with hooks for the updates `insert_item` makes to the nodes it passes;
* `propagateFrames`/`propagateNode` are the `propagate` callback of
  `struct rb_augment_callbacks`, stopping at the first ancestor whose
  value does not change;
* `rbEraseAugmented` is `rb_erase_augmented`: splicing out a node with
  at most one child, or replacing it by its successor, with the `copy`
  and `propagate` callbacks at the places the library calls them.

The recolouring rotations of the red-black rebalancing are not part of
these functions; `rotateAug` models one rotation, left or right, with its
`rotate` callback, and runs may apply it at any node.

Every result about the trees is stated through the in-order list
`Tree.toList`, up to a projection `π` that forgets what the callbacks
recompute.
-/

namespace ScoutfsItemCache

/-- A binary tree of `α` values, the shape of an `rb_root`. -/
inductive Tree (α : Type) where
  | nil
  | node (l : Tree α) (x : α) (r : Tree α)
deriving DecidableEq, Repr

namespace Tree

variable {α : Type}

/-- The in-order sequence of the tree (`rb_first`, `rb_next`, …). -/
def toList : Tree α → List α
  | nil => []
  | node l x r => l.toList ++ x :: r.toList

/-- The number of nodes. -/
def size : Tree α → Nat
  | nil => 0
  | node l _ r => l.size + 1 + r.size

/-- The value at the root, `NULL` for the empty tree. -/
def root : Tree α → Option α
  | nil => none
  | node _ x _ => some x

@[simp] theorem toList_nil : (nil : Tree α).toList = [] := rfl
@[simp] theorem toList_node (l : Tree α) (x : α) (r : Tree α) :
    (node l x r).toList = l.toList ++ x :: r.toList := rfl
@[simp] theorem size_nil : (nil : Tree α).size = 0 := rfl
@[simp] theorem size_node (l : Tree α) (x : α) (r : Tree α) :
    (node l x r).size = l.size + 1 + r.size := rfl
@[simp] theorem root_nil : (nil : Tree α).root = none := rfl
@[simp] theorem root_node (l : Tree α) (x : α) (r : Tree α) :
    (node l x r).root = some x := rfl

@[simp] theorem length_toList (t : Tree α) : t.toList.length = t.size := by
  induction t with
  | nil => rfl
  | node l x r ihl ihr => simp [ihl, ihr]; omega

end Tree

/-! ## Search paths -/

/-- One step of a search path: the descent went into the left child of a
node holding `x` whose right subtree is `r`, or into the right child of a
node holding `x` whose left subtree is `l`. -/
inductive Frame (α : Type) where
  | left (x : α) (r : Tree α)
  | right (l : Tree α) (x : α)
deriving DecidableEq, Repr

namespace Frame

variable {α : Type}

/-- Put a subtree back in the place the frame describes. -/
def attach : Frame α → Tree α → Tree α
  | left x r, t => .node t x r
  | right l x, t => .node l x t

/-- The value of the parent node. -/
def parent : Frame α → α
  | left x _ => x
  | right _ x => x

/-- The frame with the parent's value replaced. -/
def setParent : Frame α → α → Frame α
  | left _ r, y => left y r
  | right l _, y => right l y

/-- The value an augmentation callback computes for the parent, given the
child subtree `t` in the frame's place. -/
def recompute (aug : Tree α → α → Tree α → α) : Frame α → Tree α → α
  | left x r, t => aug t x r
  | right l x, t => aug l x t

@[simp] theorem attach_left (x : α) (r t : Tree α) : (left x r).attach t = .node t x r := rfl
@[simp] theorem attach_right (l : Tree α) (x : α) (t : Tree α) :
    (right l x).attach t = .node l x t := rfl

end Frame

variable {α β : Type}

/-- Re-attach a subtree below a search path (innermost frame first). -/
def plug : List (Frame α) → Tree α → Tree α
  | [], t => t
  | f :: p, t => plug p (f.attach t)

/-- The in-order part of the tree that lies before the focus of a path. -/
def lefts : List (Frame α) → List α
  | [] => []
  | .left _ _ :: p => lefts p
  | .right l x :: p => lefts p ++ l.toList ++ [x]

/-- The in-order part of the tree that lies after the focus of a path. -/
def rights : List (Frame α) → List α
  | [] => []
  | .left x r :: p => x :: r.toList ++ rights p
  | .right _ _ :: p => rights p

/-- The innermost ancestor whose left subtree holds the focus: the `*next`
a descent records. -/
def nextParent : List (Frame α) → Option α
  | [] => none
  | .left x _ :: _ => some x
  | .right _ _ :: p => nextParent p

/-- The innermost ancestor whose right subtree holds the focus: the `*prev`
a descent records. -/
def prevParent : List (Frame α) → Option α
  | [] => none
  | .left _ _ :: p => prevParent p
  | .right _ x :: _ => some x

@[simp] theorem plug_nil (t : Tree α) : plug [] t = t := rfl
@[simp] theorem plug_cons (f : Frame α) (p : List (Frame α)) (t : Tree α) :
    plug (f :: p) t = plug p (f.attach t) := rfl
@[simp] theorem lefts_nil : lefts ([] : List (Frame α)) = [] := rfl
@[simp] theorem rights_nil : rights ([] : List (Frame α)) = [] := rfl
@[simp] theorem lefts_left (x : α) (r : Tree α) (p : List (Frame α)) :
    lefts (.left x r :: p) = lefts p := rfl
@[simp] theorem lefts_right (l : Tree α) (x : α) (p : List (Frame α)) :
    lefts (.right l x :: p) = lefts p ++ l.toList ++ [x] := rfl
@[simp] theorem rights_left (x : α) (r : Tree α) (p : List (Frame α)) :
    rights (.left x r :: p) = x :: r.toList ++ rights p := rfl
@[simp] theorem rights_right (l : Tree α) (x : α) (p : List (Frame α)) :
    rights (.right l x :: p) = rights p := rfl

/-- The in-order sequence of a plugged tree. -/
theorem toList_plug (p : List (Frame α)) (t : Tree α) :
    (plug p t).toList = lefts p ++ t.toList ++ rights p := by
  induction p generalizing t with
  | nil => simp
  | cons f p ih => cases f <;> simp [ih]

theorem nextParent_eq_head (p : List (Frame α)) : nextParent p = (rights p).head? := by
  induction p with
  | nil => rfl
  | cons f p ih => cases f <;> simp [nextParent, ih]

theorem prevParent_eq_getLast (p : List (Frame α)) : prevParent p = (lefts p).getLast? := by
  induction p with
  | nil => rfl
  | cons f p ih => cases f <;> simp [prevParent, ih, List.getLast?_append]

/-- The number of nodes of a plugged tree. -/
theorem size_plug (p : List (Frame α)) (t : Tree α) :
    (plug p t).size = (lefts p).length + t.size + (rights p).length := by
  rw [← Tree.length_toList, toList_plug]; simp; omega

/-! ## Descent -/

/-- The `while (node)` descent of an rbtree search: `cmp x` is the sign of
the comparison of the searched position with the node's value. It stops at
a node with `cmp x = 0` or at an empty child, returning the path and the
focus. `markL`/`markR` are applied to each node the descent leaves to the
left/right (the bit updates of `insert_item`). -/
def descend (cmp : α → Int) (markL markR : α → α) :
    List (Frame α) → Tree α → List (Frame α) × Tree α
  | p, .nil => (p, .nil)
  | p, .node l x r =>
    if cmp x < 0 then descend cmp markL markR (.left (markL x) r :: p) l
    else if 0 < cmp x then descend cmp markL markR (.right l (markR x) :: p) r
    else (p, .node l x r)

section Descend

variable (cmp : α → Int) (markL markR : α → α)

/-- A descent without updates rebuilds the tree it started from. -/
theorem plug_descend_id (p : List (Frame α)) (t : Tree α) :
    plug (descend cmp id id p t).1 (descend cmp id id p t).2 = plug p t := by
  induction t generalizing p with
  | nil => rfl
  | node l x r ihl ihr =>
    simp only [descend]
    split_ifs
    · rw [ihl]; rfl
    · rw [ihr]; rfl
    · rfl

/-- A descent with updates that a projection `π` does not see rebuilds the
tree up to `π`. -/
theorem toList_descend_map (π : α → β) (hL : ∀ x, π (markL x) = π x) (hR : ∀ x, π (markR x) = π x)
    (p : List (Frame α)) (t : Tree α) :
    (plug (descend cmp markL markR p t).1 (descend cmp markL markR p t).2).toList.map π =
      (plug p t).toList.map π := by
  induction t generalizing p with
  | nil => rfl
  | node l x r ihl ihr =>
    simp only [descend]
    split_ifs
    · rw [ihl]; simp [toList_plug, hL]
    · rw [ihr]; simp [toList_plug, hR]
    · rfl

/-- The descent never changes the number of nodes. -/
theorem size_descend (p : List (Frame α)) (t : Tree α) :
    (plug (descend cmp markL markR p t).1 (descend cmp markL markR p t).2).size =
      (plug p t).size := by
  induction t generalizing p with
  | nil => rfl
  | node l x r ihl ihr =>
    simp only [descend]
    split_ifs
    · rw [ihl]; simp [size_plug]
    · rw [ihr]; simp [size_plug]
    · rfl

/-- The focus a descent stops at is a subtree no larger than where it started,
and equal in size only when it did not move. -/
theorem size_descend_focus (p : List (Frame α)) (t : Tree α) :
    (descend cmp markL markR p t).2.size < t.size ∨ (descend cmp markL markR p t) = (p, t) := by
  induction t generalizing p with
  | nil => right; rfl
  | node l x r ihl ihr =>
    simp only [descend]
    split_ifs
    · left
      rcases ihl (.left (markL x) r :: p) with h | h
      · simp; omega
      · rw [h]; simp; omega
    · left
      rcases ihr (.right l (markR x) :: p) with h | h
      · simp; omega
      · rw [h]; simp
    · right; rfl

/-- The focus of a descent is empty or a node the comparison does not
order either way. -/
theorem descend_focus (p : List (Frame α)) (t : Tree α) :
    (descend cmp markL markR p t).2 = .nil ∨
      ∃ l x r, (descend cmp markL markR p t).2 = .node l x r ∧ cmp x = 0 := by
  induction t generalizing p with
  | nil => left; rfl
  | node l x r ihl ihr =>
    simp only [descend]
    split_ifs with h1 h2
    · exact ihl _
    · exact ihr _
    · right; exact ⟨l, x, r, rfl, by omega⟩

/-- Two comparison results in in-order position: a position below the
earlier value is below the later one, a position above the later value is
above the earlier one. -/
def CmpOrdered (a b : Int) : Prop := (a < 0 → b < 0) ∧ (0 < b → 0 < a)

/-- In a tree whose comparison results are ordered, a node's comparison
bounds those of its two subtrees. -/
theorem cmpOrdered_node {p : List (Frame α)} {l r : Tree α} {x : α}
    (h : ((plug p (.node l x r)).toList.map cmp).Pairwise CmpOrdered) :
    (∀ y ∈ l.toList, CmpOrdered (cmp y) (cmp x)) ∧ (∀ y ∈ r.toList, CmpOrdered (cmp x) (cmp y)) := by
  rw [toList_plug] at h
  have hsub := h.sublist (((List.sublist_append_right (lefts p) _).trans
    (List.sublist_append_left _ (rights p))).map cmp)
  simp only [Tree.toList_node, List.map_append, List.map_cons, List.pairwise_append,
    List.pairwise_cons, List.mem_map, List.mem_cons] at hsub
  refine ⟨fun y hy => hsub.2.2 _ ⟨y, hy, rfl⟩ _ (.inl rfl), fun y hy => hsub.2.1.1 _ ⟨y, hy, rfl⟩⟩

/-- Separation: after a descent over a tree whose comparison results are
ordered, everything before the focus lies below the searched position and
everything after it above. -/
theorem descend_separates (hL : ∀ x, cmp (markL x) = cmp x) (hR : ∀ x, cmp (markR x) = cmp x)
    (p : List (Frame α)) (t : Tree α)
    (hmono : ((plug p t).toList.map cmp).Pairwise CmpOrdered)
    (hl : ∀ y ∈ lefts p, 0 < cmp y) (hr : ∀ y ∈ rights p, cmp y < 0) :
    (∀ y ∈ lefts (descend cmp markL markR p t).1, 0 < cmp y) ∧
      (∀ y ∈ rights (descend cmp markL markR p t).1, cmp y < 0) := by
  induction t generalizing p with
  | nil => exact ⟨hl, hr⟩
  | node l x r ihl ihr =>
    obtain ⟨hlx, hxr⟩ := cmpOrdered_node cmp hmono
    simp only [descend]
    split_ifs with h1 h2
    · refine ihl _ (by simpa [toList_plug, hL] using hmono) hl ?_
      intro y hy
      simp only [rights_left, List.cons_append, List.mem_cons, List.mem_append] at hy
      rcases hy with rfl | hy | hy
      · rwa [hL]
      · exact (hxr y hy).1 h1
      · exact hr y hy
    · refine ihr _ (by simpa [toList_plug, hR] using hmono) ?_ hr
      intro y hy
      simp only [lefts_right, List.mem_append, List.mem_singleton] at hy
      rcases hy with (hy | hy) | rfl
      · exact hl y hy
      · exact (hlx y hy).2 (by omega)
      · rw [hR]; omega
    · exact ⟨hl, hr⟩

end Descend

/-! ## Augmentation callbacks -/

section Augment

variable [DecidableEq α] (aug : Tree α → α → Tree α → α)

/-- The `propagate` callback run from the parent of the focus up to the
root: each ancestor's value is recomputed from its children, and the walk
stops at the first one whose value does not change. Returns the updated
path; the focus is left as it is. -/
def propagateFrames : List (Frame α) → Tree α → List (Frame α)
  | [], _ => []
  | f :: p, t =>
    if f.recompute aug t = f.parent then f :: p
    else f.setParent (f.recompute aug t) ::
      propagateFrames p ((f.setParent (f.recompute aug t)).attach t)

/-- The `propagate` callback started at the focus node itself. -/
def propagateNode (p : List (Frame α)) : Tree α → List (Frame α) × Tree α
  | .nil => (p, .nil)
  | .node l x r =>
    if aug l x r = x then (p, .node l x r)
    else (propagateFrames aug p (.node l (aug l x r) r), .node l (aug l x r) r)

/-- The leftmost node below a subtree: the path to it and the node. -/
def leftmostPath : List (Frame α) → Tree α → List (Frame α) × Tree α
  | p, .node (.node ll lx lr) x r => leftmostPath (.left x r :: p) (.node ll lx lr)
  | p, t => (p, t)

/-- `rb_erase_augmented` of the focus node of a path, before rebalancing. A
node without a left or without a right child is replaced by its other
child and the values are propagated from its parent. Otherwise its
successor takes its place: the successor's value is recomputed by `copy`
(with its children at that moment), the values from the successor's old
parent up to the old right child are propagated, and finally the values
from the successor up to the root. -/
def rbEraseAugmented (p : List (Frame α)) : Tree α → Tree α
  | .nil => plug p .nil
  | .node .nil _ r => plug (propagateFrames aug p r) r
  | .node l _ .nil => plug (propagateFrames aug p l) l
  | .node l _ (.node .nil y yr) =>
    let q := propagateNode aug p (.node l (aug .nil y yr) yr)
    plug q.1 q.2
  | .node l _ (.node (.node ll lx lr) y yr) =>
    match leftmostPath [.left y yr] (.node ll lx lr) with
    | (q, .node _ s sr) =>
      let s' := aug .nil s (.node (.node ll lx lr) y yr)
      let r' := plug (propagateFrames aug q sr) sr
      let u := propagateNode aug p (.node l s' r')
      plug u.1 u.2
    | (_, .nil) => plug p .nil

/-- One rotation of the red-black rebalancing with its `rotate` callback:
the old parent's value is recomputed first, then the new parent's, as
`scoutfs_item_rb_rotate` does. `left` rotates the right child up. -/
def rotateAug : Bool → Tree α → Tree α
  | true, .node a x (.node b y c) =>
    .node (.node a (aug a x b) b) (aug (.node a (aug a x b) b) y c) c
  | false, .node (.node a x b) y c =>
    .node a (aug a x (.node b (aug b y c) c)) (.node b (aug b y c) c)
  | _, t => t

variable (π : α → β) (hπ : ∀ l x r, π (aug l x r) = π x)
include hπ

theorem propagateFrames_lefts (p : List (Frame α)) (t : Tree α) :
    (lefts (propagateFrames aug p t)).map π = (lefts p).map π := by
  induction p generalizing t with
  | nil => rfl
  | cons f p ih =>
    simp only [propagateFrames]
    split_ifs
    · rfl
    · cases f <;> simp [Frame.setParent, Frame.recompute, ih, hπ]

theorem propagateFrames_rights (p : List (Frame α)) (t : Tree α) :
    (rights (propagateFrames aug p t)).map π = (rights p).map π := by
  induction p generalizing t with
  | nil => rfl
  | cons f p ih =>
    simp only [propagateFrames]
    split_ifs
    · rfl
    · cases f <;> simp [Frame.setParent, Frame.recompute, ih, hπ]

/-- Propagation changes only what `π` forgets. -/
theorem toList_propagateFrames (p : List (Frame α)) (t : Tree α) :
    (plug (propagateFrames aug p t) t).toList.map π = (plug p t).toList.map π := by
  simp only [toList_plug, List.map_append, propagateFrames_lefts aug π hπ,
    propagateFrames_rights aug π hπ]

theorem toList_propagateNode (p : List (Frame α)) (t : Tree α) :
    (plug (propagateNode aug p t).1 (propagateNode aug p t).2).toList.map π =
      (plug p t).toList.map π := by
  cases t with
  | nil => rfl
  | node l x r =>
    simp only [propagateNode]
    split_ifs
    · rfl
    · rw [toList_propagateFrames aug π hπ]; simp [toList_plug, hπ]

theorem size_propagateFrames (p : List (Frame α)) (t : Tree α) :
    (plug (propagateFrames aug p t) t).size = (plug p t).size := by
  rw [← Tree.length_toList, ← Tree.length_toList, ← List.length_map _ π,
    toList_propagateFrames aug π hπ, List.length_map]

omit [DecidableEq α] hπ in
/-- The leftmost descent from a node ends at a node without left child,
only goes left, and keeps the tree. -/
theorem leftmostPath_spec (q : List (Frame α)) (l : Tree α) (x : α) (r : Tree α) :
    ∃ q' s sr, leftmostPath q (.node l x r) = (q', .node .nil s sr) ∧
      plug q' (.node .nil s sr) = plug q (.node l x r) ∧ lefts q' = lefts q := by
  induction l generalizing q x r with
  | nil => exact ⟨q, x, r, rfl, rfl, rfl⟩
  | node ll lx lr ihl _ =>
    obtain ⟨q', s, sr, h1, h2, h3⟩ := ihl (.left x r :: q) lx lr
    exact ⟨q', s, sr, h1, h2, h3⟩

/-- `rb_erase_augmented` removes exactly the focus node from the in-order
sequence, up to what the callbacks recompute. -/
theorem toList_rbEraseAugmented (p : List (Frame α)) (l : Tree α) (x : α) (r : Tree α) :
    (rbEraseAugmented aug p (.node l x r)).toList.map π =
      (lefts p ++ l.toList ++ r.toList ++ rights p).map π := by
  match l, r with
  | .nil, r =>
    simp only [rbEraseAugmented]
    rw [toList_propagateFrames aug π hπ, toList_plug]; simp
  | .node ll lx lr, .nil =>
    simp only [rbEraseAugmented]
    rw [toList_propagateFrames aug π hπ, toList_plug]; simp
  | .node ll lx lr, .node .nil y yr =>
    simp only [rbEraseAugmented]
    rw [toList_propagateNode aug π hπ, toList_plug]; simp [hπ]
  | .node a b c, .node (.node ll lx lr) y yr =>
    obtain ⟨q, s, sr, hlm, hplug, hlefts⟩ := leftmostPath_spec [.left y yr] ll lx lr
    have hr : (Tree.node (.node ll lx lr) y yr).toList = s :: sr.toList ++ rights q := by
      have := congrArg Tree.toList hplug
      rw [toList_plug, toList_plug, hlefts] at this
      simpa using this.symm
    simp only [rbEraseAugmented, hlm]
    rw [toList_propagateNode aug π hπ, toList_plug]
    simp only [Tree.toList_node, List.map_append, List.map_cons, hπ]
    rw [toList_propagateFrames aug π hπ, toList_plug, hlefts]
    have h2 := congrArg (fun L => L.map π ++ (rights p).map π) hr
    simp only [Tree.toList_node, List.map_append, List.map_cons, List.append_assoc,
      List.cons_append, lefts_left, lefts_nil, List.map_nil, List.nil_append] at h2 ⊢
    rw [h2]

theorem size_rbEraseAugmented (p : List (Frame α)) (l : Tree α) (x : α) (r : Tree α) :
    (rbEraseAugmented aug p (.node l x r)).size + 1 = (plug p (.node l x r)).size := by
  have h := congrArg List.length (toList_rbEraseAugmented aug π hπ p l x r)
  simp only [List.length_map, Tree.length_toList, List.length_append] at h
  rw [h, size_plug]; simp; omega

omit [DecidableEq α] in
/-- A rotation changes only what `π` forgets. -/
theorem toList_rotateAug (left : Bool) (t : Tree α) :
    (rotateAug aug left t).toList.map π = t.toList.map π := by
  unfold rotateAug
  split <;> simp [hπ]

end Augment

end ScoutfsItemCache
