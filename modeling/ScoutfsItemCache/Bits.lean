import ScoutfsItemCache.Augment
import ScoutfsItemCache.Effects

/-! # The subtree bits stay consistent on every path but restore

`Augment` shows the walks right when the bits are (`dirtyBitsOk`), and a
run through `scoutfs_item_restore` that makes them wrong. This module shows
that restore is the only way to make them wrong.

The bits of a tree around a search path are those of the focus and those
the frames carry (`PathBitsOk`, `dirtyBitsOk_plug`). `propagate` from any
parent of a consistent subtree makes the whole tree consistent again
(`dirtyBitsOk_propagateFrames`), because it stops only at an ancestor whose
bits the change did not touch. From this, `rb_erase_augmented` of a clean
node (`dirtyBitsOk_rbEraseAugmented`) and each rotation
(`dirtyBitsOk_rotateAug`) keep the bits, and so do the item primitives that
set or clear `ITEM_DIRTY`, unlink an item, and `insert_item` of an item
whose whole `dirty` field is zero, which passes no bit to the nodes it
descends through.

Every locked section but restore inserts only such items, so each keeps
the bits; restore keeps them when the items it is handed carry no subtree
bits (`ItemCache.BitsOk.scoutfsItemRestore`). Over runs, every world
reached by steps whose restores are of such items has consistent bits
(`leaf_restore_runs_keep_bits`).
-/

namespace ScoutfsItemCache

/-! ## Bits around a search path -/

@[simp] theorem anyDirty_nil : anyDirty .nil = false := rfl

@[simp] theorem anyDirty_node (l : Tree CachedItem) (x : CachedItem) (r : Tree CachedItem) :
    anyDirty (.node l x r) = (anyDirty l || itemIsDirty x || anyDirty r) := by
  simp [anyDirty, Bool.or_assoc]

theorem anyDirty_eq_any_map (t : Tree CachedItem) : anyDirty t = (t.toList.map itemIsDirty).any id := by
  simp [anyDirty, List.any_eq]

@[simp] theorem itemIsDirty_itemAug (l : Tree CachedItem) (it : CachedItem) (r : Tree CachedItem) :
    itemIsDirty (itemAug l it r) = itemIsDirty it := rfl

theorem dirtyBitsOk_node {l r : Tree CachedItem} {x : CachedItem} :
    dirtyBitsOk (.node l x r) = true ↔
      x.dirty.left = anyDirty l ∧ x.dirty.right = anyDirty r ∧ dirtyBitsOk l = true ∧ dirtyBitsOk r = true := by
  simp [dirtyBitsOk, and_assoc]

/-- What `node_dirty_bit` reads from a child with consistent bits: whether
the child's subtree holds a dirty item. -/
theorem nodeDirtyBit_of_ok {t : Tree CachedItem} (h : dirtyBitsOk t = true) : nodeDirtyBit t = anyDirty t := by
  cases t with
  | nil => rfl
  | node l x r =>
    obtain ⟨hl, hr, -, -⟩ := dirtyBitsOk_node.1 h
    simp only [nodeDirtyBit, DirtyBits.nonzero, anyDirty_node, hl, hr, itemIsDirty]
    cases x.dirty.item <;> simp

/-- What the callbacks store in a node over consistent children is consistent. -/
theorem dirtyBitsOk_itemAug {l r : Tree CachedItem} (hl : dirtyBitsOk l = true) (hr : dirtyBitsOk r = true)
    (x : CachedItem) : dirtyBitsOk (.node l (itemAug l x r) r) = true :=
  dirtyBitsOk_node.2 ⟨nodeDirtyBit_of_ok hl, nodeDirtyBit_of_ok hr, hl, hr⟩

/-- A node keeps consistent bits when its item is replaced by one with the
same subtree bits. -/
theorem dirtyBitsOk_node_of_bits {l r : Tree CachedItem} {x y : CachedItem}
    (h : dirtyBitsOk (.node l x r) = true) (hl : y.dirty.left = x.dirty.left) (hr : y.dirty.right = x.dirty.right) :
    dirtyBitsOk (.node l y r) = true := by
  obtain ⟨h1, h2, h3, h4⟩ := dirtyBitsOk_node.1 h
  exact dirtyBitsOk_node.2 ⟨hl.trans h1, hr.trans h2, h3, h4⟩

/-- The frames of a path carry consistent bits for a focus whose subtree
holds a dirty item exactly when `b`: each parent's bit towards the focus
is `b` carried up, and its other bit and other subtree are consistent. -/
def PathBitsOk : List (Frame CachedItem) → Bool → Prop
  | [], _ => True
  | .left x r :: p, b =>
    x.dirty.left = b ∧ x.dirty.right = anyDirty r ∧ dirtyBitsOk r = true ∧
      PathBitsOk p (b || itemIsDirty x || anyDirty r)
  | .right l x :: p, b =>
    x.dirty.left = anyDirty l ∧ x.dirty.right = b ∧ dirtyBitsOk l = true ∧
      PathBitsOk p (anyDirty l || itemIsDirty x || b)

/-- A tree around a path is consistent exactly when the focus is and the
frames are, for the focus's dirtiness. -/
theorem dirtyBitsOk_plug {p : List (Frame CachedItem)} {t : Tree CachedItem} :
    dirtyBitsOk (plug p t) = true ↔ dirtyBitsOk t = true ∧ PathBitsOk p (anyDirty t) := by
  induction p generalizing t with
  | nil => simp [PathBitsOk]
  | cons f p ih =>
    cases f with
    | left x r =>
      simp only [plug_cons, Frame.attach_left, ih, dirtyBitsOk_node, anyDirty_node, PathBitsOk]
      tauto
    | right l x =>
      simp only [plug_cons, Frame.attach_right, ih, dirtyBitsOk_node, anyDirty_node, PathBitsOk]
      tauto

/-! ## The augmented tree functions -/

/-- `propagate` from the parent of a consistent subtree makes the tree
consistent, whatever the focus held before: the walk stops only at an
ancestor whose bit towards the focus already says what the new subtree
holds, and then nothing above it changes. -/
theorem dirtyBitsOk_propagateFrames {p : List (Frame CachedItem)} {b : Bool} (hp : PathBitsOk p b)
    {t : Tree CachedItem} (ht : dirtyBitsOk t = true) : dirtyBitsOk (plug (propagateFrames itemAug p t) t) = true := by
  induction p generalizing t b with
  | nil => exact ht
  | cons f p ih =>
    cases f with
    | left x r =>
      obtain ⟨hb, hr, okr, hp⟩ := hp
      simp only [propagateFrames, Frame.recompute, Frame.parent]
      split_ifs with hstop
      · have hl : x.dirty.left = anyDirty t := by rw [← hstop]; exact nodeDirtyBit_of_ok ht
        rw [plug_cons, Frame.attach_left, dirtyBitsOk_plug, anyDirty_node, ← hl, hb]
        exact ⟨dirtyBitsOk_node.2 ⟨hl, hr, ht, okr⟩, hp⟩
      · exact ih hp (dirtyBitsOk_itemAug ht okr x)
    | right l x =>
      obtain ⟨hl, hb, okl, hp⟩ := hp
      simp only [propagateFrames, Frame.recompute, Frame.parent]
      split_ifs with hstop
      · have hr : x.dirty.right = anyDirty t := by rw [← hstop]; exact nodeDirtyBit_of_ok ht
        rw [plug_cons, Frame.attach_right, dirtyBitsOk_plug, anyDirty_node, ← hr, hb]
        exact ⟨dirtyBitsOk_node.2 ⟨hl, hr, okl, ht⟩, hp⟩
      · exact ih hp (dirtyBitsOk_itemAug okl ht x)

/-- `propagate` started at a node over consistent children, below frames
that are consistent for the node's dirtiness. -/
theorem dirtyBitsOk_propagateNode {p : List (Frame CachedItem)} {l r : Tree CachedItem} {x : CachedItem}
    (hp : PathBitsOk p (anyDirty (.node l x r))) (hl : dirtyBitsOk l = true) (hr : dirtyBitsOk r = true) :
    dirtyBitsOk (plug (propagateNode itemAug p (.node l x r)).1 (propagateNode itemAug p (.node l x r)).2) = true := by
  have hok := dirtyBitsOk_itemAug hl hr x
  simp only [propagateNode]
  split_ifs with hstop
  · exact dirtyBitsOk_plug.2 ⟨hstop ▸ hok, hp⟩
  · exact dirtyBitsOk_propagateFrames hp hok

/-- Propagation changes no item's `ITEM_DIRTY`. -/
theorem anyDirty_propagateFrames (p : List (Frame CachedItem)) (t : Tree CachedItem) :
    anyDirty (plug (propagateFrames itemAug p t) t) = anyDirty (plug p t) := by
  rw [anyDirty_eq_any_map, anyDirty_eq_any_map,
    toList_propagateFrames itemAug itemIsDirty itemIsDirty_itemAug]

/-- `rb_erase_augmented` of a clean node keeps the bits consistent: the
subtree that takes the node's place holds the same dirty items. -/
theorem dirtyBitsOk_rbEraseAugmented {p : List (Frame CachedItem)} {l r : Tree CachedItem} {x : CachedItem}
    (h : dirtyBitsOk (plug p (.node l x r)) = true) (hx : itemIsDirty x = false) :
    dirtyBitsOk (rbEraseAugmented itemAug p (.node l x r)) = true := by
  obtain ⟨hn, hp⟩ := dirtyBitsOk_plug.1 h
  obtain ⟨-, -, okl, okr⟩ := dirtyBitsOk_node.1 hn
  rcases l with _ | ⟨ll, lx, lr⟩
  · simp only [rbEraseAugmented]
    exact dirtyBitsOk_propagateFrames hp okr
  rcases r with _ | ⟨_ | ⟨rl, rx, rr⟩, y, yr⟩
  · simp only [rbEraseAugmented]
    exact dirtyBitsOk_propagateFrames hp okl
  · obtain ⟨-, -, -, okyr⟩ := dirtyBitsOk_node.1 okr
    simp only [rbEraseAugmented]
    refine dirtyBitsOk_propagateNode ?_ okl okyr
    simpa [hx, Bool.or_assoc] using hp
  · obtain ⟨q, s, sr, hlm, hplug, hlefts⟩ := leftmostPath_spec [.left y yr] rl rx rr
    rw [plug_cons, Frame.attach_left, plug_nil] at hplug
    obtain ⟨hs, hq⟩ := dirtyBitsOk_plug.1 (hplug ▸ okr)
    have hr' := dirtyBitsOk_propagateFrames hq (dirtyBitsOk_node.1 hs).2.2.2
    have hany : anyDirty (.node (.node rl rx rr) y yr) = (itemIsDirty s || anyDirty (plug q sr)) := by
      rw [← hplug, anyDirty_eq_any_map, anyDirty_eq_any_map, toList_plug, toList_plug, hlefts]
      simp
    simp only [rbEraseAugmented, hlm]
    refine dirtyBitsOk_propagateNode ?_ okl hr'
    rw [anyDirty_node, anyDirty_propagateFrames, itemIsDirty_itemAug]
    rw [anyDirty_node, hany, hx] at hp
    simpa [Bool.or_assoc] using hp

/-- A rotation keeps the bits consistent and the subtree's dirtiness. -/
theorem dirtyBitsOk_rotateAug (left : Bool) {t : Tree CachedItem} (h : dirtyBitsOk t = true) :
    dirtyBitsOk (rotateAug itemAug left t) = true ∧ anyDirty (rotateAug itemAug left t) = anyDirty t := by
  refine ⟨?_, by rw [anyDirty_eq_any_map, anyDirty_eq_any_map,
    toList_rotateAug itemAug itemIsDirty itemIsDirty_itemAug]⟩
  unfold rotateAug
  split
  · obtain ⟨-, -, oka, okbc⟩ := dirtyBitsOk_node.1 h
    obtain ⟨-, -, okb, okc⟩ := dirtyBitsOk_node.1 okbc
    exact dirtyBitsOk_itemAug (dirtyBitsOk_itemAug oka okb _) okc _
  · obtain ⟨-, -, okab, okc⟩ := dirtyBitsOk_node.1 h
    obtain ⟨-, -, oka, okb⟩ := dirtyBitsOk_node.1 okab
    exact dirtyBitsOk_itemAug oka (dirtyBitsOk_itemAug okb okc _) _
  · exact h

/-! ## The item primitives -/

/-- The subtree bits of the cache's item tree are consistent. -/
def ItemCache.BitsOk (s : ItemCache) : Prop := dirtyBitsOk s.items = true

/-- Setting or clearing `ITEM_DIRTY` at a node of a consistent tree and
running `update_dirty_parents`. -/
theorem dirtyBitsOk_setDirty {p : List (Frame CachedItem)} {l r : Tree CachedItem} {x : CachedItem}
    (h : dirtyBitsOk (plug p (.node l x r)) = true) (b : Bool) :
    dirtyBitsOk (plug (updateDirtyParents p (.node l { x with dirty := { x.dirty with item := b } } r))
      (.node l { x with dirty := { x.dirty with item := b } } r)) = true := by
  obtain ⟨hn, hp⟩ := dirtyBitsOk_plug.1 h
  exact dirtyBitsOk_propagateFrames hp (dirtyBitsOk_node_of_bits hn rfl rfl)

/-- Replacing the item at a node by one with the same `dirty` field. -/
theorem dirtyBitsOk_plug_setNode {p : List (Frame CachedItem)} {l r : Tree CachedItem} {x y : CachedItem}
    (h : dirtyBitsOk (plug p (.node l x r)) = true) (hd : y.dirty = x.dirty) :
    dirtyBitsOk (plug p (.node l y r)) = true := by
  obtain ⟨hn, hp⟩ := dirtyBitsOk_plug.1 h
  refine dirtyBitsOk_plug.2 ⟨dirtyBitsOk_node_of_bits hn (by rw [hd]) (by rw [hd]), ?_⟩
  simpa [itemIsDirty, hd] using hp

/-- A leaf whose `dirty` field is zero linked where a descent ended. -/
theorem dirtyBitsOk_plug_leaf {p : List (Frame CachedItem)} (h : dirtyBitsOk (plug p .nil) = true)
    {ins : CachedItem} (hz : ins.dirty = .zero) : dirtyBitsOk (plug p (.node .nil ins .nil)) = true := by
  refine dirtyBitsOk_plug.2 ⟨dirtyBitsOk_node.2 ⟨by rw [hz]; rfl, by rw [hz]; rfl, rfl, rfl⟩, ?_⟩
  simpa [itemIsDirty, hz, DirtyBits.zero] using (dirtyBitsOk_plug.1 h).2

/-- The descent of `insert_item` marks no node for an item whose `dirty`
field is zero: it is the descent of `walk_items`. -/
theorem insertDescend_eq_itemPath {ins : CachedItem} (hz : ins.dirty = .zero) (t : Tree CachedItem) :
    insertDescend t ins = itemPath t ins.key := by
  have hL : markLeftDirty ins = id := funext fun _ => by simp [markLeftDirty, hz, DirtyBits.nonzero, DirtyBits.zero]
  have hR : markRightDirty ins = id := funext fun _ => by simp [markRightDirty, hz, DirtyBits.nonzero, DirtyBits.zero]
  rw [insertDescend, itemPath, hL, hR]

namespace ItemCache.BitsOk

variable {s : ItemCache} {ptr : ItemPtr} {x : CachedItem}

theorem of_items {s' : ItemCache} (h : s.BitsOk) (he : s'.items = s.items) : s'.BitsOk := by
  unfold ItemCache.BitsOk; rw [he]; exact h

theorem markItemDirty (h : s.BitsOk) (hp : PointsTo s.items ptr x) : (markItemDirty s ptr).BitsOk := by
  obtain ⟨p, t⟩ := ptr
  obtain ⟨l, r, rfl, hplug⟩ := hp
  dsimp only at hplug
  simp only [ScoutfsItemCache.markItemDirty]
  split_ifs
  · exact h
  · exact dirtyBitsOk_setDirty (hplug ▸ h) true

theorem clearItemDirty (h : s.BitsOk) (hp : PointsTo s.items ptr x) : (clearItemDirty s ptr).1.BitsOk := by
  obtain ⟨p, t⟩ := ptr
  obtain ⟨l, r, rfl, hplug⟩ := hp
  dsimp only at hplug
  simp only [ScoutfsItemCache.clearItemDirty]
  split_ifs
  · exact h
  · exact dirtyBitsOk_setDirty (hplug ▸ h) false

/-- Plain field writes leave the `dirty` field alone. -/
theorem setItem (h : s.BitsOk) (hp : PointsTo s.items ptr x) {f : CachedItem → CachedItem}
    (hf : ∀ z, (f z).dirty = z.dirty) : (setItem s ptr f).1.BitsOk := by
  obtain ⟨p, t⟩ := ptr
  obtain ⟨l, r, rfl, hplug⟩ := hp
  dsimp only at hplug
  exact dirtyBitsOk_plug_setNode (hplug ▸ h) (hf x)

/-- `unlink_item` clears the item before erasing it, so the erased node is clean. -/
theorem unlinkItem (h : s.BitsOk) (hp : PointsTo s.items ptr x) : (unlinkItem s ptr).BitsOk := by
  have hc := h.clearItemDirty hp
  obtain ⟨l', r', hptr, hplug⟩ := clearItemDirty_pointsTo hp
  obtain ⟨p, t⟩ := ptr
  obtain ⟨l, r, rfl, -⟩ := hp
  unfold ItemCache.BitsOk
  rw [unlinkItem_items, hptr]
  exact dirtyBitsOk_rbEraseAugmented (hplug ▸ hc) rfl

theorem deleteItem (h : s.BitsOk) (hp : PointsTo s.items ptr x) : (deleteItem s ptr).BitsOk := by
  have hc := h.clearItemDirty hp
  have hpc := clearItemDirty_pointsTo hp
  obtain ⟨p, t⟩ := ptr
  obtain ⟨l, r, rfl, hplug⟩ := hp
  simp only [ScoutfsItemCache.deleteItem]
  split_ifs
  · exact h.unlinkItem ⟨l, r, rfl, hplug⟩
  · exact (hc.setItem hpc (f := fun it => { it with val := none, valLen := 0, deletion := true })
      fun _ => rfl).markItemDirty (setItem_pointsTo hpc _)

/-- `insert_item` of an item whose whole `dirty` field is zero. -/
theorem insertItem (h : s.BitsOk) (ins : CachedItem) (hz : ins.dirty = .zero) (lo cp : Bool)
    (freed : Nat → Bool) : (insertItem s ins lo cp freed).1.BitsOk := by
  induction s, ins, lo, cp, freed using ScoutfsItemCache.insertItem.induct with
  | case1 s ins lo cp f p l item r hd hc =>
    rw [insertItem_of_node hd, if_pos hc]
    rw [insertDescend_eq_itemPath hz] at hd
    exact h.of_items (plug_of_itemPath hd)
  | case2 s ins lo cp f p l item r hd hc ih =>
    rw [insertItem_of_node hd, if_neg hc]
    rw [insertDescend_eq_itemPath hz] at hd
    exact ih ((h.of_items (plug_of_itemPath hd)).unlinkItem ⟨l, r, rfl, rfl⟩) (by split <;> exact hz)
  | case3 s ins lo cp f p hd hdirty =>
    rw [insertItem_of_nil hd, if_pos hdirty]
    rw [insertDescend_eq_itemPath hz] at hd
    exact dirtyBitsOk_plug_leaf ((plug_of_itemPath hd).symm ▸ h) hz
  | case4 s ins lo cp f p hd hdirty =>
    rw [insertItem_of_nil hd, if_neg hdirty]
    rw [insertDescend_eq_itemPath hz] at hd
    exact dirtyBitsOk_plug_leaf ((plug_of_itemPath hd).symm ▸ h) hz

/-! ### At the node found for a key -/

theorem markItemDirty_path (h : s.BitsOk) (k : Nat) :
    (ScoutfsItemCache.markItemDirty s (itemPath s.items k)).BitsOk := by
  rcases hk : itemPath s.items k with ⟨p, _ | ⟨l, x, r⟩⟩
  · exact h
  · exact h.markItemDirty (itemPath_pointsTo hk)

theorem unlinkItem_path (h : s.BitsOk) (k : Nat) :
    (ScoutfsItemCache.unlinkItem s (itemPath s.items k)).BitsOk := by
  rcases hk : itemPath s.items k with ⟨p, _ | ⟨l, x, r⟩⟩
  · exact h
  · exact h.unlinkItem (itemPath_pointsTo hk)

theorem deleteItem_path (h : s.BitsOk) (k : Nat) :
    (ScoutfsItemCache.deleteItem s (itemPath s.items k)).BitsOk := by
  rcases hk : itemPath s.items k with ⟨p, _ | ⟨l, x, r⟩⟩
  · exact h
  · exact h.deleteItem (itemPath_pointsTo hk)

/-! ## The loops -/

theorem eraseWalk (h : s.BitsOk) (go isLast : CachedItem → Bool) (item : Option CachedItem) (count : Nat) :
    (eraseWalk go isLast s item count).1.BitsOk :=
  eraseWalk_induction (fun s => s.BitsOk) (fun _ _ _ _ _ h hplug => h.unlinkItem ⟨_, _, rfl, hplug⟩) item h

/-- The flush loop from a pointer into the tree. -/
theorem dirtySegLoop (fuel : Nat) :
    ∀ {s : ItemCache} {ptr : Option ItemPtr} (seg : List SegItem), s.BitsOk →
      (∀ q u, ptr = some (q, u) → plug q u = s.items) → (dirtySegLoop fuel s ptr seg).1.BitsOk := by
  induction fuel with
  | zero => intro s ptr seg h _; exact h
  | succ n ih =>
    intro s ptr seg h hptr
    rcases ptr with _ | ⟨p, _ | ⟨l, it, r⟩⟩
    · exact h
    · exact h
    have hp : PointsTo s.items (p, .node l it r) it := ⟨l, r, rfl, hptr _ _ rfl⟩
    have hpc := clearItemDirty_pointsTo hp
    have hd := (h.clearItemDirty hp).setItem hpc (f := fun it => { it with persistent := true }) fun _ => rfl
    have hpd := setItem_pointsTo hpc fun it => { it with persistent := true }
    simp only [ScoutfsItemCache.dirtySegLoop]
    refine ih _ (by split <;> first | exact hd.unlinkItem hpd | exact hd) fun q u h => ?_
    obtain ⟨k, -, hk⟩ := Option.map_eq_some'.1 h
    exact plug_of_itemPath hk

theorem scoutfsItemDirtySeg (h : s.BitsOk) : (scoutfsItemDirtySeg s).1.BitsOk :=
  h.dirtySegLoop _ [] fun _ _ h => firstDirty_plug h

theorem insertBatchItems (h : s.BitsOk) (refused list : List CachedItem)
    (hl : ∀ x ∈ list, x.dirty = .zero) : (insertBatchItems s refused list).1.BitsOk := by
  induction list generalizing s refused with
  | nil => exact h
  | cons x rest ih =>
    exact ih (h.insertItem { x with persistent := true } (hl x (.head _)) false true _) _
      fun y hy => hl y (.tail _ hy)

/-- One pass of restore, for a saved item without subtree bits: it is
linked with a zero `dirty` field. -/
theorem restoreItem (h : s.BitsOk) (freed : Nat → Bool) {x : CachedItem}
    (hx : x.dirty.left = false ∧ x.dirty.right = false) : (restoreItem freed s x).BitsOk := by
  unfold ScoutfsItemCache.restoreItem
  dsimp only
  have h1 : ((findItem s.items x.key).elim s (ScoutfsItemCache.eraseItem s)).BitsOk := by
    rcases hf : findItem s.items x.key with _ | e
    · exact h
    · obtain ⟨y, hp, -, -⟩ := findItem_some hf
      exact h.unlinkItem hp
  have h2 := h1.insertItem { x with dirty := { x.dirty with item := false } }
    (by simp [DirtyBits.zero, hx]) false false freed
  split
  · exact h2.markItemDirty_path _
  · exact h2

theorem restoreItems (h : s.BitsOk) (freed : Nat → Bool) (list : List CachedItem)
    (hl : ∀ x ∈ list, x.dirty.left = false ∧ x.dirty.right = false) : (restoreItems freed s list).BitsOk := by
  induction list generalizing s with
  | nil => exact h
  | cons x rest ih => exact ih (h.restoreItem freed (hl x (.head _))) fun y hy => hl y (.tail _ hy)

/-! ## The shrinker -/

theorem shrinkAround (h : s.BitsOk) (rp : List (Frame CachedRange)) (rl : Tree CachedRange)
    (rng : CachedRange) (rr : Tree CachedRange) (item : CachedItem) : (shrinkAround s rp rl rng rr item).1.BitsOk := by
  unfold ScoutfsItemCache.shrinkAround
  rcases shrinkBoundary s.items item rng.start false with ⟨_ | first, prev⟩
  · exact h
  rcases shrinkBoundary s.items item rng.end true with ⟨_ | last, next⟩
  · exact h
  dsimp only
  split_ifs
  · exact h
  all_goals refine ItemCache.BitsOk.eraseWalk ?_ _ _ _ _
  · exact (h.unlinkItem_path last.key).of_items rfl
  all_goals exact h.of_items rfl

theorem lruShrinkLoop (fuel : Nat) :
    ∀ {s : ItemCache} (nr : Nat) (firstMoved : Option Nat), s.BitsOk → (lruShrinkLoop fuel s nr firstMoved).BitsOk := by
  induction fuel with
  | zero => intro s nr fm h; exact h
  | succ n ih =>
    intro s nr fm h
    simp only [ScoutfsItemCache.lruShrinkLoop]
    split_ifs
    · exact h
    split
    · exact h
    rename_i k _ _
    rcases hp : itemPath s.items k with ⟨p, _ | ⟨l, item, r⟩⟩
    · exact h
    dsimp only
    generalize hs' : (if itemIsDirty item = true then { s with bug := true } else s) = s'
    have h' : s'.BitsOk := by rw [← hs']; split <;> exact h.of_items rfl
    have hpt : PointsTo s'.items (p, .node l item r) item := by
      rw [← hs']; split <;> exact itemPath_pointsTo hp
    split
    · exact ih _ _ (h'.unlinkItem hpt)
    · rename_i rp rl rng rr _
      have ha := h'.shrinkAround rp rl rng rr item
      split_ifs
      · exact ha
      · exact ih _ _ (ha.of_items rfl)
      · exact ih _ _ ha

theorem itemLruShrink (h : s.BitsOk) (fuel nrToScan : Nat) : (itemLruShrink fuel s nrToScan).1.BitsOk := by
  unfold ScoutfsItemCache.itemLruShrink
  split_ifs
  · exact h
  · have h1 := h.lruShrinkLoop fuel nrToScan none
    dsimp only
    split <;> exact h1.of_items rfl

/-! ## The locked sections -/

theorem pointAttempt {β : Type} (h : s.BitsOk) {key : Nat} {found : ItemCache → ItemPtr → ItemCache × Int × β}
    {miss : β} (hfound : ∀ ptr x, PointsTo s.items ptr x → (found s ptr).1.BitsOk) :
    (pointAttempt key found miss s).1.BitsOk := by
  unfold ScoutfsItemCache.pointAttempt
  split
  · obtain ⟨x, hp, -, -⟩ := findItem_some ‹_›
    exact hfound _ x hp
  · split_ifs <;> exact h

theorem createAttempt (h : s.BitsOk) {item : CachedItem} (hz : item.dirty = .zero) (freed : Nat → Bool) :
    (createAttempt item freed s).1.BitsOk := by
  unfold ScoutfsItemCache.createAttempt
  dsimp only
  split_ifs
  · exact h
  · exact (h.insertItem _ hz false false freed).markItemDirty_path _
  · exact h.insertItem _ hz false false freed

theorem createForceLocked (h : s.BitsOk) {item : CachedItem} (hz : item.dirty = .zero) :
    (createForceLocked item s).1.BitsOk := by
  have h1 := h.insertItem { item with persistent := true } hz true false fun _ => false
  unfold ScoutfsItemCache.createForceLocked
  dsimp only
  split_ifs
  · refine ItemCache.BitsOk.markItemDirty_path ?_ _
    exact h1.of_items rfl
  · exact h1.markItemDirty_path _

theorem scoutfsItemInsertBatch (h : s.BitsOk) (list : List CachedItem) (start «end» : Nat)
    (hl : ∀ x ∈ list, x.dirty = .zero) : (scoutfsItemInsertBatch s list start «end» false).1.BitsOk := by
  unfold ScoutfsItemCache.scoutfsItemInsertBatch
  split_ifs
  · exact h
  · exact h
  · refine ItemCache.BitsOk.insertBatchItems ?_ [] list hl
    exact h.of_items rfl

theorem dirtyAttempt (h : s.BitsOk) (key : Nat) : (dirtyAttempt key s).1.BitsOk :=
  h.pointAttempt fun _ _ hp => h.markItemDirty hp

theorem updateAttempt (h : s.BitsOk) (key : Nat) (val : Option Bytes) : (updateAttempt key val s).1.BitsOk :=
  h.pointAttempt fun _ _ hp => by
    have hpc := clearItemDirty_pointsTo hp
    exact ((h.clearItemDirty hp).setItem hpc (f := fun it => { it with val, valLen := (val.map List.length).getD 0 })
      fun _ => rfl).markItemDirty (setItem_pointsTo hpc _)

theorem deleteAttempt (h : s.BitsOk) (key : Nat) : (deleteAttempt key s).1.BitsOk :=
  h.pointAttempt fun _ _ hp => h.deleteItem hp

theorem deleteForceLocked (h : s.BitsOk) (key : Nat) : (deleteForceLocked key s).BitsOk := by
  have h1 := h.insertItem { allocItem key none with persistent := true } rfl true false fun _ => false
  unfold ScoutfsItemCache.deleteForceLocked
  dsimp only
  split_ifs
  · refine ItemCache.BitsOk.deleteItem_path (ItemCache.BitsOk.markItemDirty_path ?_ key) key
    exact h1.of_items rfl
  · exact (h1.markItemDirty_path key).deleteItem_path key

/-- `scoutfs_item_delete_save` links a deletion item with a zero `dirty`
field in place of the one it hands over. -/
theorem deleteSaveAttempt (h : s.BitsOk) (key : Nat) : (deleteSaveAttempt key s).1.BitsOk := by
  unfold ScoutfsItemCache.deleteSaveAttempt
  refine h.pointAttempt fun ptr x hp => ?_
  have h1 := (h.unlinkItem hp).insertItem { allocItem key none with persistent := x.persistent } rfl
    false false fun _ => false
  obtain ⟨l, r, hptr, -⟩ := hp
  simp only [hptr]
  split_ifs
  · refine ItemCache.BitsOk.deleteItem_path ?_ key
    exact h1.of_items rfl
  · exact h1.deleteItem_path key

theorem scoutfsItemRestore (h : s.BitsOk) (list : List CachedItem) (lock : ScoutfsLock) (freed : Nat → Bool)
    (hl : ∀ x ∈ list, x.dirty.left = false ∧ x.dirty.right = false) :
    (scoutfsItemRestore s list lock freed).1.BitsOk := by
  unfold ScoutfsItemCache.scoutfsItemRestore
  split_ifs
  · exact h
  · exact h
  · exact h.restoreItems freed list hl

theorem scoutfsItemDeleteDirty (h : s.BitsOk) (key : Nat) : (scoutfsItemDeleteDirty s key).BitsOk := by
  unfold ScoutfsItemCache.scoutfsItemDeleteDirty
  split
  · obtain ⟨x, hp, -, -⟩ := findItem_some ‹_›
    exact h.deleteItem hp
  · exact h

/-- `scoutfs_item_update_dirty` writes the value in place, whether or not
its `BUG_ON` fires. -/
theorem scoutfsItemUpdateDirty (h : s.BitsOk) (key : Nat) (val : Option Bytes) :
    (scoutfsItemUpdateDirty s key val).BitsOk := by
  unfold ScoutfsItemCache.scoutfsItemUpdateDirty
  rcases hf : findItem s.items key with _ | ⟨p, _ | ⟨l, it, r⟩⟩
  · exact h.of_items rfl
  · exact h.of_items rfl
  obtain ⟨x, ⟨l', r', hptr, hplug⟩, -, -⟩ := findItem_some hf
  cases hptr
  exact dirtyBitsOk_plug_setNode (hplug ▸ h : dirtyBitsOk (plug p (.node l it r)) = true) rfl

theorem scoutfsItemInvalidate (h : s.BitsOk) (start «end» : Nat) :
    (scoutfsItemInvalidate s start «end» false).1.BitsOk :=
  (h.eraseWalk _ _ _ 0).of_items rfl

theorem rotateItemsAt (h : s.BitsOk) (key : Nat) (left : Bool) : (rotateItemsAt s key left).BitsOk := by
  have hplug := plug_of_itemPath (Prod.mk.eta (p := itemPath s.items key)).symm
  have h0 : dirtyBitsOk (plug (itemPath s.items key).1 (itemPath s.items key).2) = true := by rw [hplug]; exact h
  obtain ⟨ht, hp⟩ := dirtyBitsOk_plug.1 h0
  have hr := dirtyBitsOk_rotateAug left ht
  exact dirtyBitsOk_plug.2 ⟨hr.1, hr.2 ▸ hp⟩

end ItemCache.BitsOk

/-! ## Runs -/

/-- Whether a step hands `scoutfs_item_restore` only items without subtree
bits; every other step does not restore. -/
def Op.restoresLeaves (w : World) : Op → Bool
  | .restore list _ _ => (w.saved list).all fun x => !x.dirty.left && !x.dirty.right
  | _ => true

/-- Every locked section keeps the bits consistent, restore when it is
handed items without subtree bits. No caller guarantee is needed. -/
theorem ItemCache.BitsOk.exec {w : World} (h : w.cache.BitsOk) (op : Op) (hop : op.restoresLeaves w = true) :
    (exec w op).cache.BitsOk := by
  cases op with
  | lookup key bufLen => exact h.of_items (lookupAttempt_items key bufLen w.cache).1
  | next last pos bufLen =>
    simp only [ScoutfsItemCache.exec]
    split
    · exact h.of_items (walkFound_items _ _ _).1
    · exact h
  | prev first pos bufLen =>
    simp only [ScoutfsItemCache.exec]
    split
    · exact h.of_items (walkFound_items _ _ _).1
    · exact h
  | create key val freed => exact h.createAttempt rfl freed
  | createForce key val => exact h.createForceLocked rfl
  | insertBatch batch start «end» =>
    refine h.scoutfsItemInsertBatch _ start «end» fun x hx => ?_
    obtain ⟨kv, -, rfl⟩ := List.mem_map.1 hx
    rfl
  | dirty key => exact h.dirtyAttempt key
  | update key val => exact h.updateAttempt key val
  | delete key => exact h.deleteAttempt key
  | deleteForce key => exact h.deleteForceLocked key
  | deleteSave key list => exact h.deleteSaveAttempt key
  | restore list lock freed =>
    refine h.scoutfsItemRestore _ lock freed fun x hx => ?_
    simpa using List.all_eq_true.1 hop x hx
  | deleteDirty key => exact h.scoutfsItemDeleteDirty key
  | updateDirty key val => exact h.scoutfsItemUpdateDirty key val
  | dirtySeg => exact h.scoutfsItemDirtySeg
  | invalidate start «end» => exact h.scoutfsItemInvalidate start «end»
  | shrink nrToScan fuel => exact h.itemLruShrink fuel nrToScan
  | rotateItems key left => exact h.rotateItemsAt key left
  | rotateRanges key left => exact h.of_items rfl

/-- The worlds of `Reachable` reached by runs whose restores are handed
items without subtree bits. -/
inductive LeafRestoreReachable (maxValSize : Nat) : World → Prop where
  | setup : LeafRestoreReachable maxValSize setupWorld
  | step {w : World} (op : Op) : LeafRestoreReachable maxValSize w → op.callerOk maxValSize = true →
      (exec w op).cache.bug = false → op.restoresLeaves w = true → LeafRestoreReachable maxValSize (exec w op)

theorem LeafRestoreReachable.reachable {M : Nat} {w : World} (h : LeafRestoreReachable M w) : Reachable M w := by
  induction h with
  | setup => exact .setup
  | step op _ hop hbug _ ih => exact ih.step op hop hbug

theorem LeafRestoreReachable.bitsOk {M : Nat} {w : World} (h : LeafRestoreReachable M w) : w.cache.BitsOk := by
  induction h with
  | setup => rfl
  | step op _ _ _ hop ih => exact ih.exec op hop

/-- The subtree bits are consistent in every world reached by a run whose
restores are handed items without subtree bits: restore of such items is
as safe as every other step, and only the stale bits of a saved interior
node can break the walks. -/
theorem leaf_restore_runs_keep_bits {M : Nat} {w : World} (h : LeafRestoreReachable M w) :
    dirtyBitsOk w.cache.items = true :=
  h.bitsOk

/-- The run of `staleBitsRun` with the dirty leaf saved instead of its
parent: the restored item carries no subtree bits. -/
def leafRestoreRun : List Op :=
  [.insertBatch [(3, none)] 0 100, .create 5 none freedKept, .deleteSave 5 0, .restore 0 ⟨.write, 0, 100⟩ freedKept]

unseal insertItem insertRange in
theorem leafRestoreRun_reachable : LeafRestoreReachable 0 (execAll setupWorld leafRestoreRun) :=
  .step (.restore 0 ⟨.write, 0, 100⟩ freedKept) (.step (.deleteSave 5 0) (.step (.create 5 none freedKept)
    (.step (.insertBatch [(3, none)] 0 100) .setup rfl (by decide) rfl) rfl (by decide) rfl) rfl (by decide) rfl)
    rfl (by decide) (by decide)

theorem leaf_restore_run_keeps_bits :
    LeafRestoreReachable 0 (execAll setupWorld leafRestoreRun) ∧
      dirtyBitsOk (execAll setupWorld leafRestoreRun).cache.items = true :=
  ⟨leafRestoreRun_reachable, leaf_restore_runs_keep_bits leafRestoreRun_reachable⟩

end ScoutfsItemCache
