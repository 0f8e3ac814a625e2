import ScoutfsItemCache.Shrinker

/-! # The subtree dirty bits

`LEFT_DIRTY` and `RIGHT_DIRTY` let `first_dirty` and `next_dirty` find
dirty items without visiting clean subtrees. They are right when every
node's bits say whether its subtrees hold a dirty item (`dirtyBitsOk`),
and then `first_dirty` finds the first dirty item in key order
(`firstDirty_find`) and `next_dirty` the first dirty item after a node
(`nextDirty_find`). Over a sorted tree these are the dirty items with the
least key, and the least key above the node's (`dirty_walks_find_least`).

`scoutfs_item_delete_save` keeps the whole `dirty` field of the item it
unlinks, and `scoutfs_item_restore` clears only `ITEM_DIRTY` before
`insert_item` links the item again. The item comes back as a leaf that
still carries the subtree bits of its old place, and `insert_item` sets
the matching bit on every node it passes, because it tests the whole
field (`if (ins->dirty)`). A short run from `scoutfs_item_setup` leaves a
clean leaf with `RIGHT_DIRTY` under a dirty root with `LEFT_DIRTY`
(`restore_leaves_stale_subtree_bits`). `first_dirty` then walks into the
stale branch, finds nothing, and `scoutfs_item_dirty_seg` writes none of
the dirty items (`dirty_seg_misses_dirty_item`); `dirty_item_within` misses
them the same way, so `scoutfs_item_range_cached` and
`scoutfs_item_writeback` see no dirty item in a range that holds one
(`range_cached_misses_dirty_item`).
-/

namespace ScoutfsItemCache

/-- Whether a subtree holds an item with `ITEM_DIRTY`. -/
def anyDirty (t : Tree CachedItem) : Bool := t.toList.any itemIsDirty

/-- Every node's `LEFT_DIRTY` and `RIGHT_DIRTY` say whether its left and
right subtrees hold a dirty item. -/
def dirtyBitsOk : Tree CachedItem → Bool
  | .nil => true
  | .node l it r =>
    (it.dirty.left == anyDirty l) && (it.dirty.right == anyDirty r) && dirtyBitsOk l && dirtyBitsOk r

/-- With consistent bits, `first_dirty` finds the first dirty item in key
order, and nothing exactly when the subtree has no dirty item. -/
theorem firstDirty_find {t : Tree CachedItem} (h : dirtyBitsOk t = true) (p : List (Frame CachedItem)) :
    (firstDirty p t).bind (fun q => q.2.root) = t.toList.find? itemIsDirty := by
  induction t generalizing p with
  | nil => rfl
  | node l it r ihl ihr =>
    simp only [dirtyBitsOk, Bool.and_eq_true, beq_iff_eq] at h
    obtain ⟨⟨⟨hl, hr⟩, okl⟩, okr⟩ := h
    have hfl : l.toList.find? itemIsDirty = none ↔ it.dirty.left = false := by
      rw [hl, anyDirty, List.find?_eq_none]; simp
    have hfr : r.toList.find? itemIsDirty = none ↔ it.dirty.right = false := by
      rw [hr, anyDirty, List.find?_eq_none]; simp
    simp only [firstDirty, Tree.toList_node, List.find?_append, List.find?_cons]
    by_cases hL : it.dirty.left = true
    · have : l.toList.find? itemIsDirty ≠ none := fun h' => by simp [hfl.1 h'] at hL
      obtain ⟨y, hy⟩ := Option.ne_none_iff_exists'.1 this
      simp [hL, ihl okl, hy]
    · have hnone : l.toList.find? itemIsDirty = none := hfl.2 (by simpa using hL)
      simp only [hL, if_false, hnone, Option.none_or]
      by_cases hd : itemIsDirty it = true
      · simp [hd]
      · simp only [hd, if_false]
        by_cases hR : it.dirty.right = true
        · simp [hR, ihr okr]
        · simp [hR, hfr.2 (by simpa using hR)]

/-- A subtree of a tree with consistent bits has consistent bits. -/
theorem dirtyBitsOk_of_plug {p : List (Frame CachedItem)} {t : Tree CachedItem}
    (h : dirtyBitsOk (plug p t) = true) : dirtyBitsOk t = true := by
  induction p generalizing t with
  | nil => exact h
  | cons f p ih =>
    have h' := ih h
    cases f with
    | left x r => simp only [Frame.attach_left, dirtyBitsOk, Bool.and_eq_true] at h'; exact h'.1.2
    | right l x => simp only [Frame.attach_right, dirtyBitsOk, Bool.and_eq_true] at h'; exact h'.2

/-- The parent walk of `next_dirty` stops at the nearest ancestor whose left
subtree holds the node, which is the next item in key order. -/
theorem nextGreaterParent_some {p q : List (Frame CachedItem)} {t u : Tree CachedItem}
    (h : nextGreaterParent p t = some (q, u)) :
    ∃ l x r, u = .node l x r ∧ plug q u = plug p t ∧ rights p = x :: r.toList ++ rights q := by
  induction p generalizing t with
  | nil => simp [nextGreaterParent] at h
  | cons f p ih =>
    cases f with
    | right l x => exact ih h
    | left x r =>
      simp only [nextGreaterParent, Option.some.injEq, Prod.mk.injEq] at h
      obtain ⟨rfl, rfl⟩ := h
      exact ⟨t, x, r, rfl, rfl, rfl⟩

/-- Without such an ancestor no item follows the node. -/
theorem nextGreaterParent_none {p : List (Frame CachedItem)} {t : Tree CachedItem}
    (h : nextGreaterParent p t = none) : rights p = [] := by
  induction p generalizing t with
  | nil => rfl
  | cons f p ih =>
    cases f with
    | right l x => exact ih h
    | left x r => simp [nextGreaterParent] at h

/-- With consistent bits, `next_dirty` from a node finds the first dirty item
of the items that follow it in key order. -/
theorem nextDirty_find (p : List (Frame CachedItem)) (l : Tree CachedItem) (it : CachedItem)
    (r : Tree CachedItem) (h : dirtyBitsOk (plug p (.node l it r)) = true) :
    (nextDirty p (.node l it r)).bind (fun q => q.2.root) = (r.toList ++ rights p).find? itemIsDirty := by
  have hn := dirtyBitsOk_of_plug h
  simp only [dirtyBitsOk, Bool.and_eq_true, beq_iff_eq] at hn
  obtain ⟨⟨⟨-, hR⟩, -⟩, okr⟩ := hn
  rw [nextDirty, List.find?_append]
  by_cases hr : it.dirty.right = true
  · obtain ⟨y, hy⟩ : ∃ y, r.toList.find? itemIsDirty = some y := by
      rw [hR, anyDirty, List.any_eq_true] at hr
      obtain ⟨z, hz, hdz⟩ := hr
      exact Option.ne_none_iff_exists'.1 fun h' => List.find?_eq_none.1 h' z hz hdz
    rw [if_pos hr, firstDirty_find okr, hy]; rfl
  · have hnone : r.toList.find? itemIsDirty = none := by
      rw [List.find?_eq_none]
      intro z hz hdz
      exact hr (hR ▸ List.any_eq_true.2 ⟨z, hz, hdz⟩)
    rw [if_neg hr, hnone, Option.none_or]
    split
    · rename_i hng
      rw [nextGreaterParent_none hng]; rfl
    · rename_i q u hng
      obtain ⟨l', x, r', rfl, hplug, hrights⟩ := nextGreaterParent_some hng
      have := nextGreaterParent_length hng
      rw [hrights, List.cons_append, List.find?_cons]
      by_cases hd : itemIsDirty x = true
      · simp [hd]
      · simp only [hd, if_false, Bool.false_eq_true]
        rw [nextDirty_find q l' x r' (hplug ▸ h), List.find?_append]
termination_by p.length

/-- In a list sorted by key, the first item with a property is the one with
the least key among those that have it. -/
theorem find?_eq_some_iff_least {L : List CachedItem} (hL : L.Pairwise fun a b => a.key < b.key)
    (P : CachedItem → Bool) (y : CachedItem) :
    L.find? P = some y ↔ y ∈ L ∧ P y = true ∧ ∀ z ∈ L, P z = true → y.key ≤ z.key := by
  induction L with
  | nil => simp
  | cons a L ih =>
    rw [List.pairwise_cons] at hL
    by_cases ha : P a = true
    · rw [List.find?_cons_of_pos _ ha]
      constructor
      · rintro ⟨⟩
        refine ⟨.head _, ha, fun z hz _ => ?_⟩
        rcases List.mem_cons.1 hz with rfl | hz
        · exact le_rfl
        · exact (hL.1 z hz).le
      · rintro ⟨hy, -, hmin⟩
        rcases List.mem_cons.1 hy with rfl | hy
        · rfl
        · exact absurd (hmin a (.head _) ha) (not_le.2 (hL.1 y hy))
    · rw [List.find?_cons_of_neg _ ha, ih hL.2]
      constructor
      · rintro ⟨hy, hPy, hmin⟩
        refine ⟨.tail _ hy, hPy, fun z hz hPz => ?_⟩
        rcases List.mem_cons.1 hz with rfl | hz
        · exact absurd hPz ha
        · exact hmin z hz hPz
      · rintro ⟨hy, hPy, hmin⟩
        rcases List.mem_cons.1 hy with rfl | hy
        · exact absurd hPy ha
        · exact ⟨hy, hPy, fun z hz => hmin z (.tail _ hz)⟩

/-- The in-order sequence of a tree around one of its nodes. -/
theorem toList_plug_node (p : List (Frame CachedItem)) (l : Tree CachedItem) (x : CachedItem)
    (r : Tree CachedItem) :
    (plug p (.node l x r)).toList = (lefts p ++ l.toList) ++ x :: (r.toList ++ rights p) := by
  simp [toList_plug]

/-- The items that follow a node of a sorted tree in key order are sorted,
and they are exactly the items with a larger key. -/
theorem ItemsSorted.after_node {t l r : Tree CachedItem} {p : List (Frame CachedItem)} {x : CachedItem}
    (hs : ItemsSorted t) (hplug : plug p (.node l x r) = t) :
    ((r.toList ++ rights p).Pairwise fun a b => a.key < b.key) ∧
      ∀ z, z ∈ r.toList ++ rights p ↔ z ∈ t.toList ∧ x.key < z.key := by
  have hpw := hs.toList
  rw [← hplug, toList_plug_node, List.pairwise_append, List.pairwise_cons] at hpw
  refine ⟨hpw.2.1.2, fun z => ?_⟩
  rw [← hplug, toList_plug_node]
  constructor
  · intro hz
    exact ⟨List.mem_append_right _ (.tail _ hz), hpw.2.1.1 z hz⟩
  · rintro ⟨hz, hxz⟩
    rcases List.mem_append.1 hz with hz | hz
    · exact absurd (hpw.2.2 z hz x (.head _)) (not_lt.2 hxz.le)
    · rcases List.mem_cons.1 hz with rfl | hz
      · exact absurd hxz (lt_irrefl _)
      · exact hz

/-- With keys in order and consistent bits, `first_dirty` returns the dirty
item with the least key, and `next_dirty` from any node the dirty item with
the least key above the node's; each returns nothing exactly when there is
no such item. -/
theorem dirty_walks_find_least {t : Tree CachedItem} (hs : ItemsSorted t) (hb : dirtyBitsOk t = true) :
    (∀ y, (firstDirty [] t).bind (fun q => q.2.root) = some y ↔
      y ∈ t.toList ∧ itemIsDirty y = true ∧ ∀ z ∈ t.toList, itemIsDirty z = true → y.key ≤ z.key) ∧
    ((firstDirty [] t).bind (fun q => q.2.root) = none ↔ ∀ z ∈ t.toList, itemIsDirty z = false) ∧
    ∀ p l x r, plug p (.node l x r) = t →
      (∀ y, (nextDirty p (.node l x r)).bind (fun q => q.2.root) = some y ↔
        y ∈ t.toList ∧ itemIsDirty y = true ∧ x.key < y.key ∧
          ∀ z ∈ t.toList, itemIsDirty z = true → x.key < z.key → y.key ≤ z.key) ∧
      ((nextDirty p (.node l x r)).bind (fun q => q.2.root) = none ↔
        ∀ z ∈ t.toList, x.key < z.key → itemIsDirty z = false) := by
  refine ⟨fun y => by rw [firstDirty_find hb]; exact find?_eq_some_iff_least hs.toList _ y,
    by rw [firstDirty_find hb, List.find?_eq_none]; simp, fun p l x r hplug => ?_⟩
  obtain ⟨hpw, hafter⟩ := hs.after_node hplug
  rw [nextDirty_find p l x r (hplug ▸ hb)]
  refine ⟨fun y => ?_, ?_⟩
  · rw [find?_eq_some_iff_least hpw, hafter]
    constructor
    · rintro ⟨⟨hy, hxy⟩, hd, hmin⟩
      exact ⟨hy, hd, hxy, fun z hz hdz hxz => hmin z ((hafter z).2 ⟨hz, hxz⟩) hdz⟩
    · rintro ⟨hy, hd, hxy, hmin⟩
      exact ⟨⟨hy, hxy⟩, hd, fun z hz hdz => hmin z ((hafter z).1 hz).1 hdz ((hafter z).1 hz).2⟩
  · rw [List.find?_eq_none]
    constructor
    · intro h z hz hxz
      simpa using h z ((hafter z).2 ⟨hz, hxz⟩)
    · intro h z hz
      simpa using h z ((hafter z).1 hz).1 ((hafter z).1 hz).2

/-- A clean root over a dirty item on each side, with its bits set. -/
def dirtyWalkTree : Tree CachedItem :=
  .node (.node .nil { allocItem 1 none with dirty := ⟨true, false, false⟩ } .nil)
    { allocItem 2 none with dirty := ⟨false, true, true⟩ }
    (.node .nil { allocItem 3 none with dirty := ⟨true, false, false⟩ } .nil)

theorem dirty_walks_small_tree :
    (∀ y, (firstDirty [] dirtyWalkTree).bind (fun q => q.2.root) = some y ↔
      y ∈ dirtyWalkTree.toList ∧ itemIsDirty y = true ∧
        ∀ z ∈ dirtyWalkTree.toList, itemIsDirty z = true → y.key ≤ z.key) ∧
    ((firstDirty [] dirtyWalkTree).bind (fun q => q.2.root) = none ↔
      ∀ z ∈ dirtyWalkTree.toList, itemIsDirty z = false) ∧
    ∀ p l x r, plug p (.node l x r) = dirtyWalkTree →
      (∀ y, (nextDirty p (.node l x r)).bind (fun q => q.2.root) = some y ↔
        y ∈ dirtyWalkTree.toList ∧ itemIsDirty y = true ∧ x.key < y.key ∧
          ∀ z ∈ dirtyWalkTree.toList, itemIsDirty z = true → x.key < z.key → y.key ≤ z.key) ∧
      ((nextDirty p (.node l x r)).bind (fun q => q.2.root) = none ↔
        ∀ z ∈ dirtyWalkTree.toList, x.key < z.key → itemIsDirty z = false) :=
  dirty_walks_find_least (by unfold ItemsSorted Sorted; decide) (by decide)

/-- A run that saves an item, leaves its deletion item, and restores it. -/
def staleBitsRun : List Op :=
  [.insertBatch [(3, none)] 0 100, .create 5 none freedKept, .deleteSave 3 0, .restore 0 ⟨.write, 0, 100⟩ freedKept]

unseal insertItem insertRange in
theorem restore_leaves_stale_subtree_bits (maxValSize : Nat) :
    Reachable maxValSize (execAll setupWorld staleBitsRun) ∧
      dirtyBitsOk (execAll setupWorld staleBitsRun).cache.items = false :=
  ⟨Reachable.setup.execAll staleBitsRun rfl (by decide), by decide⟩

unseal insertItem insertRange in
theorem dirty_seg_misses_dirty_item (maxValSize : Nat) :
    Reachable maxValSize (execAll setupWorld staleBitsRun) ∧
      ((execAll setupWorld staleBitsRun).cache.items.toList.filter itemIsDirty).map CachedItem.key = [5] ∧
      (scoutfsItemDirtySeg (execAll setupWorld staleBitsRun).cache).2 = [] ∧
      (scoutfsItemDirtySeg (execAll setupWorld staleBitsRun).cache).1.nrDirtyItems = 1 :=
  ⟨Reachable.setup.execAll staleBitsRun rfl (by decide), by decide, by decide, by decide⟩

unseal insertItem insertRange nextDirty in
/-- The same state: the one dirty item 5 lies in [0, 10], yet
scoutfs_item_range_cached answers that no dirty item does, and
scoutfs_item_writeback returns 0 without the transaction sync, whatever
the sync would return. -/
theorem range_cached_misses_dirty_item (maxValSize : Nat) :
    Reachable maxValSize (execAll setupWorld staleBitsRun) ∧
      ((execAll setupWorld staleBitsRun).cache.items.toList.filter itemIsDirty).map CachedItem.key = [5] ∧
      scoutfsItemRangeCached (execAll setupWorld staleBitsRun).cache 0 10 true = false ∧
      ∀ syncRet, scoutfsItemWriteback (execAll setupWorld staleBitsRun).cache 0 10 syncRet = 0 :=
  ⟨Reachable.setup.execAll staleBitsRun rfl (by decide), by decide, by decide,
    fun _ => by rw [scoutfsItemWriteback, if_neg (by decide)]⟩

end ScoutfsItemCache
