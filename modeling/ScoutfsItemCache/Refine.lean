import ScoutfsItemCache.Abstract

/-! # The tree primitives implement the sequence operations

For each primitive of `item.c` that works on the item tree, the reading
`ItemCache.abs` of its result is the matching `AbsCache` operation applied
to the reading of its argument. The item trees are kept sorted by key
(`ItemsSorted`); a pointer is described by `PointsTo`: the path leads to a
node of the tree holding the given item.

The searches are characterised by where they stop: a descent over a
sorted tree leaves every smaller key to the left of its path and every
larger key to the right (`descend_separates`), so the node it stops at is
the one item with the key, and an empty stop means the key is absent.
-/

namespace ScoutfsItemCache

/-- The item tree's keys strictly increase in order. -/
def ItemsSorted (t : Tree CachedItem) : Prop := Sorted (itemsOf t)

/-- `ptr` is the path to a node of `t` that holds `x`. -/
def PointsTo (t : Tree CachedItem) (ptr : ItemPtr) (x : CachedItem) : Prop :=
  ∃ l r, ptr.2 = .node l x r ∧ plug ptr.1 (.node l x r) = t

/-! ## In-order views of paths -/

/-- The items before the node a path leads to. -/
def before (p : List (Frame CachedItem)) (l : Tree CachedItem) : List CachedItem :=
  (lefts p ++ l.toList).map CachedItem.data

/-- The items after the node a path leads to. -/
def after (r : Tree CachedItem) (p : List (Frame CachedItem)) : List CachedItem :=
  (r.toList ++ rights p).map CachedItem.data

theorem itemsOf_plug_node (p : List (Frame CachedItem)) (l : Tree CachedItem) (x : CachedItem)
    (r : Tree CachedItem) : itemsOf (plug p (.node l x r)) = before p l ++ x.data :: after r p := by
  simp [itemsOf, before, after, toList_plug]

/-- Propagation changes only subtree bits. -/
theorem itemsOf_propagate (p : List (Frame CachedItem)) (t : Tree CachedItem) :
    itemsOf (plug (propagateFrames itemAug p t) t) = itemsOf (plug p t) :=
  toList_propagateFrames itemAug CachedItem.data data_itemAug p t

theorem before_propagate (p : List (Frame CachedItem)) (t l : Tree CachedItem) :
    before (propagateFrames itemAug p t) l = before p l := by
  simp only [before, List.map_append, propagateFrames_lefts itemAug CachedItem.data data_itemAug]

theorem after_propagate (p : List (Frame CachedItem)) (t r : Tree CachedItem) :
    after r (propagateFrames itemAug p t) = after r p := by
  simp only [after, List.map_append, propagateFrames_rights itemAug CachedItem.data data_itemAug]

section Split

variable {p : List (Frame CachedItem)} {l r t : Tree CachedItem} {x : CachedItem}

/-- The node a path leads to splits a sorted tree into smaller and larger keys. -/
theorem ItemsSorted.split (hs : ItemsSorted t) (hplug : plug p (.node l x r) = t) :
    (∀ y ∈ before p l, y.key < x.key) ∧ (∀ y ∈ after r p, x.key < y.key) := by
  unfold ItemsSorted at hs
  rw [← hplug, itemsOf_plug_node] at hs
  exact hs.split

theorem ItemsSorted.setAt (hs : ItemsSorted t) (hplug : plug p (.node l x r) = t)
    (f : CachedItem → CachedItem) :
    ScoutfsItemCache.setAt x.key f (itemsOf t) = before p l ++ f x.data :: after r p := by
  rw [← hplug, itemsOf_plug_node]
  exact setAt_split (x := x.data) (hs.split hplug).1 (hs.split hplug).2 f

theorem ItemsSorted.eraseAt (hs : ItemsSorted t) (hplug : plug p (.node l x r) = t) :
    ScoutfsItemCache.eraseAt x.key (itemsOf t) = before p l ++ after r p := by
  rw [← hplug, itemsOf_plug_node]
  exact eraseAt_split (x := x.data) (hs.split hplug).1 (hs.split hplug).2

theorem ItemsSorted.getAt (hs : ItemsSorted t) (hplug : plug p (.node l x r) = t) :
    ScoutfsItemCache.getAt x.key (itemsOf t) = some x.data := by
  rw [← hplug, itemsOf_plug_node]
  exact getAt_split (x := x.data) (hs.split hplug).1

end Split

/-! ## Dirty bookkeeping -/

section Primitives

variable {s : ItemCache} {ptr : ItemPtr} {x : CachedItem}

theorem markItemDirty_abs (hp : PointsTo s.items ptr x) (hs : ItemsSorted s.items) :
    (markItemDirty s ptr).abs = s.abs.markDirty x := by
  obtain ⟨p, t⟩ := ptr
  obtain ⟨l, r, rfl, hplug⟩ := hp
  simp only [markItemDirty, AbsCache.markDirty]
  split_ifs
  · rfl
  · simp only [ItemCache.abs, AbsCache.counts, updateDirtyItemCounts, updateDirtyParents,
      itemsOf_plug_node, before_propagate, after_propagate, hs.setAt hplug]
    rfl

theorem clearItemDirty_abs (hp : PointsTo s.items ptr x) (hs : ItemsSorted s.items) :
    (clearItemDirty s ptr).1.abs = s.abs.clearDirty x := by
  obtain ⟨p, t⟩ := ptr
  obtain ⟨l, r, rfl, hplug⟩ := hp
  simp only [clearItemDirty, AbsCache.clearDirty]
  split_ifs
  · rfl
  · simp only [ItemCache.abs, AbsCache.counts, updateDirtyItemCounts, updateDirtyParents,
      itemsOf_plug_node, before_propagate, after_propagate, hs.setAt hplug]
    rfl

/-- After `clear_item_dirty` the pointer names the same node, now without
`ITEM_DIRTY`. -/
theorem clearItemDirty_pointsTo (hp : PointsTo s.items ptr x) :
    PointsTo (clearItemDirty s ptr).1.items (clearItemDirty s ptr).2
      { x with dirty := { x.dirty with item := false } } := by
  obtain ⟨p, t⟩ := ptr
  obtain ⟨l, r, rfl, hplug⟩ := hp
  simp only [clearItemDirty]
  split_ifs with hd
  · have hx : { x with dirty := { x.dirty with item := false } } = x := by
      obtain ⟨k, v, n, d, q, ⟨i, a, b⟩⟩ := x
      simp_all [itemIsDirty]
    rw [hx]
    exact ⟨l, r, rfl, hplug⟩
  · exact ⟨l, r, rfl, rfl⟩

theorem clearItemDirty_sorted (hp : PointsTo s.items ptr x) (hs : ItemsSorted s.items) :
    ItemsSorted (clearItemDirty s ptr).1.items := by
  have h := congrArg AbsCache.items (clearItemDirty_abs hp hs)
  unfold ItemsSorted
  simp only [ItemCache.abs, AbsCache.clearDirty] at h
  rw [h]
  split_ifs
  · exact hs
  · exact Sorted.setAt hs fun _ => rfl

/-- `rb_erase_augmented` drops the item at the node from the sequence. -/
theorem itemsOf_rbErase {p : List (Frame CachedItem)} {l r t : Tree CachedItem}
    (hplug : plug p (.node l x r) = t) (hs : ItemsSorted t) :
    itemsOf (rbEraseAugmented itemAug p (.node l x r)) = eraseAt x.key (itemsOf t) := by
  rw [hs.eraseAt hplug]
  unfold itemsOf
  rw [toList_rbEraseAugmented itemAug CachedItem.data data_itemAug]
  simp [before, after]

theorem setItem_abs (hp : PointsTo s.items ptr x) (hs : ItemsSorted s.items) (f : CachedItem → CachedItem)
    (hf : ∀ y, (f y).data = f y.data) : (setItem s ptr f).1.abs = s.abs.set x.key f := by
  obtain ⟨p, t⟩ := ptr
  obtain ⟨l, r, rfl, hplug⟩ := hp
  simp only [setItem, ItemCache.abs, AbsCache.set, itemsOf_plug_node, hs.setAt hplug, hf]

theorem setItem_pointsTo (hp : PointsTo s.items ptr x) (f : CachedItem → CachedItem) :
    PointsTo (setItem s ptr f).1.items (setItem s ptr f).2 (f x) := by
  obtain ⟨p, t⟩ := ptr
  obtain ⟨l, r, rfl, -⟩ := hp
  exact ⟨l, r, rfl, rfl⟩

theorem unlinkItem_abs (hp : PointsTo s.items ptr x) (hs : ItemsSorted s.items) :
    (unlinkItem s ptr).abs = s.abs.unlink x := by
  have hc := clearItemDirty_abs hp hs
  have hs' := clearItemDirty_sorted hp hs
  obtain ⟨l', r', hptr', hplug'⟩ := clearItemDirty_pointsTo hp
  obtain ⟨p, t⟩ := ptr
  obtain ⟨l, r, rfl, -⟩ := hp
  have hitems : itemsOf (rbEraseAugmented itemAug (clearItemDirty s (p, .node l x r)).2.1
      (clearItemDirty s (p, .node l x r)).2.2) =
        eraseAt x.key (itemsOf (clearItemDirty s (p, .node l x r)).1.items) := by
    rw [hptr', itemsOf_rbErase hplug' hs']
  simp only [unlinkItem, AbsCache.unlink, ← hc]
  split_ifs with h1 h2 h2
  · simp only [ItemCache.abs, hitems]
  · exact absurd h1 h2
  · exact absurd h2 h1
  · simp only [ItemCache.abs, hitems]

end Primitives

/-! ## Searches -/

theorem itemCmp_ordered {t : Tree CachedItem} (hs : ItemsSorted t) (k : Nat) :
    (t.toList.map (itemCmp k)).Pairwise CmpOrdered := by
  have h : t.toList.Pairwise (fun a b => a.key < b.key) := by
    unfold ItemsSorted Sorted itemsOf at hs
    simpa [List.pairwise_map] using hs
  rw [List.pairwise_map]
  exact h.imp fun {a b} hab => by
    simp only [CmpOrdered, itemCmp, scoutfsKeyCompare_neg, scoutfsKeyCompare_pos]
    omega

section Descend

variable {t : Tree CachedItem} {k : Nat} {markL markR : CachedItem → CachedItem}

/-- A descent for `k` over a sorted tree keeps the sequence, and leaves the
smaller keys left of its path and the larger keys right of it. -/
theorem descend_items (hs : ItemsSorted t) (hL : ∀ x, (markL x).data = x.data)
    (hR : ∀ x, (markR x).data = x.data) :
    itemsOf (plug (descend (itemCmp k) markL markR [] t).1 (descend (itemCmp k) markL markR [] t).2) =
        itemsOf t ∧
      (∀ y ∈ lefts (descend (itemCmp k) markL markR [] t).1, y.key < k) ∧
      (∀ y ∈ rights (descend (itemCmp k) markL markR [] t).1, k < y.key) := by
  have hcL : ∀ x, itemCmp k (markL x) = itemCmp k x := fun x => by
    unfold itemCmp; rw [← CachedItem.data_key (markL x), hL]; rfl
  have hcR : ∀ x, itemCmp k (markR x) = itemCmp k x := fun x => by
    unfold itemCmp; rw [← CachedItem.data_key (markR x), hR]; rfl
  obtain ⟨h1, h2⟩ := descend_separates (itemCmp k) markL markR hcL hcR [] t (itemCmp_ordered hs k)
    (by simp) (by simp)
  refine ⟨toList_descend_map (itemCmp k) markL markR CachedItem.data hL hR [] t, fun y hy => ?_,
    fun y hy => ?_⟩
  · simpa [itemCmp] using h1 y hy
  · simpa [itemCmp] using h2 y hy

/-- A node a descent for `k` stops at holds `k`. -/
theorem descend_node_key {p : List (Frame CachedItem)} {l r : Tree CachedItem} {x : CachedItem}
    (h : descend (itemCmp k) markL markR [] t = (p, .node l x r)) : x.key = k := by
  rcases descend_focus (itemCmp k) markL markR [] t with h0 | ⟨l', x', r', h0, hx⟩
  · rw [h] at h0; cases h0
  · rw [h] at h0
    cases h0
    simp only [itemCmp] at hx
    have h1 := (scoutfsKeyCompare_nonpos (a := k) (b := x.key)).1 (by omega)
    have h2 := (scoutfsKeyCompare_nonneg (a := k) (b := x.key)).1 (by omega)
    omega

/-- An empty stop of a descent over a sorted tree: the key is absent, and
linking an item there puts it in key order. -/
theorem descend_nil (hs : ItemsSorted t) (hL : ∀ x, (markL x).data = x.data)
    (hR : ∀ x, (markR x).data = x.data) {p : List (Frame CachedItem)}
    (h : descend (itemCmp k) markL markR [] t = (p, .nil)) :
    getAt k (itemsOf t) = none ∧
      ∀ x : CachedItem, x.key = k → itemsOf (plug p (.node .nil x .nil)) = insertAt x.data (itemsOf t) := by
  obtain ⟨h1, h2, h3⟩ := descend_items (k := k) hs hL hR
  rw [h] at h1 h2 h3
  have ht : itemsOf t = (lefts p).map CachedItem.data ++ (rights p).map CachedItem.data := by
    rw [← h1]; simp [itemsOf, toList_plug]
  have hA : ∀ y ∈ (lefts p).map CachedItem.data, y.key < k := by simpa using h2
  have hB : ∀ y ∈ (rights p).map CachedItem.data, k < y.key := by simpa using h3
  refine ⟨ht ▸ getAt_gap hA hB, fun x hx => ?_⟩
  subst hx
  rw [ht, insertAt_gap (x := x.data) hA hB]
  simp [itemsOf, toList_plug]

end Descend

theorem itemPath_node {t : Tree CachedItem} {k : Nat} {p : List (Frame CachedItem)} {l r : Tree CachedItem}
    {x : CachedItem} (h : itemPath t k = (p, .node l x r)) : plug p (.node l x r) = t ∧ x.key = k := by
  have h1 := plug_descend_id (itemCmp k) [] t
  unfold itemPath at h
  rw [h] at h1
  exact ⟨h1, descend_node_key h⟩

theorem itemPath_nil {t : Tree CachedItem} (hs : ItemsSorted t) {k : Nat} {p : List (Frame CachedItem)}
    (h : itemPath t k = (p, .nil)) : getAt k (itemsOf t) = none :=
  (descend_nil hs (fun _ => rfl) (fun _ => rfl) h).1

/-- `find_item` finds the live item at the key. -/
theorem findItem_some {t : Tree CachedItem} {k : Nat} {ptr : ItemPtr} (h : findItem t k = some ptr) :
    ∃ x, PointsTo t ptr x ∧ x.key = k ∧ x.deletion = false := by
  unfold findItem at h
  split at h
  · rename_i p l x r hpath
    split_ifs at h with hd
    cases h
    obtain ⟨hplug, hk⟩ := itemPath_node hpath
    exact ⟨x, ⟨l, r, rfl, hplug⟩, hk, by simpa using hd⟩
  · cases h

/-- Without a live item `find_item` finds nothing. -/
theorem findItem_none {t : Tree CachedItem} (hs : ItemsSorted t) {k : Nat} (h : findItem t k = none) :
    ∀ x, getAt k (itemsOf t) = some x → x.deletion = true := by
  intro y hy
  unfold findItem at h
  split at h
  · rename_i p l x r hpath
    obtain ⟨hplug, hk⟩ := itemPath_node hpath
    split_ifs at h with hd
    rw [← hk, hs.getAt hplug] at hy
    cases hy
    simpa using hd
  · rename_i p hpath
    rw [itemPath_nil hs hpath] at hy
    cases hy

/-! ## Insertion -/

/-- `insert_item` implements `AbsCache.insert`: the restart after erasing
an old item at the key ends in the link of the (possibly now persistent)
new item. -/
theorem insertItem_abs {s : ItemCache} (hs : ItemsSorted s.items) (ins : CachedItem) (lo cp : Bool)
    (freed : Nat → Bool) :
    ((insertItem s ins lo cp freed).1.abs, (insertItem s ins lo cp freed).2) = s.abs.insert ins lo cp freed := by
  induction s, ins, lo, cp, freed using insertItem.induct with
  | case1 s ins lo cp f p l item r h hc =>
    obtain ⟨h1, -, -⟩ := descend_items (k := ins.key) hs (data_markLeftDirty ins) (data_markRightDirty ins)
    unfold insertDescend at h
    rw [h] at h1
    have hs' : ItemsSorted (plug p (.node l item r)) := by unfold ItemsSorted; rw [h1]; exact hs
    have hget : getAt ins.key (itemsOf s.items) = some item.data := by
      rw [← h1, ← descend_node_key h]; exact hs'.getAt rfl
    rw [insertItem_of_node h, if_pos hc]
    simp only [AbsCache.insert, ItemCache.abs, hget, h1, CachedItem.data_deletion, if_pos hc]
  | case2 s ins lo cp f p l item r h hc ih =>
    obtain ⟨h1, -, -⟩ := descend_items (k := ins.key) hs (data_markLeftDirty ins) (data_markRightDirty ins)
    unfold insertDescend at h
    rw [h] at h1
    have hk := descend_node_key h
    have hs' : ItemsSorted (plug p (.node l item r)) := by unfold ItemsSorted; rw [h1]; exact hs
    have hget : getAt ins.key (itemsOf s.items) = some item.data := by
      rw [← h1, ← hk]; exact hs'.getAt rfl
    have hu := unlinkItem_abs (s := { s with items := plug p (.node l item r) }) (x := item)
      (show PointsTo _ (p, .node l item r) item from ⟨l, r, rfl, rfl⟩) hs'
    have hs2 : ItemsSorted (eraseItem { s with items := plug p (.node l item r) } (p, .node l item r)).items := by
      show Sorted (unlinkItem _ _).abs.items
      rw [hu]
      exact AbsCache.sorted_unlink (a := ({ s with items := plug p (.node l item r) } : ItemCache).abs) hs' item
    have habs : ({ s with items := plug p (.node l item r) } : ItemCache).abs = s.abs := by
      simp only [ItemCache.abs, h1]
    have hnone : getAt (if f item.key then { ins with persistent := true } else ins).key
        (s.abs.unlink item).items = none := by
      rw [AbsCache.unlink_items, show (if f item.key then { ins with persistent := true } else ins).key =
        item.key by split <;> exact hk.symm]
      exact getAt_eraseAt _ _
    have hget' : getAt ins.key s.abs.items = some item.data := hget
    simp only [dite_eq_ite] at ih
    rw [insertItem_of_node h, if_neg hc, ih hs2, eraseItem, hu, habs]
    unfold AbsCache.insert
    rw [hnone, hget']
    simp only [CachedItem.data_deletion, if_neg hc]
    rfl
  | case3 s ins lo cp f p h hd =>
    unfold insertDescend at h
    obtain ⟨hnone, hins⟩ := descend_nil hs (data_markLeftDirty ins) (data_markRightDirty ins) h
    rw [insertItem_of_nil h, if_pos hd]
    simp only [AbsCache.insert, ItemCache.abs, hnone, AbsCache.link, if_pos hd, hins ins rfl]
  | case4 s ins lo cp f p h hd =>
    unfold insertDescend at h
    obtain ⟨hnone, hins⟩ := descend_nil hs (data_markLeftDirty ins) (data_markRightDirty ins) h
    rw [insertItem_of_nil h, if_neg hd]
    simp only [AbsCache.insert, ItemCache.abs, hnone, AbsCache.link, if_neg hd, hins ins rfl]

end ScoutfsItemCache
