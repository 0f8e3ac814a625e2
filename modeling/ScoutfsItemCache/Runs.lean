import ScoutfsItemCache.Steps

/-! # What every reachable world satisfies

`Reachable.inv` says that every world a run reaches satisfies the
invariant of `Steps`. Read back through `ItemCache.abs`, the invariant says
what the cache's own fields hold:

* the range tree is well formed, and `check_range` returns exactly the
  range that holds a key;
* `nr_dirty_items` and `dirty_val_bytes` count the items of the tree that
  have `ITEM_DIRTY`, and the items on the callers' lists are not counted;
* the LRU list holds the keys of the clean items of the tree, each once,
  and `lru_nr` is its length, so that no `BUG_ON` but the one of
  `scoutfs_item_update_dirty` can fire.
-/

namespace ScoutfsItemCache

/-- Fill [0, 4] with item 2 and [6, 10] with item 8, and create item 3 with
two bytes: two ranges, a dirty item and two clean ones on the LRU list. -/
def twoFillRun : List Op :=
  [.insertBatch [(2, some [1])] 0 4, .insertBatch [(8, none)] 6 10, .create 3 (some [5, 6]) freedKept]

unseal insertItem insertRange in
theorem twoFillRun_reachable : Reachable 8 (execAll setupWorld twoFillRun) :=
  Reachable.setup.execAll twoFillRun rfl (by decide)

/-! ## Ranges -/

/-- In well formed ranges at most one range holds a key. -/
theorem RangesOk.eq_of_contains {L : List CachedRange} (hok : RangesOk L) {a b : CachedRange} {k : Nat}
    (ha : a ∈ L) (hb : b ∈ L) (hak : a.contains k = true) (hbk : b.contains k = true) : a = b := by
  by_contra hab
  have := (hok.2.imp (S := fun x y : CachedRange => x.end < y.start ∨ y.end < x.start) Or.inl).forall
    (fun _ _ h => h.symm) ha hb hab
  simp only [CachedRange.contains, Bool.and_eq_true, decide_eq_true_eq] at hak hbk
  omega

/-- Over well formed ranges `check_range` returns the range holding the
key, and only that range. -/
theorem checkRange_eq_some {t : Tree CachedRange} (hok : RangesOk t.toList) (k : Nat) (rng : CachedRange) :
    checkRange t k = some rng ↔ rng ∈ t.toList ∧ rng.contains k = true := by
  constructor
  · intro h
    have := checkRange_mem h
    exact ⟨checkRange_some_mem h, by simp [CachedRange.contains, this.1, this.2]⟩
  · rintro ⟨hmem, hk⟩
    have hcov : covered t k = true := List.any_eq_true.2 ⟨rng, hmem, hk⟩
    obtain ⟨r, hr⟩ := Option.isSome_iff_exists.1 ((checkRange_isSome hok k).trans hcov)
    have hrk := checkRange_mem hr
    rw [hr, hok.eq_of_contains (checkRange_some_mem hr) hmem (by simp [CachedRange.contains, hrk.1, hrk.2]) hk]

/-- In every reachable world the cached ranges are well formed: each has
`start <= end` and ends below the start of the next one in the tree's
order, so that no two overlap; and `check_range` finds, for every key, the
range that holds it. -/
theorem reachable_ranges_ordered {M : Nat} {w : World} (h : Reachable M w) :
    RangesOk w.cache.ranges.toList ∧
      ∀ k rng, checkRange w.cache.ranges k = some rng ↔
        rng ∈ w.cache.ranges.toList ∧ rng.contains k = true :=
  ⟨h.inv.cache.ranges, checkRange_eq_some h.inv.cache.ranges⟩

theorem ranges_ordered_after_two_fills :
    Reachable 8 (execAll setupWorld twoFillRun) ∧ RangesOk (execAll setupWorld twoFillRun).cache.ranges.toList ∧
      ∀ k rng, checkRange (execAll setupWorld twoFillRun).cache.ranges k = some rng ↔
        rng ∈ (execAll setupWorld twoFillRun).cache.ranges.toList ∧ rng.contains k = true :=
  ⟨twoFillRun_reachable, reachable_ranges_ordered twoFillRun_reachable⟩

/-! ## Dirty totals -/

theorem dirtyItems_itemsOf (t : Tree CachedItem) :
    (dirtyItems (itemsOf t)).length = (t.toList.filter itemIsDirty).length := by
  simp only [dirtyItems, itemsOf, List.filter_map, List.length_map]
  rfl

theorem dirtyBytes_itemsOf (t : Tree CachedItem) :
    dirtyBytes (itemsOf t) = ((t.toList.filter itemIsDirty).map CachedItem.valLen).sum := by
  simp only [dirtyBytes, dirtyItems, itemsOf, List.filter_map, List.map_map]
  rfl

/-- In every reachable world whose values fit a signed 32-bit length,
`nr_dirty_items` is the number of items of the tree with `ITEM_DIRTY` and
`dirty_val_bytes` the sum of their `val_len`, so neither is negative. -/
theorem reachable_dirty_counts {M : Nat} {w : World} (h : Reachable M w) (hM : M < 2 ^ 31) :
    w.cache.nrDirtyItems = ((w.cache.items.toList.filter itemIsDirty).length : Int) ∧
      w.cache.dirtyValBytes = (((w.cache.items.toList.filter itemIsDirty).map CachedItem.valLen).sum : Int) ∧
      0 ≤ w.cache.nrDirtyItems ∧ 0 ≤ w.cache.dirtyValBytes := by
  obtain ⟨h1, h2⟩ := h.inv.cache.counts hM
  change w.cache.nrDirtyItems = ((dirtyItems (itemsOf w.cache.items)).length : Int) at h1
  change w.cache.dirtyValBytes = (dirtyBytes (itemsOf w.cache.items) : Int) at h2
  rw [dirtyItems_itemsOf] at h1
  rw [dirtyBytes_itemsOf] at h2
  refine ⟨h1, h2, ?_, ?_⟩ <;> omega

theorem dirty_counts_after_two_fills :
    Reachable 8 (execAll setupWorld twoFillRun) ∧ (8 : Nat) < 2 ^ 31 ∧
      (execAll setupWorld twoFillRun).cache.nrDirtyItems =
        (((execAll setupWorld twoFillRun).cache.items.toList.filter itemIsDirty).length : Int) ∧
      (execAll setupWorld twoFillRun).cache.dirtyValBytes =
        ((((execAll setupWorld twoFillRun).cache.items.toList.filter itemIsDirty).map CachedItem.valLen).sum : Int) ∧
      0 ≤ (execAll setupWorld twoFillRun).cache.nrDirtyItems ∧ 0 ≤ (execAll setupWorld twoFillRun).cache.dirtyValBytes :=
  ⟨twoFillRun_reachable, by decide, reachable_dirty_counts twoFillRun_reachable (by decide)⟩

/-! ## The LRU list -/

theorem cleanKeys_itemsOf (t : Tree CachedItem) :
    cleanKeys (itemsOf t) = (t.toList.filter fun x => !itemIsDirty x).map CachedItem.key := by
  simp only [cleanKeys, itemsOf, List.filter_map, List.map_map]
  rfl

/-- The keys of a sorted tree's items are distinct. -/
theorem ItemsSorted.nodup_keys {t : Tree CachedItem} (hs : ItemsSorted t) :
    (t.toList.map CachedItem.key).Nodup :=
  List.Pairwise.map _ (fun _ _ h => Nat.ne_of_lt h) hs.toList

/-- In every reachable world the LRU list holds the keys of the clean
items of the tree, each once and nothing else, and `lru_nr` is its length.
No locked section but `scoutfs_item_update_dirty` fires a `BUG_ON` from
there: neither the shrinker's check of the LRU head nor `insert_item`'s
check of the item it links. -/
theorem reachable_lru_clean {M : Nat} {w : World} (h : Reachable M w) :
    w.cache.lruList.Perm ((w.cache.items.toList.filter fun x => !itemIsDirty x).map CachedItem.key) ∧
      w.cache.lruList.Nodup ∧ w.cache.lruNr = w.cache.lruList.length ∧
      ∀ op : Op, op.callerOk M = true → (∀ k v, op ≠ .updateDirty k v) → (exec w op).cache.bug = false := by
  have hI := h.inv
  have hperm : w.cache.lruList.Perm ((w.cache.items.toList.filter fun x => !itemIsDirty x).map CachedItem.key) :=
    cleanKeys_itemsOf w.cache.items ▸ hI.cache.lru
  refine ⟨hperm, hperm.nodup_iff.2 ?_, hI.cache.lruNr, fun op hop hne => (hI.exec_of_ne hop hne).cache.bug⟩
  exact hI.cache.sorted.nodup_keys.sublist ((List.filter_sublist _).map _)

theorem lru_clean_after_two_fills :
    Reachable 8 (execAll setupWorld twoFillRun) ∧
      (execAll setupWorld twoFillRun).cache.lruList.Perm
        (((execAll setupWorld twoFillRun).cache.items.toList.filter fun x => !itemIsDirty x).map CachedItem.key) ∧
      (execAll setupWorld twoFillRun).cache.lruList.Nodup ∧
      (execAll setupWorld twoFillRun).cache.lruNr = (execAll setupWorld twoFillRun).cache.lruList.length ∧
      ∀ op : Op, op.callerOk 8 = true → (∀ k v, op ≠ .updateDirty k v) →
        (exec (execAll setupWorld twoFillRun) op).cache.bug = false :=
  ⟨twoFillRun_reachable, reachable_lru_clean twoFillRun_reachable⟩

/-! ## The LRU order of referenced items -/

/-- Cache the clean items 2 and 3 over [0, 10] and create 1: the new dirty
item sits in the left subtree of 2, which gains LEFT_DIRTY. -/
def lruRun : List Op := [.insertBatch [(2, none), (3, none)] 0 10, .create 1 none freedKept]

unseal insertItem insertRange in
/-- item_referenced tests the whole dirty field, so a lookup of the clean
item 2 leaves it in front of 3 on the LRU list. -/
theorem lookup_leaves_clean_item_before_tail (maxValSize : Nat) (read : Reader) :
    Reachable maxValSize (execAll setupWorld lruRun) ∧
      (getAt 2 (itemsOf (execAll setupWorld lruRun).cache.items)).map itemIsDirty = some false ∧
      ∃ s', scoutfsItemLookup read 1 (execAll setupWorld lruRun).cache 2 (some 8) ⟨.read, 0, 10⟩ =
        some (s', 0, []) ∧ s'.lruList = [2, 3] := by
  refine ⟨Reachable.setup.execAll lruRun rfl (by decide), by decide,
    (lookupAttempt 2 (some 8) (execAll setupWorld lruRun).cache).1, ?_, by decide⟩
  rw [scoutfsItemLookup, if_neg (by decide), readRetry, if_neg (by decide)]
  decide

end ScoutfsItemCache
