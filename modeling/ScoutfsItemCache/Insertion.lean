import ScoutfsItemCache.Store

/-! # The contracts of `insert_item` and `scoutfs_item_insert_batch`

`insert_item` links a new clean item into a sorted tree. What it does
depends on the item already at the key, if any:

* when population meets any item, or a plain insertion meets a live one,
  it returns `-EEXIST` and the cache is exactly as it was
  (`insertItem_of_exists`);
* otherwise it returns 0, the old item is gone with its dirty accounting,
  the new item is linked clean at the tail of the LRU list, and no other
  key changes (`insert_item_contract`). The new item is persistent if it
  was, or if the flag it reads from the old item after freeing it is set:
  the old item's persistence is passed on only while freed memory keeps
  it, and with memory zeroed on free a persistent deletion item hands on
  nothing (`insert_item_drops_persistence_of_zeroed_flag`).

`scoutfs_item_insert_batch` populates the cache: it adds `[start, end]` to
the cached ranges and links each batch item whose key holds nothing, and
keeps every item that was cached, dirty items and deletion items included.
The items it refuses are exactly those whose key is taken, by the cache or
an earlier batch item, and they are what `scoutfs_item_free_batch`
releases (`insert_batch_contract`). Its `-EINVAL` return comes before that
free and releases nothing.
-/

namespace ScoutfsItemCache

/-! ## insert_item -/

section InsertItem

variable {s : ItemCache} {ins : CachedItem}

/-- A new item with a zero dirty field marks no node it passes, so the
descent of `insert_item` is the plain search for its key. -/
theorem insertDescend_of_zero (hins : ins.dirty = .zero) (t : Tree CachedItem) :
    insertDescend t ins = itemPath t ins.key := by
  have hL : markLeftDirty ins = id := funext fun _ => by simp [markLeftDirty, hins, DirtyBits.nonzero, DirtyBits.zero]
  have hR : markRightDirty ins = id := funext fun _ => by simp [markRightDirty, hins, DirtyBits.nonzero, DirtyBits.zero]
  rw [insertDescend, hL, hR, itemPath]

/-- `insert_item` refuses to replace an item it may not replace and leaves
the whole cache as it was. -/
theorem insertItem_of_exists (hs : ItemsSorted s.items) (hins : ins.dirty = .zero) {E : CachedItem}
    {lo cp : Bool} (freed : Nat → Bool) (hE : getAt ins.key (itemsOf s.items) = some E)
    (hc : (cp || (!E.deletion && !lo)) = true) : insertItem s ins lo cp freed = (s, -EEXIST) := by
  rcases h : itemPath s.items ins.key with ⟨p, _ | ⟨l, x, r⟩⟩
  · rw [itemPath_nil hs h] at hE; exact nomatch hE
  · obtain ⟨hplug, hk⟩ := itemPath_node h
    have hx : E = x.data := by
      have := hs.getAt hplug
      rw [hk, hE] at this
      exact Option.some.inj this
    rw [insertItem_of_node (by rw [insertDescend_of_zero hins, h]), if_pos (by rwa [hx] at hc), hplug]

/-- The new item with the flag read from the item it replaces. -/
theorem replaced_eq (ins : CachedItem) (b : Bool) :
    (if b then { ins with persistent := true } else ins) = { ins with persistent := ins.persistent || b } := by
  cases b <;> cases ins <;> simp

end InsertItem

/-! ### The abstract link and unlink -/

namespace AbsCache

variable {a : AbsCache} {x : CachedItem}

theorem link_of_clean (a : AbsCache) (hd : itemIsDirty x = false) :
    a.link x = { a with items := insertAt x.data a.items, lruList := a.lruList ++ [x.key], lruNr := a.lruNr + 1 } :=
  if_neg (by simp [hd])

/-- Unlinking a dirty item takes it out of the dirty totals. -/
theorem nrDirtyItems_unlink : (a.unlink x).nrDirtyItems = a.nrDirtyItems - if itemIsDirty x then 1 else 0 := by
  unfold unlink clearDirty counts
  cases itemIsDirty x <;> dsimp only [Bool.not_true, Bool.not_false] <;> split_ifs <;> simp_all
  omega

theorem dirtyValBytes_unlink :
    (a.unlink x).dirtyValBytes = a.dirtyValBytes + if itemIsDirty x then toS32 (negU32 x.valLen) else 0 := by
  unfold unlink clearDirty counts
  cases itemIsDirty x <;> dsimp only [Bool.not_true, Bool.not_false] <;> split_ifs <;> simp_all

end AbsCache

section InsertItem

variable {s : ItemCache} {ins : CachedItem}

/-- The contract of `insert_item` for a new item with a zero dirty field,
as `alloc_item` makes it, in a sorted tree: `-EEXIST` and no change when
the item at the key may not be replaced; otherwise 0, with the new item
linked clean at the LRU tail in place of the old one, which leaves the
dirty totals, and persistent when it was or when the flag read from the
freed old item is set. -/
theorem insert_item_contract (hs : ItemsSorted s.items) (hins : ins.dirty = .zero) (lo cp : Bool)
    (freed : Nat → Bool) :
    (∀ E, getAt ins.key (itemsOf s.items) = some E → (cp || (!E.deletion && !lo)) = true →
      insertItem s ins lo cp freed = (s, -EEXIST)) ∧
    (getAt ins.key (itemsOf s.items) = none →
      (insertItem s ins lo cp freed).2 = 0 ∧ ItemsSorted (insertItem s ins lo cp freed).1.items ∧
      (∀ k, getAt k (itemsOf (insertItem s ins lo cp freed).1.items) =
        if k = ins.key then some ins.data else getAt k (itemsOf s.items)) ∧
      (insertItem s ins lo cp freed).1.lruList = s.lruList ++ [ins.key] ∧
      (insertItem s ins lo cp freed).1.nrDirtyItems = s.nrDirtyItems ∧
      (insertItem s ins lo cp freed).1.dirtyValBytes = s.dirtyValBytes) ∧
    (∀ E, getAt ins.key (itemsOf s.items) = some E → (cp || (!E.deletion && !lo)) = false →
      (ins.key ∈ s.lruList → itemIsDirty E = false) →
      (insertItem s ins lo cp freed).2 = 0 ∧ ItemsSorted (insertItem s ins lo cp freed).1.items ∧
      (∀ k, getAt k (itemsOf (insertItem s ins lo cp freed).1.items) =
        if k = ins.key then some { ins with persistent := ins.persistent || freed E.key }.data
        else getAt k (itemsOf s.items)) ∧
      (insertItem s ins lo cp freed).1.lruList = s.lruList.erase ins.key ++ [ins.key] ∧
      (insertItem s ins lo cp freed).1.nrDirtyItems = s.nrDirtyItems - (if itemIsDirty E then 1 else 0) ∧
      (insertItem s ins lo cp freed).1.dirtyValBytes =
        s.dirtyValBytes + (if itemIsDirty E then toS32 (negU32 E.valLen) else 0)) := by
  have habs := insertItem_abs hs ins lo cp freed
  have hd : itemIsDirty ins = false := by simp [itemIsDirty, hins, DirtyBits.zero]
  unfold AbsCache.insert at habs
  rw [ItemCache.items_abs] at habs
  refine ⟨fun E hE hc => insertItem_of_exists hs hins freed hE hc, fun hnone => ?_, fun E hE hc hl => ?_⟩
  · rw [hnone, AbsCache.link_of_clean _ hd, Prod.mk.injEq] at habs
    obtain ⟨h1, h2⟩ := habs
    refine ⟨h2, insertItem_sorted hs ins lo cp freed, fun k => ?_, congrArg AbsCache.lruList h1,
      congrArg AbsCache.nrDirtyItems h1, congrArg AbsCache.dirtyValBytes h1⟩
    rw [getAt_insertItem hs, hnone]; rfl
  · have hkey : E.key = ins.key := getAt_key hE
    have hd' : itemIsDirty { ins with persistent := ins.persistent || freed E.key } = false := hd
    simp only [hE, hc, Bool.false_eq_true, if_false, replaced_eq, AbsCache.link_of_clean _ hd',
      Prod.mk.injEq] at habs
    obtain ⟨h1, h2⟩ := habs
    refine ⟨h2, insertItem_sorted hs ins lo cp freed, fun k => ?_, ?_, ?_, ?_⟩
    · rw [getAt_insertItem hs, hE]
      simp only [insertAtKey, hc, Bool.false_eq_true, if_false, replaced_eq]
    · have hl' : itemIsDirty E = true → E.key ∉ s.abs.lruList := fun hdE hm => by
        simp [hl (hkey ▸ hm)] at hdE
      exact (congrArg AbsCache.lruList h1).trans (by rw [AbsCache.lruList_unlink hl', hkey]; rfl)
    · exact (congrArg AbsCache.nrDirtyItems h1).trans AbsCache.nrDirtyItems_unlink
    · exact (congrArg AbsCache.dirtyValBytes h1).trans AbsCache.dirtyValBytes_unlink

unseal insertItem insertRange in
theorem tombstoneRun_sorted : ItemsSorted (execAll setupWorld tombstoneRun).cache.items := by
  unfold ItemsSorted Sorted; decide

/-- Creating 3 over the deletion item, with memory zeroed on free. -/
theorem insert_item_contract_over_tombstone :
    let s := (execAll setupWorld tombstoneRun).cache
    (∀ E, getAt (allocItem 3 none).key (itemsOf s.items) = some E → (false || (!E.deletion && !false)) = true →
      insertItem s (allocItem 3 none) false false freedZeroed = (s, -EEXIST)) ∧
    (getAt (allocItem 3 none).key (itemsOf s.items) = none →
      (insertItem s (allocItem 3 none) false false freedZeroed).2 = 0 ∧
      ItemsSorted (insertItem s (allocItem 3 none) false false freedZeroed).1.items ∧
      (∀ k, getAt k (itemsOf (insertItem s (allocItem 3 none) false false freedZeroed).1.items) =
        if k = (allocItem 3 none).key then some (allocItem 3 none).data else getAt k (itemsOf s.items)) ∧
      (insertItem s (allocItem 3 none) false false freedZeroed).1.lruList = s.lruList ++ [(allocItem 3 none).key] ∧
      (insertItem s (allocItem 3 none) false false freedZeroed).1.nrDirtyItems = s.nrDirtyItems ∧
      (insertItem s (allocItem 3 none) false false freedZeroed).1.dirtyValBytes = s.dirtyValBytes) ∧
    (∀ E, getAt (allocItem 3 none).key (itemsOf s.items) = some E → (false || (!E.deletion && !false)) = false →
      ((allocItem 3 none).key ∈ s.lruList → itemIsDirty E = false) →
      (insertItem s (allocItem 3 none) false false freedZeroed).2 = 0 ∧
      ItemsSorted (insertItem s (allocItem 3 none) false false freedZeroed).1.items ∧
      (∀ k, getAt k (itemsOf (insertItem s (allocItem 3 none) false false freedZeroed).1.items) =
        if k = (allocItem 3 none).key then
          some { allocItem 3 none with persistent := (allocItem 3 none).persistent || freedZeroed E.key }.data
        else getAt k (itemsOf s.items)) ∧
      (insertItem s (allocItem 3 none) false false freedZeroed).1.lruList =
        s.lruList.erase (allocItem 3 none).key ++ [(allocItem 3 none).key] ∧
      (insertItem s (allocItem 3 none) false false freedZeroed).1.nrDirtyItems =
        s.nrDirtyItems - (if itemIsDirty E then 1 else 0) ∧
      (insertItem s (allocItem 3 none) false false freedZeroed).1.dirtyValBytes =
        s.dirtyValBytes + (if itemIsDirty E then toS32 (negU32 E.valLen) else 0)) :=
  insert_item_contract tombstoneRun_sorted rfl false false freedZeroed

unseal insertItem insertRange in
/-- With memory zeroed on free, `insert_item` of the new item 3 over the
persistent deletion item 3 of a reachable cache links it without the
persistent flag: its persistence is not that of either item combined. -/
theorem insert_item_drops_persistence_of_zeroed_flag (M : Nat) :
    Reachable (M + 1) (execAll setupWorld tombstoneRun) ∧
      (getAt 3 (itemsOf (execAll setupWorld tombstoneRun).cache.items)).map
        (fun E => (E.deletion, E.persistent)) = some (true, true) ∧
      (allocItem 3 none).persistent = false ∧
      (insertItem (execAll setupWorld tombstoneRun).cache (allocItem 3 none) false false freedZeroed).2 = 0 ∧
      (getAt 3 (itemsOf (insertItem (execAll setupWorld tombstoneRun).cache (allocItem 3 none) false false
        freedZeroed).1.items)).map CachedItem.persistent = some false :=
  ⟨Reachable.setup.execAll tombstoneRun (by rfl) (by decide), by decide, rfl, by decide, by decide⟩

end InsertItem

/-! ## scoutfs_item_insert_batch -/

/-- The batch item of a key is the one `scoutfs_item_add_batch` made from
the first pair of that key. -/
theorem getAt_batchItems (batch : List (Nat × Option Bytes)) (k : Nat) :
    getAt k (batchItems batch) = (batch.find? fun kv => kv.1 = k).map fun kv => allocItem kv.1 kv.2 := by
  unfold getAt batchItems
  rw [List.find?_map]
  rfl

/-- The contract of `scoutfs_item_insert_batch` in a reachable world. With
`start <= end` it returns 0; the cached ranges gain `[start, end]`; every
cached item stays as it was; a key without an item gets the batch's first
item of that key, clean, not a deletion item, and made persistent; no
other key gets an item; and the items released at the end are the batch
items refused because their key was taken, by the cache or by an earlier
batch item, the last refused first. With `start > end` it returns
`-EINVAL` and releases nothing, and when the allocation fails it returns
`-ENOMEM` and releases the whole batch; neither changes the cache. -/
theorem insert_batch_contract {M : Nat} {w : World} (hw : Reachable M w) (batch : List (Nat × Option Bytes))
    (start «end» : Nat) :
    (start ≤ «end» →
      (scoutfsItemInsertBatch w.cache (batchItems batch) start «end» false).2.1 = 0 ∧
      (∀ k, covered (scoutfsItemInsertBatch w.cache (batchItems batch) start «end» false).1.ranges k = true ↔
        covered w.cache.ranges k = true ∨ (start ≤ k ∧ k ≤ «end»)) ∧
      (∀ k y, getAt k (itemsOf w.cache.items) = some y →
        getAt k (itemsOf (scoutfsItemInsertBatch w.cache (batchItems batch) start «end» false).1.items) = some y) ∧
      (∀ k, getAt k (itemsOf w.cache.items) = none →
        getAt k (itemsOf (scoutfsItemInsertBatch w.cache (batchItems batch) start «end» false).1.items) =
          (batch.find? fun kv => kv.1 = k).map fun kv => { allocItem kv.1 kv.2 with persistent := true }) ∧
      (scoutfsItemInsertBatch w.cache (batchItems batch) start «end» false).2.2 =
        (batchRefused (fun k => (getAt k (itemsOf w.cache.items)).isSome)
          ((batchItems batch).map fun x => { x with persistent := true })).reverse) ∧
    («end» < start → ∀ nomem,
      scoutfsItemInsertBatch w.cache (batchItems batch) start «end» nomem = (w.cache, -EINVAL, [])) ∧
    (start ≤ «end» →
      scoutfsItemInsertBatch w.cache (batchItems batch) start «end» true = (w.cache, -ENOMEM, batchItems batch)) := by
  have hs := hw.inv.cache.sorted
  refine ⟨fun hle => ?_, fun hlt _ => if_pos (scoutfsKeyCompare_pos.2 hlt),
    fun hle => by rw [scoutfsItemInsertBatch, if_neg (by simpa using hle), if_pos rfl]⟩
  have hitems := getAt_insertBatchItems (s := { w.cache with ranges := insertRange w.cache.ranges ⟨start, «end»⟩ })
    hs [] (batchItems batch)
  rw [scoutfsItemInsertBatch, if_neg (by simpa using hle), if_neg Bool.false_ne_true]
  refine ⟨rfl, fun k => ?_, fun k y hy => by rw [hitems, hy]; rfl, fun k hk => ?_,
    (insertBatchItems_refused (s := { w.cache with ranges := insertRange w.cache.ranges ⟨start, «end»⟩ }) hs _ _).trans
      (List.append_nil _)⟩
  · rw [ranges_insertBatchItems, covered_insertRange]
    simp [CachedRange.contains]
  · rw [hitems, hk, Option.none_or, getAt_batchItems, Option.map_map]
    rfl

unseal insertItem insertRange in
/-- A batch over `[0, 12]` into the cache of `lruRun`, which holds 1, 2
and 3: the items 2 and the second 4 are refused and released. -/
theorem insert_batch_contract_after_lru_run :
    (0 ≤ 12 →
      (scoutfsItemInsertBatch (execAll setupWorld lruRun).cache (batchItems [(2, none), (4, some [8]), (4, none)])
        0 12 false).2.1 = 0 ∧
      (∀ k, covered (scoutfsItemInsertBatch (execAll setupWorld lruRun).cache
          (batchItems [(2, none), (4, some [8]), (4, none)]) 0 12 false).1.ranges k = true ↔
        covered (execAll setupWorld lruRun).cache.ranges k = true ∨ (0 ≤ k ∧ k ≤ 12)) ∧
      (∀ k y, getAt k (itemsOf (execAll setupWorld lruRun).cache.items) = some y →
        getAt k (itemsOf (scoutfsItemInsertBatch (execAll setupWorld lruRun).cache
          (batchItems [(2, none), (4, some [8]), (4, none)]) 0 12 false).1.items) = some y) ∧
      (∀ k, getAt k (itemsOf (execAll setupWorld lruRun).cache.items) = none →
        getAt k (itemsOf (scoutfsItemInsertBatch (execAll setupWorld lruRun).cache
          (batchItems [(2, none), (4, some [8]), (4, none)]) 0 12 false).1.items) =
          ([(2, none), (4, some [8]), (4, none)].find? fun kv => kv.1 = k).map
            fun kv => { allocItem kv.1 kv.2 with persistent := true }) ∧
      (scoutfsItemInsertBatch (execAll setupWorld lruRun).cache (batchItems [(2, none), (4, some [8]), (4, none)])
        0 12 false).2.2 =
        (batchRefused (fun k => (getAt k (itemsOf (execAll setupWorld lruRun).cache.items)).isSome)
          ((batchItems [(2, none), (4, some [8]), (4, none)]).map fun x => { x with persistent := true })).reverse) ∧
    (12 < 0 → ∀ nomem, scoutfsItemInsertBatch (execAll setupWorld lruRun).cache
      (batchItems [(2, none), (4, some [8]), (4, none)]) 0 12 nomem = ((execAll setupWorld lruRun).cache, -EINVAL, [])) ∧
    (0 ≤ 12 → scoutfsItemInsertBatch (execAll setupWorld lruRun).cache (batchItems [(2, none), (4, some [8]), (4, none)])
      0 12 true = ((execAll setupWorld lruRun).cache, -ENOMEM, batchItems [(2, none), (4, some [8]), (4, none)])) :=
  insert_batch_contract (Reachable.setup.execAll lruRun rfl (by decide) : Reachable 8 (execAll setupWorld lruRun))
    [(2, none), (4, some [8]), (4, none)] 0 12

end ScoutfsItemCache
