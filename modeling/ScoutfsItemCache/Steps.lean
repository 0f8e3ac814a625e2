import ScoutfsItemCache.Shrinker

/-! # Every locked section keeps the invariant

Each step of `exec` keeps `ItemCache.Inv` when its arguments are ones
callers pass (`Op.callerOk`), and the callers' saved items keep values of
at most `SCOUTFS_MAX_VAL_SIZE` bytes. Every step but
`scoutfs_item_update_dirty` keeps `bug` unset on its own: the items it
inserts are clean, the insertions that must succeed do (an overwrite, or
an insertion at a key just unlinked), and the shrinker only meets clean
items at the head of the LRU. `scoutfs_item_update_dirty` keeps the
invariant when its own `BUG_ON` does not fire.

By induction over runs, every reachable world satisfies the invariant
(`Reachable.inv`).
-/

namespace ScoutfsItemCache

/-! ## Where the walks find their items -/

section Found

variable {t : Tree CachedItem} {it : CachedItem}

theorem nextItem_mem {k : Nat} (h : nextItem t k = some it) : it ∈ t.toList := by
  rcases hp : itemPath t k with ⟨p, _ | ⟨l, x, r⟩⟩
  · simp only [nextItem, walkItems, hp, Tree.root_nil, Option.none_orElse, nextParent_eq_head] at h
    rw [← plug_of_itemPath hp, toList_plug]
    exact List.mem_append_right _ (List.mem_of_mem_head? h)
  · simp only [nextItem, walkItems, hp, Tree.root_node, Option.some_orElse, Option.some.injEq] at h
    subst h
    rw [← plug_of_itemPath hp, toList_plug]
    simp

theorem prevItem_mem {k : Nat} (h : prevItem t k = some it) : it ∈ t.toList := by
  rcases hp : itemPath t k with ⟨p, _ | ⟨l, x, r⟩⟩
  · simp only [prevItem, walkItems, hp, Tree.root_nil, Option.none_orElse, prevParent_eq_getLast] at h
    rw [← plug_of_itemPath hp, toList_plug]
    exact List.mem_append_left _ (List.mem_append_left _ (List.mem_of_mem_getLast? h))
  · simp only [prevItem, walkItems, hp, Tree.root_node, Option.some_orElse, Option.some.injEq] at h
    subst h
    rw [← plug_of_itemPath hp, toList_plug]
    simp

theorem nextItemNode_mem {beyond : CachedItem → Bool} {L : List CachedItem}
    (h : nextItemNode beyond L = some it) : it ∈ L := by
  induction L with
  | nil => cases h
  | cons x L ih =>
    unfold nextItemNode at h
    split_ifs at h
    · cases h; exact .head _
    · exact .tail _ (ih h)

theorem itemForNext_mem {key rangeEnd last : Nat} (h : itemForNext t key rangeEnd last = some it) :
    it ∈ t.toList := by
  unfold itemForNext at h
  rcases hn : nextItem t key with _ | it0
  · simp [hn] at h
  simp only [hn] at h
  split_ifs at h <;> first
    | exact (itemsAfter_sublist _ _).subset (nextItemNode_mem h)
    | (cases h; exact nextItem_mem hn)

theorem itemForPrev_mem {key rangeStart first : Nat} (h : itemForPrev t key rangeStart first = some it) :
    it ∈ t.toList := by
  unfold itemForPrev at h
  rcases hn : prevItem t key with _ | it0
  · simp [hn] at h
  simp only [hn] at h
  split_ifs at h <;> first
    | exact List.mem_reverse.1 ((itemsAfter_sublist _ _).subset (nextItemNode_mem h))
    | (cases h; exact prevItem_mem hn)

/-- A pass of `scoutfs_item_next` finds an item of the tree. -/
theorem nextScan_mem {s : ItemCache} {last pos : Nat} (h : nextScan s last pos = .found it) :
    it ∈ s.items.toList := by
  induction pos using nextScan.induct s last with
  | case1 x hc => rw [nextScan_of_none hc] at h; cases h
  | case2 x rng hc it' hi => rw [nextScan_of_some hc, hi] at h; cases h; exact itemForNext_mem hi
  | case3 x rng hc hi hlt ih => rw [nextScan_of_some hc, hi, if_pos hlt] at h; exact ih h
  | case4 x rng hc hi hlt => rw [nextScan_of_some hc, hi, if_neg hlt] at h; cases h

/-- A pass of `scoutfs_item_prev` finds an item of the tree. -/
theorem prevScan_mem {s : ItemCache} {first pos : Nat} (h : prevScan s first pos = .found it) :
    it ∈ s.items.toList := by
  induction pos using prevScan.induct s first with
  | case1 x hc => rw [prevScan_of_none hc] at h; cases h
  | case2 x rng hc it' hi => rw [prevScan_of_some hc, hi] at h; cases h; exact itemForPrev_mem hi
  | case3 x rng hc hi hlt ih => rw [prevScan_of_some hc, hi, if_pos hlt] at h; exact ih h
  | case4 x rng hc hi hlt => rw [prevScan_of_some hc, hi, if_neg hlt] at h; cases h

end Found

/-! ## Rotations change nothing the cache means -/

theorem rotateItemsAt_abs (s : ItemCache) (k : Nat) (left : Bool) : (rotateItemsAt s k left).abs = s.abs := by
  have hplug := plug_of_itemPath (Prod.mk.eta (p := itemPath s.items k)).symm
  have h : itemsOf (plug (itemPath s.items k).1 (rotateAug itemAug left (itemPath s.items k).2)) =
      itemsOf s.items := by
    conv_rhs => rw [← hplug]
    simp only [itemsOf, toList_plug, List.map_append,
      toList_rotateAug itemAug CachedItem.data data_itemAug]
  simp only [rotateItemsAt, ItemCache.abs, h]

theorem rotateRangesAt_abs (s : ItemCache) (k : Nat) (left : Bool) :
    (rotateRangesAt s k left).abs = s.abs := by
  have hplug := plug_of_rangePath (Prod.mk.eta (p := rangePath s.ranges k)).symm
  have h : (plug (rangePath s.ranges k).1 (rotateAug (fun _ x _ => x) left (rangePath s.ranges k).2)).toList =
      s.ranges.toList := by
    conv_rhs => rw [← hplug]
    have := toList_rotateAug (fun _ x _ => x) id (fun _ _ _ => rfl) left (rangePath s.ranges k).2
    simp only [List.map_id] at this
    simp only [toList_plug, this]
  simp only [rotateRangesAt, ItemCache.abs, h]

/-! ## The locked sections -/

theorem allocItem_valLen_le {M key : Nat} {val : Option Bytes} (h : (!invalidKeyVal M val) = true) :
    (allocItem key val).valLen ≤ M := by
  cases val <;> simp_all [invalidKeyVal, allocItem]

theorem insertItem_ret {s : ItemCache} (hs : ItemsSorted s.items) (ins : CachedItem) (lo cp : Bool)
    (freed : Nat → Bool) : (insertItem s ins lo cp freed).2 = (s.abs.insert ins lo cp freed).2 :=
  congrArg Prod.snd (insertItem_abs hs ins lo cp freed)

namespace ItemCache.Inv

variable {M : Nat} {s : ItemCache}

theorem pointAttempt {β : Type} (hI : s.Inv M) {key : Nat}
    {found : ItemCache → ItemPtr → ItemCache × Int × β} {miss : β}
    (hfound : ∀ ptr x, PointsTo s.items ptr x → x.key = key → (found s ptr).1.Inv M) :
    (pointAttempt key found miss s).1.Inv M := by
  unfold ScoutfsItemCache.pointAttempt
  split
  · obtain ⟨x, hp, hk, -⟩ := findItem_some ‹_›
    exact hfound _ x hp hk
  · split_ifs <;> exact hI

theorem lookupAttempt (hI : s.Inv M) (key : Nat) (bufLen : Option Nat) :
    (lookupAttempt key bufLen s).1.Inv M :=
  hI.pointAttempt fun ptr x hp _ => by
    obtain ⟨l, r, hptr, hplug⟩ := hp
    simp only [hptr]
    exact hI.itemReferenced (by rw [← hplug, toList_plug]; simp)

theorem walkFound (hI : s.Inv M) (bufLen : Option Nat) {it : CachedItem} (hmem : it ∈ s.items.toList) :
    (walkFound bufLen s it).1.Inv M := by
  unfold ScoutfsItemCache.walkFound
  split_ifs
  · exact hI.itemReferenced hmem
  · exact hI

theorem createAttempt (hI : s.Inv M) {item : CachedItem} (hd : itemIsDirty item = false)
    (hv : item.valLen ≤ M) (freed : Nat → Bool) : (createAttempt item freed s).1.Inv M := by
  unfold ScoutfsItemCache.createAttempt
  dsimp only
  split_ifs
  · exact hI
  · exact (hI.insertItem item hd hv false false freed).markItemDirty_path _
  · exact hI.insertItem item hd hv false false freed

theorem createForceLocked (hI : s.Inv M) {item : CachedItem} (hd : itemIsDirty item = false)
    (hv : item.valLen ≤ M) : (createForceLocked item s).1.Inv M := by
  have hr : (ScoutfsItemCache.insertItem s { item with persistent := true } true false fun _ => false).2 = 0 := by
    rw [insertItem_ret hI.sorted]; exact AbsCache.insert_overwrite _ _ _
  unfold ScoutfsItemCache.createForceLocked
  simp only [hr, ne_eq, not_true_eq_false, if_false]
  exact (hI.insertItem { item with persistent := true } hd hv true false _).markItemDirty_path _

theorem scoutfsItemInsertBatch (hI : s.Inv M) (list : List CachedItem) (start «end» : Nat)
    (hl : ∀ x ∈ list, itemIsDirty x = false ∧ x.valLen ≤ M) :
    (scoutfsItemInsertBatch s list start «end» false).1.Inv M := by
  unfold ScoutfsItemCache.scoutfsItemInsertBatch
  split_ifs with h
  · exact hI
  · exact hI
  · simp only [scoutfsKeyCompare_pos, not_lt] at h
    exact (hI.setRanges (insertRange_ok (AbsCache.Inv.ranges hI)
      (show (⟨start, «end»⟩ : CachedRange).start ≤ (⟨start, «end»⟩ : CachedRange).end from h))).insertBatchItems [] list hl

theorem dirtyAttempt (hI : s.Inv M) (key : Nat) : (dirtyAttempt key s).1.Inv M :=
  hI.pointAttempt fun _ _ hp _ => hI.markItemDirty hp

theorem updateAttempt (hI : s.Inv M) (key : Nat) (val : Option Bytes)
    (hv : (val.map List.length).getD 0 ≤ M) : (updateAttempt key val s).1.Inv M :=
  hI.pointAttempt fun _ _ hp _ => by
    have hpc := clearItemDirty_pointsTo hp
    exact ((hI.clearItemDirty hp).setItem hpc rfl
      (f := fun it => { it with val, valLen := (val.map List.length).getD 0 })
      (fun _ => rfl) (fun _ => rfl) (fun _ => rfl) hv).markItemDirty (setItem_pointsTo hpc _)

theorem deleteAttempt (hI : s.Inv M) (key : Nat) : (deleteAttempt key s).1.Inv M :=
  hI.pointAttempt fun _ _ hp _ => hI.deleteItem hp

theorem deleteForceLocked (hI : s.Inv M) (key : Nat) : (deleteForceLocked key s).Inv M := by
  have hr : (ScoutfsItemCache.insertItem s { allocItem key none with persistent := true } true false
      fun _ => false).2 = 0 := by
    rw [insertItem_ret hI.sorted]; exact AbsCache.insert_overwrite _ _ _
  unfold ScoutfsItemCache.deleteForceLocked
  simp only [hr, ne_eq, not_true_eq_false, if_false]
  exact ((hI.insertItem { allocItem key none with persistent := true } rfl (Nat.zero_le M)
    true false _).markItemDirty_path key).deleteItem_path key

/-- `scoutfs_item_delete_save` keeps the invariant, and hands over an item
of the cache. -/
theorem deleteSaveAttempt (hI : s.Inv M) (key : Nat) :
    (deleteSaveAttempt key s).1.Inv M ∧ ∀ x, (deleteSaveAttempt key s).2.2 = some x → x.valLen ≤ M := by
  unfold ScoutfsItemCache.deleteSaveAttempt ScoutfsItemCache.pointAttempt
  split
  · rename_i ptr hf
    obtain ⟨x, hp, hk, -⟩ := findItem_some hf
    have h1 := hI.unlinkItem hp
    have hnone : getAt key (ScoutfsItemCache.unlinkItem s ptr).abs.items = none := by
      rw [unlinkItem_abs hp hI.sorted, AbsCache.unlink_items, ← hk]
      exact getAt_eraseAt _ _
    have hr : (ScoutfsItemCache.insertItem (ScoutfsItemCache.unlinkItem s ptr)
        { allocItem key none with persistent := x.persistent }
        false false fun _ => false).2 = 0 := by
      rw [insertItem_ret h1.sorted]; exact AbsCache.insert_fresh _ hnone _ _ _
    obtain ⟨l, r, hptr, hplug⟩ := hp
    simp only [hptr, hr, ne_eq, not_true_eq_false, if_false]
    refine ⟨(h1.insertItem { allocItem key none with persistent := x.persistent } rfl (Nat.zero_le M)
      false false _).deleteItem_path key, fun y hy => ?_⟩
    cases hy
    exact hI.valLen_le ⟨l, r, hptr, hplug⟩
  · split_ifs <;> exact ⟨hI, fun _ h => nomatch h⟩

theorem scoutfsItemRestore (hI : s.Inv M) (list : List CachedItem) (lock : ScoutfsLock)
    (freed : Nat → Bool) (hl : ∀ x ∈ list, x.valLen ≤ M) : (scoutfsItemRestore s list lock freed).1.Inv M := by
  unfold ScoutfsItemCache.scoutfsItemRestore
  split_ifs
  · exact hI
  · exact hI
  · exact hI.restoreItems freed list hl

theorem scoutfsItemDeleteDirty (hI : s.Inv M) (key : Nat) : (scoutfsItemDeleteDirty s key).Inv M := by
  unfold ScoutfsItemCache.scoutfsItemDeleteDirty
  split
  · obtain ⟨x, hp, -, -⟩ := findItem_some ‹_›
    exact hI.deleteItem hp
  · exact hI

/-- `scoutfs_item_update_dirty` keeps the invariant when its `BUG_ON` does
not fire: the item is dirty and its value only shortens, by the signed
difference of the two `unsigned` lengths. -/
theorem scoutfsItemUpdateDirty (hI : s.Inv M) (key : Nat) (val : Option Bytes)
    (hbug : (scoutfsItemUpdateDirty s key val).bug = false) : (scoutfsItemUpdateDirty s key val).Inv M := by
  unfold ScoutfsItemCache.scoutfsItemUpdateDirty at hbug ⊢
  rcases hf : findItem s.items key with _ | ⟨p, _ | ⟨l, it, r⟩⟩
  · simp [hf, updateDirtyItemCounts] at hbug
  · simp [hf, updateDirtyItemCounts] at hbug
  obtain ⟨x, ⟨l', r', hptr, hplug⟩, -, -⟩ := findItem_some hf
  cases hptr
  simp only [hf, updateDirtyItemCounts, Bool.or_eq_false_iff, Bool.not_eq_false', decide_eq_false_iff_not,
    not_lt] at hbug ⊢
  obtain ⟨⟨hb, hd⟩, hle⟩ := hbug
  have hv := hI.valLen_le ⟨l, r, rfl, hplug⟩
  set newLen := (val.map List.length).getD 0 % 2 ^ 32
  let f : CachedItem → CachedItem := fun z => { z with
    val := match val with
      | some v => z.val.map fun b => v.take newLen ++ b.drop newLen
      | none => z.val
    valLen := newLen }
  have h := AbsCache.Inv.shortenDirty hI (hI.sorted.getAt hplug) hd (f := f) (fun _ => rfl) (fun _ => rfl) hle
    (δ := toS32 (subU32 newLen it.valLen)) fun hM => toS32_subU32 hle (by omega)
  unfold ItemCache.Inv
  convert h using 1
  simp only [ItemCache.abs, itemsOf_plug_node, hI.sorted.setAt hplug, add_zero, hb, hd,
    decide_eq_false hle.not_lt, Bool.not_true, Bool.or_false]
  rfl

theorem scoutfsItemInvalidate (hI : s.Inv M) (start «end» : Nat) (h : start ≤ «end») :
    (scoutfsItemInvalidate s start «end» false).1.Inv M := by
  unfold ScoutfsItemCache.scoutfsItemInvalidate
  have h1 := hI.eraseWalk (fun it => scoutfsKeyCompare it.key «end» ≤ 0) (fun _ => false)
    (nextItem s.items start) 0
  exact h1.setRanges (removeRange_ok (AbsCache.Inv.ranges h1) h)

end ItemCache.Inv

/-! ## Runs -/

/-- The invariant of a world: its cache's, and the items on the callers'
lists hold values of at most `maxValSize` bytes. -/
structure World.Inv (maxValSize : Nat) (w : World) : Prop where
  cache : w.cache.Inv maxValSize
  saved : ∀ n, ∀ x ∈ w.saved n, x.valLen ≤ maxValSize

theorem World.Inv.setup (M : Nat) : setupWorld.Inv M := by
  refine ⟨⟨List.Pairwise.nil, ⟨(fun _ h => nomatch h), .nil⟩, .nil, rfl, (fun _ h => nomatch h),
    fun _ => ⟨rfl, rfl⟩, rfl⟩, fun _ _ h => nomatch h⟩

theorem setSaved_le {M : Nat} {saved : Nat → List CachedItem} {list : Nat} {items : List CachedItem}
    (hs : ∀ n, ∀ x ∈ saved n, x.valLen ≤ M) (hi : ∀ x ∈ items, x.valLen ≤ M) :
    ∀ n, ∀ x ∈ setSaved saved list items n, x.valLen ≤ M := by
  intro n x hx
  unfold setSaved at hx
  split_ifs at hx
  · exact hi x hx
  · exact hs n x hx

section Exec

variable {M : Nat} {w : World}

/-- Every step but `scoutfs_item_update_dirty` keeps the invariant, with no
`BUG_ON` firing. -/
theorem World.Inv.exec_of_ne (hw : w.Inv M) {op : Op} (hop : op.callerOk M = true)
    (hne : ∀ k v, op ≠ .updateDirty k v) : (exec w op).Inv M := by
  have hc := hw.cache
  cases op with
  | lookup key bufLen => exact ⟨hc.lookupAttempt key bufLen, hw.saved⟩
  | next last pos bufLen =>
    simp only [exec]
    split
    · exact ⟨hc.walkFound bufLen (nextScan_mem ‹_›), hw.saved⟩
    · exact hw
  | prev first pos bufLen =>
    simp only [exec]
    split
    · exact ⟨hc.walkFound bufLen (prevScan_mem ‹_›), hw.saved⟩
    · exact hw
  | create key val freed =>
    exact ⟨hc.createAttempt (show itemIsDirty (allocItem key val) = false from rfl) (allocItem_valLen_le hop) freed,
      hw.saved⟩
  | createForce key val => exact ⟨hc.createForceLocked rfl (allocItem_valLen_le hop), hw.saved⟩
  | insertBatch batch start «end» =>
    refine ⟨hc.scoutfsItemInsertBatch _ start «end» fun x hx => ?_, hw.saved⟩
    obtain ⟨kv, hkv, rfl⟩ := List.mem_map.1 hx
    exact ⟨rfl, allocItem_valLen_le (List.all_eq_true.1 hop kv hkv)⟩
  | dirty key => exact ⟨hc.dirtyAttempt key, hw.saved⟩
  | update key val =>
    refine ⟨hc.updateAttempt key val ?_, hw.saved⟩
    simpa [allocItem] using (allocItem_valLen_le hop : (allocItem key val).valLen ≤ M)
  | delete key => exact ⟨hc.deleteAttempt key, hw.saved⟩
  | deleteForce key => exact ⟨hc.deleteForceLocked key, hw.saved⟩
  | deleteSave key list =>
    obtain ⟨h1, h2⟩ := hc.deleteSaveAttempt key
    refine ⟨h1, setSaved_le hw.saved fun x hx => ?_⟩
    rcases List.mem_append.1 hx with hx | hx
    · exact hw.saved list x hx
    · exact h2 x (Option.mem_toList.1 hx)
  | restore list lock freed =>
    refine ⟨hc.scoutfsItemRestore _ lock freed (hw.saved list), setSaved_le hw.saved ?_⟩
    unfold scoutfsItemRestore
    split_ifs
    · exact fun _ h => nomatch h
    · exact hw.saved list
    · exact fun _ h => nomatch h
  | deleteDirty key => exact ⟨hc.scoutfsItemDeleteDirty key, hw.saved⟩
  | updateDirty key val => exact absurd rfl (hne key val)
  | dirtySeg => exact ⟨hc.scoutfsItemDirtySeg, hw.saved⟩
  | invalidate start «end» => exact ⟨hc.scoutfsItemInvalidate start «end» (by simpa [Op.callerOk] using hop), hw.saved⟩
  | shrink nrToScan fuel => exact ⟨hc.itemLruShrink fuel nrToScan, hw.saved⟩
  | rotateItems key left =>
    refine ⟨?_, hw.saved⟩
    unfold ItemCache.Inv
    simp only [exec, rotateItemsAt_abs]
    exact hc
  | rotateRanges key left =>
    refine ⟨?_, hw.saved⟩
    unfold ItemCache.Inv
    simp only [exec, rotateRangesAt_abs]
    exact hc

/-- Every step keeps the invariant when no `BUG_ON` fires. -/
theorem World.Inv.exec (hw : w.Inv M) {op : Op} (hop : op.callerOk M = true)
    (hbug : (ScoutfsItemCache.exec w op).cache.bug = false) : (ScoutfsItemCache.exec w op).Inv M := by
  by_cases h : ∃ k v, op = .updateDirty k v
  · obtain ⟨k, v, rfl⟩ := h
    exact ⟨hw.cache.scoutfsItemUpdateDirty k v hbug, hw.saved⟩
  · push_neg at h
    exact hw.exec_of_ne hop h

end Exec

/-- Every reachable world satisfies the invariant. -/
theorem Reachable.inv {M : Nat} {w : World} (h : Reachable M w) : w.Inv M := by
  induction h with
  | setup => exact World.Inv.setup M
  | step op _ hop hbug ih => exact ih.exec hop hbug

end ScoutfsItemCache
