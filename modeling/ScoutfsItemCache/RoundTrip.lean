import ScoutfsItemCache.KeyView

/-! # Deleting items aside and restoring them

`scoutfs_item_delete_save` takes the live item at a key out of the cache,
leaves a deletion item in its place when the item was persistent, and
hands the item over to the caller's list. `scoutfs_item_restore` puts the
listed items back. Read through `getAt`, each call changes the cache at
its own key only, so delete_save of distinct cached keys followed by the
restore of their list gives back the same sequence of items. The
invariant determines the dirty totals and the contents of the LRU list
from the items, so those come back too; the ranges are never touched.
-/

namespace ScoutfsItemCache

/-! ## delete_save and restore at one key -/

section Calls

variable {M : Nat} {s : ItemCache}

/-- The locked section of `scoutfs_item_delete_save` at a key holding a
live item `x`: it succeeds and hands over the node of `x`; off the key
nothing changes, and at the key it leaves at most a persistent item, when
`x` was persistent. -/
theorem deleteSaveAttempt_getAt (hI : s.Inv M) {key : Nat} {x : CachedItem}
    (hx : getAt key (itemsOf s.items) = some x) (hlive : x.deletion = false) :
    (deleteSaveAttempt key s).2.1 = 0 ∧
      (∃ it, (deleteSaveAttempt key s).2.2 = some it ∧ it.data = x) ∧
      (deleteSaveAttempt key s).1.ranges.toList = s.ranges.toList ∧
      (∀ k, k ≠ key → getAt k (itemsOf (deleteSaveAttempt key s).1.items) = getAt k (itemsOf s.items)) ∧
      ∀ z, getAt key (itemsOf (deleteSaveAttempt key s).1.items) = some z →
        z.persistent = true ∧ x.persistent = true := by
  rcases hf : findItem s.items key with _ | ptr
  · exact absurd (findItem_none hI.sorted hf x hx) (by simp [hlive])
  obtain ⟨it, hp, hk, -⟩ := findItem_some hf
  have hit : it.data = x := by
    rw [← hk, hp.getAt hI.sorted] at hx
    exact Option.some.inj hx
  have h1 := hI.unlinkItem hp
  have hu := unlinkItem_abs hp hI.sorted
  have hnone : getAt key (itemsOf (unlinkItem s ptr).items) = none := by
    rw [← ItemCache.items_abs, hu, ← hk]
    exact AbsCache.getAt_unlink_self
  obtain ⟨hr, hrr, hrk⟩ := insertItem_getAt h1.sorted { allocItem key none with persistent := it.persistent }
    (fun _ => false) fun z hz => absurd (hz.symm.trans hnone) (Option.some_ne_none z)
  obtain ⟨hdr, hdk, hdp⟩ := deleteItem_path_getAt
    (h1.insertItem { allocItem key none with persistent := it.persistent } rfl (Nat.zero_le M) false false
      fun _ => false).sorted key
  unfold deleteSaveAttempt pointAttempt
  obtain ⟨l, r, hptr, -⟩ := hp
  simp only [hf, hptr, hr, ne_eq, not_true_eq_false, if_false]
  refine ⟨trivial, ⟨it, rfl, hit⟩, hdr.trans (hrr.trans ?_), fun k hk' => ?_, fun z hz => ?_⟩
  · rw [← ItemCache.ranges_abs, hu, AbsCache.ranges_unlink, ItemCache.ranges_abs]
  · rw [hdk k hk', hrk k, if_neg (show ¬k = (allocItem key none).key from hk'), ← ItemCache.items_abs, hu,
      AbsCache.getAt_unlink_of_ne (by rw [hk]; exact hk'), ItemCache.items_abs]
  · obtain ⟨hz1, y, hy, hyp⟩ := hdp z hz
    rw [hrk key, if_pos (show key = (allocItem key none).key from rfl)] at hy
    cases hy
    exact ⟨hz1, by rw [← hit]; exact hyp⟩

/-- The first half of a pass of `scoutfs_item_restore`: the live item at
the key, if there is one, is erased; what stays at the key is a deletion
item that was there before. -/
theorem eraseLive_getAt (hI : s.Inv M) (key : Nat) :
    ((findItem s.items key).elim s (eraseItem s)).Inv M ∧
      ((findItem s.items key).elim s (eraseItem s)).ranges.toList = s.ranges.toList ∧
      (∀ k, k ≠ key → getAt k (itemsOf ((findItem s.items key).elim s (eraseItem s)).items) =
        getAt k (itemsOf s.items)) ∧
      ∀ z, getAt key (itemsOf ((findItem s.items key).elim s (eraseItem s)).items) = some z →
        z.deletion = true ∧ getAt key (itemsOf s.items) = some z := by
  rcases hf : findItem s.items key with _ | e
  · exact ⟨hI, rfl, fun _ _ => rfl, fun z hz => ⟨findItem_none hI.sorted hf z hz, hz⟩⟩
  · obtain ⟨x, hp, hk, -⟩ := findItem_some hf
    have hu := unlinkItem_abs hp hI.sorted
    refine ⟨hI.unlinkItem hp, ?_, fun k hk' => ?_, fun z hz => ?_⟩
    · change (unlinkItem s e).ranges.toList = _
      rw [← ItemCache.ranges_abs, hu, AbsCache.ranges_unlink, ItemCache.ranges_abs]
    · change getAt k (itemsOf (unlinkItem s e).items) = _
      rw [← ItemCache.items_abs, hu, AbsCache.getAt_unlink_of_ne (by rw [hk]; exact hk'), ItemCache.items_abs]
    · change getAt key (itemsOf (unlinkItem s e).items) = some z at hz
      rw [← ItemCache.items_abs, hu, ← hk, AbsCache.getAt_unlink_self] at hz
      cases hz

theorem CachedItem.data_clearDirty_of_clean {y : CachedItem} (hd : itemIsDirty y = false) :
    ({ y with dirty := { y.dirty with item := false } } : CachedItem).data = y.data := by
  obtain ⟨k, v, n, d, q, ⟨i, a, b⟩⟩ := y
  simp_all [CachedItem.data, itemIsDirty]

theorem CachedItem.data_markDirty_of_dirty {y : CachedItem} (hd : itemIsDirty y = true) :
    ({ ({ y with dirty := { y.dirty with item := false } } : CachedItem).data with
        dirty := { ({ y with dirty := { y.dirty with item := false } } : CachedItem).data.dirty with item := true } } :
      CachedItem) = y.data := by
  obtain ⟨k, v, n, d, q, ⟨i, a, b⟩⟩ := y
  simp_all [CachedItem.data, itemIsDirty]

/-- A pass of `scoutfs_item_restore` puts the saved item `y` at its key,
with its dirty state, and changes nothing elsewhere, when `y` is persistent
if an item is at the key: whatever the flag of a replaced deletion item
reads as once freed, it then changes nothing. -/
theorem restoreItem_getAt (hI : s.Inv M) (freed : Nat → Bool) (y : CachedItem) (hv : y.valLen ≤ M)
    (hpers : ∀ z, getAt y.key (itemsOf s.items) = some z → y.persistent = true) :
    (restoreItem freed s y).ranges.toList = s.ranges.toList ∧
      ∀ k, getAt k (itemsOf (restoreItem freed s y).items) =
        if k = y.key then some y.data else getAt k (itemsOf s.items) := by
  unfold restoreItem
  dsimp only
  obtain ⟨h1, hr1, hne1, hat1⟩ := eraseLive_getAt hI y.key
  set s1 := (findItem s.items y.key).elim s (eraseItem s)
  set y' : CachedItem := { y with dirty := { y.dirty with item := false } }
  obtain ⟨hr, hrr, hrk⟩ := insertItem_getAt h1.sorted y' freed fun z hz => by
    obtain ⟨hzd, hzs⟩ := hat1 z hz
    exact ⟨hzd, fun _ => hpers z hzs⟩
  have hs2 := (h1.insertItem y' rfl hv false false freed).sorted
  have hrest : ∀ k, k ≠ y.key → getAt k (itemsOf (insertItem s1 y' false false freed).1.items) =
      getAt k (itemsOf s.items) := fun k hk => by rw [hrk k, if_neg hk, hne1 k hk]
  simp only [hr, decide_True, Bool.and_true]
  by_cases hd : itemIsDirty y
  · rw [if_pos hd]
    rcases hpath : itemPath (insertItem s1 y' false false freed).1.items y.key with ⟨p, _ | ⟨l, x', r'⟩⟩
    · have := itemPath_nil hs2 hpath
      rw [hrk y.key, if_pos rfl] at this
      cases this
    obtain ⟨hplug, hk⟩ := itemPath_node hpath
    have hm := markItemDirty_abs (itemPath_pointsTo hpath) hs2
    have hx' : x'.data = y'.data := by
      have := hs2.getAt hplug
      rw [hk, hrk y.key, if_pos rfl] at this
      exact (Option.some.inj this).symm
    have hxd : itemIsDirty x' = false := by rw [← CachedItem.itemIsDirty_data, hx']; rfl
    refine ⟨?_, fun k => ?_⟩
    · rw [← ItemCache.ranges_abs, hm, AbsCache.ranges_markDirty, ItemCache.ranges_abs, hrr, hr1]
    · rw [← ItemCache.items_abs, hm]
      unfold AbsCache.markDirty
      rw [if_neg (by simp [hxd])]
      dsimp only
      rw [getAt_setAt (by intro; rfl), hk, ItemCache.items_abs]
      split_ifs with hky
      · rw [hky, hrk y.key, if_pos rfl, Option.map_some']
        exact congrArg some (CachedItem.data_markDirty_of_dirty hd)
      · exact hrest k hky
  · rw [if_neg hd]
    refine ⟨hrr.trans hr1, fun k => ?_⟩
    split_ifs with hky
    · rw [hky, hrk y.key, if_pos rfl, CachedItem.data_clearDirty_of_clean (by simpa using hd)]
    · exact hrest k hky

/-- The second loop of `scoutfs_item_restore` over items of distinct keys
puts each item at its key and changes nothing elsewhere. -/
theorem restoreItems_getAt (hI : s.Inv M) (freed : Nat → Bool) (list : List CachedItem)
    (hv : ∀ y ∈ list, y.valLen ≤ M) (hnd : (list.map CachedItem.key).Nodup)
    (hpers : ∀ y ∈ list, ∀ z, getAt y.key (itemsOf s.items) = some z → y.persistent = true) :
    (restoreItems freed s list).ranges.toList = s.ranges.toList ∧
      ∀ k, getAt k (itemsOf (restoreItems freed s list).items) =
        ((getAt k list).map CachedItem.data).or (getAt k (itemsOf s.items)) := by
  induction list generalizing s with
  | nil => exact ⟨rfl, fun _ => rfl⟩
  | cons y rest ih =>
    rw [List.map_cons, List.nodup_cons] at hnd
    have hne : ∀ y2 ∈ rest, y2.key ≠ y.key := fun y2 h2 he => hnd.1 (he ▸ List.mem_map_of_mem _ h2)
    obtain ⟨hr1, hk1⟩ := restoreItem_getAt hI freed y (hv y (.head _)) (hpers y (.head _))
    obtain ⟨hr2, hk2⟩ := ih (hI.restoreItem freed y (hv y (.head _))) (fun y2 h2 => hv y2 (.tail _ h2)) hnd.2
      fun y2 h2 z hz => hpers y2 (.tail _ h2) z (by rwa [hk1, if_neg (hne y2 h2)] at hz)
    refine ⟨hr2.trans hr1, fun k => ?_⟩
    rw [restoreItems, hk2, hk1]
    by_cases hk : k = y.key
    · subst hk
      have hrest : getAt y.key rest = none := List.find?_eq_none.2 fun y2 h2 => by simpa using hne y2 h2
      have hy : getAt y.key (y :: rest) = some y := by simp [getAt, List.find?_cons]
      rw [hrest, if_pos rfl, hy]
      rfl
    · have : getAt k (y :: rest) = getAt k rest := by simp [getAt, List.find?_cons, Ne.symm hk]
      rw [this, if_neg hk]

end Calls

/-! ## The round trip -/

/-- `scoutfs_item_delete_save` of each of `keys` in turn onto the
caller's list `list`. -/
def deleteSaveAll (w : World) (list : Nat) (keys : List Nat) : World :=
  execAll w (keys.map fun k => .deleteSave k list)

/-- delete_save of distinct keys holding live items: the cache changes at
those keys only, and the caller's list gains the items in order, each the
one at the key it was saved from; an item stays at a saved key only if
the saved item is persistent. -/
theorem deleteSaveAll_getAt {M : Nat} {w : World} (hw : w.Inv M) (list : Nat) (keys : List Nat)
    (hnd : keys.Nodup) (hk : ∀ k ∈ keys, ∃ x, getAt k (itemsOf w.cache.items) = some x ∧ x.deletion = false) :
    (deleteSaveAll w list keys).Inv M ∧
      (deleteSaveAll w list keys).cache.ranges.toList = w.cache.ranges.toList ∧
      (∀ k, k ∉ keys → getAt k (itemsOf (deleteSaveAll w list keys).cache.items) = getAt k (itemsOf w.cache.items)) ∧
      ∃ saved : List CachedItem, (deleteSaveAll w list keys).saved list = w.saved list ++ saved ∧
        saved.map CachedItem.key = keys ∧
        ∀ y ∈ saved, getAt y.key (itemsOf w.cache.items) = some y.data ∧
          ∀ z, getAt y.key (itemsOf (deleteSaveAll w list keys).cache.items) = some z →
            y.persistent = true := by
  induction keys generalizing w with
  | nil => exact ⟨hw, rfl, fun _ _ => rfl, [], by simp [deleteSaveAll, execAll], rfl, fun _ h => nomatch h⟩
  | cons key ks ih =>
    rw [List.nodup_cons] at hnd
    obtain ⟨x, hx, hlive⟩ := hk key (.head _)
    obtain ⟨-, ⟨it, hit, hitx⟩, hr, hne, hat⟩ := deleteSaveAttempt_getAt hw.cache hx hlive
    have hw1 : (exec w (.deleteSave key list)).Inv M := hw.exec_of_ne rfl fun _ _ h => nomatch h
    have hs1 : (exec w (.deleteSave key list)).saved list = w.saved list ++ [it] := by
      simp [exec, setSaved, hit]
    have hkey : it.key = key := by rw [← CachedItem.data_key, hitx]; exact getAt_key hx
    obtain ⟨hI, hR, hN, saved, hS, hK, hY⟩ := ih hw1 hnd.2 fun k hk' => by
      rw [show (exec w (.deleteSave key list)).cache = (deleteSaveAttempt key w.cache).1 from rfl,
        hne k fun h => hnd.1 (h ▸ hk')]
      exact hk k (.tail _ hk')
    have hrun : deleteSaveAll w list (key :: ks) = deleteSaveAll (exec w (.deleteSave key list)) list ks := rfl
    rw [hrun]
    refine ⟨hI, hR.trans hr, fun k hk' => ?_, it :: saved, ?_, ?_, fun y hy => ?_⟩
    · rw [hN k fun h => hk' (.tail _ h)]
      exact hne k fun h => hk' (h ▸ .head _)
    · rw [hS, hs1, List.append_assoc, List.singleton_append]
    · rw [List.map_cons, hK, hkey]
    · rcases List.mem_cons.1 hy with rfl | hy
      · refine ⟨by rw [hkey, hx, hitx], fun z hz => ?_⟩
        rw [hkey, hN key hnd.1] at hz
        have := (hat z hz).2
        rwa [← hitx, CachedItem.data_persistent] at this
      · obtain ⟨hy1, hy2⟩ := hY y hy
        have hyk : y.key ≠ key := fun h => hnd.1 (h ▸ hK ▸ List.mem_map_of_mem _ hy)
        exact ⟨(hne y.key hyk).symm.trans hy1, hy2⟩

theorem lockCoverage_of_write {lock : ScoutfsLock} {k : Nat} (h : lockCoverage lock k .write = true)
    (dirty : Bool) : lockCoverage lock k (if dirty then .write else .read) = true := by
  rw [lockCoverage_iff] at h ⊢
  cases dirty <;> simp_all

/-- delete_save of distinct cached keys holding live items onto an empty
list, then the restore of that list under a lock covering the keys for
writing: the restore succeeds and empties the list, and the cache holds
the same items as before, each with its key, value, length, deletion,
persistent and dirty state, none of them a deletion item at a saved key,
with the same ranges, dirty totals and LRU contents. -/
theorem delete_save_restore_round_trip {M : Nat} {w : World} (h : Reachable M w) (hM : M < 2 ^ 31)
    (list : Nat) (hlist : w.saved list = []) (keys : List Nat) (hnd : keys.Nodup)
    (hkeys : ∀ k ∈ keys, covered w.cache.ranges k = true ∧
      ∃ x, getAt k (itemsOf w.cache.items) = some x ∧ x.deletion = false)
    (lock : ScoutfsLock) (hlock : ∀ k ∈ keys, lockCoverage lock k .write = true) (freed : Nat → Bool) :
    (scoutfsItemRestore (deleteSaveAll w list keys).cache ((deleteSaveAll w list keys).saved list) lock freed).2.1 = 0 ∧
      itemsOf (exec (deleteSaveAll w list keys) (.restore list lock freed)).cache.items = itemsOf w.cache.items ∧
      (∀ k ∈ keys, ∀ z, getAt k (itemsOf (exec (deleteSaveAll w list keys) (.restore list lock freed)).cache.items) =
        some z → z.deletion = false) ∧
      (exec (deleteSaveAll w list keys) (.restore list lock freed)).cache.ranges.toList = w.cache.ranges.toList ∧
      (exec (deleteSaveAll w list keys) (.restore list lock freed)).cache.nrDirtyItems = w.cache.nrDirtyItems ∧
      (exec (deleteSaveAll w list keys) (.restore list lock freed)).cache.dirtyValBytes = w.cache.dirtyValBytes ∧
      (exec (deleteSaveAll w list keys) (.restore list lock freed)).cache.lruList.Perm w.cache.lruList ∧
      (exec (deleteSaveAll w list keys) (.restore list lock freed)).saved list = [] := by
  have hw := h.inv
  obtain ⟨h1, hr1, hne1, saved, hs1, hk1, hy1⟩ :=
    deleteSaveAll_getAt hw list keys hnd fun k hk => (hkeys k hk).2
  rw [hlist, List.nil_append] at hs1
  have hcov : restoreCovered (deleteSaveAll w list keys).cache lock saved = true := by
    refine List.all_eq_true.2 fun y hy => ?_
    have hyk : y.key ∈ keys := hk1 ▸ List.mem_map_of_mem _ hy
    rw [Bool.and_eq_true, checkRange_isSome h1.cache.ranges]
    exact ⟨lockCoverage_of_write (hlock _ hyk) _, by unfold covered; rw [hr1]; exact (hkeys _ hyk).1⟩
  have hres : scoutfsItemRestore (deleteSaveAll w list keys).cache saved lock freed =
      (restoreItems freed (deleteSaveAll w list keys).cache saved, 0, []) := by
    unfold scoutfsItemRestore
    split_ifs with he hc
    · subst he; rfl
    · simp [hcov] at hc
    · rfl
  have hv : ∀ y ∈ saved, y.valLen ≤ M := fun y hy => h1.saved list y (hs1 ▸ hy)
  obtain ⟨hr2, hk2⟩ := restoreItems_getAt h1.cache freed saved hv (hk1 ▸ hnd) fun y hy => (hy1 y hy).2
  have hexec : (exec (deleteSaveAll w list keys) (.restore list lock freed)).cache =
      restoreItems freed (deleteSaveAll w list keys).cache saved := by
    simp only [exec, hs1, hres]
  have hI2 := (h1.exec_of_ne (show Op.callerOk M (.restore list lock freed) = true from rfl) fun _ _ h => nomatch h).cache
  rw [hexec] at hI2 ⊢
  have hget : ∀ k, getAt k (itemsOf (restoreItems freed (deleteSaveAll w list keys).cache saved).items) =
      getAt k (itemsOf w.cache.items) := by
    intro k
    rw [hk2]
    rcases hfs : getAt k saved with _ | y
    · have hk : k ∉ keys := fun hk => by
        obtain ⟨y, hy, rfl⟩ := List.mem_map.1 (hk1 ▸ hk)
        exact List.find?_eq_none.1 hfs y hy (by simp)
      exact hne1 k hk
    · have hyk : y.key = k := getAt_key hfs
      show some y.data = _
      rw [← hyk]
      exact (hy1 y (getAt_mem hfs)).1.symm
  have hitems := Sorted.ext_getAt hI2.sorted hw.cache.sorted hget
  have e : (restoreItems freed (deleteSaveAll w list keys).cache saved).abs.items = w.cache.abs.items := hitems
  obtain ⟨hc2, hb2⟩ := hI2.counts hM
  obtain ⟨hc0, hb0⟩ := hw.cache.counts hM
  have hl := hI2.lru
  rw [e] at hc2 hb2 hl
  refine ⟨by rw [hs1, hres], hitems, fun k hk z hz => ?_, hr2.trans hr1, ?_, ?_, ?_, ?_⟩
  · obtain ⟨x, hx, hlive⟩ := (hkeys k hk).2
    rw [hitems, hx] at hz
    cases hz
    exact hlive
  · exact hc2.trans hc0.symm
  · exact hb2.trans hb0.symm
  · exact hl.trans hw.cache.lru.symm
  · simp [exec, setSaved, hs1, hres]

/-- Cache `[0, 10]` with the clean items 3 and 5, create 4, and update 5:
a clean persistent, a dirty new and a dirty persistent item. -/
def roundTripRun : List Op :=
  [.insertBatch [(3, some [7]), (5, none)] 0 10, .create 4 (some [1, 2]) freedKept, .update 5 (some [9])]

unseal insertItem insertRange in
theorem round_trip_three_keys :
    (scoutfsItemRestore (deleteSaveAll (execAll setupWorld roundTripRun) 0 [3, 4, 5]).cache
        ((deleteSaveAll (execAll setupWorld roundTripRun) 0 [3, 4, 5]).saved 0) ⟨.write, 0, 10⟩ freedZeroed).2.1 = 0 ∧
      itemsOf (exec (deleteSaveAll (execAll setupWorld roundTripRun) 0 [3, 4, 5]) (.restore 0 ⟨.write, 0, 10⟩ freedZeroed)).cache.items =
        itemsOf (execAll setupWorld roundTripRun).cache.items ∧
      (∀ k ∈ [3, 4, 5], ∀ z, getAt k (itemsOf (exec (deleteSaveAll (execAll setupWorld roundTripRun) 0 [3, 4, 5])
        (.restore 0 ⟨.write, 0, 10⟩ freedZeroed)).cache.items) = some z → z.deletion = false) ∧
      (exec (deleteSaveAll (execAll setupWorld roundTripRun) 0 [3, 4, 5]) (.restore 0 ⟨.write, 0, 10⟩ freedZeroed)).cache.ranges.toList =
        (execAll setupWorld roundTripRun).cache.ranges.toList ∧
      (exec (deleteSaveAll (execAll setupWorld roundTripRun) 0 [3, 4, 5]) (.restore 0 ⟨.write, 0, 10⟩ freedZeroed)).cache.nrDirtyItems =
        (execAll setupWorld roundTripRun).cache.nrDirtyItems ∧
      (exec (deleteSaveAll (execAll setupWorld roundTripRun) 0 [3, 4, 5]) (.restore 0 ⟨.write, 0, 10⟩ freedZeroed)).cache.dirtyValBytes =
        (execAll setupWorld roundTripRun).cache.dirtyValBytes ∧
      (exec (deleteSaveAll (execAll setupWorld roundTripRun) 0 [3, 4, 5]) (.restore 0 ⟨.write, 0, 10⟩ freedZeroed)).cache.lruList.Perm
        (execAll setupWorld roundTripRun).cache.lruList ∧
      (exec (deleteSaveAll (execAll setupWorld roundTripRun) 0 [3, 4, 5]) (.restore 0 ⟨.write, 0, 10⟩ freedZeroed)).saved 0 = [] :=
  delete_save_restore_round_trip (M := 4096) (Reachable.setup.execAll roundTripRun rfl (by decide)) (by decide) 0 rfl
    [3, 4, 5] (by decide) (by decide) ⟨.write, 0, 10⟩ (by decide) freedZeroed

/-! ## A shrink between delete_save and restore -/

/-- Cache the clean items 1 and 3 over [0, 10] and create 2 between them. -/
def restoreRun : List Op := [.insertBatch [(1, none), (3, none)] 0 10, .create 2 none freedKept]

unseal insertItem insertRange eraseFirstRanges eraseWalk in
/-- delete_save of the new item 2 leaves no deletion item, as it was never
persistent; a shrink from the clean item 1 then frees 1 and 3 and the
whole range, and restore finds the key uncovered and returns -EINVAL. -/
theorem restore_after_shrink_fails (maxValSize : Nat) (read : Reader) :
    let s := (execAll setupWorld restoreRun).cache
    let lock : ScoutfsLock := ⟨.write, 0, 10⟩
    Reachable maxValSize (execAll setupWorld restoreRun) ∧ covered s.ranges 2 = true ∧
      (getAt 2 (itemsOf s.items)).map CachedItem.deletion = some false ∧ lockCoverage lock 2 .write = true ∧
      ∃ it s', scoutfsItemDeleteSave read 1 s 2 lock false = some (s', 0, some it) ∧
        (scoutfsItemRestore (itemLruShrink 5 s' 1).1 [it] lock freedKept).2.1 = -EINVAL := by
  refine ⟨Reachable.setup.execAll restoreRun rfl (by decide), by decide, by decide, by decide,
    { allocItem 2 none with dirty := ⟨true, false, false⟩ },
    (deleteSaveAttempt 2 (execAll setupWorld restoreRun).cache).1, ?_, by decide⟩
  rw [scoutfsItemDeleteSave, if_neg (by decide), if_neg (by decide), readRetry, if_neg (by decide)]
  decide

end ScoutfsItemCache
