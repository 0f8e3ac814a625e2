import ScoutfsItemCache.Refine
import ScoutfsItemCache.Ranges

/-! # The invariant of the item cache

What every reachable cache satisfies, stated on its reading as sequences
(`ItemCache.abs`):

* the items are sorted by key and the cached ranges are well formed;
* the LRU list holds the keys of the clean items, each once, and `lru_nr`
  is its length;
* no item holds a value longer than `SCOUTFS_MAX_VAL_SIZE`;
* `nr_dirty_items` counts the dirty items and `dirty_val_bytes` sums their
  `val_len`, whenever `SCOUTFS_MAX_VAL_SIZE` fits in an `int`: the totals
  move by `signed` deltas computed from `unsigned` lengths;
* no `BUG_ON` has fired.

Each operation of `AbsCache` keeps the invariant when it is applied to an
item of the cache, and `link` when it is given a clean item for a free key.
`Preserve` lifts these to the tree functions.
-/

namespace ScoutfsItemCache

/-- The keys of the clean items, in order: what the LRU list holds. -/
def cleanKeys (L : List CachedItem) : List Nat := (L.filter fun x => !itemIsDirty x).map CachedItem.key

/-- The items with `ITEM_DIRTY`. -/
def dirtyItems (L : List CachedItem) : List CachedItem := L.filter itemIsDirty

/-- The value bytes of the dirty items. -/
def dirtyBytes (L : List CachedItem) : Nat := ((dirtyItems L).map CachedItem.valLen).sum

section Totals

variable {x : CachedItem} {L L' : List CachedItem}

@[simp] theorem cleanKeys_cons :
    cleanKeys (x :: L) = if itemIsDirty x then cleanKeys L else x.key :: cleanKeys L := by
  unfold cleanKeys; cases h : itemIsDirty x <;> simp [h, List.filter_cons]

@[simp] theorem dirtyItems_cons :
    dirtyItems (x :: L) = if itemIsDirty x then x :: dirtyItems L else dirtyItems L := by
  unfold dirtyItems; cases h : itemIsDirty x <;> simp [h]

@[simp] theorem dirtyBytes_cons :
    dirtyBytes (x :: L) = (if itemIsDirty x then x.valLen else 0) + dirtyBytes L := by
  unfold dirtyBytes; cases h : itemIsDirty x <;> simp [h]

theorem cleanKeys_perm (h : L.Perm L') : (cleanKeys L).Perm (cleanKeys L') := (h.filter _).map _

theorem dirtyItems_length_perm (h : L.Perm L') : (dirtyItems L).length = (dirtyItems L').length :=
  (h.filter _).length_eq

theorem dirtyBytes_perm (h : L.Perm L') : dirtyBytes L = dirtyBytes L' := ((h.filter _).map _).sum_eq

end Totals

/-! ## The item at a key of a sorted sequence -/

section Keys

variable {L : List CachedItem} {k : Nat} {x y : CachedItem}

theorem getAt_key (h : getAt k L = some y) : y.key = k := by simpa using List.find?_some h

theorem getAt_mem (h : getAt k L = some y) : y ∈ L := List.mem_of_find?_eq_some h

/-- In a sorted sequence the item at a key splits it into smaller and larger keys. -/
theorem Sorted.getAt_split (hs : Sorted L) (h : getAt k L = some y) :
    ∃ A B, L = A ++ y :: B ∧ y.key = k ∧ (∀ z ∈ A, z.key < y.key) ∧ (∀ z ∈ B, y.key < z.key) := by
  obtain ⟨A, B, rfl⟩ := List.append_of_mem (getAt_mem h)
  exact ⟨A, B, rfl, getAt_key h, hs.split.1, hs.split.2⟩

theorem Sorted.getAt_of_mem (hs : Sorted L) (hy : y ∈ L) : getAt y.key L = some y := by
  obtain ⟨A, B, rfl⟩ := List.append_of_mem hy
  exact ScoutfsItemCache.getAt_split hs.split.1

/-- The item at a key and the rest of a sorted sequence. -/
theorem Sorted.perm_eraseAt (hs : Sorted L) (h : getAt k L = some y) :
    L.Perm (y :: ScoutfsItemCache.eraseAt k L) := by
  obtain ⟨A, B, rfl, rfl, hA, hB⟩ := hs.getAt_split h
  rw [eraseAt_split hA hB]
  exact List.perm_middle

theorem Sorted.setAt_perm (hs : Sorted L) (h : getAt k L = some y) (f : CachedItem → CachedItem) :
    (ScoutfsItemCache.setAt k f L).Perm (f y :: ScoutfsItemCache.eraseAt k L) := by
  obtain ⟨A, B, rfl, rfl, hA, hB⟩ := hs.getAt_split h
  rw [setAt_split hA hB, eraseAt_split hA hB]
  exact List.perm_middle

theorem Sorted.getAt_setAt (hs : Sorted L) (h : getAt k L = some y) {f : CachedItem → CachedItem}
    (hf : ∀ z, (f z).key = z.key) : getAt k (ScoutfsItemCache.setAt k f L) = some (f y) := by
  obtain ⟨A, B, rfl, rfl, hA, hB⟩ := hs.getAt_split h
  rw [setAt_split hA hB, ← hf y]
  exact ScoutfsItemCache.getAt_split fun z hz => hf y ▸ hA z hz

/-- Linking an item at a free key adds it to the sequence. -/
theorem insertAt_perm (h : getAt x.key L = none) : (insertAt x L).Perm (x :: L) := by
  have hne : ∀ z ∈ L, z.key ≠ x.key := by simpa [getAt, List.find?_eq_none] using h
  have hgt : L.filter (fun z => x.key < z.key) = L.filter (fun z => !decide (z.key < x.key)) :=
    List.filter_congr fun z hz => by
      have := hne z hz; by_cases h : z.key < x.key <;> simp [h] <;> omega
  unfold insertAt
  rw [hgt]
  exact List.perm_middle.trans (.cons _ (List.filter_append_perm _ _))

end Keys

/-! ## The invariant -/

namespace AbsCache

/-- The invariant of the cache read as sequences. -/
structure Inv (maxValSize : Nat) (a : AbsCache) : Prop where
  sorted : Sorted a.items
  ranges : RangesOk a.ranges
  lru : a.lruList.Perm (cleanKeys a.items)
  lruNr : a.lruNr = a.lruList.length
  valLen : ∀ x ∈ a.items, x.valLen ≤ maxValSize
  counts : maxValSize < 2 ^ 31 →
    a.nrDirtyItems = (dirtyItems a.items).length ∧ a.dirtyValBytes = dirtyBytes a.items
  bug : a.bug = false

section Preserve

variable {M : Nat} {a : AbsCache} {k : Nat} {x y : CachedItem}

theorem Inv.setRanges (hI : a.Inv M) {L : List CachedRange} (h : RangesOk L) :
    { a with ranges := L }.Inv M :=
  { hI with ranges := h }

/-- An LRU key moves to the tail. -/
theorem Inv.moveTail (hI : a.Inv M) (hk : k ∈ a.lruList) :
    { a with lruList := a.lruList.erase k ++ [k] }.Inv M := by
  have hp : (a.lruList.erase k ++ [k]).Perm a.lruList :=
    (List.perm_append_singleton k _).trans (List.perm_cons_erase hk).symm
  refine { hI with lru := hp.trans hI.lru, lruNr := ?_ }
  rw [hp.length_eq]
  exact hI.lruNr

/-- The key of a clean item is on the LRU list. -/
theorem Inv.mem_lru (hI : a.Inv M) (hx : getAt k a.items = some y) (hd : itemIsDirty y = false) :
    k ∈ a.lruList := by
  rw [hI.lru.mem_iff, cleanKeys, List.mem_map]
  exact ⟨y, List.mem_filter.2 ⟨getAt_mem hx, by simp [hd]⟩, getAt_key hx⟩

theorem Inv.markDirty (hI : a.Inv M) (hx : getAt x.key a.items = some y) (hxy : y.data = x.data) :
    (a.markDirty x).Inv M := by
  unfold AbsCache.markDirty
  split_ifs with hd
  · exact hI
  have hyd : itemIsDirty y = false := by rw [← CachedItem.itemIsDirty_data, hxy]; simpa using hd
  have hv : y.valLen = x.valLen := by rw [← CachedItem.data_valLen, hxy, CachedItem.data_valLen]
  have hk := getAt_key hx
  have hp := hI.sorted.perm_eraseAt hx
  have hp' := hI.sorted.setAt_perm hx fun z => { z with dirty := { z.dirty with item := true } }
  have hlru : a.lruList.Perm (x.key :: cleanKeys (eraseAt x.key a.items)) := by
    simpa [hyd, hk] using hI.lru.trans (cleanKeys_perm hp)
  have hmem : x.key ∈ a.lruList := hlru.mem_iff.2 (List.mem_cons_self _ _)
  refine ⟨hI.sorted.setAt fun _ => rfl, hI.ranges, ?_, ?_, fun z hz => ?_, fun hM => ?_, hI.bug⟩
  · have h1 := (hlru.erase x.key).trans (by rw [List.erase_cons_head])
    exact h1.trans (by simpa [itemIsDirty] using (cleanKeys_perm hp').symm)
  · simp only
    rw [List.length_erase_of_mem hmem, hI.lruNr]
  · rcases List.mem_cons.1 (hp'.mem_iff.1 hz) with rfl | hz
    · exact hI.valLen y (getAt_mem hx)
    · exact hI.valLen z (List.mem_filter.1 hz).1
  · obtain ⟨h1, h2⟩ := hI.counts hM
    have hlt : x.valLen < 2 ^ 31 := by have := hI.valLen y (getAt_mem hx); omega
    dsimp only [AbsCache.counts]
    rw [dirtyItems_length_perm hp', dirtyBytes_perm hp', h1, h2, dirtyItems_length_perm hp,
      dirtyBytes_perm hp, toS32_of_lt hlt]
    simp [show y.dirty.item = false from hyd, itemIsDirty, hv]
    omega

theorem Inv.clearDirty (hI : a.Inv M) (hx : getAt x.key a.items = some y) (hxy : y.data = x.data) :
    (a.clearDirty x).Inv M := by
  unfold AbsCache.clearDirty
  split_ifs with hd
  · exact hI
  have hyd : itemIsDirty y = true := by rw [← CachedItem.itemIsDirty_data, hxy]; simpa using hd
  have hv : y.valLen = x.valLen := by rw [← CachedItem.data_valLen, hxy, CachedItem.data_valLen]
  have hk := getAt_key hx
  have hp := hI.sorted.perm_eraseAt hx
  have hp' := hI.sorted.setAt_perm hx fun z => { z with dirty := { z.dirty with item := false } }
  have hlru : a.lruList.Perm (cleanKeys (eraseAt x.key a.items)) := by
    simpa [hyd] using hI.lru.trans (cleanKeys_perm hp)
  refine ⟨hI.sorted.setAt fun _ => rfl, hI.ranges, ?_, ?_, fun z hz => ?_, fun hM => ?_, hI.bug⟩
  · have h1 := (List.perm_append_singleton x.key a.lruList).trans (hlru.cons x.key)
    exact h1.trans (by simpa [itemIsDirty, hk] using (cleanKeys_perm hp').symm)
  · simp only [List.length_append, List.length_singleton, hI.lruNr]
  · rcases List.mem_cons.1 (hp'.mem_iff.1 hz) with rfl | hz
    · exact hI.valLen y (getAt_mem hx)
    · exact hI.valLen z (List.mem_filter.1 hz).1
  · obtain ⟨h1, h2⟩ := hI.counts hM
    have hlt : x.valLen < 2 ^ 31 := by have := hI.valLen y (getAt_mem hx); omega
    dsimp only [AbsCache.counts]
    rw [dirtyItems_length_perm hp', dirtyBytes_perm hp', h1, h2, dirtyItems_length_perm hp,
      dirtyBytes_perm hp, toS32_negU32 hlt]
    simp [show y.dirty.item = true from hyd, itemIsDirty, hv]

/-- After `clear_item_dirty` the item at the key is clean. -/
theorem Inv.getAt_clearDirty (hI : a.Inv M) (hx : getAt x.key a.items = some y) (hxy : y.data = x.data) :
    ∃ y', getAt x.key (a.clearDirty x).items = some y' ∧ itemIsDirty y' = false := by
  unfold AbsCache.clearDirty
  split_ifs with hd
  · refine ⟨y, hx, ?_⟩
    rw [← CachedItem.itemIsDirty_data, hxy]; simpa using hd
  · exact ⟨_, hI.sorted.getAt_setAt hx fun _ => rfl, rfl⟩

/-- Plain field writes to a clean item that keep its key and its dirty bit. -/
theorem Inv.set (hI : a.Inv M) (hx : getAt k a.items = some y) (hyd : itemIsDirty y = false)
    {f : CachedItem → CachedItem} (hfk : ∀ z, (f z).key = z.key)
    (hfd : ∀ z, itemIsDirty (f z) = itemIsDirty z) (hv : (f y).valLen ≤ M) : (a.set k f).Inv M := by
  have hp := hI.sorted.perm_eraseAt hx
  have hp' := hI.sorted.setAt_perm hx f
  have hsame : cleanKeys (f y :: eraseAt k a.items) = cleanKeys (y :: eraseAt k a.items) := by
    simp [hfd, hfk]
  refine ⟨hI.sorted.setAt hfk, hI.ranges, ?_, hI.lruNr, fun z hz => ?_, fun hM => ?_, hI.bug⟩
  · exact hI.lru.trans ((cleanKeys_perm hp).trans (hsame ▸ (cleanKeys_perm hp').symm))
  · rcases List.mem_cons.1 (hp'.mem_iff.1 hz) with rfl | hz
    · exact hv
    · exact hI.valLen z (List.mem_filter.1 hz).1
  · obtain ⟨h1, h2⟩ := hI.counts hM
    dsimp only [AbsCache.set]
    refine ⟨?_, ?_⟩
    · rw [h1, dirtyItems_length_perm hp', dirtyItems_length_perm hp]; simp [hfd, hyd]
    · rw [h2, dirtyBytes_perm hp', dirtyBytes_perm hp]; simp [hfd, hyd]

/-- A dirty item's value shortens in place, and `dirty_val_bytes` moves by
the difference of the lengths. -/
theorem Inv.shortenDirty (hI : a.Inv M) (hx : getAt k a.items = some y) (hyd : itemIsDirty y = true)
    {f : CachedItem → CachedItem} (hfk : ∀ z, (f z).key = z.key)
    (hfd : ∀ z, itemIsDirty (f z) = itemIsDirty z) (hv : (f y).valLen ≤ y.valLen) {δ : Int}
    (hδ : M < 2 ^ 31 → δ = ((f y).valLen : Int) - y.valLen) :
    { a with items := setAt k f a.items, dirtyValBytes := a.dirtyValBytes + δ }.Inv M := by
  have hp := hI.sorted.perm_eraseAt hx
  have hp' := hI.sorted.setAt_perm hx f
  have hsame : cleanKeys (f y :: eraseAt k a.items) = cleanKeys (y :: eraseAt k a.items) := by
    simp [hfd, hyd]
  refine ⟨hI.sorted.setAt hfk, hI.ranges, ?_, hI.lruNr, fun z hz => ?_, fun hM => ?_, hI.bug⟩
  · exact hI.lru.trans ((cleanKeys_perm hp).trans (hsame ▸ (cleanKeys_perm hp').symm))
  · rcases List.mem_cons.1 (hp'.mem_iff.1 hz) with rfl | hz
    · exact le_trans hv (hI.valLen y (getAt_mem hx))
    · exact hI.valLen z (List.mem_filter.1 hz).1
  · obtain ⟨h1, h2⟩ := hI.counts hM
    dsimp only
    refine ⟨?_, ?_⟩
    · rw [h1, dirtyItems_length_perm hp', dirtyItems_length_perm hp]; simp [hfd, hyd]
    · rw [h2, hδ hM, dirtyBytes_perm hp', dirtyBytes_perm hp]; simp [hfd, hyd]; omega

/-- A clean item leaves the sequence and the LRU list. -/
theorem Inv.eraseClean (hI : a.Inv M) (hx : getAt k a.items = some y) (hyd : itemIsDirty y = false) :
    { a with items := eraseAt k a.items, lruList := a.lruList.erase k, lruNr := a.lruNr - 1 }.Inv M := by
  have hp := hI.sorted.perm_eraseAt hx
  have hlru : a.lruList.Perm (k :: cleanKeys (eraseAt k a.items)) := by
    simpa [hyd, getAt_key hx] using hI.lru.trans (cleanKeys_perm hp)
  have hmem : k ∈ a.lruList := hlru.mem_iff.2 (List.mem_cons_self _ _)
  refine ⟨hI.sorted.eraseAt k, hI.ranges, ?_, ?_, fun z hz => hI.valLen z (List.mem_filter.1 hz).1,
    fun hM => ?_, hI.bug⟩
  · exact (hlru.erase k).trans (by rw [List.erase_cons_head])
  · simp only
    rw [List.length_erase_of_mem hmem, hI.lruNr]
  · obtain ⟨h1, h2⟩ := hI.counts hM
    refine ⟨?_, ?_⟩
    · rw [h1, dirtyItems_length_perm hp]; simp [hyd]
    · rw [h2, dirtyBytes_perm hp]; simp [hyd]

theorem Inv.unlink (hI : a.Inv M) (hx : getAt x.key a.items = some y) (hxy : y.data = x.data) :
    (a.unlink x).Inv M := by
  have hc := hI.clearDirty hx hxy
  obtain ⟨y', hy', hyd⟩ := hI.getAt_clearDirty hx hxy
  have hmem := hc.mem_lru hy' hyd
  unfold AbsCache.unlink
  simp only [hmem, if_true]
  exact hc.eraseClean hy' hyd

theorem Inv.link (hI : a.Inv M) (hnone : getAt x.key a.items = none) (hd : itemIsDirty x = false)
    (hv : x.valLen ≤ M) : (a.link x).Inv M := by
  have hp := insertAt_perm (x := x.data) (L := a.items) hnone
  unfold AbsCache.link
  rw [if_neg (by simp [hd])]
  refine ⟨hI.sorted.insertAt _, hI.ranges, ?_, ?_, fun z hz => ?_, fun hM => ?_, hI.bug⟩
  · exact (List.perm_append_singleton x.key _).trans
      ((hI.lru.cons _).trans (by simpa [hd] using (cleanKeys_perm hp).symm))
  · simp [hI.lruNr]
  · rcases List.mem_cons.1 (hp.mem_iff.1 hz) with rfl | hz
    · exact hv
    · exact hI.valLen z hz
  · obtain ⟨h1, h2⟩ := hI.counts hM
    refine ⟨?_, ?_⟩
    · rw [h1, dirtyItems_length_perm hp]; simp [hd]
    · rw [h2, dirtyBytes_perm hp]; simp [hd]

/-- `insert_item` of a clean item. -/
theorem Inv.insert (hI : a.Inv M) {ins : CachedItem} (hd : itemIsDirty ins = false) (hv : ins.valLen ≤ M)
    (lo cp : Bool) (freed : Nat → Bool) : (a.insert ins lo cp freed).1.Inv M := by
  unfold AbsCache.insert
  split
  · rename_i item hget
    by_cases hc : cp || (!item.deletion && !lo)
    · rw [if_pos hc]; exact hI
    rw [if_neg hc]
    have hk := getAt_key hget
    have hkey : (if freed item.key then { ins with persistent := true } else ins).key = item.key := by
      split <;> exact hk.symm
    refine (hI.unlink (hk ▸ hget) rfl).link ?_ (by split <;> exact hd) (by split <;> exact hv)
    rw [unlink_items, hkey]
    exact getAt_eraseAt _ _
  · exact hI.link ‹_› hd hv

theorem Inv.referenced (hI : a.Inv M) {it : CachedItem} (hx : getAt it.key a.items = some y)
    (hxy : y.data = it.data) : (a.referenced it).Inv M := by
  unfold AbsCache.referenced
  split_ifs with hz
  · refine hI.moveTail (hI.mem_lru hx ?_)
    rw [← CachedItem.itemIsDirty_data, hxy, CachedItem.itemIsDirty_data, itemIsDirty, hz]
    rfl
  · exact hI

end Preserve

/-! ## What `insert_item` returns -/

/-- An insertion that may overwrite always links its item. -/
theorem insert_overwrite (a : AbsCache) (ins : CachedItem) (freed : Nat → Bool) :
    (a.insert ins true false freed).2 = 0 := by
  unfold AbsCache.insert; split <;> simp

/-- An insertion at a free key links its item. -/
theorem insert_fresh (a : AbsCache) {ins : CachedItem} (h : getAt ins.key a.items = none) (lo cp : Bool)
    (freed : Nat → Bool) : (a.insert ins lo cp freed).2 = 0 := by
  unfold AbsCache.insert; rw [h]

end AbsCache

end ScoutfsItemCache
