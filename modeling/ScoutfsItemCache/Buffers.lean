import ScoutfsItemCache.Insertion

/-! # Value buffers

An item's value is the first `val_len` bytes of its buffer. `alloc_item`
copies the value into a buffer of exactly `val_len` bytes, a deletion item
has neither, and `scoutfs_item_update_dirty` only shortens `val_len` (a
longer value is a `BUG_ON`) while it writes the new bytes over the start of
the buffer. So in every reachable world every buffer, in the tree and on
the callers' lists, holds at least `val_len` bytes (`Reachable.buffers`),
and a read that copies `min(val_len, n)` bytes returns the length of what
it copied.
-/

namespace ScoutfsItemCache

/-- The buffer holds the item's `val_len` bytes. -/
def BufferOk (y : CachedItem) : Prop := y.valLen ≤ (y.val.getD []).length

/-- Every item of a tree, read at its key, has a full buffer. -/
def BuffersOk (t : Tree CachedItem) : Prop := ∀ k y, getAt k (itemsOf t) = some y → BufferOk y

/-- With a full buffer the value has `val_len` bytes. -/
theorem BufferOk.length_value {y : CachedItem} (h : BufferOk y) : y.value.length = y.valLen := by
  unfold BufferOk at h
  simp [CachedItem.value, h]

theorem bufferOk_allocItem (key : Nat) (val : Option Bytes) : BufferOk (allocItem key val) := by
  cases val <;> simp [BufferOk, allocItem]

/-- `scoutfs_item_update_dirty` keeps a full buffer when the new value is
not longer than the old `val_len`. -/
theorem BufferOk.updateDirtyItem {y : CachedItem} (h : BufferOk y) {val : Option Bytes}
    (hl : (val.map List.length).getD 0 % 2 ^ 32 ≤ y.valLen) : BufferOk (updateDirtyItem val y) := by
  unfold BufferOk at h ⊢
  rcases val with _ | v
  · simp [ScoutfsItemCache.updateDirtyItem]
  · simp only [Option.map_some', Option.getD_some] at hl
    rcases hy : y.val with _ | b
    · simp only [hy, Option.getD_none, List.length_nil] at h
      simp only [ScoutfsItemCache.updateDirtyItem, hy, Option.map_some', Option.getD_some, Option.map_none',
        Option.getD_none, List.length_nil]
      omega
    · simp only [hy, Option.getD_some] at h
      simp only [ScoutfsItemCache.updateDirtyItem, hy, Option.map_some', Option.getD_some, List.length_append,
        List.length_take, List.length_drop]
      omega

/-! ## The equations of `Effects`, read for buffers -/

section Readings

variable {t t' : Tree CachedItem}

/-- A reading that holds a full buffer wherever it holds an item. -/
def BufferReading (o : Option CachedItem) : Prop := ∀ y, o = some y → BufferOk y

theorem BufferReading.empty : BufferReading none := fun _ h => nomatch h

theorem BufferReading.full {y : CachedItem} (h : BufferOk y) : BufferReading (some y) :=
  fun _ hy => Option.some.inj hy ▸ h

theorem BuffersOk.reading (hb : BuffersOk t) (k : Nat) : BufferReading (getAt k (itemsOf t)) := hb k

theorem BuffersOk.of_getAt (hb : BuffersOk t)
    (h : ∀ k, getAt k (itemsOf t') = getAt k (itemsOf t) ∨ BufferReading (getAt k (itemsOf t'))) :
    BuffersOk t' :=
  fun k y hy => (h k).elim (fun e => hb k y (e ▸ hy)) (fun hk => hk y hy)

/-- A tree that changed at one key only, to a reading with a full buffer. -/
theorem BuffersOk.of_at (hb : BuffersOk t) {key : Nat} {o : Option CachedItem} (ho : BufferReading o)
    (h : ∀ k, getAt k (itemsOf t') = if k = key then o else getAt k (itemsOf t)) : BuffersOk t' :=
  hb.of_getAt fun k => by
    rw [h k]
    split_ifs
    · exact .inr ho
    · exact .inl rfl

theorem BuffersOk.of_items (hb : BuffersOk t) (h : itemsOf t' = itemsOf t) : BuffersOk t' :=
  hb.of_getAt fun k => .inl (by rw [h])

/-- A tree that only lost items. -/
theorem BuffersOk.of_erase (hb : BuffersOk t)
    (h : ∀ k, getAt k (itemsOf t') = getAt k (itemsOf t) ∨ getAt k (itemsOf t') = none) : BuffersOk t' :=
  hb.of_getAt fun k => (h k).imp_right fun e => by rw [e]; exact .empty

theorem BufferReading.liveAt {f : CachedItem → Option CachedItem} {o : Option CachedItem} (ho : BufferReading o)
    (hf : ∀ y, o = some y → y.deletion = false → BufferReading (f y)) : BufferReading (liveAt f o) := by
  rcases o with _ | y
  · exact .empty
  · cases hd : y.deletion
    · rw [liveAt_of_live hd]; exact hf y rfl hd
    · rw [liveAt_of_dead fun _ h => Option.some.inj h ▸ hd]; exact ho

theorem BufferReading.createAt {item : CachedItem} (hi : BufferOk item) (freed : Nat → Bool)
    {o : Option CachedItem} (ho : BufferReading o) : BufferReading (createAt item freed o) := by
  rcases o with _ | z
  · exact .full hi
  · simp only [ScoutfsItemCache.createAt]
    split_ifs <;> first | exact .full hi | exact ho

theorem BufferReading.deleteAtKey (y : CachedItem) : BufferReading (deleteAtKey y) := by
  unfold ScoutfsItemCache.deleteAtKey
  split_ifs
  · exact .full (Nat.zero_le _)
  · exact .empty

end Readings

/-! ## Every locked section keeps full buffers -/

section Sections

variable {s : ItemCache}

theorem BuffersOk.insertBatch (hb : BuffersOk s.items) (hs : ItemsSorted s.items)
    (batch : List (Nat × Option Bytes)) (start «end» : Nat) :
    BuffersOk (scoutfsItemInsertBatch s (batchItems batch) start «end» false).1.items := by
  unfold scoutfsItemInsertBatch
  split_ifs
  · exact hb
  · exact hb
  refine hb.of_getAt fun k => ?_
  dsimp only
  rw [getAt_insertBatchItems (s := { s with ranges := insertRange s.ranges ⟨start, «end»⟩ }) hs]
  rcases getAt k (itemsOf s.items) with _ | y
  · rcases hx : getAt k (batchItems batch) with _ | x
    · exact .inr .empty
    · obtain ⟨kv, -, rfl⟩ := List.mem_map.1 (getAt_mem hx)
      exact .inr (.full (bufferOk_allocItem kv.1 kv.2))
  · exact .inl rfl

theorem BuffersOk.restoreItems (hb : BuffersOk s.items) (hs : ItemsSorted s.items) (freed : Nat → Bool)
    (list : List CachedItem) (hl : ∀ y ∈ list, BufferOk y) : BuffersOk (restoreItems freed s list).items := by
  induction list generalizing s with
  | nil => exact hb
  | cons y rest ih =>
    refine ih (hb.of_at (.full ?_) (getAt_restoreItem hs freed y)) (restoreItem_sorted hs freed y)
      fun z hz => hl z (.tail _ hz)
    have := hl y (.head _)
    unfold BufferOk at this ⊢
    split_ifs <;> exact this

theorem BuffersOk.dirtySeg (hb : BuffersOk s.items) (hs : ItemsSorted s.items) :
    BuffersOk (scoutfsItemDirtySeg s).1.items :=
  scoutfsItemDirtySeg_induction (fun s _ => BuffersOk s.items)
    (fun _ _ _ it _ _ _ hy hk h => h.of_at (o := flushAt it.data) (fun z hz => by
      have := h _ _ hy
      unfold flushAt at hz
      split_ifs at hz
      cases hz
      exact this) hk) hs hb

/-- A bug-free `scoutfs_item_update_dirty` writes a value no longer than
the old one. -/
theorem scoutfsItemUpdateDirty_valLen (hs : ItemsSorted s.items) {key : Nat} {val : Option Bytes}
    (hbug : (scoutfsItemUpdateDirty s key val).bug = false) {y : CachedItem}
    (hy : getAt key (itemsOf s.items) = some y) (hl : y.deletion = false) :
    (val.map List.length).getD 0 % 2 ^ 32 ≤ y.valLen := by
  unfold scoutfsItemUpdateDirty at hbug
  rcases hf : findItem s.items key with _ | ⟨p, _ | ⟨l, it, r⟩⟩
  · exact absurd (findItem_none hs hf y hy) (by simp [hl])
  · simp [hf] at hbug
  obtain ⟨x, hp, hk, -⟩ := findItem_some hf
  have hx := hp.getAt hs
  obtain ⟨l', r', hptr, -⟩ := hp
  cases hptr
  simp only [hf, updateDirtyItemCounts, Bool.or_eq_false_iff, decide_eq_false_iff_not, not_lt] at hbug
  rw [← hk, hx] at hy
  cases hy
  exact hbug.2

end Sections

/-- Full buffers over a world: in the cache, and on the callers' lists. -/
structure World.Buffers (w : World) : Prop where
  items : BuffersOk w.cache.items
  saved : ∀ n, ∀ y ∈ w.saved n, BufferOk y

theorem World.Buffers.setup : setupWorld.Buffers :=
  ⟨fun _ _ h => (nomatch h), fun _ _ h => (nomatch h)⟩

section Exec

variable {M : Nat} {w : World}

/-- Every bug-free locked section keeps full buffers. -/
theorem World.Buffers.exec (hb : w.Buffers) (hI : w.Inv M) (op : Op) (hbug : (exec w op).cache.bug = false) :
    (exec w op).Buffers := by
  have hs := hI.cache.sorted
  have hi := hb.items
  have hlive : ∀ (f : CachedItem → CachedItem) (key : Nat), (∀ y, BufferOk y → BufferOk (f y)) →
      BufferReading (liveAt (fun y => some (f y)) (getAt key (itemsOf w.cache.items))) := fun f key hf =>
    (hi.reading key).liveAt fun y hy _ => .full (hf y (hi key y hy))
  cases op with
  | lookup key bufLen => exact ⟨hi.of_items (congrArg itemsOf (lookupAttempt_items key bufLen w.cache).1), hb.saved⟩
  | next last pos bufLen =>
    simp only [ScoutfsItemCache.exec]
    split
    · exact ⟨hi.of_items (congrArg itemsOf (walkFound_items _ _ _).1), hb.saved⟩
    · exact hb
  | prev first pos bufLen =>
    simp only [ScoutfsItemCache.exec]
    split
    · exact ⟨hi.of_items (congrArg itemsOf (walkFound_items _ _ _).1), hb.saved⟩
    · exact hb
  | create key val freed =>
    refine ⟨hi.of_getAt fun k => ?_, hb.saved⟩
    simp only [ScoutfsItemCache.exec]
    rw [getAt_createAttempt hs]
    split_ifs
    · exact .inr (.createAt (bufferOk_allocItem key val) freed (hi.reading _))
    · exact .inl rfl
  | createForce key val =>
    refine ⟨hi.of_at ?_ (getAt_createForceLocked hs _), hb.saved⟩
    exact .full (bufferOk_allocItem key val)
  | insertBatch batch start «end» => exact ⟨hi.insertBatch hs batch start «end», hb.saved⟩
  | dirty key =>
    refine ⟨hi.of_at ?_ (getAt_dirtyAttempt hs key), hb.saved⟩
    exact hlive _ key fun _ h => h
  | update key val =>
    refine ⟨hi.of_at ?_ (getAt_updateAttempt hs key val), hb.saved⟩
    exact hlive _ key fun _ _ => bufferOk_allocItem key val
  | delete key =>
    exact ⟨hi.of_at ((hi.reading key).liveAt fun y _ _ => .deleteAtKey y) (getAt_deleteAttempt hs key), hb.saved⟩
  | deleteForce key =>
    refine ⟨hi.of_at ?_ (getAt_deleteForceLocked hs key), hb.saved⟩
    exact .full (Nat.zero_le _)
  | deleteSave key list =>
    refine ⟨hi.of_at ((hi.reading key).liveAt fun y _ _ => .deleteAtKey y) (getAt_deleteSaveAttempt hs key),
      fun n y hy => ?_⟩
    simp only [ScoutfsItemCache.exec, setSaved] at hy
    split_ifs at hy
    · rcases List.mem_append.1 hy with hy | hy
      · exact hb.saved list y hy
      · exact hi key y.data (deleteSaveAttempt_saved hs key (Option.mem_toList.1 hy)).2
    · exact hb.saved n y hy
  | restore list lock freed =>
    refine ⟨?_, fun n y hy => ?_⟩
    · show BuffersOk (scoutfsItemRestore w.cache (w.saved list) lock freed).1.items
      unfold scoutfsItemRestore
      split_ifs
      · exact hi
      · exact hi
      · exact hi.restoreItems hs freed _ (hb.saved list)
    · simp only [ScoutfsItemCache.exec, setSaved] at hy
      split_ifs at hy
      · unfold scoutfsItemRestore at hy
        split_ifs at hy
        · exact nomatch hy
        · exact hb.saved list y hy
        · exact nomatch hy
      · exact hb.saved n y hy
  | deleteDirty key =>
    exact ⟨hi.of_at ((hi.reading key).liveAt fun y _ _ => .deleteAtKey y) (getAt_scoutfsItemDeleteDirty hs key),
      hb.saved⟩
  | updateDirty key val =>
    refine ⟨hi.of_at ((hi.reading key).liveAt fun y hy hl => .full ?_) (getAt_scoutfsItemUpdateDirty hs key val),
      hb.saved⟩
    exact (hi key y hy).updateDirtyItem (scoutfsItemUpdateDirty_valLen hs hbug hy hl)
  | dirtySeg => exact ⟨hi.dirtySeg hs, hb.saved⟩
  | invalidate start «end» =>
    refine ⟨hi.of_erase fun k => ?_, hb.saved⟩
    rcases (@eraseWalk_getAt_go w.cache (fun it => scoutfsKeyCompare it.key «end» ≤ 0) (fun _ => false) start «end»
      (fun z hz => by simpa using hz) (nextItem w.cache.items start) 0 hs fun it hit => nextItem_ge hs hit).2 k
      with e | ⟨-, -, e⟩
    · exact .inl e
    · exact .inr e
  | shrink nrToScan fuel =>
    refine ⟨hi.of_erase fun k => ?_, hb.saved⟩
    exact ((itemLruShrink_run hI.cache fuel nrToScan).1 k).imp_right And.left
  | rotateItems key left =>
    exact ⟨hi.of_items (congrArg AbsCache.items (rotateItemsAt_abs w.cache key left)), hb.saved⟩
  | rotateRanges key left => exact ⟨hi, hb.saved⟩

end Exec

/-- In every reachable world every buffer holds its item's `val_len` bytes. -/
theorem Reachable.buffers {M : Nat} {w : World} (h : Reachable M w) : w.Buffers := by
  induction h with
  | setup => exact .setup
  | step op hr _ hbug ih => exact ih.exec hr.inv op hbug

end ScoutfsItemCache
