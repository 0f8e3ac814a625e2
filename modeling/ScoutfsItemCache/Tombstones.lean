import ScoutfsItemCache.Shrinking

/-! # Deletion items

`delete_item` leaves a deletion item only where the segment store may hold
the key, and it leaves it dirty, persistent and without a value, so that
the next `scoutfs_item_dirty_seg` writes the deletion. Nothing else makes a
deletion item, and nothing clears its dirty bit but the flush, which erases
it. So in every reachable world every deletion item is dirty, persistent,
with `val_len` 0 and no buffer (`Reachable.tombs`).

The shrinker erases only items it saw clean; with the invariant, it erases
no deletion item, and what it leaves covered reads as before
(`reachable_shrink_safe`).
-/

namespace ScoutfsItemCache

/-- What a deletion item carries. -/
def TombstoneOk (y : CachedItem) : Prop :=
  y.deletion = true → itemIsDirty y = true ∧ y.persistent = true ∧ y.valLen = 0 ∧ y.val = none

instance : DecidablePred TombstoneOk := fun y => by unfold TombstoneOk; infer_instance

theorem TombstoneOk.of_live {y : CachedItem} (h : y.deletion = false) : TombstoneOk y :=
  fun h' => absurd (h ▸ h') Bool.false_ne_true

theorem tombstone_ok (key : Nat) : TombstoneOk (tombstone key) := fun _ => ⟨rfl, rfl, rfl, rfl⟩

theorem TombstoneOk.data {y : CachedItem} (h : TombstoneOk y) : TombstoneOk y.data := h

/-- Every item of a tree, read at its key, is a well formed deletion item
or a live one. -/
def TombsOk (t : Tree CachedItem) : Prop :=
  ∀ k y, getAt k (itemsOf t) = some y → TombstoneOk y

/-! ## The equations of `Effects`, read for deletion items -/

section Readings

variable {t t' : Tree CachedItem}

/-- A reading that is well formed wherever it holds an item. -/
def ReadingOk (o : Option CachedItem) : Prop := ∀ y, o = some y → TombstoneOk y

theorem ReadingOk.none : ReadingOk none := fun _ h => nomatch h

theorem ReadingOk.some_live {y : CachedItem} (h : y.deletion = false) : ReadingOk (some y) :=
  fun _ hy => Option.some.inj hy ▸ TombstoneOk.of_live h

theorem ReadingOk.of_eq_none {o : Option CachedItem} (h : o = Option.none) : ReadingOk o := h ▸ ReadingOk.none

theorem TombsOk.reading (ht : TombsOk t) (k : Nat) : ReadingOk (getAt k (itemsOf t)) := ht k

/-- A tree whose every reading is an old one or a well formed one. -/
theorem TombsOk.of_getAt (ht : TombsOk t)
    (h : ∀ k, getAt k (itemsOf t') = getAt k (itemsOf t) ∨ ReadingOk (getAt k (itemsOf t'))) : TombsOk t' :=
  fun k y hy => (h k).elim (fun e => ht k y (e ▸ hy)) (fun hk => hk y hy)

/-- A tree that changed at one key only, to a well formed reading. -/
theorem TombsOk.of_at (ht : TombsOk t) {key : Nat} {o : Option CachedItem} (ho : ReadingOk o)
    (h : ∀ k, getAt k (itemsOf t') = if k = key then o else getAt k (itemsOf t)) : TombsOk t' :=
  ht.of_getAt fun k => by
    rw [h k]
    split_ifs
    · exact .inr ho
    · exact .inl rfl

theorem TombsOk.of_items (ht : TombsOk t) (h : itemsOf t' = itemsOf t) : TombsOk t' :=
  ht.of_getAt fun k => .inl (by rw [h])

/-- A point operation keeps readings well formed when what it makes of a
live item is. -/
theorem ReadingOk.liveAt {f : CachedItem → Option CachedItem} {o : Option CachedItem} (ho : ReadingOk o)
    (hf : ∀ y, y.deletion = false → ReadingOk (f y)) : ReadingOk (liveAt f o) := by
  rcases o with _ | y
  · exact .none
  · cases hd : y.deletion
    · rw [liveAt_of_live hd]; exact hf y hd
    · rw [liveAt_of_dead fun _ h => Option.some.inj h ▸ hd]; exact ho

theorem ReadingOk.deleteAtKey (y : CachedItem) : ReadingOk (deleteAtKey y) := by
  unfold ScoutfsItemCache.deleteAtKey
  split_ifs
  · exact fun _ h => Option.some.inj h ▸ tombstone_ok y.key
  · exact .none

theorem ReadingOk.createAt {item : CachedItem} (hi : item.deletion = false) (freed : Nat → Bool)
    {o : Option CachedItem} (ho : ReadingOk o) : ReadingOk (createAt item freed o) := by
  rcases o with _ | z
  · exact .some_live (by simpa using hi)
  · simp only [ScoutfsItemCache.createAt]
    split_ifs with hz hp
    · exact .some_live (by simpa using hi)
    · exact .some_live (by simpa using hi)
    · exact ho

theorem ReadingOk.restoreAt {y : CachedItem} (hy : y.deletion = false) (freed : Nat → Bool)
    (o : Option CachedItem) : ReadingOk (restoreAt y freed o) :=
  .some_live (by split_ifs <;> simpa using hy)

theorem ReadingOk.flushAt (y : CachedItem) : ReadingOk (flushAt y) := by
  unfold ScoutfsItemCache.flushAt
  split_ifs with hd
  · exact .none
  · exact .some_live (by simpa using hd)

end Readings

/-! ## Every locked section keeps deletion items well formed -/

section Sections

variable {s : ItemCache}

theorem TombsOk.insertBatch (ht : TombsOk s.items) (hs : ItemsSorted s.items) (list : List CachedItem)
    (start «end» : Nat) (hl : ∀ x ∈ list, x.deletion = false) :
    TombsOk (scoutfsItemInsertBatch s list start «end» false).1.items := by
  unfold scoutfsItemInsertBatch
  split_ifs
  · exact ht
  · exact ht
  refine ht.of_getAt fun k => ?_
  dsimp only
  rw [getAt_insertBatchItems (s := { s with ranges := insertRange s.ranges ⟨start, «end»⟩ }) hs]
  rcases hk : getAt k (itemsOf s.items) with _ | y
  · rcases hx : getAt k list with _ | x
    · exact .inr .none
    · exact .inr (.some_live (by simpa using hl x (getAt_mem hx)))
  · exact .inl rfl

theorem TombsOk.restoreItems (ht : TombsOk s.items) (hs : ItemsSorted s.items) (freed : Nat → Bool)
    (list : List CachedItem) (hl : ∀ y ∈ list, y.deletion = false) : TombsOk (restoreItems freed s list).items := by
  induction list generalizing s with
  | nil => exact ht
  | cons y rest ih =>
    exact ih (ht.of_at (.restoreAt (hl y (.head _)) freed _) (getAt_restoreItem hs freed y))
      (restoreItem_sorted hs freed y) fun z hz => hl z (.tail _ hz)

theorem TombsOk.dirtySeg (ht : TombsOk s.items) (hs : ItemsSorted s.items) :
    TombsOk (scoutfsItemDirtySeg s).1.items :=
  scoutfsItemDirtySeg_induction (fun s _ => TombsOk s.items)
    (fun _ _ _ it _ _ _ _ hk h => h.of_at (.flushAt it.data) hk) hs ht

theorem TombsOk.invalidate (ht : TombsOk s.items) (hs : ItemsSorted s.items) (start «end» : Nat) :
    TombsOk (scoutfsItemInvalidate s start «end» false).1.items := by
  have h := (@eraseWalk_getAt_go s (fun it => scoutfsKeyCompare it.key «end» ≤ 0) (fun _ => false) start «end»
    (fun z hz => by simpa using hz) (nextItem s.items start) 0 hs fun it hit => nextItem_ge hs hit).2
  refine ht.of_getAt fun k => ?_
  rcases h k with e | ⟨-, -, e⟩
  · exact .inl e
  · exact .inr (.of_eq_none e)

end Sections

/-- The invariant of deletion items over a world: the cache's, and the items
callers hold on their lists, which `scoutfs_item_delete_save` hands over
live. -/
structure World.Tombs (w : World) : Prop where
  items : TombsOk w.cache.items
  saved : ∀ n, ∀ y ∈ w.saved n, y.deletion = false

theorem World.Tombs.setup : setupWorld.Tombs :=
  ⟨fun _ _ h => (nomatch h), fun _ _ h => (nomatch h)⟩

section Exec

variable {M : Nat} {w : World}

/-- Every locked section keeps deletion items well formed. -/
theorem World.Tombs.exec (ht : w.Tombs) (hI : w.Inv M) (op : Op) : (exec w op).Tombs := by
  have hs := hI.cache.sorted
  have hi := ht.items
  cases op with
  | lookup key bufLen => exact ⟨hi.of_items (congrArg itemsOf (lookupAttempt_items key bufLen w.cache).1), ht.saved⟩
  | next last pos bufLen =>
    simp only [ScoutfsItemCache.exec]
    split
    · exact ⟨hi.of_items (congrArg itemsOf (walkFound_items _ _ _).1), ht.saved⟩
    · exact ht
  | prev first pos bufLen =>
    simp only [ScoutfsItemCache.exec]
    split
    · exact ⟨hi.of_items (congrArg itemsOf (walkFound_items _ _ _).1), ht.saved⟩
    · exact ht
  | create key val freed =>
    refine ⟨hi.of_getAt fun k => ?_, ht.saved⟩
    simp only [ScoutfsItemCache.exec]
    rw [getAt_createAttempt hs]
    split_ifs
    · exact .inr (.createAt rfl freed (hi.reading _))
    · exact .inl rfl
  | createForce key val =>
    exact ⟨hi.of_at (.some_live rfl) (getAt_createForceLocked hs _), ht.saved⟩
  | insertBatch batch start «end» =>
    refine ⟨hi.insertBatch hs _ start «end» fun x hx => ?_, ht.saved⟩
    obtain ⟨kv, -, rfl⟩ := List.mem_map.1 hx
    rfl
  | dirty key =>
    exact ⟨hi.of_at ((hi.reading key).liveAt fun y hy => .some_live (by simpa using hy))
      (getAt_dirtyAttempt hs key), ht.saved⟩
  | update key val =>
    exact ⟨hi.of_at ((hi.reading key).liveAt fun y hy => .some_live (by simpa using hy))
      (getAt_updateAttempt hs key val), ht.saved⟩
  | delete key =>
    exact ⟨hi.of_at ((hi.reading key).liveAt fun y _ => .deleteAtKey y) (getAt_deleteAttempt hs key), ht.saved⟩
  | deleteForce key =>
    exact ⟨hi.of_at (fun _ h => Option.some.inj h ▸ tombstone_ok key) (getAt_deleteForceLocked hs key), ht.saved⟩
  | deleteSave key list =>
    refine ⟨hi.of_at ((hi.reading key).liveAt fun y _ => .deleteAtKey y) (getAt_deleteSaveAttempt hs key),
      fun n y hy => ?_⟩
    simp only [ScoutfsItemCache.exec, setSaved] at hy
    split_ifs at hy with hn
    · rcases List.mem_append.1 hy with hy | hy
      · exact ht.saved list y hy
      · exact (deleteSaveAttempt_saved hs key (Option.mem_toList.1 hy)).1
    · exact ht.saved n y hy
  | restore list lock freed =>
    refine ⟨?_, fun n y hy => ?_⟩
    · show TombsOk (scoutfsItemRestore w.cache (w.saved list) lock freed).1.items
      unfold scoutfsItemRestore
      split_ifs
      · exact hi
      · exact hi
      · exact hi.restoreItems hs freed _ (ht.saved list)
    · simp only [ScoutfsItemCache.exec, setSaved] at hy
      split_ifs at hy with hn
      · unfold scoutfsItemRestore at hy
        split_ifs at hy
        · exact nomatch hy
        · exact ht.saved list y hy
        · exact nomatch hy
      · exact ht.saved n y hy
  | deleteDirty key =>
    exact ⟨hi.of_at ((hi.reading key).liveAt fun y _ => .deleteAtKey y) (getAt_scoutfsItemDeleteDirty hs key),
      ht.saved⟩
  | updateDirty key val =>
    exact ⟨hi.of_at ((hi.reading key).liveAt fun y hy => .some_live (by simpa [updateDirtyItem] using hy))
      (getAt_scoutfsItemUpdateDirty hs key val), ht.saved⟩
  | dirtySeg => exact ⟨hi.dirtySeg hs, ht.saved⟩
  | invalidate start «end» => exact ⟨hi.invalidate hs start «end», ht.saved⟩
  | shrink nrToScan fuel =>
    refine ⟨hi.of_getAt fun k => ?_, ht.saved⟩
    rcases (itemLruShrink_run hI.cache fuel nrToScan).1 k with e | ⟨e, -⟩
    · exact .inl e
    · exact .inr (.of_eq_none e)
  | rotateItems key left =>
    exact ⟨hi.of_items (congrArg AbsCache.items (rotateItemsAt_abs w.cache key left)), ht.saved⟩
  | rotateRanges key left => exact ⟨hi, ht.saved⟩

end Exec

/-- In every reachable world every deletion item is dirty, persistent, with
`val_len` 0 and no buffer. -/
theorem Reachable.tombs {M : Nat} {w : World} (h : Reachable M w) : w.Tombs := by
  induction h with
  | setup => exact .setup
  | step op hr _ _ ih => exact ih.exec hr.inv op

/-! ## The shrinker -/

/-- For every reachable world and every `nr_to_scan`, `item_lru_shrink`
erases only clean live items and changes no other item; every key a range
still covers was covered before and reads as before, so the key of every
erased item is left uncovered. -/
theorem reachable_shrink_safe {M : Nat} {w : World} (h : Reachable M w) (fuel nrToScan : Nat) :
    let s := w.cache
    let s' := (itemLruShrink fuel s nrToScan).1
    (∀ k, getAt k (itemsOf s'.items) = getAt k (itemsOf s.items) ∨
      (getAt k (itemsOf s'.items) = none ∧
        ∃ y, getAt k (itemsOf s.items) = some y ∧ itemIsDirty y = false ∧ y.deletion = false)) ∧
    (∀ k, covered s'.ranges k = true →
      covered s.ranges k = true ∧ getAt k (itemsOf s'.items) = getAt k (itemsOf s.items)) ∧
    ∀ k y, getAt k (itemsOf s.items) = some y → getAt k (itemsOf s'.items) = none →
      covered s'.ranges k = false := by
  intro s s'
  obtain ⟨hitems, hcov⟩ := itemLruShrink_run h.inv.cache fuel nrToScan
  refine ⟨fun k => ?_, hcov, fun k y hy hn => ?_⟩
  · rcases hitems k with e | ⟨e, y, hy, hd⟩
    · exact .inl e
    · refine .inr ⟨e, y, hy, hd, ?_⟩
      -- a deletion item is dirty
      cases hdel : y.deletion
      · rfl
      · have := (h.tombs.items k y hy hdel).1
        rw [hd] at this
        cases this
  · by_contra hc
    have := (hcov k (by simpa using hc)).2
    rw [hn, hy] at this
    cases this

theorem shrink_safe_after_two_fills :
    Reachable 8 (execAll setupWorld twoFillRun) ∧
    let s := (execAll setupWorld twoFillRun).cache
    let s' := (itemLruShrink 4 s 2).1
    (∀ k, getAt k (itemsOf s'.items) = getAt k (itemsOf s.items) ∨
      (getAt k (itemsOf s'.items) = none ∧
        ∃ y, getAt k (itemsOf s.items) = some y ∧ itemIsDirty y = false ∧ y.deletion = false)) ∧
    (∀ k, covered s'.ranges k = true →
      covered s.ranges k = true ∧ getAt k (itemsOf s'.items) = getAt k (itemsOf s.items)) ∧
    ∀ k y, getAt k (itemsOf s.items) = some y → getAt k (itemsOf s'.items) = none →
      covered s'.ranges k = false :=
  ⟨twoFillRun_reachable, reachable_shrink_safe twoFillRun_reachable 4 2⟩

end ScoutfsItemCache
