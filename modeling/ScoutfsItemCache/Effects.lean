import ScoutfsItemCache.KeyView

/-! # What each locked section does at one key

Every locked section changes the cache at the keys it works on and
nowhere else. This module says, for each section, what `getAt k` reads
afterwards in terms of what it read before: the sections on one key
change the reading at that key by a function of the old reading, and the
batch insertion, the restore loop and the invalidation change a set of
keys, each by a function of its own old reading.

Invariants that are stated key by key (`Tombstones`, `Store`) are then
checked once per section against these equations, without unfolding the
tree functions again.
-/

namespace ScoutfsItemCache

/-! ## The items the sections leave -/

/-- The deletion item `delete_item` leaves at a key: dirty, persistent,
without a value. -/
def tombstone (key : Nat) : CachedItem :=
  { key, val := none, valLen := 0, deletion := true, persistent := true, dirty := ⟨true, false, false⟩ }

/-- What `delete_item` leaves at the key of an item: a deletion item when
the item was persistent, and nothing otherwise. -/
def deleteAtKey (y : CachedItem) : Option CachedItem := if y.persistent then some (tombstone y.key) else none

/-- A point operation on the live item at its key, given by `f`: since
`find_item` skips deletion items, a deletion item, or no item, stays. -/
def liveAt (f : CachedItem → Option CachedItem) : Option CachedItem → Option CachedItem
  | some y => if y.deletion then some y else f y
  | none => none

theorem liveAt_of_live {f : CachedItem → Option CachedItem} {y : CachedItem} (h : y.deletion = false) :
    liveAt f (some y) = f y := by
  simp [liveAt, h]

/-- A reading `find_item` finds nothing in is left as it is. -/
theorem liveAt_of_dead {f : CachedItem → Option CachedItem} {o : Option CachedItem}
    (h : ∀ y, o = some y → y.deletion = true) : liveAt f o = o := by
  rcases o with _ | y
  · rfl
  · simp [liveAt, h y rfl]

@[simp] theorem insertAtKey_none (ins : CachedItem) (lo cp : Bool) (freed : Nat → Bool) :
    insertAtKey ins lo cp freed none = some ins.data :=
  rfl

/-- Without overwriting, `insert_item` keeps a live item. -/
theorem insertAtKey_live {ins z : CachedItem} (hz : z.deletion = false) (cp : Bool) (freed : Nat → Bool) :
    insertAtKey ins false cp freed (some z) = some z := by
  simp [insertAtKey, hz]

/-- Outside population, `insert_item` replaces a deletion item. -/
theorem insertAtKey_dead {ins z : CachedItem} (hz : z.deletion = true) (lo : Bool) (freed : Nat → Bool) :
    insertAtKey ins lo false freed (some z) =
      some (if freed z.key then { ins with persistent := true } else ins).data := by
  simp [insertAtKey, hz]

/-- Population keeps whatever is cached. -/
theorem insertAtKey_populate (ins : CachedItem) (lo : Bool) (freed : Nat → Bool) (o : Option CachedItem) :
    insertAtKey ins lo true freed o = o.or (some ins.data) := by
  cases o <;> rfl

/-! ## The intermediate trees stay sorted -/

section Sorted

variable {s : ItemCache} {ptr : ItemPtr} {x : CachedItem}

theorem markItemDirty_sorted (hs : ItemsSorted s.items) (hp : PointsTo s.items ptr x) :
    ItemsSorted (markItemDirty s ptr).items := by
  unfold ItemsSorted
  rw [← ItemCache.items_abs, markItemDirty_abs hp hs]
  exact AbsCache.sorted_markDirty (a := s.abs) hs x

theorem setItem_sorted (hs : ItemsSorted s.items) (hp : PointsTo s.items ptr x) {f : CachedItem → CachedItem}
    (hfk : ∀ z, (f z).key = z.key) (hf : ∀ z, (f z).data = f z.data) : ItemsSorted (setItem s ptr f).1.items := by
  unfold ItemsSorted
  rw [← ItemCache.items_abs, setItem_abs hp hs f hf]
  exact AbsCache.sorted_set (a := s.abs) hs x.key hfk

theorem unlinkItem_sorted (hs : ItemsSorted s.items) (hp : PointsTo s.items ptr x) :
    ItemsSorted (unlinkItem s ptr).items := by
  unfold ItemsSorted
  rw [← ItemCache.items_abs, unlinkItem_abs hp hs]
  exact AbsCache.sorted_unlink (a := s.abs) hs x

theorem insertItem_sorted (hs : ItemsSorted s.items) (ins : CachedItem) (lo cp : Bool) (freed : Nat → Bool) :
    ItemsSorted (insertItem s ins lo cp freed).1.items := by
  unfold ItemsSorted
  rw [← ItemCache.items_abs, show (insertItem s ins lo cp freed).1.abs = (s.abs.insert ins lo cp freed).1 from
    congrArg Prod.fst (insertItem_abs hs ins lo cp freed)]
  exact AbsCache.sorted_insert (a := s.abs) hs ins lo cp freed

theorem markItemDirty_path_sorted (hs : ItemsSorted s.items) (key : Nat) :
    ItemsSorted (markItemDirty s (itemPath s.items key)).items := by
  rcases h : itemPath s.items key with ⟨p, _ | ⟨l, x, r⟩⟩
  · exact hs
  · exact markItemDirty_sorted hs (itemPath_pointsTo h)

end Sorted

/-! ## The tree functions leave the ranges alone -/

section Ranges

variable {s : ItemCache} {ptr : ItemPtr}

@[simp] theorem ranges_markItemDirty : (markItemDirty s ptr).ranges = s.ranges := by
  unfold markItemDirty; split
  · rfl
  · split_ifs <;> rfl

@[simp] theorem ranges_clearItemDirty : (clearItemDirty s ptr).1.ranges = s.ranges := by
  unfold clearItemDirty; split
  · rfl
  · split_ifs <;> rfl

@[simp] theorem ranges_setItem (f : CachedItem → CachedItem) : (setItem s ptr f).1.ranges = s.ranges := by
  unfold setItem; split <;> rfl

@[simp] theorem ranges_unlinkItem : (unlinkItem s ptr).ranges = s.ranges := by
  unfold unlinkItem; split
  · rfl
  · dsimp only; split_ifs <;> simp

@[simp] theorem ranges_deleteItem : (deleteItem s ptr).ranges = s.ranges := by
  unfold deleteItem; split
  · rfl
  · split_ifs <;> simp [eraseItem]

@[simp] theorem ranges_insertItem (ins : CachedItem) (lo cp : Bool) (freed : Nat → Bool) :
    (insertItem s ins lo cp freed).1.ranges = s.ranges := by
  induction s, ins, lo, cp, freed using insertItem.induct with
  | case1 s ins lo cp f p l item r h hc => rw [insertItem_of_node h, if_pos hc]
  | case2 s ins lo cp f p l item r h hc ih =>
    simp only [dite_eq_ite] at ih
    rw [insertItem_of_node h, if_neg hc, ih]
    simp [eraseItem]
  | case3 s ins lo cp f p h hd => rw [insertItem_of_nil h, if_pos hd]
  | case4 s ins lo cp f p h hd => rw [insertItem_of_nil h, if_neg hd]

end Ranges

/-! ## The tree functions at one key -/

section Tree

variable {s : ItemCache} {ptr : ItemPtr} {x : CachedItem}

/-- `mark_item_dirty` at the node the search for a key ends in. -/
theorem getAt_markItemDirty_path (hs : ItemsSorted s.items) (key k : Nat) :
    getAt k (itemsOf (markItemDirty s (itemPath s.items key)).items) =
      if k = key then (getAt key (itemsOf s.items)).map (·.withDirty true) else getAt k (itemsOf s.items) := by
  rcases h : itemPath s.items key with ⟨p, _ | ⟨l, x, r⟩⟩
  · show getAt k (itemsOf s.items) = _
    split_ifs with hk
    · rw [hk, itemPath_nil hs h]; rfl
    · rfl
  · obtain ⟨hplug, rfl⟩ := itemPath_node h
    rw [getAt_markItemDirty hs (itemPath_pointsTo h), hs.getAt hplug]
    rfl

/-- `delete_item` leaves a deletion item at the key of a persistent item,
erases any other item, and changes nothing elsewhere. -/
theorem getAt_deleteItem (hs : ItemsSorted s.items) (hp : PointsTo s.items ptr x) (k : Nat) :
    getAt k (itemsOf (deleteItem s ptr).items) =
      if k = x.key then deleteAtKey x.data else getAt k (itemsOf s.items) := by
  have hpc := clearItemDirty_pointsTo hp
  have hsc := clearItemDirty_sorted hp hs
  obtain ⟨p, t⟩ := ptr
  obtain ⟨l, r, rfl, hplug⟩ := hp
  simp only [deleteItem]
  by_cases hpers : x.persistent = true
  · have hnp : (!x.persistent) = false := by simp [hpers]
    rw [if_neg (by simp [hnp])]
    let f : CachedItem → CachedItem := fun it => { it with val := none, valLen := 0, deletion := true }
    have hsd := setItem_sorted hsc hpc (f := f) (fun _ => rfl) (fun _ => rfl)
    rw [getAt_markItemDirty hsd (setItem_pointsTo hpc f), getAt_setItem hsc hpc (f := f) (fun _ => rfl)
      (fun _ => rfl), getAt_clearItemDirty hs ⟨l, r, rfl, hplug⟩]
    by_cases hk : k = x.key
    · simp only [hk, if_true]
      simp [deleteAtKey, hpers, tombstone, f, CachedItem.data, CachedItem.withDirty]
    · simp only [hk, if_false]
  · rw [if_pos (by simpa using hpers)]
    rw [eraseItem, getAt_unlinkItem hs ⟨l, r, rfl, hplug⟩]
    simp [deleteAtKey, hpers]

/-- `delete_item` at the node the search for a key ends in. -/
theorem getAt_deleteItem_path (hs : ItemsSorted s.items) (key k : Nat) :
    getAt k (itemsOf (deleteItem s (itemPath s.items key)).items) =
      if k = key then (getAt key (itemsOf s.items)).bind deleteAtKey else getAt k (itemsOf s.items) := by
  rcases h : itemPath s.items key with ⟨p, _ | ⟨l, x, r⟩⟩
  · show getAt k (itemsOf s.items) = _
    split_ifs with hk
    · rw [hk, itemPath_nil hs h]; rfl
    · rfl
  · obtain ⟨hplug, rfl⟩ := itemPath_node h
    rw [getAt_deleteItem hs (itemPath_pointsTo h), hs.getAt hplug]
    rfl

/-- `unlink_item` at the node the search for a key ends in. -/
theorem getAt_unlinkItem_path (hs : ItemsSorted s.items) (key k : Nat) :
    getAt k (itemsOf (unlinkItem s (itemPath s.items key)).items) =
      if k = key then none else getAt k (itemsOf s.items) := by
  rcases h : itemPath s.items key with ⟨p, _ | ⟨l, x, r⟩⟩
  · show getAt k (itemsOf s.items) = _
    split_ifs with hk
    · rw [hk, itemPath_nil hs h]
    · rfl
  · obtain ⟨-, rfl⟩ := itemPath_node h
    exact getAt_unlinkItem hs (itemPath_pointsTo h) k

theorem unlinkItem_path_sorted (hs : ItemsSorted s.items) (key : Nat) :
    ItemsSorted (unlinkItem s (itemPath s.items key)).items := by
  rcases h : itemPath s.items key with ⟨p, _ | ⟨l, x, r⟩⟩
  · exact hs
  · exact unlinkItem_sorted hs (itemPath_pointsTo h)

theorem deleteItem_sorted (hs : ItemsSorted s.items) (hp : PointsTo s.items ptr x) :
    ItemsSorted (deleteItem s ptr).items := by
  have hpc := clearItemDirty_pointsTo hp
  have hsc := clearItemDirty_sorted hp hs
  obtain ⟨p, t⟩ := ptr
  obtain ⟨l, r, rfl, hplug⟩ := hp
  simp only [deleteItem]
  split_ifs
  · exact unlinkItem_sorted hs ⟨l, r, rfl, hplug⟩
  · let f : CachedItem → CachedItem := fun it => { it with val := none, valLen := 0, deletion := true }
    exact markItemDirty_sorted (setItem_sorted hsc hpc (f := f) (fun _ => rfl) (fun _ => rfl))
      (setItem_pointsTo hpc f)

theorem deleteItem_path_sorted (hs : ItemsSorted s.items) (key : Nat) :
    ItemsSorted (deleteItem s (itemPath s.items key)).items := by
  rcases h : itemPath s.items key with ⟨p, _ | ⟨l, x, r⟩⟩
  · exact hs
  · exact deleteItem_sorted hs (itemPath_pointsTo h)

/-- A point operation changes the cache at its key only, and there by `f`
of the live item. -/
theorem getAt_pointAttempt {β : Type} (hs : ItemsSorted s.items) {key : Nat}
    {found : ItemCache → ItemPtr → ItemCache × Int × β} {miss : β} {f : CachedItem → Option CachedItem}
    (hfound : ∀ ptr x, PointsTo s.items ptr x → x.key = key → x.deletion = false →
      ∀ k, getAt k (itemsOf (found s ptr).1.items) = if k = key then f x.data else getAt k (itemsOf s.items))
    (k : Nat) :
    getAt k (itemsOf (pointAttempt key found miss s).1.items) =
      if k = key then liveAt f (getAt key (itemsOf s.items)) else getAt k (itemsOf s.items) := by
  unfold pointAttempt
  split
  · rename_i ptr hf
    obtain ⟨x, hp, hk, hd⟩ := findItem_some hf
    rw [hfound ptr x hp hk hd k, ← hk, hp.getAt hs, liveAt_of_live (y := x.data) hd]
  · rename_i hf
    simp only [apply_ite Prod.fst, ite_self]
    rw [liveAt_of_dead fun y hy => findItem_none hs hf y hy]
    split_ifs with hk <;> simp only [hk]

/-- The trees a point operation leaves stay sorted when its work on a
live item does. -/
theorem pointAttempt_sorted {β : Type} (hs : ItemsSorted s.items) {key : Nat}
    {found : ItemCache → ItemPtr → ItemCache × Int × β} {miss : β}
    (hfound : ∀ ptr x, PointsTo s.items ptr x → ItemsSorted (found s ptr).1.items) :
    ItemsSorted (pointAttempt key found miss s).1.items := by
  unfold pointAttempt
  split
  · obtain ⟨x, hp, -, -⟩ := findItem_some ‹_›
    exact hfound _ x hp
  · split_ifs <;> exact hs

/-- `clear_item_dirty`, plain writes `f`, then `mark_item_dirty`, as
`scoutfs_item_update` and `delete_item` do: the item becomes `f` of it,
dirty. -/
theorem getAt_clearSetMark (hs : ItemsSorted s.items) (hp : PointsTo s.items ptr x) {f : CachedItem → CachedItem}
    (hfk : ∀ z, (f z).key = z.key) (hf : ∀ z, (f z).data = f z.data) (k : Nat) :
    getAt k (itemsOf (markItemDirty (setItem (clearItemDirty s ptr).1 (clearItemDirty s ptr).2 f).1
      (setItem (clearItemDirty s ptr).1 (clearItemDirty s ptr).2 f).2).items) =
      if k = x.key then some ((f (x.data.withDirty false)).withDirty true) else getAt k (itemsOf s.items) := by
  have hpc := clearItemDirty_pointsTo hp
  have hsc := clearItemDirty_sorted hp hs
  rw [getAt_markItemDirty (setItem_sorted hsc hpc hfk hf) (setItem_pointsTo hpc f), getAt_setItem hsc hpc hfk hf,
    getAt_clearItemDirty hs hp, hfk, hf]
  by_cases hk : k = x.key
  · simp only [hk, if_true]; rfl
  · simp only [hk, if_false]

end Tree

/-! ## The locked sections at one key -/

section Sections

variable {s : ItemCache}

theorem getAt_cons (k : Nat) (x : CachedItem) (L : List CachedItem) :
    getAt k (x :: L) = if x.key = k then some x else getAt k L := by
  by_cases h : x.key = k <;> simp [getAt, List.find?_cons, h]

theorem itemReferenced_items (s : ItemCache) (it : CachedItem) :
    (itemReferenced s it).items = s.items ∧ (itemReferenced s it).ranges = s.ranges := by
  unfold itemReferenced; split_ifs <;> exact ⟨rfl, rfl⟩

/-- Lookups only move the item they find on the LRU list. -/
theorem lookupAttempt_items (key : Nat) (bufLen : Option Nat) (s : ItemCache) :
    (lookupAttempt key bufLen s).1.items = s.items ∧ (lookupAttempt key bufLen s).1.ranges = s.ranges := by
  unfold lookupAttempt pointAttempt
  split
  · dsimp only
    split
    · exact itemReferenced_items _ _
    · exact ⟨rfl, rfl⟩
  · split_ifs <;> exact ⟨rfl, rfl⟩

theorem walkFound_items (bufLen : Option Nat) (s : ItemCache) (it : CachedItem) :
    (walkFound bufLen s it).1.items = s.items ∧ (walkFound bufLen s it).1.ranges = s.ranges := by
  unfold walkFound; split_ifs
  · exact itemReferenced_items _ _
  · exact ⟨rfl, rfl⟩

/-- `scoutfs_item_dirty` marks the live item at its key. -/
theorem getAt_dirtyAttempt (hs : ItemsSorted s.items) (key k : Nat) :
    getAt k (itemsOf (dirtyAttempt key s).1.items) =
      if k = key then liveAt (fun y => some (y.withDirty true)) (getAt key (itemsOf s.items))
      else getAt k (itemsOf s.items) :=
  getAt_pointAttempt hs (fun _ _ hp hk _ k => by rw [← hk]; exact getAt_markItemDirty hs hp k) k

/-- `scoutfs_item_update` gives the live item at its key the new value and
dirties it. -/
theorem getAt_updateAttempt (hs : ItemsSorted s.items) (key : Nat) (val : Option Bytes) (k : Nat) :
    getAt k (itemsOf (updateAttempt key val s).1.items) =
      if k = key then
        liveAt (fun y => some ({ y with val, valLen := (val.map List.length).getD 0 }.withDirty true))
          (getAt key (itemsOf s.items))
      else getAt k (itemsOf s.items) :=
  getAt_pointAttempt hs (fun _ _ hp hk _ k => by
    rw [← hk]
    exact getAt_clearSetMark hs hp (f := fun it => { it with val, valLen := (val.map List.length).getD 0 })
      (fun _ => rfl) (fun _ => rfl) k) k

/-- `scoutfs_item_delete` deletes the live item at its key. -/
theorem getAt_deleteAttempt (hs : ItemsSorted s.items) (key k : Nat) :
    getAt k (itemsOf (deleteAttempt key s).1.items) =
      if k = key then liveAt deleteAtKey (getAt key (itemsOf s.items)) else getAt k (itemsOf s.items) :=
  getAt_pointAttempt hs (fun _ _ hp hk _ k => by rw [← hk]; exact getAt_deleteItem hs hp k) k

/-- `scoutfs_item_delete_dirty` deletes the live item at its key. -/
theorem getAt_scoutfsItemDeleteDirty (hs : ItemsSorted s.items) (key k : Nat) :
    getAt k (itemsOf (scoutfsItemDeleteDirty s key).items) =
      if k = key then liveAt deleteAtKey (getAt key (itemsOf s.items)) else getAt k (itemsOf s.items) := by
  unfold scoutfsItemDeleteDirty
  split
  · rename_i ptr hf
    obtain ⟨x, hp, hk, hd⟩ := findItem_some hf
    rw [getAt_deleteItem hs hp k, ← hk, hp.getAt hs, liveAt_of_live (y := x.data) hd]
  · rename_i hf
    rw [liveAt_of_dead fun y hy => findItem_none hs hf y hy]
    split_ifs with hk <;> simp only [hk]

/-- The item `scoutfs_item_update_dirty` leaves: the new value copied over
the start of the old buffer, and the new length. -/
def updateDirtyItem (val : Option Bytes) (it : CachedItem) : CachedItem :=
  let newLen := (val.map List.length).getD 0 % 2 ^ 32
  { it with
    val := match val with
      | some v => it.val.map fun b => v.take newLen ++ b.drop newLen
      | none => it.val
    valLen := newLen }

/-- `scoutfs_item_update_dirty` rewrites the live item at its key in place. -/
theorem getAt_scoutfsItemUpdateDirty (hs : ItemsSorted s.items) (key : Nat) (val : Option Bytes) (k : Nat) :
    getAt k (itemsOf (scoutfsItemUpdateDirty s key val).items) =
      if k = key then liveAt (fun y => some (updateDirtyItem val y)) (getAt key (itemsOf s.items))
      else getAt k (itemsOf s.items) := by
  unfold scoutfsItemUpdateDirty
  rcases hf : findItem s.items key with _ | ⟨p, _ | ⟨l, it, r⟩⟩
  · show getAt k (itemsOf s.items) = _
    rw [liveAt_of_dead fun y hy => findItem_none hs hf y hy]
    split_ifs with hk <;> simp only [hk]
  · obtain ⟨x, ⟨l', r', hptr, -⟩, -, -⟩ := findItem_some hf
    cases hptr
  · obtain ⟨x, hp, hk, hd⟩ := findItem_some hf
    obtain ⟨l', r', hptr, hplug⟩ := hp
    cases hptr
    show getAt k (itemsOf (setItem s (p, .node l it r) (updateDirtyItem val)).1.items) = _
    rw [getAt_setItem hs ⟨l, r, rfl, hplug⟩ (f := updateDirtyItem val) (fun _ => rfl) (fun _ => rfl), ← hk,
      hs.getAt hplug,
      liveAt_of_live (y := it.data) hd]

theorem insertItem_ret_eq (hs : ItemsSorted s.items) (ins : CachedItem) (lo cp : Bool) (freed : Nat → Bool) :
    (insertItem s ins lo cp freed).2 =
      match getAt ins.key (itemsOf s.items) with
      | some z => if cp || (!z.deletion && !lo) then -EEXIST else 0
      | none => 0 := by
  rw [insertItem_ret hs]
  unfold AbsCache.insert
  rw [ItemCache.items_abs]
  rcases getAt ins.key (itemsOf s.items) with _ | z
  · rfl
  · dsimp only
    split_ifs <;> rfl

/-- What `scoutfs_item_create` leaves at its key: a live item stays
(`-EEXIST`); otherwise the new item is linked dirty, persistent when it
replaces a deletion item whose flag reads as set once freed. -/
def createAt (item : CachedItem) (freed : Nat → Bool) : Option CachedItem → Option CachedItem
  | some z =>
    if z.deletion then some ((if freed z.key then { item with persistent := true } else item).data.withDirty true)
    else some z
  | none => some (item.data.withDirty true)

/-- `scoutfs_item_create` changes the cache at its key only, and only where
a cached range holds the key. -/
theorem getAt_createAttempt (hs : ItemsSorted s.items) (item : CachedItem) (freed : Nat → Bool) (k : Nat) :
    getAt k (itemsOf (createAttempt item freed s).1.items) =
      if k = item.key ∧ (checkRange s.ranges item.key).isSome then
        createAt item freed (getAt item.key (itemsOf s.items))
      else getAt k (itemsOf s.items) := by
  unfold createAttempt
  by_cases hc : (checkRange s.ranges item.key).isNone = true
  · rw [if_pos hc, if_neg (by simp_all)]
  rw [if_neg hc]
  have hcov : (checkRange s.ranges item.key).isSome = true := by
    cases h : checkRange s.ranges item.key <;> simp_all
  have hsi := insertItem_sorted hs item false false freed
  have hret := insertItem_ret_eq hs item false false freed
  have hins := getAt_insertItem hs item false false freed
  simp only [hcov, and_true]
  -- a successful insertion is marked dirty at the key
  have hlinked : (insertItem s item false false freed).2 = 0 →
      getAt k (itemsOf (markItemDirty (insertItem s item false false freed).1
        (itemPath (insertItem s item false false freed).1.items item.key)).items) =
        if k = item.key then
          (insertAtKey item false false freed (getAt item.key (itemsOf s.items))).map (·.withDirty true)
        else getAt k (itemsOf s.items) := fun _ => by
    rw [getAt_markItemDirty_path hsi item.key k, hins item.key, if_pos rfl, hins k]
    split_ifs <;> rfl
  rcases ho : getAt item.key (itemsOf s.items) with _ | z
  · rw [ho] at hret hlinked
    rw [if_pos hret, hlinked hret]
    rfl
  · rw [ho] at hret hlinked hins
    by_cases hz : z.deletion = true
    · simp only [hz, Bool.not_true, Bool.false_and, Bool.or_false, Bool.false_eq_true, if_false] at hret
      rw [if_pos hret, hlinked hret, insertAtKey_dead hz]
      simp only [createAt, hz, if_true, Option.map_some']
    · have hz' : z.deletion = false := by simpa using hz
      simp only [hz', Bool.not_false, Bool.true_and, Bool.or_true, if_true] at hret
      rw [if_neg (by rw [hret]; decide)]
      show getAt k (itemsOf (insertItem s item false false freed).1.items) = _
      rw [hins k, insertAtKey_live hz', createAt, if_neg hz]

/-- An overwriting insertion of a persistent item links it at its key,
whatever was there. -/
theorem insertAtKey_overwrite {ins : CachedItem} (hp : ins.persistent = true) (freed : Nat → Bool)
    (o : Option CachedItem) : insertAtKey ins true false freed o = some ins.data := by
  obtain ⟨k, v, n, d, q, b⟩ := ins
  cases o <;> simp_all [insertAtKey]

/-- `scoutfs_item_create_force` puts the new item, persistent and dirty,
at its key, whatever was there. -/
theorem getAt_createForceLocked (hs : ItemsSorted s.items) (item : CachedItem) (k : Nat) :
    getAt k (itemsOf (createForceLocked item s).1.items) =
      if k = item.key then some ({ item with persistent := true }.data.withDirty true)
      else getAt k (itemsOf s.items) := by
  have hr : (insertItem s { item with persistent := true } true false fun _ => false).2 = 0 := by
    rw [insertItem_ret hs]; exact AbsCache.insert_overwrite _ _ _
  have hsi := insertItem_sorted hs { item with persistent := true } true false fun _ => false
  unfold createForceLocked
  simp only [hr, ne_eq, not_true_eq_false, if_false]
  rw [getAt_markItemDirty_path hsi item.key k, getAt_insertItem hs _ true false _ item.key, if_pos rfl,
    insertAtKey_overwrite rfl]
  by_cases hk : k = item.key
  · rw [if_pos hk, if_pos hk]; rfl
  · rw [if_neg hk, if_neg hk, getAt_insertItem hs _ true false _ k, if_neg hk]

/-- `scoutfs_item_delete_force` leaves a deletion item at its key,
whatever was there. -/
theorem getAt_deleteForceLocked (hs : ItemsSorted s.items) (key k : Nat) :
    getAt k (itemsOf (deleteForceLocked key s).items) =
      if k = key then some (tombstone key) else getAt k (itemsOf s.items) := by
  unfold deleteForceLocked
  simp only [allocItem, Option.map_none', Option.getD_none]
  have hr : (insertItem s ⟨key, none, 0, false, true, .zero⟩ true false fun _ => false).2 = 0 := by
    rw [insertItem_ret hs]; exact AbsCache.insert_overwrite _ _ _
  have hsi := insertItem_sorted hs ⟨key, none, 0, false, true, .zero⟩ true false fun _ => false
  simp only [hr, ne_eq, not_true_eq_false, if_false]
  rw [getAt_deleteItem_path (markItemDirty_path_sorted hsi key) key k, getAt_markItemDirty_path hsi key key,
    if_pos rfl, getAt_insertItem hs _ true false _ key, if_pos rfl, insertAtKey_overwrite rfl]
  by_cases hk : k = key
  · rw [if_pos hk, if_pos hk]; rfl
  · rw [if_neg hk, if_neg hk, getAt_markItemDirty_path hsi key k, if_neg hk, getAt_insertItem hs _ true false _ k,
      if_neg hk]

/-- `scoutfs_item_delete_save` deletes the live item at its key. -/
theorem getAt_deleteSaveAttempt (hs : ItemsSorted s.items) (key k : Nat) :
    getAt k (itemsOf (deleteSaveAttempt key s).1.items) =
      if k = key then liveAt deleteAtKey (getAt key (itemsOf s.items)) else getAt k (itemsOf s.items) :=
  getAt_pointAttempt hs (fun ptr x hp hk _ k => by
    have hsu := unlinkItem_sorted hs hp
    have hnone : getAt key (itemsOf (unlinkItem s ptr).items) = none := by
      rw [getAt_unlinkItem hs hp, if_pos hk.symm]
    obtain ⟨l, r, hptr, hplug⟩ := hp
    simp only [hptr, allocItem, Option.map_none', Option.getD_none]
    have hr : (insertItem (unlinkItem s ptr) ⟨key, none, 0, false, x.persistent, .zero⟩ false false
        fun _ => false).2 = 0 := by
      rw [insertItem_ret hsu]; exact AbsCache.insert_fresh _ hnone _ _ _
    have hsi := insertItem_sorted hsu ⟨key, none, 0, false, x.persistent, .zero⟩ false false fun _ => false
    simp only [hr, ne_eq, not_true_eq_false, if_false]
    rw [getAt_deleteItem_path hsi key k, getAt_insertItem hsu _ false false _ key, if_pos rfl, hnone]
    by_cases hk' : k = key
    · rw [if_pos hk', if_pos hk']
      simp [deleteAtKey, tombstone, CachedItem.data, hk]
    · rw [if_neg hk', if_neg hk', getAt_insertItem hsu _ false false _ k, if_neg hk',
        getAt_unlinkItem hs ⟨l, r, hptr, hplug⟩, if_neg (hk ▸ hk')]) k

/-- The item `scoutfs_item_delete_save` hands over is the live item at its key. -/
theorem deleteSaveAttempt_saved (hs : ItemsSorted s.items) (key : Nat) {it : CachedItem}
    (h : (deleteSaveAttempt key s).2.2 = some it) :
    it.deletion = false ∧ getAt key (itemsOf s.items) = some it.data := by
  unfold deleteSaveAttempt pointAttempt at h
  split at h
  · obtain ⟨x, hp, hk, hd⟩ := findItem_some ‹_›
    have hx := hp.getAt hs
    obtain ⟨l, r, hptr, -⟩ := hp
    simp only [hptr] at h
    obtain rfl : x = it := Option.some.inj h
    exact ⟨hd, hk ▸ hx⟩
  · split_ifs at h

@[simp] theorem ranges_pointAttempt_of {β : Type} {key : Nat} {found : ItemCache → ItemPtr → ItemCache × Int × β}
    {miss : β} (hfound : ∀ ptr, (found s ptr).1.ranges = s.ranges) :
    (pointAttempt key found miss s).1.ranges = s.ranges := by
  unfold pointAttempt
  split
  · exact hfound _
  · split_ifs <;> rfl

/-- A populating insertion leaves a key cached exactly when it was cached
before or is the key of the new item. -/
theorem isSome_getAt_insertItem_populate (hs : ItemsSorted s.items) (ins : CachedItem) (lo : Bool)
    (freed : Nat → Bool) (k : Nat) :
    (getAt k (itemsOf (insertItem s ins lo true freed).1.items)).isSome =
      ((getAt k (itemsOf s.items)).isSome || k == ins.key) := by
  rw [getAt_insertItem hs]
  by_cases hk : k = ins.key
  · rw [if_pos hk, insertAtKey_populate, hk]
    cases getAt ins.key (itemsOf s.items) <;> simp
  · simp [hk]

/-- The batch insertion caches, at each key, what was cached there before,
and otherwise the batch's first item of that key, made persistent. -/
theorem getAt_insertBatchItems (hs : ItemsSorted s.items) (refused list : List CachedItem) (k : Nat) :
    getAt k (itemsOf (insertBatchItems s refused list).1.items) =
      (getAt k (itemsOf s.items)).or ((getAt k list).map fun x => ({ x with persistent := true } : CachedItem).data) := by
  induction list generalizing s refused with
  | nil => simp [insertBatchItems, getAt]
  | cons x rest ih =>
    rw [insertBatchItems, ih (insertItem_sorted hs _ _ _ _), getAt_insertItem hs, getAt_cons]
    by_cases hk : k = x.key
    · subst hk
      rw [if_pos rfl, if_pos rfl, insertAtKey_populate]
      dsimp only
      cases getAt x.key (itemsOf s.items) <;> rfl
    · rw [if_neg hk, if_neg (Ne.symm hk)]

/-- The batch items `insert_item` refuses, in batch order, when `cached`
says which keys the cache holds: each item whose key is cached, or taken
by an earlier item of the batch. -/
def batchRefused (cached : Nat → Bool) : List CachedItem → List CachedItem
  | [] => []
  | x :: rest => (if cached x.key then [x] else []) ++ batchRefused (fun k => cached k || k == x.key) rest

/-- The list the batch loop ends with: the refused items, the last one
first, in front of what the list held. -/
theorem insertBatchItems_refused (hs : ItemsSorted s.items) (refused list : List CachedItem) :
    (insertBatchItems s refused list).2 =
      (batchRefused (fun k => (getAt k (itemsOf s.items)).isSome)
        (list.map fun x => { x with persistent := true })).reverse ++ refused := by
  induction list generalizing s refused with
  | nil => rfl
  | cons x rest ih =>
    set x' : CachedItem := { x with persistent := true }
    have hcached : (fun k => (getAt k (itemsOf (insertItem s x' false true fun _ => false).1.items)).isSome) =
        fun k => (getAt k (itemsOf s.items)).isSome || k == x'.key :=
      funext (isSome_getAt_insertItem_populate hs x' false _)
    have hret := insertItem_ret_eq hs x' false true fun _ => false
    rw [insertBatchItems, ih (insertItem_sorted hs _ _ _ _), List.map_cons, batchRefused, hcached]
    rcases ho : getAt x'.key (itemsOf s.items) with _ | z <;> rw [ho] at hret <;> simp [hret, ho, EEXIST]

theorem insertBatchItems_sorted (hs : ItemsSorted s.items) (refused list : List CachedItem) :
    ItemsSorted (insertBatchItems s refused list).1.items := by
  induction list generalizing s refused with
  | nil => exact hs
  | cons x rest ih => exact ih (insertItem_sorted hs _ _ _ _) _

@[simp] theorem ranges_insertBatchItems (refused list : List CachedItem) :
    (insertBatchItems s refused list).1.ranges = s.ranges := by
  induction list generalizing s refused with
  | nil => rfl
  | cons x rest ih => rw [insertBatchItems, ih, ranges_insertItem]

/-- The first half of a pass of `scoutfs_item_restore`: the live item at the
key, if any, is erased. -/
theorem getAt_eraseLive (hs : ItemsSorted s.items) (key k : Nat) :
    getAt k (itemsOf ((findItem s.items key).elim s (eraseItem s)).items) =
      if k = key then liveAt (fun _ => none) (getAt key (itemsOf s.items)) else getAt k (itemsOf s.items) := by
  rcases hf : findItem s.items key with _ | ptr
  · show getAt k (itemsOf s.items) = _
    rw [liveAt_of_dead fun y hy => findItem_none hs hf y hy]
    split_ifs with hk <;> simp only [hk]
  · obtain ⟨x, hp, hk, hd⟩ := findItem_some hf
    show getAt k (itemsOf (unlinkItem s ptr).items) = _
    rw [getAt_unlinkItem hs hp, ← hk, hp.getAt hs, liveAt_of_live (y := x.data) hd]

theorem eraseLive_sorted (hs : ItemsSorted s.items) (key : Nat) :
    ItemsSorted ((findItem s.items key).elim s (eraseItem s)).items := by
  rcases hf : findItem s.items key with _ | ptr
  · exact hs
  · obtain ⟨x, hp, -, -⟩ := findItem_some hf
    exact unlinkItem_sorted hs hp

@[simp] theorem ranges_eraseLive (key : Nat) :
    ((findItem s.items key).elim s (eraseItem s)).ranges = s.ranges := by
  rcases findItem s.items key with _ | ptr
  · rfl
  · exact ranges_unlinkItem

/-- The saved item after a pass of `scoutfs_item_restore`: inserted
without `ITEM_DIRTY`, persistent when it replaced a persistent deletion
item, then dirtied again if it was dirty. -/
theorem CachedItem.restore_data (y : CachedItem) (c : Bool) :
    ((if c then { y.withDirty false with persistent := true } else y.withDirty false).data).withDirty (itemIsDirty y) =
      (if c then { y with persistent := true } else y).data := by
  cases c <;> rfl

theorem CachedItem.restore_data_clean {y : CachedItem} (c : Bool) (hd : itemIsDirty y = false) :
    (if c then { y.withDirty false with persistent := true } else y.withDirty false).data =
      (if c then { y with persistent := true } else y).data := by
  rw [← CachedItem.restore_data y c, hd]
  cases c <;> rfl

/-- What a pass of `scoutfs_item_restore` leaves at the key of the saved
item `y`: the item with its dirty state, persistent when it replaces a
deletion item whose flag reads as set once freed. -/
def restoreAt (y : CachedItem) (freed : Nat → Bool) (o : Option CachedItem) : Option CachedItem :=
  some (if o.any (fun z => z.deletion && freed z.key) then { y with persistent := true } else y).data

/-- A pass of `scoutfs_item_restore` changes the cache at the key of the
saved item only. -/
theorem getAt_restoreItem (hs : ItemsSorted s.items) (freed : Nat → Bool) (y : CachedItem) (k : Nat) :
    getAt k (itemsOf (restoreItem freed s y).items) =
      if k = y.key then restoreAt y freed (getAt y.key (itemsOf s.items)) else getAt k (itemsOf s.items) := by
  unfold restoreItem
  dsimp only
  have hs1 := eraseLive_sorted hs y.key
  have h1 := getAt_eraseLive hs y.key
  set s1 := (findItem s.items y.key).elim s (eraseItem s)
  set y' : CachedItem := { y with dirty := { y.dirty with item := false } }
  -- what the insertion finds and leaves at the key
  have hat : insertAtKey y' false false freed (getAt y.key (itemsOf s1.items)) =
      some (if (getAt y.key (itemsOf s.items)).any (fun z => z.deletion && freed z.key) then
        { y' with persistent := true } else y').data := by
    rw [h1 y.key, if_pos rfl]
    rcases getAt y.key (itemsOf s.items) with _ | z
    · rfl
    · by_cases hz : z.deletion = true
      · rw [liveAt, if_pos hz, insertAtKey_dead hz]; simp [hz]
      · rw [liveAt, if_neg hz]; simp [hz]
  have hret : (insertItem s1 y' false false freed).2 = 0 := by
    rw [insertItem_ret_eq hs1]
    rw [show y'.key = y.key from rfl, h1 y.key, if_pos rfl]
    rcases getAt y.key (itemsOf s.items) with _ | z
    · rfl
    · by_cases hz : z.deletion = true <;> simp [liveAt, hz]
  have hins := getAt_insertItem hs1 y' false false freed
  have hrest : ∀ k, k ≠ y.key → getAt k (itemsOf (insertItem s1 y' false false freed).1.items) =
      getAt k (itemsOf s.items) :=
    fun k hk => by rw [hins k, if_neg hk, h1 k, if_neg hk]
  by_cases hd : itemIsDirty y = true
  · rw [if_pos (by simp [hd, hret]), getAt_markItemDirty_path (insertItem_sorted hs1 _ _ _ _) y.key k]
    by_cases hk : k = y.key
    · rw [if_pos hk, if_pos hk, hins y.key, if_pos rfl, hat, Option.map_some', restoreAt]
      have h := CachedItem.restore_data y ((getAt y.key (itemsOf s.items)).any fun z => z.deletion && freed z.key)
      rw [hd] at h
      exact congrArg some h
    · rw [if_neg hk, if_neg hk, hrest k hk]
  · rw [if_neg (by simp [hd])]
    by_cases hk : k = y.key
    · rw [if_pos hk, hk, hins y.key, if_pos rfl, hat, restoreAt]
      exact congrArg some (CachedItem.restore_data_clean _ (by simpa using hd))
    · rw [if_neg hk, hrest k hk]

theorem restoreItem_sorted (hs : ItemsSorted s.items) (freed : Nat → Bool) (y : CachedItem) :
    ItemsSorted (restoreItem freed s y).items := by
  unfold restoreItem
  dsimp only
  have hsi := insertItem_sorted (eraseLive_sorted hs y.key) { y with dirty := { y.dirty with item := false } } false false
    freed
  split
  · exact markItemDirty_path_sorted hsi _
  · exact hsi

@[simp] theorem ranges_restoreItem (freed : Nat → Bool) (y : CachedItem) :
    (restoreItem freed s y).ranges = s.ranges := by
  unfold restoreItem
  dsimp only
  split <;> simp

end Sections

/-! ## The loops at each key -/

section Walks

variable {s : ItemCache}

/-- An item the cache reads at a key is a node of its tree. -/
theorem exists_mem_of_getAt {t : Tree CachedItem} {k : Nat} {y : CachedItem} (h : getAt k (itemsOf t) = some y) :
    ∃ x ∈ t.toList, x.data = y ∧ x.key = k := by
  obtain ⟨x, hx, rfl⟩ := List.mem_map.1 (getAt_mem h)
  exact ⟨x, hx, rfl, by simpa using getAt_key h⟩

/-- `next_item` starts at or after the key it is given. -/
theorem nextItem_ge {t : Tree CachedItem} (hs : ItemsSorted t) {k : Nat} {it : CachedItem}
    (h : nextItem t k = some it) : k ≤ it.key := by
  obtain ⟨-, -, hR⟩ := descend_items (k := k) hs (fun _ => rfl : ∀ x : CachedItem, (id x).data = x.data)
    (fun _ => rfl : ∀ x : CachedItem, (id x).data = x.data)
  rw [show descend (itemCmp k) id id [] t = itemPath t k from rfl] at hR
  rcases hp : itemPath t k with ⟨p, _ | ⟨l, x, r⟩⟩
  · rw [hp] at hR
    simp only [nextItem, walkItems, hp, Tree.root_nil, Option.none_orElse, nextParent_eq_head] at h
    exact Nat.le_of_lt (hR it (List.mem_of_mem_head? h))
  · simp only [nextItem, walkItems, hp, Tree.root_node, Option.some_orElse, Option.some.injEq] at h
    subst h
    exact (itemPath_node hp).2.ge

/-- The walk of `scoutfs_item_invalidate`: from an item at or after `lo`,
it erases items only, and only up to the last key `go` accepts. -/
theorem eraseWalk_getAt_go {go isLast : CachedItem → Bool} {lo e : Nat} (hgo : ∀ z, go z = true → z.key ≤ e)
    (item : Option CachedItem) (count : Nat) :
    ItemsSorted s.items → (∀ it, item = some it → lo ≤ it.key) →
      ItemsSorted (eraseWalk go isLast s item count).1.items ∧
      ∀ k, getAt k (itemsOf (eraseWalk go isLast s item count).1.items) = getAt k (itemsOf s.items) ∨
        (lo ≤ k ∧ k ≤ e ∧ getAt k (itemsOf (eraseWalk go isLast s item count).1.items) = none) := by
  induction s, item, count using eraseWalk.induct go isLast with
  | case1 s count => intro hs _; rw [eraseWalk_none]; exact ⟨hs, fun _ => .inl rfl⟩
  | case2 s count it hgo' p l x r h ih =>
    intro hs hit
    rw [eraseWalk_of_node hgo' h]
    obtain ⟨hplug, hxk⟩ := itemPath_node h
    have hp := itemPath_pointsTo h
    have hx : x ∈ s.items.toList := by rw [← hplug, toList_plug]; simp
    have hlo := hit it rfl
    have hle := hgo it hgo'
    simp only [dite_eq_ite] at ih ⊢
    obtain ⟨hs2, h2⟩ := ih (unlinkItem_sorted hs hp) fun y hy => by
      split_ifs at hy
      have := (rbNextItem_some hs hx (hxk ▸ hy)).2.1
      omega
    refine ⟨hs2, fun k => ?_⟩
    have h1 := getAt_unlinkItem hs hp k
    rw [← eraseItem] at h1
    rcases h2 k with h2 | h2
    · rw [h2, h1]
      split_ifs with hk
      · exact .inr ⟨by omega, by omega, rfl⟩
      · exact .inl rfl
    · exact .inr h2
  | case3 s count it hgo' p h => intro hs _; rw [eraseWalk_of_nil hgo' h]; exact ⟨hs, fun _ => .inl rfl⟩
  | case4 s count it hgo' => intro hs _; rw [eraseWalk_stop (by simpa using hgo')]; exact ⟨hs, fun _ => .inl rfl⟩

/-- The walks of `shrink_around`: from an item in `[lo, b]`, with the item
at `b` cached and marked last, it erases items only, and only in `[lo, b]`. -/
theorem eraseWalk_getAt_last {go isLast : CachedItem → Bool} {lo b : Nat} (hlast : ∀ z, isLast z = true ↔ z.key = b)
    (item : Option CachedItem) (count : Nat) :
    ItemsSorted s.items →
      (∀ it, item = some it → lo ≤ it.key ∧ it.key ≤ b ∧ (getAt b (itemsOf s.items)).isSome) →
      ItemsSorted (eraseWalk go isLast s item count).1.items ∧
      ∀ k, getAt k (itemsOf (eraseWalk go isLast s item count).1.items) = getAt k (itemsOf s.items) ∨
        (lo ≤ k ∧ k ≤ b ∧ getAt k (itemsOf (eraseWalk go isLast s item count).1.items) = none) := by
  induction s, item, count using eraseWalk.induct go isLast with
  | case1 s count => intro hs _; rw [eraseWalk_none]; exact ⟨hs, fun _ => .inl rfl⟩
  | case2 s count it hgo' p l x r h ih =>
    intro hs hit
    rw [eraseWalk_of_node hgo' h]
    obtain ⟨hplug, hxk⟩ := itemPath_node h
    have hp := itemPath_pointsTo h
    have hx : x ∈ s.items.toList := by rw [← hplug, toList_plug]; simp
    obtain ⟨hlo, hle, hb⟩ := hit it rfl
    have h1 := getAt_unlinkItem hs hp
    rw [← eraseItem] at h1
    simp only [dite_eq_ite] at ih ⊢
    obtain ⟨hs2, h2⟩ := ih (unlinkItem_sorted hs hp) fun y hy => by
      split_ifs at hy with hl
      have hne : x.key ≠ b := fun he => hl ((hlast it).2 (hxk ▸ he))
      obtain ⟨z, hz⟩ := Option.isSome_iff_exists.1 hb
      obtain ⟨w, hw, -, hwk⟩ := exists_mem_of_getAt hz
      obtain ⟨-, hlt, hmin⟩ := rbNextItem_some hs hx (hxk ▸ hy)
      have := hmin w hw (by omega)
      refine ⟨by omega, by omega, ?_⟩
      rw [h1 b, if_neg (Ne.symm hne)]
      exact hb
    refine ⟨hs2, fun k => ?_⟩
    rcases h2 k with h2 | h2
    · rw [h2, h1 k]
      split_ifs with hk
      · exact .inr ⟨by omega, by omega, rfl⟩
      · exact .inl rfl
    · exact .inr h2
  | case3 s count it hgo' p h => intro hs _; rw [eraseWalk_of_nil hgo' h]; exact ⟨hs, fun _ => .inl rfl⟩
  | case4 s count it hgo' => intro hs _; rw [eraseWalk_stop (by simpa using hgo')]; exact ⟨hs, fun _ => .inl rfl⟩

/-- What one pass of the flush loop leaves at the key of the item it
writes: nothing for a deletion item, otherwise the item, clean and
persistent. -/
def flushAt (y : CachedItem) : Option CachedItem :=
  if y.deletion then none else some { y.withDirty false with persistent := true }

/-- One pass of the loop of `scoutfs_item_dirty_seg`: it appends the item,
changes the cache at the item's key only, and goes on from a pointer into
the new tree. -/
theorem dirtySegLoop_step (hs : ItemsSorted s.items) {p : List (Frame CachedItem)} {l r : Tree CachedItem}
    {it : CachedItem} (hplug : plug p (.node l it r) = s.items) (fuel : Nat) (seg : List SegItem) :
    ∃ s' ptr', dirtySegLoop (fuel + 1) s (some (p, .node l it r)) seg =
        dirtySegLoop fuel s' ptr' (seg ++ [⟨it.key, it.value, it.deletion⟩]) ∧
      ItemsSorted s'.items ∧ s'.ranges = s.ranges ∧
      (∀ k, getAt k (itemsOf s'.items) = if k = it.key then flushAt it.data else getAt k (itemsOf s.items)) ∧
      ∀ q u, ptr' = some (q, u) → plug q u = s'.items := by
  have hp : PointsTo s.items (p, .node l it r) it := ⟨l, r, rfl, hplug⟩
  have hpc := clearItemDirty_pointsTo hp
  have hsc := clearItemDirty_sorted hp hs
  let f : CachedItem → CachedItem := fun it => { it with persistent := true }
  have hsd := setItem_sorted hsc hpc (f := f) (fun _ => rfl) (fun _ => rfl)
  have hpd := setItem_pointsTo hpc f
  have hd : ∀ k, getAt k (itemsOf (setItem (clearItemDirty s (p, .node l it r)).1
      (clearItemDirty s (p, .node l it r)).2 f).1.items) =
      if k = it.key then some { it.data.withDirty false with persistent := true } else getAt k (itemsOf s.items) := by
    intro k
    rw [getAt_setItem hsc hpc (f := f) (fun _ => rfl) (fun _ => rfl), getAt_clearItemDirty hs hp]
    by_cases hk : k = it.key
    · rw [if_pos hk, if_pos hk]; rfl
    · rw [if_neg hk, if_neg hk, if_neg hk]
  refine ⟨_, _, rfl, ?_, ?_, fun k => ?_, fun q u h => ?_⟩
  · split
    · exact unlinkItem_sorted hsd hpd
    · exact hsd
  · split <;> simp [eraseItem]
  · by_cases hdel : it.deletion = true
    · rw [if_pos hdel, eraseItem, getAt_unlinkItem hsd hpd, hd]
      by_cases hk : k = it.key
      · rw [if_pos hk, if_pos hk, flushAt, CachedItem.data_deletion, if_pos hdel]
      · rw [if_neg hk, if_neg hk, if_neg hk]
    · rw [if_neg hdel, hd, flushAt, CachedItem.data_deletion, if_neg hdel]
  · obtain ⟨k, -, hk⟩ := Option.map_eq_some'.1 h
    exact plug_of_itemPath hk

/-- Induction over `scoutfs_item_dirty_seg`: a property of the cache and of
the items appended so far that every pass of the loop keeps. -/
theorem scoutfsItemDirtySeg_induction (P : ItemCache → List SegItem → Prop)
    (hstep : ∀ (s s' : ItemCache) seg (it : CachedItem), ItemsSorted s.items → ItemsSorted s'.items →
      s'.ranges = s.ranges → getAt it.key (itemsOf s.items) = some it.data →
      (∀ k, getAt k (itemsOf s'.items) = if k = it.key then flushAt it.data else getAt k (itemsOf s.items)) →
      P s seg → P s' (seg ++ [⟨it.key, it.value, it.deletion⟩]))
    (hs : ItemsSorted s.items) (h : P s []) : P (scoutfsItemDirtySeg s).1 (scoutfsItemDirtySeg s).2 := by
  suffices ∀ fuel (s : ItemCache) ptr seg, ItemsSorted s.items → (∀ q u, ptr = some (q, u) → plug q u = s.items) →
      P s seg → P (dirtySegLoop fuel s ptr seg).1 (dirtySegLoop fuel s ptr seg).2 from
    this _ s _ [] hs (fun _ _ h => firstDirty_plug h) h
  intro fuel
  induction fuel with
  | zero => intro s ptr seg _ _ h; exact h
  | succ n ih =>
    intro s ptr seg hs hptr h
    rcases ptr with _ | ⟨p, _ | ⟨l, it, r⟩⟩
    · exact h
    · exact h
    obtain ⟨s', ptr', heq, hs', hr, hk, hptr'⟩ := dirtySegLoop_step hs (hptr _ _ rfl) n seg
    rw [heq]
    exact ih s' ptr' _ hs' hptr' (hstep s s' seg it hs hs' hr (hs.getAt (hptr _ _ rfl)) hk h)

end Walks

end ScoutfsItemCache
