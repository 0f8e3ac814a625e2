import ScoutfsItemCache.Range

/-! # The item API

The public functions of `item.c` over the cache model: the point reads
and writes, the ordered walks `scoutfs_item_next`/`scoutfs_item_prev`,
batch population, the save/restore pair, the flush of dirty items into a
segment, invalidation, and the read-only queries.

Every function that drops the cache lock to read segments is split as the
code is: a locked attempt (`...Attempt`), which answers `-ENODATA` when it
needs a read, and the loop `readRetry` around it that calls the reader
`scoutfs_manifest_read_items` and tries again. The reader lives in
manifest.c, outside this file; it is a parameter here. The loop has a
fuel bound: `none` means it was still retrying when the fuel ran out.

Allocation failures are a `nomem` argument of the functions that
allocate; `SCOUTFS_MAX_VAL_SIZE` (format.h) is the argument `maxValSize`.
A caller's value buffer is its length, `none` for a null `struct kvec *`.
-/

namespace ScoutfsItemCache

/-! ## Values -/

/-- `invalid_key_val`: a value longer than `SCOUTFS_MAX_VAL_SIZE`. -/
def invalidKeyVal (maxValSize : Nat) : Option Bytes → Bool
  | some v => maxValSize < v.length
  | none => false

/-- `copy_item_val`: the number of bytes copied into a buffer of `bufLen`
bytes, and those bytes; nothing without a buffer. -/
def copyItemVal (bufLen : Option Nat) (it : CachedItem) : Int × Bytes :=
  match bufLen with
  | some n => (min it.valLen n, (it.val.getD []).take (min it.valLen n))
  | none => (0, [])

/-- The key of the item a pointer names. -/
def ItemPtr.key? (ptr : ItemPtr) : Option Nat := ptr.2.root.map CachedItem.key

/-! ## The read-through retry loop -/

/-- `scoutfs_manifest_read_items(sb, key, &lock->start, &lock->end)`: reads
the segment items around a key into the cache and returns 0 or an errno. -/
abbrev Reader := Nat → ItemCache → ItemCache × Int

/-- `do { lock; attempt; unlock } while (ret == -ENODATA && (ret = read()) == 0)`:
at most `fuel` attempts; a failed read ends the loop with its error. -/
def readRetry {β : Type} (attempt : ItemCache → ItemCache × Int × β) (read : ItemCache → ItemCache × Int) :
    Nat → ItemCache → Option (ItemCache × Int × β)
  | 0, _ => none
  | fuel + 1, s =>
    let a := attempt s
    if a.2.1 = -ENODATA then
      let r := read a.1
      if r.2 = 0 then readRetry attempt read fuel r.1 else some (r.1, r.2, a.2.2)
    else some a

/-- The locked body the point operations share: act on the item found at
`key`; without one, `-ENOENT` when a cached range covers the key and
`-ENODATA` to ask for a read. -/
def pointAttempt {β : Type} (key : Nat) (found : ItemCache → ItemPtr → ItemCache × Int × β)
    (miss : β) (s : ItemCache) : ItemCache × Int × β :=
  match findItem s.items key with
  | some ptr => found s ptr
  | none => if (checkRange s.ranges key).isSome then (s, -ENOENT, miss) else (s, -ENODATA, miss)

/-! ## Point lookups -/

/-- The locked body of `scoutfs_item_lookup`. -/
def lookupAttempt (key : Nat) (bufLen : Option Nat) : ItemCache → ItemCache × Int × Bytes :=
  pointAttempt key
    (fun s ptr => match ptr.2 with
      | .node _ it _ => (itemReferenced s it, copyItemVal bufLen it)
      | .nil => (s, 0, []))
    []

/-- `scoutfs_item_lookup`: the copied length (or an errno) and the copied bytes. -/
def scoutfsItemLookup (read : Reader) (fuel : Nat) (s : ItemCache) (key : Nat)
    (bufLen : Option Nat) (lock : ScoutfsLock) : Option (ItemCache × Int × Bytes) :=
  if !lockCoverage lock key .read then some (s, -EINVAL, [])
  else readRetry (lookupAttempt key bufLen) (read key) fuel s

/-- `next_item_node` (and `prev_item_node` over the reversed order): the
first of the following items that is not a deletion item, unless an item
`beyond` the bound comes first. -/
def nextItemNode (beyond : CachedItem → Bool) : List CachedItem → Option CachedItem
  | [] => none
  | it :: rest => if beyond it then none else if !it.deletion then some it else nextItemNode beyond rest

/-- `item_for_next`: the first live item from `key` up to the lesser of
the cached range's end and `last`. -/
def itemForNext (t : Tree CachedItem) (key rangeEnd last : Nat) : Option CachedItem :=
  let last := if scoutfsKeyCompare rangeEnd last < 0 then rangeEnd else last
  match nextItem t key with
  | some it =>
    if 0 < scoutfsKeyCompare it.key last then none
    else if it.deletion then
      nextItemNode (fun x => 0 < scoutfsKeyCompare x.key last) (itemsAfter t.toList it.key)
    else some it
  | none => none

/-- `item_for_prev`: the last live item from `key` down to the greater of
the cached range's start and `first`. -/
def itemForPrev (t : Tree CachedItem) (key rangeStart first : Nat) : Option CachedItem :=
  let first := if 0 < scoutfsKeyCompare rangeStart first then rangeStart else first
  match prevItem t key with
  | some it =>
    if scoutfsKeyCompare it.key first < 0 then none
    else if it.deletion then
      nextItemNode (fun x => scoutfsKeyCompare x.key first < 0) (itemsAfter t.toList.reverse it.key)
    else some it
  | none => none

/-- Where one locked pass of the `for (;;)` loop of `scoutfs_item_next` or
`scoutfs_item_prev` ends. -/
inductive WalkStep where
  | found (it : CachedItem)
  | noent
  | read (pos : Nat)
deriving DecidableEq, Repr

/-- The locked part of the loop of `scoutfs_item_next` from `pos`: past a
cached range without items, continue after its end. -/
def nextScan (s : ItemCache) (last pos : Nat) : WalkStep :=
  match _h : checkRange s.ranges pos with
  | none => .read pos
  | some rng =>
    match itemForNext s.items pos rng.end last with
    | some it => .found it
    | none =>
      if scoutfsKeyCompare rng.end last < 0 then nextScan s last (scoutfsKeyInc rng.end) else .noent
termination_by last + 1 - pos
decreasing_by
  have := checkRange_mem _h
  simp only [scoutfsKeyCompare_neg, scoutfsKeyInc_eq] at *
  omega

section Scan

variable {s : ItemCache} {last pos : Nat} {rng : CachedRange}

theorem nextScan_of_none (h : checkRange s.ranges pos = none) : nextScan s last pos = .read pos := by
  rw [nextScan]; split <;> simp_all

theorem nextScan_of_some (h : checkRange s.ranges pos = some rng) :
    nextScan s last pos =
      match itemForNext s.items pos rng.end last with
      | some it => .found it
      | none =>
        if scoutfsKeyCompare rng.end last < 0 then nextScan s last (scoutfsKeyInc rng.end) else .noent := by
  rw [nextScan]; split <;> simp_all

end Scan

/-- The locked part of the loop of `scoutfs_item_prev` from `pos`: before
a cached range without items, continue before its start. -/
def prevScan (s : ItemCache) (first pos : Nat) : WalkStep :=
  match _h : checkRange s.ranges pos with
  | none => .read pos
  | some rng =>
    match itemForPrev s.items pos rng.start first with
    | some it => .found it
    | none =>
      if 0 < scoutfsKeyCompare rng.start first then prevScan s first (scoutfsKeyDec rng.start)
      else .noent
termination_by pos
decreasing_by
  have := checkRange_mem _h
  simp only [scoutfsKeyCompare_pos, scoutfsKeyDec_eq] at *
  omega

section Scan

variable {s : ItemCache} {first pos : Nat} {rng : CachedRange}

theorem prevScan_of_none (h : checkRange s.ranges pos = none) : prevScan s first pos = .read pos := by
  rw [prevScan]; split <;> simp_all

theorem prevScan_of_some (h : checkRange s.ranges pos = some rng) :
    prevScan s first pos =
      match itemForPrev s.items pos rng.start first with
      | some it => .found it
      | none =>
        if 0 < scoutfsKeyCompare rng.start first then prevScan s first (scoutfsKeyDec rng.start)
        else .noent := by
  rw [prevScan]; split <;> simp_all

end Scan

/-- What `scoutfs_item_next`/`scoutfs_item_prev` return for the item a pass
found: its key and copied value; the item is referenced only when there is
a buffer. -/
def walkFound (bufLen : Option Nat) (s : ItemCache) (it : CachedItem) :
    ItemCache × Int × Option (Nat × Bytes) :=
  if bufLen.isSome then
    (itemReferenced s it, (copyItemVal bufLen it).1, some (it.key, (copyItemVal bufLen it).2))
  else (s, 0, some (it.key, []))

/-- The `for (;;)` loop of `scoutfs_item_next`/`scoutfs_item_prev` over
the passes `scan`: return a found item, stop with `-ENOENT`, or read at
`pos` and go on, for at most `fuel` passes. -/
def walkLoop (scan : ItemCache → Nat → WalkStep) (read : Reader) (bufLen : Option Nat) :
    Nat → ItemCache → Nat → Option (ItemCache × Int × Option (Nat × Bytes))
  | 0, _, _ => none
  | fuel + 1, s, pos =>
    match scan s pos with
    | .found it => some (walkFound bufLen s it)
    | .noent => some (s, -ENOENT, none)
    | .read pos' =>
      let r := read pos' s
      if r.2 = 0 then walkLoop scan read bufLen fuel r.1 pos' else some (r.1, r.2, none)

/-- `scoutfs_item_next`: the next live item from `key` up to `last` and
the lock's end; its key and copied value. -/
def scoutfsItemNext (read : Reader) (fuel : Nat) (s : ItemCache) (key last : Nat)
    (bufLen : Option Nat) (lock : ScoutfsLock) : Option (ItemCache × Int × Option (Nat × Bytes)) :=
  let last := if scoutfsKeyCompare lock.end last < 0 then lock.end else last
  if 0 < scoutfsKeyCompare key last then some (s, -ENOENT, none)
  else if !lockCoverage lock key .read then some (s, -EINVAL, none)
  else walkLoop (fun s pos => nextScan s last pos) read bufLen fuel s key

/-- `scoutfs_item_prev`: the previous live item from `key` down to
`first` and the lock's start. -/
def scoutfsItemPrev (read : Reader) (fuel : Nat) (s : ItemCache) (key first : Nat)
    (bufLen : Option Nat) (lock : ScoutfsLock) : Option (ItemCache × Int × Option (Nat × Bytes)) :=
  let first := if 0 < scoutfsKeyCompare lock.start first then lock.start else first
  if scoutfsKeyCompare key first < 0 then some (s, -ENOENT, none)
  else if !lockCoverage lock key .read then some (s, -EINVAL, none)
  else walkLoop (fun s pos => prevScan s first pos) read bufLen fuel s key

/-! ## Creation and population -/

/-- The locked body of `scoutfs_item_create`: insert the new item where a
cached range says the key is known, and mark it dirty. `freed` is what the
flag of a deletion item it replaces reads as once freed. -/
def createAttempt (item : CachedItem) (freed : Nat → Bool) (s : ItemCache) :
    ItemCache × Int × Unit :=
  if (checkRange s.ranges item.key).isNone then (s, -ENODATA, ())
  else
    let r := insertItem s item false false freed
    if r.2 = 0 then (markItemDirty r.1 (itemPath r.1.items item.key), 0, ()) else (r.1, r.2, ())

/-- The locked body of `scoutfs_item_create_force`: a persistent item
replaces whatever is cached at its key; a failed insertion is a `BUG_ON`.
The item is persistent already, so the flag read from a freed item cannot
change it (`insertItem_freed_of_persistent`) and any value stands for it. -/
def createForceLocked (item : CachedItem) (s : ItemCache) : ItemCache × Int :=
  let r := insertItem s { item with persistent := true } true false fun _ => false
  let s := if r.2 ≠ 0 then { r.1 with bug := true } else r.1
  (markItemDirty s (itemPath s.items item.key), r.2)

/-- `scoutfs_item_create_force`. -/
def scoutfsItemCreateForce (maxValSize : Nat) (s : ItemCache) (key : Nat) (val : Option Bytes)
    (lock : ScoutfsLock) (nomem : Bool) : ItemCache × Int :=
  if invalidKeyVal maxValSize val then (s, -EINVAL)
  else if !lockCoverage lock key .writeOnly then (s, -EINVAL)
  else if nomem then (s, -ENOMEM)
  else createForceLocked (allocItem key val) s

/-- `scoutfs_item_add_batch`: append a new item to the caller's batch. -/
def scoutfsItemAddBatch (maxValSize : Nat) (list : List CachedItem) (key : Nat) (val : Option Bytes)
    (nomem : Bool) : List CachedItem × Int :=
  if invalidKeyVal maxValSize val then (list, -EINVAL)
  else if nomem then (list, -ENOMEM)
  else (list ++ [allocItem key val], 0)

/-- The item loop of `scoutfs_item_insert_batch`: each item is taken off
the caller's list, made persistent and inserted unless the cache already
has its key; a refused item is put back at the head of the list, which
so ends holding the refused items, the last refused first. A populating
insertion never erases (`insertItem_freed_of_populate`), so no freed flag
is read. -/
def insertBatchItems (s : ItemCache) (refused : List CachedItem) :
    List CachedItem → ItemCache × List CachedItem
  | [] => (s, refused)
  | item :: rest =>
    let item := { item with persistent := true }
    let r := insertItem s item false true fun _ => false
    insertBatchItems r.1 (if r.2 = 0 then refused else item :: refused) rest

/-- `scoutfs_item_insert_batch`: cache the range `[start, end]`, then the
batch's items. The result carries the items that `scoutfs_item_free_batch`
frees at `out:`: the refused items, or the whole batch when the range
cannot be allocated. The `-EINVAL` return comes before `out:` and frees
nothing. -/
def scoutfsItemInsertBatch (s : ItemCache) (list : List CachedItem) (start «end» : Nat)
    (nomem : Bool) : ItemCache × Int × List CachedItem :=
  if 0 < scoutfsKeyCompare start «end» then (s, -EINVAL, [])
  else if nomem then (s, -ENOMEM, list)
  else
    let r := insertBatchItems { s with ranges := insertRange s.ranges ⟨start, «end»⟩ } [] list
    (r.1, 0, r.2)

/-! ## Point writes -/

/-- The locked body of `scoutfs_item_dirty`. -/
def dirtyAttempt (key : Nat) : ItemCache → ItemCache × Int × Unit :=
  pointAttempt key (fun s ptr => (markItemDirty s ptr, 0, ())) ()

/-- The locked body of `scoutfs_item_update`: the item takes the new value
buffer and length and is dirtied again, which recounts its bytes. -/
def updateAttempt (key : Nat) (val : Option Bytes) : ItemCache → ItemCache × Int × Unit :=
  pointAttempt key
    (fun s ptr =>
      let c := clearItemDirty s ptr
      let d := setItem c.1 c.2 fun it => { it with val, valLen := (val.map List.length).getD 0 }
      (markItemDirty d.1 d.2, 0, ()))
    ()

/-- The locked body of `scoutfs_item_delete`. -/
def deleteAttempt (key : Nat) : ItemCache → ItemCache × Int × Unit :=
  pointAttempt key (fun s ptr => (deleteItem s ptr, 0, ())) ()

/-- The locked body of `scoutfs_item_delete_force`: insert a persistent
item over whatever is cached, dirty it, and delete it into a deletion item. -/
def deleteForceLocked (key : Nat) (s : ItemCache) : ItemCache :=
  let r := insertItem s { allocItem key none with persistent := true } true false fun _ => false
  let s := if r.2 ≠ 0 then { r.1 with bug := true } else r.1
  let s := markItemDirty s (itemPath s.items key)
  deleteItem s (itemPath s.items key)

/-- `scoutfs_item_delete_force`. -/
def scoutfsItemDeleteForce (s : ItemCache) (key : Nat) (lock : ScoutfsLock) (nomem : Bool) :
    ItemCache × Int :=
  if !lockCoverage lock key .writeOnly then (s, -EINVAL)
  else if nomem then (s, -ENOMEM)
  else (deleteForceLocked key s, 0)

/-! ## Save and restore -/

/-- The locked body of `scoutfs_item_delete_save`: unlink the item and hand
it to the caller, then leave a deletion item with its persistence at the
key. The saved item keeps its whole `dirty` field: `clear_item_dirty`
clears `ITEM_DIRTY`, which is set again if it was set. The key has no item
left when the deletion item is inserted, so nothing is erased and no freed
flag is read. -/
def deleteSaveAttempt (key : Nat) : ItemCache → ItemCache × Int × Option CachedItem :=
  pointAttempt key
    (fun s ptr => match ptr.2 with
      | .node _ it _ =>
        let s := unlinkItem s ptr
        let r := insertItem s { allocItem key none with persistent := it.persistent } false false
          fun _ => false
        let s := if r.2 ≠ 0 then { r.1 with bug := true } else r.1
        (deleteItem s (itemPath s.items key), 0, some it)
      | .nil => (s, 0, none))
    none

/-- `scoutfs_item_delete_save`: the state, the result, and the saved item
the caller's list gains. -/
def scoutfsItemDeleteSave (read : Reader) (fuel : Nat) (s : ItemCache) (key : Nat)
    (lock : ScoutfsLock) (nomem : Bool) : Option (ItemCache × Int × Option CachedItem) :=
  if !lockCoverage lock key .write then some (s, -EINVAL, none)
  else if nomem then some (s, -ENOMEM, none)
  else readRetry (deleteSaveAttempt key) (read key) fuel s

/-- One pass of the second loop of `scoutfs_item_restore`: the saved item
loses `ITEM_DIRTY`, replaces the live item at its key, and is dirtied again
if it was dirty. `find_item` skips deletion items, so a deletion item at the
key is erased by `insert_item`, which then reads its freed flag (`freed`).
`mark_item_dirty` returns early on an item `insert_item` did not link. -/
def restoreItem (freed : Nat → Bool) (s : ItemCache) (item : CachedItem) : ItemCache :=
  let wasDirty := itemIsDirty item
  let item := { item with dirty := { item.dirty with item := false } }
  let s := (findItem s.items item.key).elim s (eraseItem s)
  let r := insertItem s item false false freed
  if wasDirty && r.2 = 0 then markItemDirty r.1 (itemPath r.1.items item.key) else r.1

/-- The second loop of `scoutfs_item_restore`, over the caller's list. -/
def restoreItems (freed : Nat → Bool) (s : ItemCache) : List CachedItem → ItemCache
  | [] => s
  | item :: rest => restoreItems freed (restoreItem freed s item) rest

/-- The first loop of `scoutfs_item_restore`: every saved item is covered
by the lock (in write mode if it is dirty) and by a cached range. -/
def restoreCovered (s : ItemCache) (lock : ScoutfsLock) (list : List CachedItem) : Bool :=
  list.all fun it =>
    lockCoverage lock it.key (if itemIsDirty it then .write else .read) &&
      (checkRange s.ranges it.key).isSome

/-- `scoutfs_item_restore`: the state, the result, and what is left on the
caller's list. -/
def scoutfsItemRestore (s : ItemCache) (list : List CachedItem) (lock : ScoutfsLock)
    (freed : Nat → Bool) : ItemCache × Int × List CachedItem :=
  if list = [] then (s, 0, [])
  else if !restoreCovered s lock list then (s, -EINVAL, list)
  else (restoreItems freed s list, 0, [])

/-! ## Writes to dirty items -/

/-- `scoutfs_item_delete_dirty`. -/
def scoutfsItemDeleteDirty (s : ItemCache) (key : Nat) : ItemCache :=
  match findItem s.items key with
  | some ptr => deleteItem s ptr
  | none => s

/-- `scoutfs_item_update_dirty`: copy the value over the start of the
item's buffer and shorten `val_len`; the length difference is an unsigned
subtraction converted to `signed`. A missing or clean item, or a longer
value, is a `BUG_ON`. -/
def scoutfsItemUpdateDirty (s : ItemCache) (key : Nat) (val : Option Bytes) : ItemCache :=
  let newLen := (val.map List.length).getD 0 % 2 ^ 32
  match findItem s.items key with
  | some (p, .node l it r) =>
    let it' := { it with
      val := match val with
        | some v => it.val.map fun b => v.take newLen ++ b.drop newLen
        | none => it.val
      valLen := newLen }
    updateDirtyItemCounts
      { s with
        items := plug p (.node l it' r)
        bug := s.bug || !itemIsDirty it || decide (it.valLen < newLen) }
      0 (toS32 (subU32 newLen it.valLen))
  | _ => { s with bug := true }

/-! ## Flushing dirty items -/

/-- What `scoutfs_seg_append_item` is given for one item: the key, the
`val_len` bytes of the value, and `SCOUTFS_ITEM_FLAG_DELETION`. -/
structure SegItem where
  key : Nat
  val : Bytes
  deletion : Bool
deriving DecidableEq, Repr

/-- The loop of `scoutfs_item_dirty_seg`: append the item, clear it and
make it persistent, step to the next dirty item, and erase the item if
it was a deletion item. The walk's next item is found again by key in
the tree after the erase. At most `fuel` items. -/
def dirtySegLoop : Nat → ItemCache → Option ItemPtr → List SegItem → ItemCache × List SegItem
  | fuel + 1, s, some (p, .node l it r), seg =>
    let seg := seg ++ [⟨it.key, it.value, it.deletion⟩]
    let c := clearItemDirty s (p, .node l it r)
    let d := setItem c.1 c.2 fun it => { it with persistent := true }
    let next := nextDirty d.2.1 d.2.2
    let s := if it.deletion then eraseItem d.1 d.2 else d.1
    dirtySegLoop fuel s ((next.bind ItemPtr.key?).map (itemPath s.items)) seg
  | _, s, _, seg => (s, seg)

/-- `scoutfs_item_dirty_seg`: the dirty items, in the order of the
augmented walk, and the state after flushing them. -/
def scoutfsItemDirtySeg (s : ItemCache) : ItemCache × List SegItem :=
  dirtySegLoop s.items.size s (firstDirty [] s.items) []

/-- `dirty_item_within`: a dirty item at or after `from` and not after `end`. -/
def dirtyItemWithin (t : Tree CachedItem) («from» «end» : Nat) : Bool :=
  let item := match nextItem t «from» with
    | some it =>
      if itemIsDirty it then some it
      else (nextDirty (itemPath t it.key).1 (itemPath t it.key).2).bind fun q => q.2.root
    | none => none
  match item with
  | some it => scoutfsKeyCompare it.key «end» ≤ 0
  | none => false

/-- `scoutfs_item_has_dirty`. -/
def scoutfsItemHasDirty (s : ItemCache) : Bool := s.nrDirtyItems ≠ 0

/-- `scoutfs_item_writeback`: with a dirty item in the range, the result of
the transaction sync `syncRet` (`scoutfs_trans_sync`, trans.c), or, when it
succeeded, the `long` number of dirty items as stored in `int count`. -/
def scoutfsItemWriteback (s : ItemCache) (start «end» : Nat) (syncRet : Int) : Int :=
  if s.nrDirtyItems ≠ 0 && dirtyItemWithin s.items start «end» then
    if syncRet ≠ 0 then syncRet else longToInt s.nrDirtyItems
  else 0

/-- `scoutfs_item_dirty_fits_single`, with `scoutfs_seg_fits_single`
(seg.c) as the argument `fitsSingle`. -/
def scoutfsItemDirtyFitsSingle (fitsSingle : Int → Int → Bool) (s : ItemCache)
    (nrItems valBytes : Nat) : Bool :=
  fitsSingle (nrItems + s.nrDirtyItems) (valBytes + s.dirtyValBytes)

/-! ## Invalidation and queries -/

/-- The erasing walks of `scoutfs_item_invalidate` and `shrink_around`:
from `item`, while `go` accepts it, take its successor (none after an
item `isLast` marks), erase it, count it, and go on with the successor.
The item is found in the tree by its key; the empty branch only makes the
function total, as every item of the walk is in the tree. -/
def eraseWalk (go isLast : CachedItem → Bool) (s : ItemCache) (item : Option CachedItem)
    (count : Nat) : ItemCache × Nat :=
  match item with
  | none => (s, count)
  | some it =>
    if go it then
      match h : itemPath s.items it.key with
      | (p, .node l x r) =>
        eraseWalk go isLast (eraseItem s (p, .node l x r))
          (if isLast it then none else rbNextItem s.items it.key) (count + 1)
      | (_, .nil) => (s, count)
    else (s, count)
termination_by s.items.size
decreasing_by
  have h1 := unlinkItem_size s p l r x
  have h2 := congrArg Tree.size (plug_descend_id (itemCmp it.key) [] s.items)
  simp only [itemPath] at h
  rw [h] at h2
  simp only [plug_nil] at h2
  simp only [eraseItem]
  omega

section EraseWalk

variable {go isLast : CachedItem → Bool} {s : ItemCache} {it : CachedItem} {count : Nat}

theorem eraseWalk_none : eraseWalk go isLast s none count = (s, count) := by rw [eraseWalk]

theorem eraseWalk_stop (hgo : go it = false) : eraseWalk go isLast s (some it) count = (s, count) := by
  rw [eraseWalk]; simp [hgo]

theorem eraseWalk_of_node {p : List (Frame CachedItem)} {l r : Tree CachedItem} {x : CachedItem}
    (hgo : go it = true) (h : itemPath s.items it.key = (p, .node l x r)) :
    eraseWalk go isLast s (some it) count =
      eraseWalk go isLast (eraseItem s (p, .node l x r))
        (if isLast it then none else rbNextItem s.items it.key) (count + 1) := by
  rw [eraseWalk, if_pos hgo]; split <;> simp_all

theorem eraseWalk_of_nil {p : List (Frame CachedItem)} (hgo : go it = true)
    (h : itemPath s.items it.key = (p, .nil)) : eraseWalk go isLast s (some it) count = (s, count) := by
  rw [eraseWalk, if_pos hgo]; split <;> simp_all

/-- What holds of a cache and is kept by erasing any item of its tree holds
after an erasing walk. -/
theorem eraseWalk_induction (P : ItemCache → Prop)
    (hstep : ∀ s p l x r, P s → plug p (.node l x r) = s.items → P (eraseItem s (p, .node l x r)))
    (item : Option CachedItem) (h0 : P s) : P (eraseWalk go isLast s item count).1 := by
  induction s, item, count using eraseWalk.induct go isLast with
  | case1 s count => rw [eraseWalk_none]; exact h0
  | case2 s count it hgo p l x r h ih =>
    rw [eraseWalk_of_node hgo h]
    exact ih (hstep s p l x r h0 (plug_of_itemPath h))
  | case3 s count it hgo p h => rw [eraseWalk_of_nil hgo h]; exact h0
  | case4 s count it hgo => rw [eraseWalk_stop (by simpa using hgo)]; exact h0

/-- A walk that erases nothing leaves the cache as it is. -/
theorem eraseWalk_count (item : Option CachedItem) :
    count ≤ (eraseWalk go isLast s item count).2 ∧
      ((eraseWalk go isLast s item count).2 = count → (eraseWalk go isLast s item count).1 = s) := by
  induction s, item, count using eraseWalk.induct go isLast with
  | case1 s count => simp [eraseWalk_none]
  | case2 s count it hgo p l x r h ih =>
    rw [eraseWalk_of_node hgo h]
    simp only [dite_eq_ite] at ih
    exact ⟨by omega, fun h' => by omega⟩
  | case3 s count it hgo p h => simp [eraseWalk_of_nil hgo h]
  | case4 s count it hgo => simp [eraseWalk_stop (by simpa using hgo)]

end EraseWalk

/-- `scoutfs_item_invalidate`: erase the items of `[start, end]` and stop
caching the range; the number of erased items. -/
def scoutfsItemInvalidate (s : ItemCache) (start «end» : Nat) (nomem : Bool) : ItemCache × Int :=
  if nomem then (s, -ENOMEM)
  else
    let r := eraseWalk (fun it => scoutfsKeyCompare it.key «end» ≤ 0) (fun _ => false) s
      (nextItem s.items start) 0
    ({ r.1 with ranges := removeRange r.1.ranges ⟨start, «end»⟩ }, r.2)

/-- `scoutfs_item_range_cached`: with `dirty`, whether a dirty item lies in
the range; otherwise whether a cached range overlaps it. -/
def scoutfsItemRangeCached (s : ItemCache) (start «end» : Nat) (dirty : Bool) : Bool :=
  if dirty then dirtyItemWithin s.items start «end»
  else
    (walkRanges s.ranges start).1.isSome ||
      match (walkRanges s.ranges start).2.2 with
      | some next => scoutfsKeyCompare next.start «end» ≤ 0
      | none => false

/-- `scoutfs_item_copy_keys`: the keys of up to `nr` live items from `key`. -/
def scoutfsItemCopyKeys (t : Tree CachedItem) (key nr : Nat) : List Nat :=
  let items := match nextItem t key with
    | some it => it :: itemsAfter t.toList it.key
    | none => []
  ((items.filter fun it => !it.deletion).map CachedItem.key).take nr

/-- `scoutfs_item_copy_range_keys`: the bounds of the cached ranges from the
one containing `key` (or the next one), as many whole pairs as fit in `nr`. -/
def scoutfsItemCopyRangeKeys (t : Tree CachedRange) (key nr : Nat) : List Nat :=
  let first := (walkRanges t key).1 <|> (walkRanges t key).2.2
  let ranges := match first with
    | some rng => t.toList.dropWhile (· ≠ rng)
    | none => []
  ((ranges.take (nr / 2)).map fun rng => [rng.start, rng.end]).flatten

/-- `scoutfs_item_setup`: an empty cache. -/
def scoutfsItemSetup : ItemCache :=
  { items := .nil, ranges := .nil, nrDirtyItems := 0, dirtyValBytes := 0, lruList := [], lruNr := 0,
    bug := false }

end ScoutfsItemCache
