import ScoutfsItemCache.Shrink

/-! # Runs of the item cache

The cache as a transition system. Every public function holds the cache
spinlock for its whole work except while it calls the segment reader, so
a run is a sequence of locked sections, each atomic: one attempt of a
point operation, one pass of `scoutfs_item_next`/`scoutfs_item_prev`, one
`scoutfs_item_insert_batch` (what the reader does to fill the cache), one
flush, invalidation or shrink, and the rotations the red-black
rebalancing makes. The whole public functions, retry loops included, are
sequences of these steps.

A world also holds the lists on which callers keep the items
`scoutfs_item_delete_save` hands them, by a list number.

The sections of `scoutfs_item_create` and `scoutfs_item_restore` can make
`insert_item` erase a deletion item and then read the flag of the freed
item. Their steps carry what that read gives (`freed`, see `insertItem`),
so the runs range over every value freed memory may hold.

A section that fires a `BUG_ON` ends the run: `Reachable` only takes
steps that leave `bug` unset. The only `BUG_ON` a caller can reach is the
precondition of `scoutfs_item_update_dirty` (a dirty item, no longer
value), which its callers guarantee. Steps also respect what callers
guarantee of the arguments (`Op.callerOk`); a call given a value longer
than `SCOUTFS_MAX_VAL_SIZE` returns `-EINVAL` before it locks, so it is
no step at all.
-/

namespace ScoutfsItemCache

/-- The cache and the callers' lists of saved items. -/
structure World where
  cache : ItemCache
  saved : Nat → List CachedItem

/-- The locked sections of the public functions, with the arguments that
decide what they do to the cache. -/
inductive Op where
  | lookup (key : Nat) (bufLen : Option Nat)
  | next (last pos : Nat) (bufLen : Option Nat)
  | prev (first pos : Nat) (bufLen : Option Nat)
  | create (key : Nat) (val : Option Bytes) (freed : Nat → Bool)
  | createForce (key : Nat) (val : Option Bytes)
  | insertBatch (batch : List (Nat × Option Bytes)) (start «end» : Nat)
  | dirty (key : Nat)
  | update (key : Nat) (val : Option Bytes)
  | delete (key : Nat)
  | deleteForce (key : Nat)
  | deleteSave (key list : Nat)
  | restore (list : Nat) (lock : ScoutfsLock) (freed : Nat → Bool)
  | deleteDirty (key : Nat)
  | updateDirty (key : Nat) (val : Option Bytes)
  | dirtySeg
  | invalidate (start «end» : Nat)
  | shrink (nrToScan fuel : Nat)
  | rotateItems (key : Nat) (left : Bool)
  | rotateRanges (key : Nat) (left : Bool)

/-- Freed memory that still holds the flag: the items `insert_item` erases
in these sections are deletion items, and deletion items are persistent. -/
def freedKept : Nat → Bool := fun _ => true

/-- Freed memory that reads as zero, as with `init_on_free`. -/
def freedZeroed : Nat → Bool := fun _ => false

/-- The batch a reader builds with `scoutfs_item_add_batch`. -/
def batchItems (batch : List (Nat × Option Bytes)) : List CachedItem :=
  batch.map fun kv => allocItem kv.1 kv.2

/-- What callers guarantee of an operation's arguments. Values pass
`invalid_key_val`: with a longer value the creating and updating
functions, and `scoutfs_item_add_batch`, return `-EINVAL` without
locking. Invalidation is called on lock ranges, whose start is not
after their end. -/
def Op.callerOk (maxValSize : Nat) : Op → Bool
  | .create _ val _ | .createForce _ val | .update _ val => !invalidKeyVal maxValSize val
  | .insertBatch batch _ _ => batch.all fun kv => !invalidKeyVal maxValSize kv.2
  | .invalidate start «end» => decide (start ≤ «end»)
  | _ => true

/-- A rotation of the item tree at the item with `key`. -/
def rotateItemsAt (s : ItemCache) (key : Nat) (left : Bool) : ItemCache :=
  { s with items := plug (itemPath s.items key).1 (rotateAug itemAug left (itemPath s.items key).2) }

/-- A rotation of the range tree at the range containing `key`. -/
def rotateRangesAt (s : ItemCache) (key : Nat) (left : Bool) : ItemCache :=
  { s with
    ranges := plug (rangePath s.ranges key).1
      (rotateAug (fun _ x _ => x) left (rangePath s.ranges key).2) }

/-- Update one of the callers' lists. -/
def setSaved (saved : Nat → List CachedItem) (list : Nat) (items : List CachedItem) :
    Nat → List CachedItem :=
  fun n => if n = list then items else saved n

/-- One locked section. -/
def exec (w : World) : Op → World
  | .lookup key bufLen => { w with cache := (lookupAttempt key bufLen w.cache).1 }
  | .next last pos bufLen =>
    match nextScan w.cache last pos with
    | .found it => { w with cache := (walkFound bufLen w.cache it).1 }
    | _ => w
  | .prev first pos bufLen =>
    match prevScan w.cache first pos with
    | .found it => { w with cache := (walkFound bufLen w.cache it).1 }
    | _ => w
  | .create key val freed => { w with cache := (createAttempt (allocItem key val) freed w.cache).1 }
  | .createForce key val => { w with cache := (createForceLocked (allocItem key val) w.cache).1 }
  | .insertBatch batch start «end» =>
    { w with cache := (scoutfsItemInsertBatch w.cache (batchItems batch) start «end» false).1 }
  | .dirty key => { w with cache := (dirtyAttempt key w.cache).1 }
  | .update key val => { w with cache := (updateAttempt key val w.cache).1 }
  | .delete key => { w with cache := (deleteAttempt key w.cache).1 }
  | .deleteForce key => { w with cache := deleteForceLocked key w.cache }
  | .deleteSave key list =>
    let r := deleteSaveAttempt key w.cache
    { cache := r.1, saved := setSaved w.saved list (w.saved list ++ r.2.2.toList) }
  | .restore list lock freed =>
    let r := scoutfsItemRestore w.cache (w.saved list) lock freed
    { cache := r.1, saved := setSaved w.saved list r.2.2 }
  | .deleteDirty key => { w with cache := scoutfsItemDeleteDirty w.cache key }
  | .updateDirty key val => { w with cache := scoutfsItemUpdateDirty w.cache key val }
  | .dirtySeg => { w with cache := (scoutfsItemDirtySeg w.cache).1 }
  | .invalidate start «end» => { w with cache := (scoutfsItemInvalidate w.cache start «end» false).1 }
  | .shrink nrToScan fuel => { w with cache := (itemLruShrink fuel w.cache nrToScan).1 }
  | .rotateItems key left => { w with cache := rotateItemsAt w.cache key left }
  | .rotateRanges key left => { w with cache := rotateRangesAt w.cache key left }

/-- The world after `scoutfs_item_setup`. -/
def setupWorld : World := ⟨scoutfsItemSetup, fun _ => []⟩

/-- The worlds runs from `scoutfs_item_setup` reach with values of at most
`maxValSize` bytes and the arguments callers pass, every locked section
completing without a `BUG_ON`. -/
inductive Reachable (maxValSize : Nat) : World → Prop where
  | setup : Reachable maxValSize setupWorld
  | step {w : World} (op : Op) : Reachable maxValSize w → op.callerOk maxValSize = true →
      (exec w op).cache.bug = false → Reachable maxValSize (exec w op)

/-- Executing a list of locked sections in order. -/
def execAll (w : World) (ops : List Op) : World := ops.foldl exec w

/-- Whether no section of a list fires a `BUG_ON` when run from `w`. -/
def bugFree : World → List Op → Bool
  | _, [] => true
  | w, op :: ops => !(exec w op).cache.bug && bugFree (exec w op) ops

/-- A list of sections with arguments callers pass and that fire no
`BUG_ON` leads from a reachable world to a reachable world. -/
theorem Reachable.execAll {maxValSize : Nat} {w : World} (hw : Reachable maxValSize w)
    (ops : List Op) (hfit : ops.all (Op.callerOk maxValSize) = true) (hbug : bugFree w ops = true) :
    Reachable maxValSize (execAll w ops) := by
  induction ops generalizing w with
  | nil => exact hw
  | cons op ops ih =>
    simp only [List.all_cons, Bool.and_eq_true, bugFree, Bool.not_eq_true'] at hfit hbug
    exact ih (hw.step op hfit.1 hbug.1) hfit.2 hbug.2

end ScoutfsItemCache
