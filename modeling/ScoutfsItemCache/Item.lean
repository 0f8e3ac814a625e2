import ScoutfsItemCache.Tree

/-! # The cached item tree

The data model of `item.c` (`struct cached_item`, `struct cached_range`,
`struct item_cache`) and the functions that operate on one item of the
item rbtree: the lookups (`walk_items`, `find_item`, `next_item`,
`prev_item`), the dirty bookkeeping (`mark_item_dirty`, `clear_item_dirty`,
`item_referenced`), removal (`unlink_item`, `erase_item`, `delete_item`),
`insert_item` with its restart, and the augmented walks `first_dirty` and
`next_dirty`.

A `struct cached_item *` that the code keeps while it works on the tree is
an `ItemPtr`: the search path to the node and the subtree rooted there.
After the tree changes under a pointer the code still holds, the model
finds the node again by its key (`itemPath`).

Two kernel facilities appear as data: a `BUG_ON` that fires sets
`ItemCache.bug`, and the LRU list holds the keys of the items linked on it.
-/

namespace ScoutfsItemCache

/-- The bits of `cached_item.dirty`: `ITEM_DIRTY`, `LEFT_DIRTY`,
`RIGHT_DIRTY`. No other bit of the field is ever written. -/
structure DirtyBits where
  item : Bool
  left : Bool
  right : Bool
deriving DecidableEq, Repr

namespace DirtyBits

/-- The field of a freshly `kzalloc`ed item. -/
def zero : DirtyBits := ⟨false, false, false⟩

/-- `item->dirty != 0`. -/
def nonzero (d : DirtyBits) : Bool := d.item || d.left || d.right

end DirtyBits

/-- `struct cached_item`, without its rbtree and list linkage. -/
structure CachedItem where
  key : Nat
  val : Option Bytes
  valLen : Nat
  deletion : Bool
  persistent : Bool
  dirty : DirtyBits
deriving DecidableEq, Repr

/-- The value an item stands for: the first `val_len` bytes of its buffer. -/
def CachedItem.value (it : CachedItem) : Bytes := (it.val.getD []).take it.valLen

/-- `struct cached_range`. -/
structure CachedRange where
  start : Nat
  «end» : Nat
deriving DecidableEq, Repr

/-- `struct item_cache`; `bug` records that a `BUG_ON` has fired. -/
structure ItemCache where
  items : Tree CachedItem
  ranges : Tree CachedRange
  nrDirtyItems : Int
  dirtyValBytes : Int
  lruList : List Nat
  lruNr : Nat
  bug : Bool
deriving DecidableEq, Repr

/-- A pointer to an item in the tree: the search path and the subtree. -/
abbrev ItemPtr := List (Frame CachedItem) × Tree CachedItem

/-- `alloc_item` with a successful allocation: a clean, non-persistent item
holding a copy of the value. -/
def allocItem (key : Nat) (val : Option Bytes) : CachedItem :=
  { key, val, valLen := (val.map List.length).getD 0, deletion := false, persistent := false,
    dirty := .zero }

/-- `item_is_dirty`. -/
def itemIsDirty (it : CachedItem) : Bool := it.dirty.item

/-- `node_dirty_bit`: whether the child node is dirty or has dirty children. -/
def nodeDirtyBit : Tree CachedItem → Bool
  | .nil => false
  | .node _ it _ => it.dirty.nonzero

/-- `compute_item_dirty` for an item with children `l` and `r`. -/
def computeItemDirty (it : CachedItem) (l r : Tree CachedItem) : DirtyBits :=
  ⟨it.dirty.item, nodeDirtyBit l, nodeDirtyBit r⟩

/-- What the `copy`, `rotate` and `propagate` callbacks store in a node. -/
def itemAug (l : Tree CachedItem) (it : CachedItem) (r : Tree CachedItem) : CachedItem :=
  { it with dirty := computeItemDirty it l r }

/-! ## Lookups -/

/-- The comparison of a searched key with an item, `scoutfs_key_compare(key, &item->key)`. -/
def itemCmp (key : Nat) (it : CachedItem) : Int := scoutfsKeyCompare key it.key

/-- The descent of `walk_items` for `key`: the path and the node reached. -/
def itemPath (t : Tree CachedItem) (key : Nat) : ItemPtr := descend (itemCmp key) id id [] t

theorem plug_of_itemPath {t : Tree CachedItem} {key : Nat} {p : List (Frame CachedItem)} {u : Tree CachedItem}
    (h : itemPath t key = (p, u)) : plug p u = t := by
  have := plug_descend_id (itemCmp key) [] t
  rwa [← itemPath, h] at this

/-- `walk_items`: the item with the key, if any, and the last items the
descent passed on its right (`*prev`) and on its left (`*next`). -/
def walkItems (t : Tree CachedItem) (key : Nat) :
    Option CachedItem × Option CachedItem × Option CachedItem :=
  ((itemPath t key).2.root, prevParent (itemPath t key).1, nextParent (itemPath t key).1)

/-- `find_item`: the pointer to the item with the key, hiding deletion items. -/
def findItem (t : Tree CachedItem) (key : Nat) : Option ItemPtr :=
  match itemPath t key with
  | (p, .node l it r) => if it.deletion then none else some (p, .node l it r)
  | (_, .nil) => none

/-- `next_item`: the item with the key, else the next one. -/
def nextItem (t : Tree CachedItem) (key : Nat) : Option CachedItem :=
  (walkItems t key).1 <|> (walkItems t key).2.2

/-- `prev_item`: the item with the key, else the previous one. -/
def prevItem (t : Tree CachedItem) (key : Nat) : Option CachedItem :=
  (walkItems t key).1 <|> (walkItems t key).2.1

/-- The items after the one with key `k` in a sequence, in order: what
repeated `rb_next` visits from that item. -/
def itemsAfter : List CachedItem → Nat → List CachedItem
  | [], _ => []
  | it :: rest, k => if it.key = k then rest else itemsAfter rest k

/-- `rb_next` of the item with key `k`: its in-order successor. -/
def rbNextItem (t : Tree CachedItem) (k : Nat) : Option CachedItem := (itemsAfter t.toList k).head?

/-- `rb_prev` of the item with key `k`: its in-order predecessor. -/
def rbPrevItem (t : Tree CachedItem) (k : Nat) : Option CachedItem :=
  (itemsAfter t.toList.reverse k).head?

/-! ## Dirty bookkeeping -/

/-- `update_dirty_item_counts` with the two `signed` deltas. -/
def updateDirtyItemCounts (s : ItemCache) (items vals : Int) : ItemCache :=
  { s with nrDirtyItems := s.nrDirtyItems + items, dirtyValBytes := s.dirtyValBytes + vals }

/-- `update_dirty_parents` for the item at the focus: propagate from its parent. -/
def updateDirtyParents (p : List (Frame CachedItem)) (t : Tree CachedItem) : List (Frame CachedItem) :=
  propagateFrames itemAug p t

/-- `mark_item_dirty`: set `ITEM_DIRTY`, take the item off the LRU, count
it, and update the bits of its ancestors. -/
def markItemDirty (s : ItemCache) : ItemPtr → ItemCache
  | (_, .nil) => s
  | (p, .node l it r) =>
    if itemIsDirty it then s
    else
      let t := Tree.node l { it with dirty := { it.dirty with item := true } } r
      let s := updateDirtyItemCounts
        { s with lruList := s.lruList.erase it.key, lruNr := s.lruNr - 1 } 1 (toS32 it.valLen)
      { s with items := plug (updateDirtyParents p t) t }

/-- `clear_item_dirty`: clear `ITEM_DIRTY`, put the item at the LRU tail,
uncount it, and update the bits of its ancestors. Returns the pointer to
the item in the updated tree. -/
def clearItemDirty (s : ItemCache) : ItemPtr → ItemCache × ItemPtr
  | (p, .nil) => (s, (p, .nil))
  | (p, .node l it r) =>
    if !itemIsDirty it then (s, (p, .node l it r))
    else
      let t := Tree.node l { it with dirty := { it.dirty with item := false } } r
      let s := updateDirtyItemCounts
        { s with lruList := s.lruList ++ [it.key], lruNr := s.lruNr + 1 } (-1)
        (toS32 (negU32 it.valLen))
      let p' := updateDirtyParents p t
      ({ s with items := plug p' t }, (p', t))

/-- `item_referenced`: an item whose whole dirty field is zero moves to the
LRU tail. -/
def itemReferenced (s : ItemCache) (it : CachedItem) : ItemCache :=
  if it.dirty = .zero then { s with lruList := s.lruList.erase it.key ++ [it.key] } else s

/-- `unlink_item`: clear the dirty state, erase the node with the augmented
callbacks, and take the item off the LRU. -/
def unlinkItem (s : ItemCache) (ptr : ItemPtr) : ItemCache :=
  match ptr.2 with
  | .nil => s
  | .node _ it _ =>
    let c := clearItemDirty s ptr
    let s' : ItemCache := { c.1 with items := rbEraseAugmented itemAug c.2.1 c.2.2 }
    if it.key ∈ s'.lruList then { s' with lruList := s'.lruList.erase it.key, lruNr := s'.lruNr - 1 }
    else s'

/-- `erase_item`: unlink and free. -/
def eraseItem (s : ItemCache) (ptr : ItemPtr) : ItemCache := unlinkItem s ptr

/-- Store new fields in the item at a pointer, as the code's plain field
writes do (the dirty bits are not touched). -/
def setItem (s : ItemCache) (ptr : ItemPtr) (f : CachedItem → CachedItem) : ItemCache × ItemPtr :=
  match ptr with
  | (p, .node l it r) =>
    ({ s with items := plug p (.node l (f it) r) }, (p, .node l (f it) r))
  | (p, .nil) => (s, (p, .nil))

/-- `delete_item`: a non-persistent item is erased; a persistent one
becomes a dirty deletion item without a value. -/
def deleteItem (s : ItemCache) (ptr : ItemPtr) : ItemCache :=
  match ptr.2 with
  | .nil => s
  | .node _ it _ =>
    if !it.persistent then eraseItem s ptr
    else
      let c := clearItemDirty s ptr
      let d := setItem c.1 c.2 fun it => { it with val := none, valLen := 0, deletion := true }
      markItemDirty d.1 d.2

/-! ## Insertion -/

/-- The bit `insert_item` ors into a node it passes on the way left. -/
def markLeftDirty (ins it : CachedItem) : CachedItem :=
  if ins.dirty.nonzero then { it with dirty := { it.dirty with left := true } } else it

/-- The bit `insert_item` ors into a node it passes on the way right. -/
def markRightDirty (ins it : CachedItem) : CachedItem :=
  if ins.dirty.nonzero then { it with dirty := { it.dirty with right := true } } else it

/-- The descent of `insert_item`, with its updates of the passed nodes. -/
def insertDescend (t : Tree CachedItem) (ins : CachedItem) : ItemPtr :=
  descend (itemCmp ins.key) (markLeftDirty ins) (markRightDirty ins) [] t

/-- The projection the dirty-bit callbacks never change. -/
theorem itemAug_key (l : Tree CachedItem) (it : CachedItem) (r : Tree CachedItem) :
    (itemAug l it r).key = it.key := rfl

theorem unlinkItem_items (s : ItemCache) (p : List (Frame CachedItem)) (l r : Tree CachedItem)
    (it : CachedItem) :
    (unlinkItem s (p, .node l it r)).items =
      rbEraseAugmented itemAug (clearItemDirty s (p, .node l it r)).2.1
        (clearItemDirty s (p, .node l it r)).2.2 := by
  simp only [unlinkItem]; split_ifs <;> rfl

/-- Unlinking an item removes exactly one node. -/
theorem unlinkItem_size (s : ItemCache) (p : List (Frame CachedItem)) (l r : Tree CachedItem)
    (it : CachedItem) :
    (unlinkItem s (p, .node l it r)).items.size + 1 = (plug p (.node l it r)).size := by
  rw [unlinkItem_items]
  simp only [clearItemDirty]
  split_ifs
  · exact size_rbEraseAugmented itemAug CachedItem.key itemAug_key p l it r
  · simp only
    rw [size_rbEraseAugmented itemAug CachedItem.key itemAug_key, updateDirtyParents,
      size_propagateFrames itemAug CachedItem.key itemAug_key]
    simp [size_plug]

/-- The insertion descent keeps the number of nodes. -/
theorem insertDescend_size (t : Tree CachedItem) (ins : CachedItem) :
    (plug (insertDescend t ins).1 (insertDescend t ins).2).size = t.size :=
  size_descend _ _ _ [] t

/-- `insert_item`: descend to the key; an existing item is kept (`-EEXIST`)
when populating or when it is a live item and the caller does not
overwrite, and is otherwise erased before the descent restarts. A new item
is linked clean at the LRU tail.

After the erase the code reads `item->persistent` from the item that
`erase_item` has just freed, and `ins` becomes persistent when that read
gives 1. What freed memory holds is not fixed by the code (it is zero with
`init_on_free`, a poison pattern under slab debugging, the old flag
otherwise), so the value read is the parameter `freed`, given for the key
of the freed item: no call reads the freed flag of two items at one key. -/
def insertItem (s : ItemCache) (ins : CachedItem) (logicalOverwrite cachePopulate : Bool)
    (freed : Nat → Bool) : ItemCache × Int :=
  match _h : insertDescend s.items ins with
  | (p, .node l item r) =>
    if cachePopulate || (!item.deletion && !logicalOverwrite) then
      ({ s with items := plug p (.node l item r) }, -EEXIST)
    else
      insertItem (eraseItem { s with items := plug p (.node l item r) } (p, .node l item r))
        (if freed item.key then { ins with persistent := true } else ins)
        logicalOverwrite cachePopulate freed
  | (p, .nil) =>
    if itemIsDirty ins then ({ s with items := plug p (.node .nil ins .nil), bug := true }, 0)
    else
      ({ s with
          items := plug p (.node .nil ins .nil)
          lruList := s.lruList ++ [ins.key]
          lruNr := s.lruNr + 1 }, 0)
termination_by s.items.size
decreasing_by
  have h1 := unlinkItem_size { s with items := plug p (.node l item r) } p l r item
  have h2 := insertDescend_size s.items ins
  rw [_h] at h2
  dsimp only at h2
  simp_wf
  simp only [eraseItem]
  omega

section InsertItem

variable {s : ItemCache} {ins : CachedItem} {logicalOverwrite cachePopulate : Bool}
  {freed : Nat → Bool} {p : List (Frame CachedItem)} {l r : Tree CachedItem} {item : CachedItem}

theorem insertItem_of_node (h : insertDescend s.items ins = (p, .node l item r)) :
    insertItem s ins logicalOverwrite cachePopulate freed =
      if cachePopulate || (!item.deletion && !logicalOverwrite) then
        ({ s with items := plug p (.node l item r) }, -EEXIST)
      else
        insertItem (eraseItem { s with items := plug p (.node l item r) } (p, .node l item r))
          (if freed item.key then { ins with persistent := true } else ins)
          logicalOverwrite cachePopulate freed := by
  rw [insertItem]; split <;> simp_all

theorem insertItem_of_nil (h : insertDescend s.items ins = (p, .nil)) :
    insertItem s ins logicalOverwrite cachePopulate freed =
      if itemIsDirty ins then ({ s with items := plug p (.node .nil ins .nil), bug := true }, 0)
      else
        ({ s with
            items := plug p (.node .nil ins .nil)
            lruList := s.lruList ++ [ins.key]
            lruNr := s.lruNr + 1 }, 0) := by
  rw [insertItem]; split <;> simp_all

/-- A populating insertion never erases, so the flag read from a freed item
does not matter. -/
theorem insertItem_freed_of_populate (f g : Nat → Bool) :
    insertItem s ins logicalOverwrite true f = insertItem s ins logicalOverwrite true g := by
  rcases h : insertDescend s.items ins with ⟨p, _ | ⟨l, item, r⟩⟩
  · rw [insertItem_of_nil h, insertItem_of_nil h]
  · simp [insertItem_of_node h]

/-- Nor does it for a persistent item: setting its flag again changes nothing. -/
theorem insertItem_freed_of_persistent (hp : ins.persistent = true) (f g : Nat → Bool) :
    insertItem s ins logicalOverwrite cachePopulate f = insertItem s ins logicalOverwrite cachePopulate g := by
  induction s, ins, logicalOverwrite, cachePopulate, f using insertItem.induct with
  | case1 s ins lo cp f p l item r h hc =>
    rw [insertItem_of_node h, insertItem_of_node h, if_pos hc, if_pos hc]
  | case2 s ins lo cp f p l item r h hc ih =>
    have hins : { ins with persistent := true } = ins := by cases ins; simp_all
    rw [insertItem_of_node h, insertItem_of_node h, if_neg hc, if_neg hc, hins, ite_self, ite_self]
    simpa [hins, hp] using ih
  | case3 s ins lo cp f p h | case4 s ins lo cp f p h =>
    rw [insertItem_of_nil h, insertItem_of_nil h]

end InsertItem

/-! ## The augmented walks -/

/-- `first_dirty`: go left while the left subtree has dirty items, stop at
a dirty node, else go right while the right subtree has dirty items. -/
def firstDirty (p : List (Frame CachedItem)) : Tree CachedItem → Option ItemPtr
  | .nil => none
  | .node l it r =>
    if it.dirty.left then firstDirty (.left it r :: p) l
    else if itemIsDirty it then some (p, .node l it r)
    else if it.dirty.right then firstDirty (.right l it :: p) r
    else none

/-- The parent walk of `next_dirty`: ascend while the node is a right
child; the parent it is a left child of, if any. -/
def nextGreaterParent : List (Frame CachedItem) → Tree CachedItem → Option ItemPtr
  | [], _ => none
  | .right l x :: p, t => nextGreaterParent p (.node l x t)
  | .left x r :: p, t => some (p, .node t x r)

theorem nextGreaterParent_length {p q : List (Frame CachedItem)} {t u : Tree CachedItem}
    (h : nextGreaterParent p t = some (q, u)) : q.length < p.length := by
  induction p generalizing t with
  | nil => simp [nextGreaterParent] at h
  | cons f p ih =>
    cases f with
    | right l x => have := ih h; simp; omega
    | left x r =>
      simp only [nextGreaterParent, Option.some.injEq, Prod.mk.injEq] at h
      rw [← h.1]; simp

/-- `next_dirty`: the first dirty item of the right subtree if it has one,
else the next greater ancestor if it is dirty, else continue from that
ancestor. -/
def nextDirty (p : List (Frame CachedItem)) : Tree CachedItem → Option ItemPtr
  | .nil => none
  | .node l it r =>
    if it.dirty.right then firstDirty (.right l it :: p) r
    else
      match _h : nextGreaterParent p (.node l it r) with
      | none => none
      | some (q, u) =>
        match u with
        | .node l' it' r' =>
          if itemIsDirty it' then some (q, .node l' it' r')
          else nextDirty q (.node l' it' r')
        | .nil => none
termination_by p.length
decreasing_by exact nextGreaterParent_length _h

end ScoutfsItemCache
