import ScoutfsItemCache.System

/-! # The cache as sequences

What the item cache stands for once the tree shapes are forgotten: the
items in key order without their subtree bits, the cached ranges in
order, the two dirty totals and the LRU. `ItemCache.abs` reads a cache
this way, and the operations of `AbsCache` are what each primitive of
`item.c` does to that reading: mark and clear dirty, store fields, unlink,
link and insert, reference. `Refine` proves that the tree functions
implement them.

The item sequence is kept sorted by key (`Sorted`); the list functions
`setAt`, `eraseAt` and `insertAt` are the updates of one key of such a
sequence.
-/

namespace ScoutfsItemCache

/-! ## Items without their subtree bits -/

/-- An item as the cache means it: everything but `LEFT_DIRTY` and
`RIGHT_DIRTY`, which describe the tree around it. -/
def CachedItem.data (it : CachedItem) : CachedItem := { it with dirty := ⟨it.dirty.item, false, false⟩ }

namespace CachedItem

variable (it : CachedItem)

@[simp] theorem data_key : it.data.key = it.key := rfl
@[simp] theorem data_val : it.data.val = it.val := rfl
@[simp] theorem data_valLen : it.data.valLen = it.valLen := rfl
@[simp] theorem data_deletion : it.data.deletion = it.deletion := rfl
@[simp] theorem data_persistent : it.data.persistent = it.persistent := rfl
@[simp] theorem data_data : it.data.data = it.data := rfl
@[simp] theorem itemIsDirty_data : itemIsDirty it.data = itemIsDirty it := rfl
@[simp] theorem value_data : it.data.value = it.value := rfl

end CachedItem

@[simp] theorem data_itemAug (l : Tree CachedItem) (it : CachedItem) (r : Tree CachedItem) :
    (itemAug l it r).data = it.data := rfl

@[simp] theorem data_markLeftDirty (ins it : CachedItem) : (markLeftDirty ins it).data = it.data := by
  unfold markLeftDirty; split <;> rfl

@[simp] theorem data_markRightDirty (ins it : CachedItem) : (markRightDirty ins it).data = it.data := by
  unfold markRightDirty; split <;> rfl

/-- The items of a tree in key order, without their subtree bits. -/
def itemsOf (t : Tree CachedItem) : List CachedItem := t.toList.map CachedItem.data

/-! ## Sorted item sequences -/

/-- Item keys strictly increase along the sequence. -/
def Sorted (L : List CachedItem) : Prop := L.Pairwise fun a b => a.key < b.key

/-- The item at key `k`, if any. -/
def getAt (k : Nat) (L : List CachedItem) : Option CachedItem := L.find? fun x => x.key = k

/-- Change the item at key `k`. -/
def setAt (k : Nat) (f : CachedItem → CachedItem) (L : List CachedItem) : List CachedItem :=
  L.map fun x => if x.key = k then f x else x

/-- Drop the item at key `k`. -/
def eraseAt (k : Nat) (L : List CachedItem) : List CachedItem := L.filter fun x => x.key ≠ k

/-- Put `x` in key order into a sequence without its key. -/
def insertAt (x : CachedItem) (L : List CachedItem) : List CachedItem :=
  L.filter (fun y => y.key < x.key) ++ x :: L.filter (fun y => x.key < y.key)

section Split

variable {A B : List CachedItem} {x : CachedItem}

theorem Sorted.split (h : Sorted (A ++ x :: B)) :
    (∀ y ∈ A, y.key < x.key) ∧ (∀ y ∈ B, x.key < y.key) := by
  simp only [Sorted, List.pairwise_append, List.pairwise_cons, List.mem_cons] at h
  exact ⟨fun y hy => h.2.2 y hy x (.inl rfl), h.2.1.1⟩

theorem Sorted.erase (h : Sorted (A ++ x :: B)) : Sorted (A ++ B) :=
  h.sublist ((List.Sublist.refl A).append (List.sublist_cons_self x B))

theorem Sorted.set (h : Sorted (A ++ x :: B)) {y : CachedItem} (hy : y.key = x.key) :
    Sorted (A ++ y :: B) := by
  simp only [Sorted, List.pairwise_append, List.pairwise_cons, List.mem_cons] at h ⊢
  refine ⟨h.1, ⟨fun z hz => hy ▸ h.2.1.1 z hz, h.2.1.2⟩, fun a ha b hb => ?_⟩
  rcases hb with rfl | hb
  · exact hy ▸ h.2.2 a ha _ (.inl rfl)
  · exact h.2.2 a ha b (.inr hb)

theorem Sorted.insert (h : Sorted (A ++ B)) (hA : ∀ y ∈ A, y.key < x.key)
    (hB : ∀ y ∈ B, x.key < y.key) : Sorted (A ++ x :: B) := by
  simp only [Sorted, List.pairwise_append, List.pairwise_cons, List.mem_cons] at h ⊢
  refine ⟨h.1, ⟨hB, h.2.1⟩, fun a ha b hb => ?_⟩
  rcases hb with rfl | hb
  · exact hA a ha
  · exact h.2.2 a ha b hb

theorem Sorted.setAt {L : List CachedItem} (h : Sorted L) {k : Nat} {f : CachedItem → CachedItem}
    (hf : ∀ y, (f y).key = y.key) : Sorted (setAt k f L) := by
  unfold Sorted ScoutfsItemCache.setAt
  rw [List.pairwise_map]
  exact h.imp fun {a b} hab => by split_ifs <;> simpa [hf] using hab

theorem Sorted.eraseAt {L : List CachedItem} (h : Sorted L) (k : Nat) : Sorted (eraseAt k L) :=
  h.sublist (List.filter_sublist L)

theorem Sorted.insertAt {L : List CachedItem} (h : Sorted L) (x : CachedItem) :
    Sorted (insertAt x L) := by
  unfold Sorted ScoutfsItemCache.insertAt
  rw [List.pairwise_append, List.pairwise_cons]
  refine ⟨h.sublist (List.filter_sublist _),
    ⟨fun y hy => by simpa using (List.mem_filter.1 hy).2, h.sublist (List.filter_sublist _)⟩,
    fun a ha b hb => ?_⟩
  have ha' : a.key < x.key := by simpa using (List.mem_filter.1 ha).2
  rcases List.mem_cons.1 hb with rfl | hb
  · exact ha'
  · have hb' : x.key < b.key := by simpa using (List.mem_filter.1 hb).2
    omega

/-- Around the item at `x.key`, the updates of one key act on `x` alone. -/
theorem setAt_split (hA : ∀ y ∈ A, y.key < x.key) (hB : ∀ y ∈ B, x.key < y.key)
    (f : CachedItem → CachedItem) : setAt x.key f (A ++ x :: B) = A ++ f x :: B := by
  have hA' : A.map (fun y => if y.key = x.key then f y else y) = A :=
    (List.map_congr_left fun y hy => if_neg (Nat.ne_of_lt (hA y hy))).trans (List.map_id A)
  have hB' : B.map (fun y => if y.key = x.key then f y else y) = B :=
    (List.map_congr_left fun y hy => if_neg (Nat.ne_of_gt (hB y hy))).trans (List.map_id B)
  simp [setAt, hA', hB']

theorem eraseAt_split (hA : ∀ y ∈ A, y.key < x.key) (hB : ∀ y ∈ B, x.key < y.key) :
    eraseAt x.key (A ++ x :: B) = A ++ B := by
  have hA' : A.filter (fun y => y.key ≠ x.key) = A :=
    List.filter_eq_self.2 fun y hy => by simpa using Nat.ne_of_lt (hA y hy)
  have hB' : B.filter (fun y => y.key ≠ x.key) = B :=
    List.filter_eq_self.2 fun y hy => by simpa using Nat.ne_of_gt (hB y hy)
  unfold eraseAt
  rw [List.filter_append, List.filter_cons_of_neg (by simp), hA', hB']

theorem getAt_split (hA : ∀ y ∈ A, y.key < x.key) :
    getAt x.key (A ++ x :: B) = some x := by
  have : A.find? (fun y => y.key = x.key) = none :=
    List.find?_eq_none.2 fun y hy => by simpa using Nat.ne_of_lt (hA y hy)
  simp [getAt, List.find?_append, this]

theorem getAt_gap {k : Nat} (hA : ∀ y ∈ A, y.key < k) (hB : ∀ y ∈ B, k < y.key) :
    getAt k (A ++ B) = none := by
  refine List.find?_eq_none.2 fun y hy => ?_
  rcases List.mem_append.1 hy with hy | hy
  · simpa using Nat.ne_of_lt (hA y hy)
  · simpa using Nat.ne_of_gt (hB y hy)

@[simp] theorem getAt_eraseAt (k : Nat) (L : List CachedItem) : getAt k (eraseAt k L) = none :=
  List.find?_eq_none.2 fun y hy => by simpa using (List.mem_filter.1 hy).2

theorem insertAt_gap (hA : ∀ y ∈ A, y.key < x.key) (hB : ∀ y ∈ B, x.key < y.key) :
    insertAt x (A ++ B) = A ++ x :: B := by
  have hA1 : A.filter (fun y => y.key < x.key) = A := List.filter_eq_self.2 fun y hy => by simpa using hA y hy
  have hB1 : B.filter (fun y => y.key < x.key) = [] :=
    List.filter_eq_nil_iff.2 fun y hy => by simpa using Nat.le_of_lt (hB y hy)
  have hA2 : A.filter (fun y => x.key < y.key) = [] :=
    List.filter_eq_nil_iff.2 fun y hy => by simpa using Nat.le_of_lt (hA y hy)
  have hB2 : B.filter (fun y => x.key < y.key) = B := List.filter_eq_self.2 fun y hy => by simpa using hB y hy
  simp [insertAt, List.filter_append, hA1, hB1, hA2, hB2]

end Split

/-! ## The abstract cache -/

/-- The reading of a cache as sequences. -/
structure AbsCache where
  items : List CachedItem
  ranges : List CachedRange
  nrDirtyItems : Int
  dirtyValBytes : Int
  lruList : List Nat
  lruNr : Nat
  bug : Bool
deriving DecidableEq, Repr

/-- The abstraction function. -/
def ItemCache.abs (s : ItemCache) : AbsCache :=
  ⟨itemsOf s.items, s.ranges.toList, s.nrDirtyItems, s.dirtyValBytes, s.lruList, s.lruNr, s.bug⟩

namespace AbsCache

/-- `update_dirty_item_counts`. -/
def counts (a : AbsCache) (items vals : Int) : AbsCache :=
  { a with nrDirtyItems := a.nrDirtyItems + items, dirtyValBytes := a.dirtyValBytes + vals }

/-- `mark_item_dirty` of the item `it`. -/
def markDirty (a : AbsCache) (it : CachedItem) : AbsCache :=
  if itemIsDirty it then a
  else
    { a.counts 1 (toS32 it.valLen) with
      items := setAt it.key (fun x => { x with dirty := { x.dirty with item := true } }) a.items
      lruList := a.lruList.erase it.key
      lruNr := a.lruNr - 1 }

/-- `clear_item_dirty` of the item `it`. -/
def clearDirty (a : AbsCache) (it : CachedItem) : AbsCache :=
  if !itemIsDirty it then a
  else
    { a.counts (-1) (toS32 (negU32 it.valLen)) with
      items := setAt it.key (fun x => { x with dirty := { x.dirty with item := false } }) a.items
      lruList := a.lruList ++ [it.key]
      lruNr := a.lruNr + 1 }

/-- Plain field writes to the item at key `k`. -/
def set (a : AbsCache) (k : Nat) (f : CachedItem → CachedItem) : AbsCache :=
  { a with items := setAt k f a.items }

/-- `unlink_item` of the item `it`. -/
def unlink (a : AbsCache) (it : CachedItem) : AbsCache :=
  let a := a.clearDirty it
  let a := { a with items := eraseAt it.key a.items }
  if it.key ∈ a.lruList then { a with lruList := a.lruList.erase it.key, lruNr := a.lruNr - 1 } else a

/-- Linking a new item at the end of `insert_item`. -/
def link (a : AbsCache) (ins : CachedItem) : AbsCache :=
  if itemIsDirty ins then { a with items := insertAt ins.data a.items, bug := true }
  else { a with items := insertAt ins.data a.items, lruList := a.lruList ++ [ins.key], lruNr := a.lruNr + 1 }

/-- `insert_item`: what it does with an item already at the key, then the
link; `freed` is what the erased item's flag reads as. -/
def insert (a : AbsCache) (ins : CachedItem) (logicalOverwrite cachePopulate : Bool)
    (freed : Nat → Bool) : AbsCache × Int :=
  match getAt ins.key a.items with
  | some item =>
    if cachePopulate || (!item.deletion && !logicalOverwrite) then (a, -EEXIST)
    else ((a.unlink item).link (if freed item.key then { ins with persistent := true } else ins), 0)
  | none => (a.link ins, 0)

/-- `item_referenced`: an item whose whole `dirty` field is zero (its
subtree bits included) moves to the LRU tail. -/
def referenced (a : AbsCache) (it : CachedItem) : AbsCache :=
  if it.dirty = .zero then { a with lruList := a.lruList.erase it.key ++ [it.key] } else a

theorem unlink_items (a : AbsCache) (x : CachedItem) :
    (a.unlink x).items = eraseAt x.key (a.clearDirty x).items := by
  unfold unlink; dsimp only; split_ifs <;> rfl

/-! ### The item sequence stays sorted -/

section Sorted

variable {a : AbsCache} (h : Sorted a.items)
include h

theorem sorted_markDirty (x : CachedItem) : Sorted (a.markDirty x).items := by
  unfold markDirty; split_ifs
  · exact h
  · exact h.setAt fun _ => rfl

theorem sorted_clearDirty (x : CachedItem) : Sorted (a.clearDirty x).items := by
  unfold clearDirty; split_ifs
  · exact h
  · exact h.setAt fun _ => rfl

theorem sorted_set (k : Nat) {f : CachedItem → CachedItem} (hf : ∀ y, (f y).key = y.key) :
    Sorted (a.set k f).items := h.setAt hf

theorem sorted_unlink (x : CachedItem) : Sorted (a.unlink x).items := by
  have h' := (sorted_clearDirty h x).eraseAt x.key
  unfold unlink; dsimp only; split_ifs <;> exact h'

theorem sorted_link (x : CachedItem) : Sorted (a.link x).items := by
  unfold link; split_ifs <;> exact h.insertAt _

theorem sorted_insert (x : CachedItem) (lo cp : Bool) (f : Nat → Bool) :
    Sorted (a.insert x lo cp f).1.items := by
  unfold insert
  split
  · split_ifs
    · exact h
    all_goals exact sorted_link (sorted_unlink h _) _
  · exact sorted_link h _

end Sorted

end AbsCache

end ScoutfsItemCache
