import ScoutfsItemCache.Bits
import ScoutfsItemCache.Reads

/-! # With consistent bits the flush and the range queries are right

`scoutfs_item_dirty_seg` walks the dirty items with `first_dirty` and
`next_dirty`, and `dirty_item_within` looks for one in a range the same
way. Over a sorted tree with consistent subtree bits each pass of the
flush loop is at the dirty item with the least key: the pointer to the
next dirty item, found again by its key after the pass cleans or erases
the item, is at the least dirty item that is left (`dirtySegLoop_flush`).
The loop therefore appends every dirty item once, in key order, and leaves
each one flushed (`scoutfsItemDirtySeg_flush`), and `dirty_item_within`
answers whether a dirty item lies in the range (`dirtyItemWithin_iff`).

With `Bits` these hold in every world whose restores were handed items
without subtree bits (`leaf_restore_dirty_seg_flushes`,
`leaf_restore_range_cached_dirty`): the failures `Augment` shows come
from restore alone. There a flush right after a flush appends nothing
and changes nothing (`leaf_restore_flush_twice`).
-/

namespace ScoutfsItemCache

/-! ## The dirty items of a sorted sequence -/

section Lists

variable {L L' : List CachedItem} {y : CachedItem} {k : Nat}

theorem Sorted.filter (h : Sorted L) (P : CachedItem → Bool) : Sorted (L.filter P) :=
  List.Pairwise.sublist (List.filter_sublist L) h

theorem getAt_eq_none_of_lt (h : ∀ z ∈ L, k < z.key) : getAt k L = none :=
  List.find?_eq_none.2 fun z hz => by simpa using (Nat.ne_of_lt (h z hz)).symm

/-- In a sorted sequence, what a filter keeps at a key is what the key holds,
if it passes. -/
theorem Sorted.getAt_filter (h : Sorted L) (P : CachedItem → Bool) (k : Nat) :
    getAt k (L.filter P) = (getAt k L).filter P := by
  induction L with
  | nil => rfl
  | cons x L ih =>
    obtain ⟨hx, hL⟩ := List.pairwise_cons.1 h
    by_cases hk : x.key = k
    · subst hk
      have hnone : getAt x.key (L.filter P) = none :=
        getAt_eq_none_of_lt fun z hz => hx z (List.mem_of_mem_filter hz)
      cases hP : P x <;> simp [List.filter_cons, hP, getAt_cons, hnone, Option.filter]
    · rw [List.filter_cons, getAt_cons, if_neg hk]
      split <;> simp only [getAt_cons, if_neg hk, ih hL]

/-- Replacing the first dirty item of a sorted sequence by a clean item, or
removing it, takes it off the dirty items and leaves the others. -/
theorem Sorted.dirtyItems_flush (hL : Sorted L) (hL' : Sorted L') (hy : (dirtyItems L).head? = some y)
    {o : Option CachedItem} (ho : ∀ z ∈ o, itemIsDirty z = false)
    (h : ∀ k, getAt k L' = if k = y.key then o else getAt k L) : dirtyItems L = y :: dirtyItems L' := by
  obtain ⟨rest, hrest⟩ : ∃ rest, dirtyItems L = y :: rest := by
    rcases hd : dirtyItems L with _ | ⟨a, rest⟩
    · rw [hd] at hy; cases hy
    · rw [hd] at hy; cases hy; exact ⟨rest, rfl⟩
  have hs : Sorted (y :: rest) := by rw [← hrest]; exact hL.filter itemIsDirty
  rw [hrest]
  refine congrArg _ (Sorted.ext_getAt (List.pairwise_cons.1 hs).2 (hL'.filter itemIsDirty) fun k => ?_)
  rw [show dirtyItems L' = L'.filter itemIsDirty from rfl, hL'.getAt_filter, h]
  by_cases hk : k = y.key
  · rw [if_pos hk, hk, getAt_eq_none_of_lt (List.pairwise_cons.1 hs).1]
    cases o with
    | none => rfl
    | some z => simp [Option.filter, ho z rfl]
  · rw [if_neg hk, ← hL.getAt_filter]
    calc getAt k rest = getAt k (y :: rest) := by rw [getAt_cons, if_neg (Ne.symm hk)]
      _ = getAt k (L.filter itemIsDirty) := by rw [← hrest]; rfl

/-- When the dirty items of a sorted sequence all lie above a clean item
of it, they are the dirty items after that item. -/
theorem Sorted.dirtyItems_after {A B : List CachedItem} {x : CachedItem} (h : Sorted (A ++ x :: B))
    (hx : itemIsDirty x = false) (hgt : ∀ z ∈ dirtyItems (A ++ x :: B), x.key < z.key) :
    dirtyItems (A ++ x :: B) = dirtyItems B := by
  have hA : dirtyItems A = [] := List.eq_nil_iff_forall_not_mem.2 fun z hz => by
    have h1 := h.split.1 z (List.mem_of_mem_filter hz)
    have h2 := hgt z (by simp only [dirtyItems, List.filter_append] at hz ⊢; exact List.mem_append_left _ hz)
    omega
  simp only [dirtyItems, List.filter_append, List.filter_cons, hx] at hA ⊢
  simp [hA]

/-- The first dirty item of a list, read as an item, is the first dirty
item of the list's reading. -/
theorem find?_dirty_data (L : List CachedItem) :
    (L.find? itemIsDirty).map CachedItem.data = (dirtyItems (L.map CachedItem.data)).head? := by
  induction L with
  | nil => rfl
  | cons x L ih => cases hx : itemIsDirty x <;> simp [List.find?_cons, hx, ih]

end Lists

/-! ## Where the walks point -/

section Pointers

variable {t : Tree CachedItem}

theorem firstDirty_head (hb : dirtyBitsOk t = true) :
    ((firstDirty [] t).bind fun q => q.2.root).map CachedItem.data = (dirtyItems (itemsOf t)).head? := by
  rw [firstDirty_find hb, find?_dirty_data]; rfl

theorem nextDirty_head {p : List (Frame CachedItem)} {l r : Tree CachedItem} {x : CachedItem}
    (hb : dirtyBitsOk (plug p (.node l x r)) = true) :
    ((nextDirty p (.node l x r)).bind fun q => q.2.root).map CachedItem.data = (dirtyItems (after r p)).head? := by
  rw [nextDirty_find p l x r hb, find?_dirty_data]; rfl

/-- The node `walk_items` reaches for a key holds what the key reads. -/
theorem itemPath_root_data (hs : ItemsSorted t) (k : Nat) :
    (itemPath t k).2.root.map CachedItem.data = getAt k (itemsOf t) := by
  rcases h : itemPath t k with ⟨p, _ | ⟨l, x, r⟩⟩
  · exact (itemPath_nil hs h).symm
  · obtain ⟨hplug, rfl⟩ := itemPath_node h
    exact (hs.getAt hplug).symm

/-- A walk's result found again by its key in a tree whose first dirty
item it reads as is at that item. -/
theorem refind_head (hs : ItemsSorted t) {next : Option ItemPtr}
    (h : (next.bind fun q => q.2.root).map CachedItem.data = (dirtyItems (itemsOf t)).head?) :
    (((next.bind ItemPtr.key?).map (itemPath t)).bind fun q => q.2.root).map CachedItem.data =
      (dirtyItems (itemsOf t)).head? := by
  rcases next with _ | ⟨q, _ | ⟨l, y, r⟩⟩
  · exact h
  · exact h
  · have hmem : y.data ∈ itemsOf t := List.mem_of_mem_filter (List.mem_of_mem_head? h.symm)
    show (itemPath t y.key).2.root.map CachedItem.data = _
    rw [itemPath_root_data hs, ← h]
    exact Sorted.getAt_of_mem hs hmem

end Pointers

/-! ## The flush loop -/

/-- The entry `scoutfs_seg_append_item` is given for an item. -/
def SegItem.ofItem (y : CachedItem) : SegItem := ⟨y.key, y.value, y.deletion⟩

/-- What `scoutfs_item_dirty_seg` leaves for an item: a dirty item is
flushed, any other stays. -/
def flushedAt (y : CachedItem) : Option CachedItem := if itemIsDirty y then flushAt y else some y

theorem flushAt_clean (y : CachedItem) : ∀ z ∈ flushAt y, itemIsDirty z = false := by
  unfold flushAt; split <;> simp [CachedItem.withDirty, itemIsDirty]

theorem flushedAt_clean (y : CachedItem) : ∀ z ∈ flushedAt y, itemIsDirty z = false := by
  unfold flushedAt
  split
  · exact flushAt_clean y
  · rename_i hd
    rintro z ⟨⟩
    simpa using hd

theorem bind_flushAt (y : CachedItem) : (flushAt y).bind flushedAt = flushAt y := by
  cases h : flushAt y with
  | none => rfl
  | some z => simp [flushedAt, flushAt_clean y z h]

/-- With no dirty item the flush leaves everything as it is. -/
theorem flush_done {L : List CachedItem} (h : dirtyItems L = []) (seg : List SegItem) :
    seg = seg ++ (dirtyItems L).map SegItem.ofItem ∧ ∀ k, getAt k L = (getAt k L).bind flushedAt := by
  refine ⟨by simp [h], fun k => ?_⟩
  cases hk : getAt k L with
  | none => rfl
  | some z =>
    have : itemIsDirty z = false := by
      by_contra hd
      have : z ∈ dirtyItems L := List.mem_filter.2 ⟨getAt_mem hk, by simpa using hd⟩
      simp [h] at this
    simp [flushedAt, this]

/-- The flush loop from a pointer at the first dirty item, over a sorted
tree with consistent bits and fuel for every dirty item, appends the dirty
items in order and flushes each. -/
theorem dirtySegLoop_flush (fuel : Nat) :
    ∀ {s : ItemCache} {ptr : Option ItemPtr} (seg : List SegItem), ItemsSorted s.items → s.BitsOk →
      (∀ q u, ptr = some (q, u) → plug q u = s.items) →
      (ptr.bind fun q => q.2.root).map CachedItem.data = (dirtyItems (itemsOf s.items)).head? →
      (dirtyItems (itemsOf s.items)).length ≤ fuel →
      (dirtySegLoop fuel s ptr seg).2 = seg ++ (dirtyItems (itemsOf s.items)).map SegItem.ofItem ∧
        ∀ k, getAt k (itemsOf (dirtySegLoop fuel s ptr seg).1.items) =
          (getAt k (itemsOf s.items)).bind flushedAt := by
  induction fuel with
  | zero =>
    intro s ptr seg _ _ _ _ hlen
    exact flush_done (List.length_eq_zero.1 (Nat.le_zero.1 hlen)) seg
  | succ n ih =>
    intro s ptr seg hs hb hptr hhead hlen
    rcases ptr with _ | ⟨p, _ | ⟨l, it, r⟩⟩
    · exact flush_done (List.head?_eq_none_iff.1 hhead.symm) seg
    · exact flush_done (List.head?_eq_none_iff.1 hhead.symm) seg
    have hplug := hptr _ _ rfl
    have hp : PointsTo s.items (p, .node l it r) it := ⟨l, r, rfl, hplug⟩
    have hhd : (dirtyItems (itemsOf s.items)).head? = some it.data := hhead.symm
    have hdirty : itemIsDirty it = true := by
      simpa using (List.mem_filter.1 (List.mem_of_mem_head? hhd)).2
    simp only [ScoutfsItemCache.dirtySegLoop]
    -- the pass cleans the item and makes it persistent
    generalize hc : clearItemDirty s (p, .node l it r) = c
    generalize hd : setItem c.1 c.2 (fun it => { it with persistent := true }) = d
    have hpc : PointsTo c.1.items c.2 (it.withDirty false) := hc ▸ clearItemDirty_pointsTo hp
    have hsc : ItemsSorted c.1.items := hc ▸ clearItemDirty_sorted hp hs
    have hpd := hd ▸ setItem_pointsTo hpc fun it => { it with persistent := true }
    have hsd : ItemsSorted d.1.items :=
      hd ▸ setItem_sorted hsc hpc (f := fun it => { it with persistent := true }) (fun _ => rfl) (fun _ => rfl)
    have hbd : d.1.BitsOk := hd ▸ (hc ▸ hb.clearItemDirty hp).setItem hpc fun _ => rfl
    have hgd : ∀ k, getAt k (itemsOf d.1.items) =
        if k = it.key then some { it.data.withDirty false with persistent := true }
        else getAt k (itemsOf s.items) := by
      intro k
      rw [← hd, getAt_setItem hsc hpc (f := fun it => { it with persistent := true }) (fun _ => rfl) (fun _ => rfl),
        ← hc, getAt_clearItemDirty hs hp]
      by_cases hk : k = it.key
      · simp only [hk, CachedItem.key_withDirty, if_true]; rfl
      · simp only [hk, CachedItem.key_withDirty, if_false]
    -- and erases a deletion item
    generalize hs2 : (if it.deletion = true then eraseItem d.1 d.2 else d.1) = s2
    have h2 : ItemsSorted s2.items ∧ s2.BitsOk ∧
        ∀ k, getAt k (itemsOf s2.items) = if k = it.key then flushAt it.data else getAt k (itemsOf s.items) := by
      rw [← hs2]
      by_cases hdel : it.deletion = true
      · rw [if_pos hdel]
        refine ⟨unlinkItem_sorted hsd hpd, hbd.unlinkItem hpd, fun k => ?_⟩
        rw [eraseItem, getAt_unlinkItem hsd hpd, hgd]
        by_cases hk : k = it.key
        · simp [hk, flushAt, hdel]
        · simp [hk]
      · rw [if_neg hdel]
        refine ⟨hsd, hbd, fun k => ?_⟩
        rw [hgd, flushAt, CachedItem.data_deletion, if_neg hdel]
    obtain ⟨hs2', hb2, hg2⟩ := h2
    -- the dirty items left are those after the item
    have hD2 := hs.dirtyItems_flush hs2' hhd (flushAt_clean _) hg2
    have hDd := hs.dirtyItems_flush hsd hhd (o := some { it.data.withDirty false with persistent := true })
      (by rintro z ⟨⟩; rfl) hgd
    obtain ⟨l', r', hd2, hplugd⟩ := hpd
    have hafter : dirtyItems (after r' d.2.1) = dirtyItems (itemsOf s2.items) := by
      have hsort : Sorted (it.data :: dirtyItems (itemsOf d.1.items)) := by
        rw [← hDd]; exact hs.filter itemIsDirty
      have hsd' : Sorted (itemsOf d.1.items) := hsd
      rw [← List.cons_injective (hDd.symm.trans hD2)]
      rw [← hplugd, itemsOf_plug_node] at hsort hsd' ⊢
      exact (hsd'.dirtyItems_after rfl (List.pairwise_cons.1 hsort).1).symm
    have hbd' : dirtyBitsOk (plug d.2.1 (.node l' { it.withDirty false with persistent := true } r')) = true := by
      rw [hplugd]; exact hbd
    rw [hd2]
    obtain ⟨ih1, ih2⟩ := ih (seg ++ [⟨it.key, it.value, it.deletion⟩]) hs2' hb2
      (fun q u h => by obtain ⟨k, -, hk⟩ := Option.map_eq_some'.1 h; exact plug_of_itemPath hk)
      (refind_head hs2' ((nextDirty_head hbd').trans (congrArg _ hafter)))
      (by rw [hD2] at hlen; simpa using hlen)
    refine ⟨by rw [ih1, hD2]; simp [SegItem.ofItem], fun k => ?_⟩
    rw [ih2, hg2]
    by_cases hk : k = it.key
    · rw [if_pos hk, hk, hs.getAt hplug, bind_flushAt]
      simp [flushedAt, hdirty]
    · rw [if_neg hk]

/-- `scoutfs_item_dirty_seg` over a sorted tree with consistent bits
appends the dirty items in key order and flushes each. -/
theorem scoutfsItemDirtySeg_flush {s : ItemCache} (hs : ItemsSorted s.items) (hb : s.BitsOk) :
    (scoutfsItemDirtySeg s).2 = (dirtyItems (itemsOf s.items)).map SegItem.ofItem ∧
      ∀ k, getAt k (itemsOf (scoutfsItemDirtySeg s).1.items) = (getAt k (itemsOf s.items)).bind flushedAt := by
  have hlen : (dirtyItems (itemsOf s.items)).length ≤ s.items.size :=
    (List.length_filter_le _ _).trans (by simp [itemsOf])
  simpa using @dirtySegLoop_flush s.items.size s (firstDirty [] s.items) [] hs hb
    (fun _ _ h => firstDirty_plug h) (firstDirty_head hb) hlen

/-- Where every key holds what the flush leaves, no item is dirty. -/
theorem dirtyItems_flushed {s s' : ItemCache} (hs' : ItemsSorted s'.items)
    (h : ∀ k, getAt k (itemsOf s'.items) = (getAt k (itemsOf s.items)).bind flushedAt) :
    dirtyItems (itemsOf s'.items) = [] := by
  refine List.eq_nil_iff_forall_not_mem.2 fun z hz => ?_
  obtain ⟨hmem, hd⟩ := List.mem_filter.1 hz
  have hz' := Sorted.getAt_of_mem hs' hmem
  rw [h] at hz'
  obtain ⟨y, -, hy⟩ := Option.bind_eq_some.1 hz'
  simp [flushedAt_clean y z hy] at hd

theorem map_ofItem_dirtyItems (t : Tree CachedItem) :
    (dirtyItems (itemsOf t)).map SegItem.ofItem = (t.toList.filter itemIsDirty).map SegItem.ofItem := by
  simp only [dirtyItems, itemsOf, List.filter_map, List.map_map]
  rfl

/-- In every world reached by a run whose restores are handed items without
subtree bits, `scoutfs_item_dirty_seg` appends every dirty item once, in
key order, with its value and its deletion flag, and nothing else; it
erases each deletion item, leaves every other dirty item clean and
persistent and every clean item as it was, and ends with no dirty item
counted. -/
theorem leaf_restore_dirty_seg_flushes {M : Nat} {w : World} (h : LeafRestoreReachable M w) (hM : M < 2 ^ 31) :
    (scoutfsItemDirtySeg w.cache).2 = (w.cache.items.toList.filter itemIsDirty).map SegItem.ofItem ∧
      (∀ k, getAt k (itemsOf (scoutfsItemDirtySeg w.cache).1.items) =
        (getAt k (itemsOf w.cache.items)).bind flushedAt) ∧
      (scoutfsItemDirtySeg w.cache).1.nrDirtyItems = 0 ∧ (scoutfsItemDirtySeg w.cache).1.dirtyValBytes = 0 := by
  have hI := h.reachable.inv.cache
  obtain ⟨h1, h2⟩ := scoutfsItemDirtySeg_flush hI.sorted h.bitsOk
  have hI' := hI.scoutfsItemDirtySeg
  have hnone := dirtyItems_flushed hI'.sorted h2
  obtain ⟨hn, hv⟩ := hI'.counts hM
  change (scoutfsItemDirtySeg w.cache).1.nrDirtyItems =
    ((dirtyItems (itemsOf (scoutfsItemDirtySeg w.cache).1.items)).length : Int) at hn
  change (scoutfsItemDirtySeg w.cache).1.dirtyValBytes = (dirtyBytes (itemsOf _) : Int) at hv
  refine ⟨h1.trans (map_ofItem_dirtyItems _), h2, ?_, ?_⟩
  · rw [hn, hnone]; rfl
  · rw [hv, dirtyBytes, hnone]; rfl

theorem dirty_seg_flushes_leaf_restore_run :
    (0 : Nat) < 2 ^ 31 ∧
      (scoutfsItemDirtySeg (execAll setupWorld leafRestoreRun).cache).2 =
        ((execAll setupWorld leafRestoreRun).cache.items.toList.filter itemIsDirty).map SegItem.ofItem ∧
      (∀ k, getAt k (itemsOf (scoutfsItemDirtySeg (execAll setupWorld leafRestoreRun).cache).1.items) =
        (getAt k (itemsOf (execAll setupWorld leafRestoreRun).cache.items)).bind flushedAt) ∧
      (scoutfsItemDirtySeg (execAll setupWorld leafRestoreRun).cache).1.nrDirtyItems = 0 ∧
      (scoutfsItemDirtySeg (execAll setupWorld leafRestoreRun).cache).1.dirtyValBytes = 0 :=
  ⟨by decide, leaf_restore_dirty_seg_flushes leafRestoreRun_reachable (by decide)⟩

/-- With no dirty item left the flush appends nothing and leaves the cache. -/
theorem scoutfsItemDirtySeg_of_clean {s : ItemCache} (hb : s.BitsOk) (hd : dirtyItems (itemsOf s.items) = []) :
    scoutfsItemDirtySeg s = (s, []) := by
  have h := firstDirty_head hb
  rw [hd] at h
  unfold scoutfsItemDirtySeg
  generalize s.items.size = n
  rcases hf : firstDirty [] s.items with _ | ⟨p, _ | ⟨l, it, r⟩⟩
  · cases n <;> rfl
  · cases n <;> rfl
  · rw [hf] at h
    cases h

/-- In every world whose restores were handed items without subtree bits,
a second `scoutfs_item_dirty_seg` right after the first appends nothing
and leaves the cache as the first left it. -/
theorem leaf_restore_flush_twice {M : Nat} {w : World} (h : LeafRestoreReachable M w) :
    scoutfsItemDirtySeg (scoutfsItemDirtySeg w.cache).1 = ((scoutfsItemDirtySeg w.cache).1, []) := by
  have hI := h.reachable.inv.cache
  exact scoutfsItemDirtySeg_of_clean h.bitsOk.scoutfsItemDirtySeg
    (dirtyItems_flushed hI.scoutfsItemDirtySeg.sorted (scoutfsItemDirtySeg_flush hI.sorted h.bitsOk).2)

theorem flush_twice_leaf_restore_run :
    LeafRestoreReachable 0 (execAll setupWorld leafRestoreRun) ∧
      scoutfsItemDirtySeg (scoutfsItemDirtySeg (execAll setupWorld leafRestoreRun).cache).1 =
        ((scoutfsItemDirtySeg (execAll setupWorld leafRestoreRun).cache).1, []) :=
  ⟨leafRestoreRun_reachable, leaf_restore_flush_twice leafRestoreRun_reachable⟩

/-! ## Dirty items in a range -/

section Within

variable {t : Tree CachedItem}

/-- What `dirty_item_within` answers: whether the first dirty item at or
after `from` lies at or before `end`. -/
theorem dirtyItemWithin_eq (hs : ItemsSorted t) (hb : dirtyBitsOk t = true) («from» «end» : Nat) :
    dirtyItemWithin t «from» «end» =
      ((t.toList.filter fun x => «from» ≤ x.key).find? itemIsDirty).elim false fun it => decide (it.key ≤ «end») := by
  have hf := filter_nextItem hs «from»
  unfold dirtyItemWithin
  rcases hn : nextItem t «from» with _ | a
  · rw [hn] at hf; rw [hf]; rfl
  rw [hn] at hf
  rw [hf]
  dsimp only
  by_cases ha : itemIsDirty a = true
  · rw [if_pos ha, List.find?_cons_of_pos _ ha]; simp
  rw [if_neg ha, List.find?_cons_of_neg _ ha]
  have hmem := nextItem_mem hn
  rcases hp : itemPath t a.key with ⟨p, _ | ⟨l, x, r⟩⟩
  · have := itemPath_nil hs hp
    rw [hs.getAt_of_mem hmem] at this
    cases this
  obtain ⟨hplug, hk⟩ := itemPath_node hp
  have hx : x ∈ t.toList := by rw [← hplug, toList_plug]; simp
  obtain rfl := hs.key_inj hx hmem hk
  rw [nextDirty_find p l x r (hplug ▸ hb), ← hplug, toList_plug_node,
    itemsAfter_split fun w hw => Nat.ne_of_lt ((hs.split hplug).1 w.data (List.mem_map_of_mem _ hw))]
  cases (r.toList ++ rights p).find? itemIsDirty <;> simp

/-- With consistent bits, `dirty_item_within` finds a dirty item in
`[from, end]` exactly when there is one. -/
theorem dirtyItemWithin_iff (hs : ItemsSorted t) (hb : dirtyBitsOk t = true) («from» «end» : Nat) :
    dirtyItemWithin t «from» «end» = true ↔
      ∃ z ∈ t.toList, itemIsDirty z = true ∧ «from» ≤ z.key ∧ z.key ≤ «end» := by
  have hsorted : (t.toList.filter fun x => «from» ≤ x.key).Pairwise fun a b => a.key < b.key :=
    hs.toList.sublist (List.filter_sublist _)
  rw [dirtyItemWithin_eq hs hb]
  rcases hf : (t.toList.filter fun x => «from» ≤ x.key).find? itemIsDirty with _ | y <;> rw [hf]
  · show false = true ↔ _
    simp only [Bool.false_eq_true, false_iff, not_exists, not_and]
    intro z hz hd hfz _
    exact List.find?_eq_none.1 hf z (List.mem_filter.2 ⟨hz, by simpa using hfz⟩) hd
  · obtain ⟨hy, hdy, hmin⟩ := (find?_eq_some_iff_least hsorted _ y).1 hf
    obtain ⟨hyt, hfy⟩ := List.mem_filter.1 hy
    show decide (y.key ≤ «end») = true ↔ _
    rw [decide_eq_true_iff]
    constructor
    · intro hle
      exact ⟨y, hyt, hdy, by simpa using hfy, hle⟩
    · rintro ⟨z, hz, hdz, hfz, hze⟩
      exact (hmin z (List.mem_filter.2 ⟨hz, by simpa using hfz⟩) hdz).trans hze

end Within

/-- In every world reached by a run whose restores are handed items without
subtree bits, `scoutfs_item_range_cached` with `dirty` answers whether a
dirty item lies in `[start, end]`, and `scoutfs_item_writeback` syncs the
transaction, returning its result or the number of dirty items as an
`int`, exactly when one does, and returns 0 otherwise. -/
theorem leaf_restore_range_cached_dirty {M : Nat} {w : World} (h : LeafRestoreReachable M w) (hM : M < 2 ^ 31)
    (start «end» : Nat) (syncRet : Int) :
    (scoutfsItemRangeCached w.cache start «end» true = true ↔
      ∃ z ∈ w.cache.items.toList, itemIsDirty z = true ∧ start ≤ z.key ∧ z.key ≤ «end») ∧
    scoutfsItemWriteback w.cache start «end» syncRet =
      if ∃ z ∈ w.cache.items.toList, itemIsDirty z = true ∧ start ≤ z.key ∧ z.key ≤ «end» then
        (if syncRet ≠ 0 then syncRet else longToInt w.cache.nrDirtyItems)
      else 0 := by
  have hI := h.reachable.inv.cache
  have hw := dirtyItemWithin_iff hI.sorted h.bitsOk start «end»
  refine ⟨by rw [scoutfsItemRangeCached, if_pos rfl]; exact hw, ?_⟩
  unfold scoutfsItemWriteback
  by_cases hz : ∃ z ∈ w.cache.items.toList, itemIsDirty z = true ∧ start ≤ z.key ∧ z.key ≤ «end»
  · have hnr : w.cache.nrDirtyItems ≠ 0 := by
      obtain ⟨z, hzt, hdz, -⟩ := hz
      have hcount : w.cache.nrDirtyItems = ((dirtyItems (itemsOf w.cache.items)).length : Int) := (hI.counts hM).1
      rw [hcount]
      have : z.data ∈ dirtyItems (itemsOf w.cache.items) := List.mem_filter.2 ⟨List.mem_map_of_mem _ hzt, hdz⟩
      have := List.length_pos_of_mem this
      omega
    rw [if_pos hz, if_pos (by simpa [hnr] using hw.2 hz)]
  · have hno : dirtyItemWithin w.cache.items start «end» = false := by
      rw [← Bool.not_eq_true, hw]; exact hz
    rw [if_neg hz, if_neg (by simp [hno])]

theorem range_cached_dirty_leaf_restore_run :
    (0 : Nat) < 2 ^ 31 ∧
      (scoutfsItemRangeCached (execAll setupWorld leafRestoreRun).cache 0 10 true = true ↔
        ∃ z ∈ (execAll setupWorld leafRestoreRun).cache.items.toList,
          itemIsDirty z = true ∧ 0 ≤ z.key ∧ z.key ≤ 10) ∧
      scoutfsItemWriteback (execAll setupWorld leafRestoreRun).cache 0 10 0 =
        if ∃ z ∈ (execAll setupWorld leafRestoreRun).cache.items.toList,
            itemIsDirty z = true ∧ 0 ≤ z.key ∧ z.key ≤ 10 then
          (if (0 : Int) ≠ 0 then 0 else longToInt (execAll setupWorld leafRestoreRun).cache.nrDirtyItems)
        else 0 :=
  ⟨by decide, leaf_restore_range_cached_dirty leafRestoreRun_reachable (by decide) 0 10 0⟩

end ScoutfsItemCache
