import ScoutfsItemCache.Buffers

/-! # Reads answer with the logical content

Over a segment store `S`, a cache state stands for the logical content
`logicalAt S s`: the value of the live item at a key, nothing at a deletion
item, and `S`'s value where nothing is cached. A reader fills the cache
from `S` around the key it is asked for. On a cache that is honest about
`S` (`Coherent`, which every world of a run whose creates read the freed
flag intact is, `IntactReachable.coherent`):

* `scoutfs_item_lookup` answers `-ENOENT` where the content has nothing
  and otherwise copies a prefix of the content (`lookup_answers`, and over
  those runs `intact_lookup_answers`);
* `scoutfs_item_next` answers with the least key from `key` up to
  `min(last, lock.end)` that has content, and `-ENOENT` when there is none
  (`next_answers_least_key`);
* `scoutfs_item_prev` answers with the greatest key from
  `max(first, lock.start)` down to `key` (`prev_answers_greatest_key`).

Each of them returns once it has enough fuel: a fill covers the position
it was asked for, so the passes of `next` and `prev` read at strictly
increasing, and strictly decreasing, positions.

Where the freed flag reads as 0, a create over a deletion item and a
second delete leave a covered key without an item that the store holds,
and the lookup answers `-ENOENT` for a value
(`recreate_lookup_misses_content`).
-/

namespace ScoutfsItemCache

/-! ## The searches over a sorted tree -/

section Searches

variable {t : Tree CachedItem}

/-- `next_item_node` stops at its first live item, with only deletion items
before it. -/
theorem nextItemNode_some {beyond : CachedItem → Bool} {L : List CachedItem} {it : CachedItem}
    (h : nextItemNode beyond L = some it) :
    ∃ A B, L = A ++ it :: B ∧ beyond it = false ∧ it.deletion = false ∧ ∀ z ∈ A, z.deletion = true := by
  induction L with
  | nil => exact nomatch h
  | cons x L ih =>
    unfold nextItemNode at h
    by_cases hb : beyond x = true
    · rw [if_pos hb] at h; exact nomatch h
    · rw [if_neg hb] at h
      by_cases hd : x.deletion = false
      · rw [if_pos (by simpa using hd)] at h
        cases h
        exact ⟨[], L, rfl, by simpa using hb, hd, fun _ h => nomatch h⟩
      · rw [if_neg (by simpa using hd)] at h
        obtain ⟨A, B, rfl, h1, h2, h3⟩ := ih h
        refine ⟨x :: A, B, rfl, h1, h2, fun z hz => ?_⟩
        rcases List.mem_cons.1 hz with rfl | hz
        · simpa using hd
        · exact h3 z hz

/-- When being beyond the bound passes on to every later item, finding
nothing means every item before the bound is a deletion item. -/
theorem nextItemNode_none {beyond : CachedItem → Bool} {L : List CachedItem}
    (hmono : L.Pairwise fun a b => beyond a = true → beyond b = true) (h : nextItemNode beyond L = none) :
    ∀ z ∈ L, beyond z = false → z.deletion = true := by
  induction L with
  | nil => exact fun _ h => nomatch h
  | cons x L ih =>
    rw [List.pairwise_cons] at hmono
    unfold nextItemNode at h
    intro z hz hbz
    by_cases hb : beyond x = true
    · rcases List.mem_cons.1 hz with rfl | hz
      · rw [hb] at hbz; exact nomatch hbz
      · rw [hmono.1 z hz hb] at hbz; exact nomatch hbz
    · rw [if_neg hb] at h
      by_cases hd : x.deletion = false
      · rw [if_pos (by simpa using hd)] at h; exact nomatch h
      · rw [if_neg (by simpa using hd)] at h
        rcases List.mem_cons.1 hz with rfl | hz
        · simpa using hd
        · exact ih hmono.2 h z hz hbz

/-- The items from `k` on, in key order: what `next_item` and then
repeated `rb_next` visit. -/
theorem filter_nextItem (hs : ItemsSorted t) (k : Nat) :
    t.toList.filter (fun x => k ≤ x.key) =
      match nextItem t k with
      | some a => a :: itemsAfter t.toList a.key
      | none => [] := by
  rcases hp : itemPath t k with ⟨p, _ | ⟨l, x, r⟩⟩
  · obtain ⟨-, hL, hR⟩ := descend_items (k := k) hs (fun _ => rfl : ∀ x : CachedItem, (id x).data = x.data)
      (fun _ => rfl : ∀ x : CachedItem, (id x).data = x.data)
    rw [show descend (itemCmp k) id id [] t = itemPath t k from rfl, hp] at hL hR
    have ht : t.toList = lefts p ++ rights p := by rw [← plug_of_itemPath hp, toList_plug]; simp
    simp only [nextItem, walkItems, hp, Tree.root_nil, Option.none_orElse, nextParent_eq_head]
    rw [ht, List.filter_append, List.filter_eq_nil_iff.2 fun a ha => by simpa using hL a ha, List.nil_append,
      List.filter_eq_self.2 fun a ha => by simpa using (hR a ha).le]
    rcases hr : rights p with _ | ⟨a, B⟩
    · rfl
    · dsimp only [List.head?_cons]
      rw [itemsAfter_split fun w hw => Nat.ne_of_lt (lt_trans (hL w hw) (hR a (by simp [hr])))]
  · obtain ⟨hplug, hk⟩ := itemPath_node hp
    have hx : x ∈ t.toList := by rw [← hplug, toList_plug]; simp
    obtain ⟨A, B, hAB, hA, hB⟩ := hs.split_mem hx
    simp only [nextItem, walkItems, hp, Tree.root_node, Option.some_orElse]
    rw [hAB, itemsAfter_split fun w hw => Nat.ne_of_lt (hA w hw), List.filter_append,
      List.filter_eq_nil_iff.2 fun a ha => by simpa [← hk] using hA a ha, List.nil_append, List.filter_cons,
      if_pos (by simp [hk]), List.filter_eq_self.2 fun a ha => by simpa [← hk] using (hB a ha).le]

/-- The items from `k` down, in descending key order: what `prev_item` and
then repeated `rb_prev` visit. -/
theorem filter_prevItem (hs : ItemsSorted t) (k : Nat) :
    t.toList.reverse.filter (fun x => x.key ≤ k) =
      match prevItem t k with
      | some a => a :: itemsAfter t.toList.reverse a.key
      | none => [] := by
  rcases hp : itemPath t k with ⟨p, _ | ⟨l, x, r⟩⟩
  · obtain ⟨-, hL, hR⟩ := descend_items (k := k) hs (fun _ => rfl : ∀ x : CachedItem, (id x).data = x.data)
      (fun _ => rfl : ∀ x : CachedItem, (id x).data = x.data)
    rw [show descend (itemCmp k) id id [] t = itemPath t k from rfl, hp] at hL hR
    have ht : t.toList.reverse = (rights p).reverse ++ (lefts p).reverse := by
      rw [← plug_of_itemPath hp, toList_plug]; simp
    simp only [prevItem, walkItems, hp, Tree.root_nil, Option.none_orElse, prevParent_eq_getLast]
    rw [ht, List.filter_append, List.filter_eq_nil_iff.2 fun a ha => by simpa using hR a (List.mem_reverse.1 ha),
      List.nil_append, List.filter_eq_self.2 fun a ha => by simpa using (hL a (List.mem_reverse.1 ha)).le,
      List.getLast?_eq_head?_reverse]
    rcases hl : (lefts p).reverse with _ | ⟨a, B⟩
    · rfl
    · have ha : a ∈ lefts p := List.mem_reverse.1 (by simp [hl])
      dsimp only [List.head?_cons]
      rw [itemsAfter_split fun w hw => Nat.ne_of_gt (lt_trans (hL a ha) (hR w (List.mem_reverse.1 hw)))]
  · obtain ⟨hplug, hk⟩ := itemPath_node hp
    have hx : x ∈ t.toList := by rw [← hplug, toList_plug]; simp
    obtain ⟨A, B, hAB, hA, hB⟩ := hs.split_mem hx
    simp only [prevItem, walkItems, hp, Tree.root_node, Option.some_orElse]
    rw [hAB, List.reverse_append, List.reverse_cons, List.append_assoc, List.singleton_append,
      itemsAfter_split fun w hw => Nat.ne_of_gt (hB w (List.mem_reverse.1 hw)), List.filter_append,
      List.filter_eq_nil_iff.2 fun a ha => by simpa [← hk] using hB a (List.mem_reverse.1 ha), List.nil_append,
      List.filter_cons, if_pos (by simp [hk]),
      List.filter_eq_self.2 fun a ha => by simpa [← hk] using (hA a (List.mem_reverse.1 ha)).le]

/-- `item_for_next` is `next_item_node` over the items from `key` on, with
the bound `min(range end, last)`. -/
theorem itemForNext_eq (hs : ItemsSorted t) (key rangeEnd last : Nat) :
    itemForNext t key rangeEnd last =
      nextItemNode (fun x => 0 < scoutfsKeyCompare x.key (min rangeEnd last))
        (t.toList.filter fun x => key ≤ x.key) := by
  have hmin : (if scoutfsKeyCompare rangeEnd last < 0 then rangeEnd else last) = min rangeEnd last := by
    split_ifs with h
    · exact (min_eq_left (scoutfsKeyCompare_neg.1 h).le).symm
    · exact (min_eq_right (not_lt.1 (mt scoutfsKeyCompare_neg.2 h))).symm
  unfold itemForNext
  rw [filter_nextItem hs, hmin]
  rcases nextItem t key with _ | a
  · rfl
  · simp only [nextItemNode]
    cases a.deletion <;> simp

/-- `item_for_prev` is `next_item_node` over the items from `key` down,
with the bound `max(range start, first)`. -/
theorem itemForPrev_eq (hs : ItemsSorted t) (key rangeStart first : Nat) :
    itemForPrev t key rangeStart first =
      nextItemNode (fun x => scoutfsKeyCompare x.key (max rangeStart first) < 0)
        (t.toList.reverse.filter fun x => x.key ≤ key) := by
  have hmax : (if 0 < scoutfsKeyCompare rangeStart first then rangeStart else first) = max rangeStart first := by
    split_ifs with h
    · exact (max_eq_left (scoutfsKeyCompare_pos.1 h).le).symm
    · exact (max_eq_right (not_lt.1 (mt scoutfsKeyCompare_pos.2 h))).symm
  unfold itemForPrev
  rw [filter_prevItem hs, hmax]
  rcases prevItem t key with _ | a
  · rfl
  · simp only [nextItemNode]
    cases a.deletion <;> simp

end Searches

/-! ## The logical content and the fills that keep it -/

/-- `M(k)` over the segment store `S`: the value of the live item at `k`,
nothing at a deletion item, and `S`'s value where no item is cached. -/
def logicalAt (S : Nat → Option Bytes) (s : ItemCache) (k : Nat) : Option Bytes :=
  match getAt k (itemsOf s.items) with
  | some y => if y.deletion then none else some y.value
  | none => S k

/-- What a read leaves for a caller with a buffer of `bufLen` bytes, as
the contract puts it: the length of the prefix of the value it copies and
that prefix; nothing without a buffer. -/
def copiedPrefix (bufLen : Option Nat) (v : Bytes) : Int × Bytes :=
  match bufLen with
  | some n => (min v.length n, v.take n)
  | none => (0, [])

/-- The contract's answer of `scoutfs_item_next` over the content `M` from
`lo` up to `hi`: `-ENOENT` and no key exactly when no key there has
content, and otherwise the least such key with the prefix of its content. -/
def LeastAnswer (M : Nat → Option Bytes) (lo hi : Nat) (bufLen : Option Nat) (ret : Int × Option (Nat × Bytes)) :
    Prop :=
  (ret = (-ENOENT, none) ↔ ∀ k, lo ≤ k → k ≤ hi → M k = none) ∧
    ∀ k v, lo ≤ k → k ≤ hi → M k = some v → (∀ j, lo ≤ j → j < k → M j = none) →
      ret = ((copiedPrefix bufLen v).1, some (k, (copiedPrefix bufLen v).2))

/-- The contract's answer of `scoutfs_item_prev` over the content `M` from
`hi` down to `lo`: the greatest key with content. -/
def GreatestAnswer (M : Nat → Option Bytes) (lo hi : Nat) (bufLen : Option Nat) (ret : Int × Option (Nat × Bytes)) :
    Prop :=
  (ret = (-ENOENT, none) ↔ ∀ k, lo ≤ k → k ≤ hi → M k = none) ∧
    ∀ k v, lo ≤ k → k ≤ hi → M k = some v → (∀ j, k < j → j ≤ hi → M j = none) →
      ret = ((copiedPrefix bufLen v).1, some (k, (copiedPrefix bufLen v).2))

/-- The state facts reads rely on: keys in order, well formed ranges, a
cache honest about `S`, and full value buffers. -/
structure Coherent (S : Nat → Option Bytes) (s : ItemCache) : Prop where
  sorted : ItemsSorted s.items
  ranges : RangesOk s.ranges.toList
  keys : KeysOk true S s
  buffers : BuffersOk s.items

/-- The fill of `[start, end]` from the store: `scoutfs_item_insert_batch`
of the store's items there. -/
def storeFill (S : Nat → Option Bytes) (start «end» : Nat) (s : ItemCache) : ItemCache × Int :=
  let r := scoutfsItemInsertBatch s (batchItems (storeBatch S start («end» + 1 - start))) start «end» false
  (r.1, r.2.1)

/-- A reader that fills from `S` over a range around the position it is
asked for, within the lock's bounds. -/
def FillReader (S : Nat → Option Bytes) (lock : ScoutfsLock) (read : Reader) : Prop :=
  ∀ pos s, lock.start ≤ pos → pos ≤ lock.end →
    ∃ start «end», start ≤ pos ∧ pos ≤ «end» ∧ lock.start ≤ start ∧ «end» ≤ lock.end ∧
      read pos s = storeFill S start «end» s

section Content

variable {S : Nat → Option Bytes} {s : ItemCache}

/-- A live item is the content at its key. -/
theorem logicalAt_of_mem (hs : ItemsSorted s.items) {x : CachedItem} (hx : x ∈ s.items.toList)
    (hl : x.deletion = false) : logicalAt S s x.key = some x.value := by
  simp [logicalAt, hs.getAt_of_mem hx, hl]

/-- A covered key with no live item has no content. -/
theorem logicalAt_eq_none (hc : Coherent S s) {k : Nat} (hcov : covered s.ranges k = true)
    (hdel : ∀ x ∈ s.items.toList, x.key = k → x.deletion = true) : logicalAt S s k = none := by
  unfold logicalAt
  rcases hk : getAt k (itemsOf s.items) with _ | y
  · exact (hc.keys k).negative rfl hcov hk
  · obtain ⟨x, hx, rfl, hxk⟩ := exists_mem_of_getAt hk
    simp [hdel x hx hxk]

/-- With a full buffer, the copy of an item is the contract's prefix of its value. -/
theorem copyItemVal_eq {y : CachedItem} (hb : BufferOk y) (bufLen : Option Nat) :
    copyItemVal bufLen y = copiedPrefix bufLen y.value := by
  rcases bufLen with _ | n
  · rfl
  · simp only [copyItemVal, copiedPrefix, hb.length_value]
    simp [CachedItem.value, List.take_take, min_comm]

variable {start «end» : Nat}

theorem storeFill_ret (hle : start ≤ «end») : (storeFill S start «end» s).2 = 0 := by
  rw [storeFill, scoutfsItemInsertBatch, if_neg (by simpa using hle), if_neg Bool.false_ne_true]

/-- A fill from a store whose values fit `SCOUTFS_MAX_VAL_SIZE` keeps the
invariant of the cache. -/
theorem ItemCache.Inv.storeFill {M : Nat} (hI : s.Inv M) (hS : ∀ k v, S k = some v → v.length ≤ M)
    (start «end» : Nat) : (storeFill S start «end» s).1.Inv M :=
  hI.scoutfsItemInsertBatch _ start «end» fun x hx => by
    obtain ⟨kv, hkv, rfl⟩ := List.mem_map.1 hx
    obtain ⟨v, hv, h2⟩ := mem_storeBatch hkv
    exact ⟨rfl, by simp [allocItem, h2, hS _ _ hv]⟩

/-- A fill keeps the cache coherent. -/
theorem Coherent.fill (hc : Coherent S s) (hle : start ≤ «end») : Coherent S (storeFill S start «end» s).1 := by
  refine ⟨?_, ?_, hc.keys.fill hc.sorted start «end», hc.buffers.insertBatch hc.sorted _ start «end»⟩ <;>
    rw [storeFill, scoutfsItemInsertBatch, if_neg (by simpa using hle), if_neg Bool.false_ne_true]
  · exact insertBatchItems_sorted (s := { s with ranges := insertRange s.ranges ⟨start, «end»⟩ }) hc.sorted _ _
  · rw [ranges_insertBatchItems]
    exact insertRange_ok hc.ranges hle

/-- A fill caches the store's values where nothing was cached: the content
stays the same. -/
theorem logicalAt_fill (hs : ItemsSorted s.items) (hle : start ≤ «end») :
    logicalAt S (storeFill S start «end» s).1 = logicalAt S s := by
  funext k
  rw [storeFill, scoutfsItemInsertBatch, if_neg (by simpa using hle), if_neg Bool.false_ne_true]
  unfold logicalAt
  rw [getAt_insertBatchItems (s := { s with ranges := insertRange s.ranges ⟨start, «end»⟩ }) hs,
    getAt_storeBatch]
  rcases getAt k (itemsOf s.items) with _ | y
  · split_ifs
    · rcases S k with _ | v <;> simp [allocItem, CachedItem.value, CachedItem.data]
    · rfl
  · rfl

/-- After a fill the key it was asked for is covered. -/
theorem checkRange_fill (hc : Coherent S s) (hle : start ≤ «end») {k : Nat} (hk : start ≤ k ∧ k ≤ «end») :
    (checkRange (storeFill S start «end» s).1.ranges k).isSome = true := by
  rw [checkRange_isSome (hc.fill hle).ranges]
  rw [storeFill, scoutfsItemInsertBatch, if_neg (by simpa using hle), if_neg Bool.false_ne_true]
  simp [covered_insertRange, CachedRange.contains, hk.1, hk.2]

/-- The worlds of the runs over the store whose creates read the freed flag
intact are coherent. -/
theorem IntactReachable.coherent {M : Nat} {sw : StoreWorld} (h : IntactReachable M sw) :
    Coherent sw.store sw.world.cache :=
  ⟨h.store.reachable.inv.cache.sorted, h.store.reachable.inv.cache.ranges, h.ok.keys,
    h.store.reachable.buffers.items⟩

end Content

/-! ## One pass of the walks -/

section Passes

variable {t : Tree CachedItem}

/-- The live item `item_for_next` finds: no live item lies between `key`
and it. -/
theorem itemForNext_some (hs : ItemsSorted t) {key rangeEnd last : Nat} {it : CachedItem}
    (h : itemForNext t key rangeEnd last = some it) :
    it ∈ t.toList ∧ it.deletion = false ∧ key ≤ it.key ∧ it.key ≤ min rangeEnd last ∧
      ∀ x ∈ t.toList, key ≤ x.key → x.key < it.key → x.deletion = true := by
  rw [itemForNext_eq hs] at h
  obtain ⟨A, B, hL, hb, hd, hA⟩ := nextItemNode_some h
  have hpw : (A ++ it :: B).Pairwise fun a b => a.key < b.key := hL ▸ hs.toList.sublist (List.filter_sublist _)
  have hit : it ∈ t.toList.filter fun x => key ≤ x.key := by rw [hL]; simp
  simp only [List.mem_filter, decide_eq_true_eq] at hit
  refine ⟨hit.1, hd, hit.2, by simpa using hb, fun x hx hkx hxi => ?_⟩
  have hmem : x ∈ A ++ it :: B := by rw [← hL]; simp [hx, hkx]
  rw [List.pairwise_append, List.pairwise_cons] at hpw
  rcases List.mem_append.1 hmem with hx | hx
  · exact hA x hx
  · rcases List.mem_cons.1 hx with rfl | hx
    · exact absurd hxi (lt_irrefl _)
    · exact absurd (hpw.2.1.1 x hx) (not_lt.2 hxi.le)

/-- Without a live item from `item_for_next`, every item up to the bound
is a deletion item. -/
theorem itemForNext_none (hs : ItemsSorted t) {key rangeEnd last : Nat}
    (h : itemForNext t key rangeEnd last = none) :
    ∀ x ∈ t.toList, key ≤ x.key → x.key ≤ min rangeEnd last → x.deletion = true := by
  rw [itemForNext_eq hs] at h
  have hpw : (t.toList.filter fun x => key ≤ x.key).Pairwise fun a b => a.key < b.key :=
    hs.toList.sublist (List.filter_sublist _)
  have hmono := hpw.imp (S := fun a b => decide (0 < scoutfsKeyCompare a.key (min rangeEnd last)) = true →
      decide (0 < scoutfsKeyCompare b.key (min rangeEnd last)) = true) fun {a b} hab ha => by
    simp only [decide_eq_true_eq, scoutfsKeyCompare_pos] at ha ⊢; omega
  intro x hx hkx hxb
  exact nextItemNode_none hmono h x (by simp [hx, hkx]) (by simpa using hxb)

/-- The live item `item_for_prev` finds: no live item lies between it and
`key`. -/
theorem itemForPrev_some (hs : ItemsSorted t) {key rangeStart first : Nat} {it : CachedItem}
    (h : itemForPrev t key rangeStart first = some it) :
    it ∈ t.toList ∧ it.deletion = false ∧ max rangeStart first ≤ it.key ∧ it.key ≤ key ∧
      ∀ x ∈ t.toList, it.key < x.key → x.key ≤ key → x.deletion = true := by
  rw [itemForPrev_eq hs] at h
  obtain ⟨A, B, hL, hb, hd, hA⟩ := nextItemNode_some h
  have hpw : (A ++ it :: B).Pairwise fun a b => b.key < a.key :=
    hL ▸ (List.pairwise_reverse.2 hs.toList).sublist (List.filter_sublist _)
  have hit : it ∈ t.toList.reverse.filter fun x => x.key ≤ key := by rw [hL]; simp
  simp only [List.mem_filter, List.mem_reverse, decide_eq_true_eq] at hit
  refine ⟨hit.1, hd, by simpa using hb, hit.2, fun x hx hix hxk => ?_⟩
  have hmem : x ∈ A ++ it :: B := by rw [← hL]; simp [hx, hxk]
  rw [List.pairwise_append, List.pairwise_cons] at hpw
  rcases List.mem_append.1 hmem with hx | hx
  · exact hA x hx
  · rcases List.mem_cons.1 hx with rfl | hx
    · exact absurd hix (lt_irrefl _)
    · exact absurd (hpw.2.1.1 x hx) (not_lt.2 hix.le)

/-- Without a live item from `item_for_prev`, every item down to the bound
is a deletion item. -/
theorem itemForPrev_none (hs : ItemsSorted t) {key rangeStart first : Nat}
    (h : itemForPrev t key rangeStart first = none) :
    ∀ x ∈ t.toList, max rangeStart first ≤ x.key → x.key ≤ key → x.deletion = true := by
  rw [itemForPrev_eq hs] at h
  have hpw : (t.toList.reverse.filter fun x => x.key ≤ key).Pairwise fun a b => b.key < a.key :=
    (List.pairwise_reverse.2 hs.toList).sublist (List.filter_sublist _)
  have hmono := hpw.imp (S := fun a b => decide (scoutfsKeyCompare a.key (max rangeStart first) < 0) = true →
      decide (scoutfsKeyCompare b.key (max rangeStart first) < 0) = true) fun {a b} hab ha => by
    simp only [decide_eq_true_eq, scoutfsKeyCompare_neg] at ha ⊢; omega
  intro x hx hbx hxk
  exact nextItemNode_none hmono h x (by simp [hx, hxk]) (by simpa using hbx)

/-- A key inside the range `check_range` returned is covered. -/
theorem covered_of_checkRange {r : Tree CachedRange} {pos j : Nat} {rng : CachedRange}
    (h : checkRange r pos = some rng) (hj : rng.start ≤ j ∧ j ≤ rng.end) : covered r j = true :=
  List.any_eq_true.2 ⟨rng, checkRange_some_mem h, by simp [CachedRange.contains, hj.1, hj.2]⟩

end Passes

/-- What one pass of `scoutfs_item_next` from `pos` up to `hi` may end in:
a live item with no content from `pos` up to it; no content from `pos` up
to `hi`; or a read at an uncovered position with no content before it. -/
def NextPassOk (S : Nat → Option Bytes) (s : ItemCache) (hi pos : Nat) : WalkStep → Prop
  | .found it => it ∈ s.items.toList ∧ it.deletion = false ∧ pos ≤ it.key ∧ it.key ≤ hi ∧
      ∀ j, pos ≤ j → j < it.key → logicalAt S s j = none
  | .noent => ∀ j, pos ≤ j → j ≤ hi → logicalAt S s j = none
  | .read p => pos ≤ p ∧ p ≤ hi ∧ checkRange s.ranges p = none ∧ ∀ j, pos ≤ j → j < p → logicalAt S s j = none

/-- What one pass of `scoutfs_item_prev` from `pos` down to `lo` may end in. -/
def PrevPassOk (S : Nat → Option Bytes) (s : ItemCache) (lo pos : Nat) : WalkStep → Prop
  | .found it => it ∈ s.items.toList ∧ it.deletion = false ∧ lo ≤ it.key ∧ it.key ≤ pos ∧
      ∀ j, it.key < j → j ≤ pos → logicalAt S s j = none
  | .noent => ∀ j, lo ≤ j → j ≤ pos → logicalAt S s j = none
  | .read p => lo ≤ p ∧ p ≤ pos ∧ checkRange s.ranges p = none ∧ ∀ j, p < j → j ≤ pos → logicalAt S s j = none

section Passes

variable {S : Nat → Option Bytes} {s : ItemCache}

/-- A pass from past the end of an empty stretch is a pass from its start. -/
theorem NextPassOk.extend {hi pos e : Nat} {w : WalkStep} (h : NextPassOk S s hi (e + 1) w)
    (hpe : pos ≤ e + 1) (hnone : ∀ j, pos ≤ j → j ≤ e → logicalAt S s j = none) : NextPassOk S s hi pos w := by
  have hj : ∀ j b, e + 1 ≤ b → (∀ j, e + 1 ≤ j → j < b → logicalAt S s j = none) →
      pos ≤ j → j < b → logicalAt S s j = none := fun j b _ hb hpj hjb => by
    rcases Nat.lt_or_ge j (e + 1) with hje | hje
    · exact hnone j hpj (by omega)
    · exact hb j hje hjb
  cases w with
  | found it =>
    obtain ⟨hm, hd, hei, hih, hw⟩ := h
    exact ⟨hm, hd, le_trans hpe hei, hih, fun j => hj j it.key hei hw⟩
  | noent =>
    intro j hpj hjh
    rcases Nat.lt_or_ge j (e + 1) with hje | hje
    · exact hnone j hpj (by omega)
    · exact h j hje hjh
  | read p =>
    obtain ⟨hep, hph, hc, hw⟩ := h
    exact ⟨le_trans hpe hep, hph, hc, fun j => hj j p hep hw⟩

/-- A pass from before the start of an empty stretch is a pass from its end. -/
theorem PrevPassOk.extend {lo pos b : Nat} {w : WalkStep} (h : PrevPassOk S s lo (b - 1) w) (hb : 0 < b)
    (hbp : b - 1 ≤ pos) (hnone : ∀ j, b ≤ j → j ≤ pos → logicalAt S s j = none) : PrevPassOk S s lo pos w := by
  have hj : ∀ j a, a ≤ b - 1 → (∀ j, a < j → j ≤ b - 1 → logicalAt S s j = none) →
      a < j → j ≤ pos → logicalAt S s j = none := fun j a _ ha haj hjp => by
    rcases Nat.lt_or_ge j b with hjb | hjb
    · exact ha j haj (by omega)
    · exact hnone j hjb hjp
  cases w with
  | found it =>
    obtain ⟨hm, hd, hli, hib, hw⟩ := h
    exact ⟨hm, hd, hli, le_trans hib hbp, fun j => hj j it.key hib hw⟩
  | noent =>
    intro j hlj hjp
    rcases Nat.lt_or_ge j b with hjb | hjb
    · exact h j hlj (by omega)
    · exact hnone j hjb hjp
  | read p =>
    obtain ⟨hlp, hpb, hc, hw⟩ := h
    exact ⟨hlp, le_trans hpb hbp, hc, fun j => hj j p hpb hw⟩

/-- Every pass of `scoutfs_item_next` over a coherent cache ends as
`NextPassOk` says. -/
theorem nextScan_ok (hc : Coherent S s) {last : Nat} :
    ∀ pos, pos ≤ last → NextPassOk S s last pos (nextScan s last pos) := by
  intro pos
  induction pos using nextScan.induct s last with
  | case1 pos h => intro hpos; rw [nextScan_of_none h]; exact ⟨le_rfl, hpos, h, fun j h1 h2 => absurd h2 (by omega)⟩
  | case2 pos rng h it hit =>
    intro _
    rw [nextScan_of_some h, hit]
    obtain ⟨hmem, hd, hpi, hil, hdel⟩ := itemForNext_some hc.sorted hit
    have hrng := checkRange_mem h
    refine ⟨hmem, hd, hpi, le_trans hil (min_le_right _ _), fun j hpj hji => logicalAt_eq_none hc
      (covered_of_checkRange h ⟨by omega, by have := min_le_left rng.end last; omega⟩)
      fun x hx hxj => hdel x hx (by omega) (by omega)⟩
  | case3 pos rng h hnone hlt ih =>
    intro _
    rw [nextScan_of_some h, hnone]
    simp only [if_pos hlt]
    have hrng := checkRange_mem h
    rw [scoutfsKeyCompare_neg] at hlt
    rw [scoutfsKeyInc_eq] at ih ⊢
    refine (ih (by omega)).extend (by omega) fun j hpj hje => logicalAt_eq_none hc
      (covered_of_checkRange h ⟨by omega, hje⟩) fun x hx hxj => itemForNext_none hc.sorted hnone x hx
        (by omega) (by rw [min_eq_left hlt.le]; omega)
  | case4 pos rng h hnone hge =>
    intro _
    rw [nextScan_of_some h, hnone]
    simp only [if_neg hge]
    have hrng := checkRange_mem h
    rw [scoutfsKeyCompare_neg, not_lt] at hge
    exact fun j hpj hjl => logicalAt_eq_none hc (covered_of_checkRange h ⟨by omega, by omega⟩)
      fun x hx hxj => itemForNext_none hc.sorted hnone x hx (by omega) (by rw [min_eq_right hge]; omega)

/-- Every pass of `scoutfs_item_prev` over a coherent cache ends as
`PrevPassOk` says. -/
theorem prevScan_ok (hc : Coherent S s) {first : Nat} :
    ∀ pos, first ≤ pos → PrevPassOk S s first pos (prevScan s first pos) := by
  intro pos
  induction pos using prevScan.induct s first with
  | case1 pos h => intro hpos; rw [prevScan_of_none h]; exact ⟨hpos, le_rfl, h, fun j h1 h2 => absurd h2 (by omega)⟩
  | case2 pos rng h it hit =>
    intro _
    rw [prevScan_of_some h, hit]
    obtain ⟨hmem, hd, hfi, hip, hdel⟩ := itemForPrev_some hc.sorted hit
    have hrng := checkRange_mem h
    refine ⟨hmem, hd, le_trans (le_max_right _ _) hfi, hip, fun j hij hjp => logicalAt_eq_none hc
      (covered_of_checkRange h ⟨by have := le_max_left rng.start first; omega, by omega⟩)
      fun x hx hxj => hdel x hx (by omega) (by omega)⟩
  | case3 pos rng h hnone hlt ih =>
    intro _
    rw [prevScan_of_some h, hnone]
    simp only [if_pos hlt]
    have hrng := checkRange_mem h
    rw [scoutfsKeyCompare_pos] at hlt
    rw [scoutfsKeyDec_eq] at ih ⊢
    refine (ih (by omega)).extend (by omega) (by omega) fun j hbj hjp => logicalAt_eq_none hc
      (covered_of_checkRange h ⟨hbj, by omega⟩) fun x hx hxj => itemForPrev_none hc.sorted hnone x hx
        (by rw [max_eq_left hlt.le]; omega) (by omega)
  | case4 pos rng h hnone hge =>
    intro _
    rw [prevScan_of_some h, hnone]
    simp only [if_neg hge]
    have hrng := checkRange_mem h
    rw [scoutfsKeyCompare_pos, not_lt] at hge
    exact fun j hfj hjp => logicalAt_eq_none hc (covered_of_checkRange h ⟨by omega, by omega⟩)
      fun x hx hxj => itemForPrev_none hc.sorted hnone x hx (by rw [max_eq_right hge]; omega) (by omega)

end Passes

/-! ## The walk loop -/

section Loop

variable {scan : ItemCache → Nat → WalkStep} {read : Reader} {bufLen : Option Nat}

/-- What `walkLoop` returns satisfies `Q` when every found item and every
`-ENOENT` does from a state satisfying `P`, and every read succeeds into a
state satisfying `P` at the position read. -/
theorem walkLoop_result (P : ItemCache → Nat → Prop) (Q : ItemCache × Int × Option (Nat × Bytes) → Prop)
    (hfound : ∀ s pos it, P s pos → scan s pos = .found it → Q (walkFound bufLen s it))
    (hnoent : ∀ s pos, P s pos → scan s pos = .noent → Q (s, -ENOENT, none))
    (hread : ∀ s pos p, P s pos → scan s pos = .read p → (read p s).2 = 0 ∧ P (read p s).1 p) :
    ∀ fuel s pos r, P s pos → walkLoop scan read bufLen fuel s pos = some r → Q r := by
  intro fuel
  induction fuel with
  | zero => exact fun _ _ _ _ h => nomatch h
  | succ fuel ih =>
    intro s pos r hP h
    rw [walkLoop] at h
    split at h
    · rename_i it hit
      cases h
      exact hfound s pos it hP hit
    · rename_i hno
      cases h
      exact hnoent s pos hP hno
    · rename_i p hp
      obtain ⟨h0, hP'⟩ := hread s pos p hP hp
      rw [if_pos h0] at h
      exact ih _ _ r hP' h

/-- `walkLoop` returns within `2 * n + 2` passes when every read succeeds
into a state satisfying `P`, at a position whose measure `μ` is at most
the one before, and after which the next read is at a smaller measure. -/
theorem walkLoop_isSome (P : ItemCache → Nat → Prop) (μ : Nat → Nat)
    (hread : ∀ s pos p, P s pos → scan s pos = .read p →
      (read p s).2 = 0 ∧ P (read p s).1 p ∧ μ p ≤ μ pos ∧ ∀ q, scan (read p s).1 p = .read q → μ q < μ p) :
    ∀ n fuel s pos, μ pos ≤ n → 2 * n + 2 ≤ fuel → P s pos → (walkLoop scan read bufLen fuel s pos).isSome := by
  intro n
  induction n using Nat.strong_induction_on with
  | _ n ih =>
    intro fuel s pos hμ hfuel hP
    obtain ⟨f, rfl⟩ : ∃ f, fuel = f + 1 := ⟨fuel - 1, by omega⟩
    rw [walkLoop]
    split
    · rfl
    · rfl
    · rename_i p hp
      obtain ⟨h0, hP', hμp, hnext⟩ := hread s pos p hP hp
      rw [if_pos h0]
      obtain ⟨g, rfl⟩ : ∃ g, f = g + 1 := ⟨f - 1, by omega⟩
      rw [walkLoop]
      split
      · rfl
      · rfl
      · rename_i q hq
        obtain ⟨h0', hP'', -, -⟩ := hread _ _ q hP' hq
        have hμq := hnext q hq
        rw [if_pos h0']
        exact ih (μ q) (by omega) g _ _ le_rfl (by omega) hP''

/-- What the walks return for the item a pass found, as the contract
says it: the item's key and the prefix of its value. -/
theorem walkFound_snd {s : ItemCache} {it : CachedItem} (hb : BufferOk it) :
    (walkFound bufLen s it).2 = ((copiedPrefix bufLen it.value).1, some (it.key, (copiedPrefix bufLen it.value).2)) := by
  rcases bufLen with _ | n
  · rfl
  · simp only [walkFound, Option.isSome_some, if_true, copyItemVal_eq hb]

end Loop

/-! ## scoutfs_item_next and scoutfs_item_prev -/

section Walks

variable {S : Nat → Option Bytes} {s : ItemCache}

theorem Coherent.bufferOk (hc : Coherent S s) {x : CachedItem} (hx : x ∈ s.items.toList) : BufferOk x :=
  hc.buffers x.key x.data (hc.sorted.getAt_of_mem hx)

/-- The reader that fills `[0, 10]` from `keyThreeStore`. -/
def fillTen (_ : Nat) (c : ItemCache) : ItemCache × Int := storeFill keyThreeStore 0 10 c

theorem fillTen_reader : FillReader keyThreeStore ⟨.read, 0, 10⟩ fillTen :=
  fun _ _ _ h => ⟨0, 10, Nat.zero_le _, h, le_rfl, le_rfl, rfl⟩

theorem setup_coherent : Coherent keyThreeStore setupWorld.cache :=
  (IntactReachable.setup (M := 0) keyThreeStore).coherent

/-- On a coherent cache, with a reader that fills from the store within
the lock, `scoutfs_item_next` returns once it has enough fuel. It answers
`-ENOENT` exactly when no key from `key` up to `min(last, lock.end)` has
content; otherwise it answers with the least such key and the prefix of
its content that fits the buffer. -/
theorem next_answers_least_key (hc : Coherent S s) {lock : ScoutfsLock} {read : Reader}
    (hread : FillReader S lock read) (key last : Nat) (bufLen : Option Nat)
    (hlock : lockCoverage lock key .read = true) :
    (∃ fuel, (scoutfsItemNext read fuel s key last bufLen lock).isSome) ∧
    ∀ fuel r, scoutfsItemNext read fuel s key last bufLen lock = some r →
      LeastAnswer (logicalAt S s) key (min last lock.end) bufLen r.2 := by
  have hl := (lockCoverage_iff.1 hlock).2
  have hlast : (if scoutfsKeyCompare lock.end last < 0 then lock.end else last) = min last lock.end := by
    split_ifs with h
    · exact (min_eq_right (scoutfsKeyCompare_neg.1 h).le).symm
    · exact (min_eq_left (not_lt.1 (mt scoutfsKeyCompare_neg.2 h))).symm
  unfold scoutfsItemNext
  dsimp only
  rw [hlast]
  by_cases hk : min last lock.end < key
  · simp only [scoutfsKeyCompare_pos.2 hk, if_true]
    refine ⟨⟨0, rfl⟩, fun fuel r h => ?_⟩
    cases h
    exact ⟨iff_of_true rfl fun k h1 h2 => absurd hk (by omega), fun k v h1 h2 => absurd hk (by omega)⟩
  simp only [show ¬0 < scoutfsKeyCompare key (min last lock.end) from mt scoutfsKeyCompare_pos.1 hk,
    if_false, hlock, Bool.not_true, Bool.false_eq_true]
  -- the walk keeps the content, and finds no content before its position
  let P : ItemCache → Nat → Prop := fun s' pos => Coherent S s' ∧ logicalAt S s' = logicalAt S s ∧
    key ≤ pos ∧ pos ≤ min last lock.end ∧ ∀ j, key ≤ j → j < pos → logicalAt S s j = none
  have hP0 : P s key := ⟨hc, rfl, le_rfl, by omega, fun j h1 h2 => absurd h2 (by omega)⟩
  have hstep : ∀ s' pos p, P s' pos → nextScan s' (min last lock.end) pos = .read p →
      (read p s').2 = 0 ∧ P (read p s').1 p ∧ min last lock.end + 1 - p ≤ min last lock.end + 1 - pos ∧
        ∀ q, nextScan (read p s').1 (min last lock.end) p = .read q →
          min last lock.end + 1 - q < min last lock.end + 1 - p := by
    intro s' pos p ⟨hc', hM, hkp, hph, hwin⟩ hscan
    have hpass := nextScan_ok hc' pos hph
    rw [hscan] at hpass
    obtain ⟨hpp, hpi, -, hw⟩ := hpass
    obtain ⟨start, e, h1, h2, -, -, hr⟩ := hread p s' (by omega) (by have := min_le_right last lock.end; omega)
    have hle : start ≤ e := le_trans h1 h2
    rw [hr]
    refine ⟨storeFill_ret hle, ⟨hc'.fill hle, by rw [logicalAt_fill hc'.sorted hle, hM], by omega, hpi,
      fun j hkj hjp => ?_⟩, by omega, fun q hq => ?_⟩
    · rcases Nat.lt_or_ge j pos with hjp' | hjp'
      · exact hwin j hkj hjp'
      · rw [← hM]; exact hw j hjp' hjp
    · have hpass' := nextScan_ok (hc'.fill hle) p hpi
      rw [hq] at hpass'
      obtain ⟨hpq, hqi, hnq, -⟩ := hpass'
      have hpq' : p ≠ q := fun e => by
        have := checkRange_fill hc' hle ⟨h1, h2⟩
        rw [e, hnq] at this
        exact nomatch this
      omega
  refine ⟨⟨_, walkLoop_isSome P (fun p => min last lock.end + 1 - p) hstep _ _ s key le_rfl le_rfl hP0⟩,
    fun fuel r h => walkLoop_result P (fun r => LeastAnswer (logicalAt S s) key (min last lock.end) bufLen r.2) ?_ ?_
      (fun s' pos p hP hp => (hstep s' pos p hP hp).imp_right And.left) fuel s key r hP0 h⟩
  · intro s' pos it ⟨hc', hM, hkp, hph, hwin⟩ hscan
    have hpass := nextScan_ok hc' pos hph
    rw [hscan] at hpass
    obtain ⟨hmem, hd, hpi, hih, hw⟩ := hpass
    have hMit : logicalAt S s it.key = some it.value := hM ▸ logicalAt_of_mem hc'.sorted hmem hd
    have hbefore : ∀ j, key ≤ j → j < it.key → logicalAt S s j = none := fun j hkj hji => by
      rcases Nat.lt_or_ge j pos with hjp | hjp
      · exact hwin j hkj hjp
      · rw [← hM]; exact hw j hjp hji
    rw [walkFound_snd (hc'.bufferOk hmem)]
    refine ⟨⟨fun h => (nomatch congrArg Prod.snd h), fun h => ?_⟩, fun k v hk1 hk2 hkv hleast => ?_⟩
    · rw [h it.key (le_trans hkp hpi) hih] at hMit
      exact nomatch hMit
    · obtain rfl : k = it.key := by
        rcases lt_trichotomy k it.key with hlt | heq | hgt
        · rw [hbefore k hk1 hlt] at hkv; exact nomatch hkv
        · exact heq
        · rw [hleast it.key (le_trans hkp hpi) hgt] at hMit; exact nomatch hMit
      rw [hMit] at hkv
      cases hkv
      rfl
  · intro s' pos ⟨hc', hM, hkp, hph, hwin⟩ hscan
    have hpass := nextScan_ok hc' pos hph
    rw [hscan] at hpass
    have hall : ∀ k, key ≤ k → k ≤ min last lock.end → logicalAt S s k = none := fun k hk1 hk2 => by
      rcases Nat.lt_or_ge k pos with hkp' | hkp'
      · exact hwin k hk1 hkp'
      · rw [← hM]; exact hpass k hkp' hk2
    exact ⟨iff_of_true rfl hall, fun k v hk1 hk2 hkv _ => by rw [hall k hk1 hk2] at hkv; exact nomatch hkv⟩

theorem next_answers_at_setup :
    (∃ fuel, (scoutfsItemNext fillTen fuel setupWorld.cache 1 20 (some 8) ⟨.read, 0, 10⟩).isSome) ∧
    ∀ fuel r, scoutfsItemNext fillTen fuel setupWorld.cache 1 20 (some 8) ⟨.read, 0, 10⟩ = some r →
      LeastAnswer (logicalAt keyThreeStore setupWorld.cache) 1 (min 20 10) (some 8) r.2 :=
  next_answers_least_key setup_coherent fillTen_reader 1 20 (some 8) rfl

/-- On a coherent cache, with a reader that fills from the store within
the lock, `scoutfs_item_prev` returns once it has enough fuel. It answers
`-ENOENT` exactly when no key from `max(first, lock.start)` up to `key` has
content; otherwise it answers with the greatest such key and the prefix of
its content that fits the buffer. -/
theorem prev_answers_greatest_key (hc : Coherent S s) {lock : ScoutfsLock} {read : Reader}
    (hread : FillReader S lock read) (key first : Nat) (bufLen : Option Nat)
    (hlock : lockCoverage lock key .read = true) :
    (∃ fuel, (scoutfsItemPrev read fuel s key first bufLen lock).isSome) ∧
    ∀ fuel r, scoutfsItemPrev read fuel s key first bufLen lock = some r →
      GreatestAnswer (logicalAt S s) (max first lock.start) key bufLen r.2 := by
  have hl := (lockCoverage_iff.1 hlock).2
  have hfirst : (if 0 < scoutfsKeyCompare lock.start first then lock.start else first) = max first lock.start := by
    split_ifs with h
    · exact (max_eq_right (scoutfsKeyCompare_pos.1 h).le).symm
    · exact (max_eq_left (not_lt.1 (mt scoutfsKeyCompare_pos.2 h))).symm
  unfold scoutfsItemPrev
  dsimp only
  rw [hfirst]
  by_cases hk : key < max first lock.start
  · simp only [scoutfsKeyCompare_neg.2 hk, if_true]
    refine ⟨⟨0, rfl⟩, fun fuel r h => ?_⟩
    cases h
    exact ⟨iff_of_true rfl fun k h1 h2 => absurd hk (by omega), fun k v h1 h2 => absurd hk (by omega)⟩
  simp only [show ¬scoutfsKeyCompare key (max first lock.start) < 0 from mt scoutfsKeyCompare_neg.1 hk,
    if_false, hlock, Bool.not_true, Bool.false_eq_true]
  -- the walk keeps the content, and finds no content after its position
  let P : ItemCache → Nat → Prop := fun s' pos => Coherent S s' ∧ logicalAt S s' = logicalAt S s ∧
    max first lock.start ≤ pos ∧ pos ≤ key ∧ ∀ j, pos < j → j ≤ key → logicalAt S s j = none
  have hP0 : P s key := ⟨hc, rfl, by omega, le_rfl, fun j h1 h2 => absurd h2 (by omega)⟩
  have hstep : ∀ s' pos p, P s' pos → prevScan s' (max first lock.start) pos = .read p →
      (read p s').2 = 0 ∧ P (read p s').1 p ∧ p ≤ pos ∧
        ∀ q, prevScan (read p s').1 (max first lock.start) p = .read q → q < p := by
    intro s' pos p ⟨hc', hM, hlp, hpk, hwin⟩ hscan
    have hpass := prevScan_ok hc' pos hlp
    rw [hscan] at hpass
    obtain ⟨hlp', hpp, -, hw⟩ := hpass
    obtain ⟨start, e, h1, h2, -, -, hr⟩ := hread p s' (by have := le_max_right first lock.start; omega) (by omega)
    have hle : start ≤ e := le_trans h1 h2
    rw [hr]
    refine ⟨storeFill_ret hle, ⟨hc'.fill hle, by rw [logicalAt_fill hc'.sorted hle, hM], hlp', by omega,
      fun j hpj hjk => ?_⟩, hpp, fun q hq => ?_⟩
    · rcases Nat.lt_or_ge pos j with hpj' | hpj'
      · exact hwin j hpj' hjk
      · rw [← hM]; exact hw j hpj hpj'
    · have hpass' := prevScan_ok (hc'.fill hle) p hlp'
      rw [hq] at hpass'
      obtain ⟨-, hqp, hnq, -⟩ := hpass'
      have hpq' : p ≠ q := fun e => by
        have := checkRange_fill hc' hle ⟨h1, h2⟩
        rw [e, hnq] at this
        exact nomatch this
      omega
  refine ⟨⟨_, walkLoop_isSome P id hstep _ _ s key le_rfl le_rfl hP0⟩,
    fun fuel r h => walkLoop_result P (fun r => GreatestAnswer (logicalAt S s) (max first lock.start) key bufLen r.2)
      ?_ ?_ (fun s' pos p hP hp => (hstep s' pos p hP hp).imp_right And.left) fuel s key r hP0 h⟩
  · intro s' pos it ⟨hc', hM, hlp, hpk, hwin⟩ hscan
    have hpass := prevScan_ok hc' pos hlp
    rw [hscan] at hpass
    obtain ⟨hmem, hd, hli, hip, hw⟩ := hpass
    have hMit : logicalAt S s it.key = some it.value := hM ▸ logicalAt_of_mem hc'.sorted hmem hd
    have hafter : ∀ j, it.key < j → j ≤ key → logicalAt S s j = none := fun j hij hjk => by
      rcases Nat.lt_or_ge pos j with hpj | hpj
      · exact hwin j hpj hjk
      · rw [← hM]; exact hw j hij hpj
    rw [walkFound_snd (hc'.bufferOk hmem)]
    refine ⟨⟨fun h => (nomatch congrArg Prod.snd h), fun h => ?_⟩, fun k v hk1 hk2 hkv hgreatest => ?_⟩
    · rw [h it.key hli (le_trans hip hpk)] at hMit
      exact nomatch hMit
    · obtain rfl : k = it.key := by
        rcases lt_trichotomy k it.key with hlt | heq | hgt
        · rw [hgreatest it.key hlt (le_trans hip hpk)] at hMit; exact nomatch hMit
        · exact heq
        · rw [hafter k hgt hk2] at hkv; exact nomatch hkv
      rw [hMit] at hkv
      cases hkv
      rfl
  · intro s' pos ⟨hc', hM, hlp, hpk, hwin⟩ hscan
    have hpass := prevScan_ok hc' pos hlp
    rw [hscan] at hpass
    have hall : ∀ k, max first lock.start ≤ k → k ≤ key → logicalAt S s k = none := fun k hk1 hk2 => by
      rcases Nat.lt_or_ge pos k with hpk' | hpk'
      · exact hwin k hpk' hk2
      · rw [← hM]; exact hpass k hk1 hpk'
    exact ⟨iff_of_true rfl hall, fun k v hk1 hk2 hkv _ => by rw [hall k hk1 hk2] at hkv; exact nomatch hkv⟩

theorem prev_answers_at_setup :
    (∃ fuel, (scoutfsItemPrev fillTen fuel setupWorld.cache 9 2 (some 8) ⟨.read, 0, 10⟩).isSome) ∧
    ∀ fuel r, scoutfsItemPrev fillTen fuel setupWorld.cache 9 2 (some 8) ⟨.read, 0, 10⟩ = some r →
      GreatestAnswer (logicalAt keyThreeStore setupWorld.cache) (max 2 0) 9 (some 8) r.2 :=
  prev_answers_greatest_key setup_coherent fillTen_reader 9 2 (some 8) rfl

end Walks

/-! ## scoutfs_item_lookup -/

section Lookup

variable {S : Nat → Option Bytes} {s : ItemCache}

end Lookup


unseal insertItem insertRange eraseWalk removeRangePass removeRangeLoop in
/-- With the freed flag read as 0, delete 3, create 3 and delete 3 again
leave 3 covered with no item while the store holds `[7]`: the lookup
answers `-ENOENT` where the content is `[7]`. Once an invalidation of
`[0, 10]`, which finds no dirty item, drops the range, a lookup fills from
the store and answers with the value deleted twice. -/
theorem recreate_lookup_misses_content (M : Nat) (read : Reader) :
    StoreReachable (M + 1) ⟨exec (execAll setupWorld (recreateRun freedZeroed)) (.delete 3), keyThreeStore⟩ ∧
      logicalAt keyThreeStore (exec (execAll setupWorld (recreateRun freedZeroed)) (.delete 3)).cache 3 = some [7] ∧
      (scoutfsItemLookup read 1 (exec (execAll setupWorld (recreateRun freedZeroed)) (.delete 3)).cache
        3 (some 8) ⟨.read, 0, 10⟩).map (·.2) = some (-ENOENT, []) ∧
      StoreReachable (M + 1)
        ⟨exec (exec (execAll setupWorld (recreateRun freedZeroed)) (.delete 3)) (.invalidate 0 10), keyThreeStore⟩ ∧
      (scoutfsItemLookup fillTen 2
        (exec (exec (execAll setupWorld (recreateRun freedZeroed)) (.delete 3)) (.invalidate 0 10)).cache
        3 (some 8) ⟨.read, 0, 10⟩).map (·.2) = some (1, [7]) := by
  have h4 := recreateRun_zeroed_delete M
  refine ⟨h4, by decide, ?_, h4.step (.exec (.invalidate 0 10) nofun nofun rfl (by decide)), by decide⟩
  rw [scoutfsItemLookup, if_neg (by decide), readRetry, if_neg (by decide)]
  decide

end ScoutfsItemCache
