import ScoutfsItemCache.Reads

/-! # The queries over keys and ranges

`scoutfs_item_copy_keys` hands a caller the keys of the cached items from
a key on, `scoutfs_item_copy_range_keys` the bounds of the cached ranges
from a key on, and `scoutfs_item_range_cached` without `dirty` asks
whether a cached range meets an interval. Each starts with a descent and
then follows the in-order sequence. Over a sorted item tree `next_item`
and `rb_next` visit the items with a key at or above the searched one
(`filter_nextItem`); over well formed ranges the descent splits the
ranges at the key (`rangePath_split`), so the range it stops at, or else
the next one, and the ranges after it are those that end at or above the
key (`dropWhile_rangeFirst`). So `copy_keys` returns the
keys of the first live items from the key on
(`copy_keys_lists_live_keys`), `copy_range_keys` the bounds of the first
ranges that end at or after it (`copy_range_keys_lists_ranges`), and
`range_cached` answers whether some cached range intersects the interval
(`reachable_range_cached_overlap`).
-/

namespace ScoutfsItemCache

/-! ## Keys of live items -/

/-- `scoutfs_item_copy_keys` returns the keys of the first `nr` items that
are not deletion items, among the items with a key at or after `key`, in
increasing order. -/
theorem copy_keys_lists_live_keys {t : Tree CachedItem} (hs : ItemsSorted t) (key nr : Nat) :
    scoutfsItemCopyKeys t key nr =
      (((t.toList.filter fun it => key ≤ it.key).filter fun it => !it.deletion).map CachedItem.key).take nr := by
  have hf := filter_nextItem hs key
  unfold scoutfsItemCopyKeys
  rcases hn : nextItem t key with _ | a <;> simp only [hn] at hf ⊢ <;> rw [hf]

/-- Three items, the middle one a deletion item. -/
def threeItems : Tree CachedItem :=
  .node (.node .nil (allocItem 1 none) .nil) { allocItem 2 none with deletion := true }
    (.node .nil (allocItem 3 none) .nil)

theorem copy_keys_three_items :
    ItemsSorted threeItems ∧
      scoutfsItemCopyKeys threeItems 1 5 =
        (((threeItems.toList.filter fun it => 1 ≤ it.key).filter fun it => !it.deletion).map
          CachedItem.key).take 5 :=
  ⟨by unfold ItemsSorted Sorted; decide, copy_keys_lists_live_keys (by unfold ItemsSorted Sorted; decide) 1 5⟩

/-! ## Ranges from a key on -/

section Ranges

variable {t : Tree CachedRange}

theorem dropWhile_ne_append {A B : List CachedRange} {x : CachedRange} (h : ∀ a ∈ A, a ≠ x) :
    (A ++ x :: B).dropWhile (fun r => decide (r ≠ x)) = x :: B := by
  rw [List.dropWhile_append_of_pos fun a ha => by simpa using h a ha, List.dropWhile_cons_of_neg (by simp)]

theorem filter_end_split {A B : List CachedRange} {key : Nat} (hA : ∀ a ∈ A, a.end < key)
    (hB : ∀ b ∈ B, key ≤ b.end) : (A ++ B).filter (fun r => key ≤ r.end) = B := by
  rw [List.filter_append, List.filter_eq_nil_iff.2 fun a ha => by simpa using hA a ha, List.nil_append,
    List.filter_eq_self.2 fun b hb => by simpa using hB b hb]

/-- Over well formed ranges the descent for `key` splits the ranges, in
order, into those that end below `key`, the range holding `key` where the
descent stops at one, and those that start above `key`, the first of
which is the next parent where it stops at none. -/
theorem rangePath_split (hok : RangesOk t.toList) (key : Nat) :
    ∃ A B, (∀ a ∈ A, a.end < key) ∧ (∀ b ∈ B, key < b.start ∧ b.start ≤ b.end) ∧
      ((∃ x, (rangePath t key).2.root = some x ∧ t.toList = A ++ x :: B ∧ x.start ≤ key ∧ key ≤ x.end) ∨
        ((rangePath t key).2.root = none ∧ nextParent (rangePath t key).1 = B.head? ∧ t.toList = A ++ B)) := by
  obtain ⟨hplug, hl, hr⟩ := rangeDescend (p := []) (t := t) (q := (rangePath t key).1)
    (f := (rangePath t key).2) rfl (by simpa using hok) le_rfl (by simp) (by simp)
  simp only [plug_nil] at hplug
  have hlt : ∀ a ∈ lefts (rangePath t key).1, a.end < key := hl
  rcases hp : rangePath t key with ⟨q, _ | ⟨l, x, r⟩⟩ <;> rw [hp] at hplug hlt hr
  · have ht : t.toList = lefts q ++ rights q := by rw [← hplug, toList_plug]; simp
    exact ⟨_, _, hlt, fun b hb => ⟨hr b hb, hok.1 b (by simp [ht, hb])⟩, .inr ⟨rfl, nextParent_eq_head q, ht⟩⟩
  · have ⟨hxs, hxe⟩ := rangePath_node hp
    have ht : t.toList = (lefts q ++ l.toList) ++ x :: (r.toList ++ rights q) := by
      rw [← hplug, toList_plug]; simp
    rw [ht] at hok
    refine ⟨_, _, fun a ha => ?_, fun b hb => ?_, .inl ⟨x, rfl, ht, hxs, hxe⟩⟩
    · have := hok.split.1 a ha; omega
    · have := hok.split.2 b hb; have := hok.1 b (by simp [hb]); omega

/-- The ranges `copy_range_keys` walks: from the range holding `key`, or
else the next one, to the last. These are the ranges that end at or
after `key`. -/
theorem dropWhile_rangeFirst (hok : RangesOk t.toList) (key : Nat) :
    (match (rangePath t key).2.root <|> nextParent (rangePath t key).1 with
      | some rng => t.toList.dropWhile fun r => decide (r ≠ rng)
      | none => []) = t.toList.filter fun r => key ≤ r.end := by
  obtain ⟨A, B, hA, hB, ⟨x, hx, ht, -, hxe⟩ | ⟨hn, hnext, ht⟩⟩ := rangePath_split hok key
  · have hxB : ∀ b ∈ x :: B, key ≤ b.end := List.forall_mem_cons.2 ⟨hxe, fun b hb => by have := hB b hb; omega⟩
    simp only [hx, Option.some_orElse]
    rw [ht, dropWhile_ne_append fun a ha hax => by have := hA a ha; subst hax; omega, filter_end_split hA hxB]
  · simp only [hn, Option.none_orElse, hnext]
    rw [ht, filter_end_split hA fun b hb => by have := hB b hb; omega]
    rcases B with _ | ⟨b, B⟩
    · rfl
    · have := hB b (.head _)
      exact dropWhile_ne_append fun a ha hab => by have := hA a ha; subst hab; omega

/-- `scoutfs_item_copy_range_keys` returns the start and end of the first
`nr / 2` cached ranges that end at or after `key`, in order. -/
theorem copy_range_keys_lists_ranges (hok : RangesOk t.toList) (key nr : Nat) :
    scoutfsItemCopyRangeKeys t key nr =
      (((t.toList.filter fun r => key ≤ r.end).take (nr / 2)).map fun r => [r.start, r.end]).flatten := by
  rw [← dropWhile_rangeFirst hok key]
  rfl

/-- Two ranges with a gap between them. -/
def twoRanges : Tree CachedRange := .node .nil ⟨0, 10⟩ (.node .nil ⟨20, 30⟩ .nil)

theorem copy_range_keys_two_ranges :
    RangesOk twoRanges.toList ∧
      scoutfsItemCopyRangeKeys twoRanges 15 4 =
        (((twoRanges.toList.filter fun r => 15 ≤ r.end).take (4 / 2)).map fun r => [r.start, r.end]).flatten :=
  ⟨by unfold RangesOk; decide, copy_range_keys_lists_ranges (by unfold RangesOk; decide) 15 4⟩

/-- Over well formed ranges and for `start <= end`, `range_cached` without
`dirty` answers whether a cached range intersects `[start, end]`. -/
theorem scoutfsItemRangeCached_false_iff {s : ItemCache} (hok : RangesOk s.ranges.toList) {start «end» : Nat}
    (hse : start ≤ «end») :
    scoutfsItemRangeCached s start «end» false = true ↔
      ∃ rng ∈ s.ranges.toList, rng.start ≤ «end» ∧ start ≤ rng.end := by
  unfold scoutfsItemRangeCached walkRanges
  simp only [Bool.false_eq_true, if_false]
  obtain ⟨A, B, hA, hB, ⟨x, hx, ht, hxs, hxe⟩ | ⟨hn, hnext, ht⟩⟩ := rangePath_split hok start
  · simp only [hx, Option.isSome_some, Bool.true_or, true_iff]
    exact ⟨x, by simp [ht], by omega, hxe⟩
  · simp only [hn, Option.isSome_none, Bool.false_or, hnext]
    rw [ht] at hok ⊢
    rcases B with _ | ⟨b, B⟩
    · simp only [List.head?_nil, List.append_nil, Bool.false_eq_true, false_iff, not_exists, not_and]
      intro rng hrng _ hse'
      have := hA rng hrng
      omega
    · have hb := hB b (.head _)
      simp only [List.head?_cons, decide_eq_true_eq, scoutfsKeyCompare_nonpos]
      constructor
      · exact fun hbs => ⟨b, by simp, hbs, by omega⟩
      · rintro ⟨rng, hrng, hrs, hre⟩
        rcases List.mem_append.1 hrng with hrng | hrng
        · have := hA rng hrng; omega
        · rcases List.mem_cons.1 hrng with rfl | hrng
          · exact hrs
          · have := hok.split.2 rng hrng; omega

end Ranges

/-- In every reachable world, `scoutfs_item_range_cached` without `dirty`,
for `start <= end`, answers whether a cached range intersects
`[start, end]`. -/
theorem reachable_range_cached_overlap {M : Nat} {w : World} (h : Reachable M w) {start «end» : Nat}
    (hse : start ≤ «end») :
    scoutfsItemRangeCached w.cache start «end» false = true ↔
      ∃ rng ∈ w.cache.ranges.toList, rng.start ≤ «end» ∧ start ≤ rng.end :=
  scoutfsItemRangeCached_false_iff (AbsCache.Inv.ranges h.inv.cache) hse

unseal insertRange in
theorem range_cached_after_fill :
    Reachable 0 (execAll setupWorld coveredTenRun) ∧ (3 : Nat) ≤ 12 ∧
      (scoutfsItemRangeCached (execAll setupWorld coveredTenRun).cache 3 12 false = true ↔
        ∃ rng ∈ (execAll setupWorld coveredTenRun).cache.ranges.toList, rng.start ≤ 12 ∧ 3 ≤ rng.end) :=
  have h : Reachable 0 (execAll setupWorld coveredTenRun) := Reachable.setup.execAll coveredTenRun rfl (by decide)
  ⟨h, by decide, reachable_range_cached_overlap h (by decide)⟩

end ScoutfsItemCache
