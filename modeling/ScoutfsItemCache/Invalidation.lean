import ScoutfsItemCache.Reads

/-! # What an invalidation drops

`scoutfs_item_invalidate` erases the items of `[start, end]` and then
removes the range from the cached ranges with `remove_range`.

The erasing walk starts at `next_item` of `start`, at or before every
cached key of the range, and each step goes to the least key after the
one it erased, so every item of the range goes (`eraseWalk_clears`), and
the walk erases nothing else (`eraseWalk_getAt_go`). No key of the range
stays covered (`covered_removeRange`). So in every reachable world the
call drops exactly the items of the range and uncovers all of its keys
(`reachable_invalidate_drops_range`).

`remove_range` can uncover more than the range: it erases whole a range
that shares an endpoint with the removed one and reaches past its other
end (`invalidate_uncovers_keys_outside_range`). Those two shapes are the
only ones. Where no cached range has one of them (`NoSharedEnd`), every
key covered outside the removed range stays covered
(`covered_removeRange_keeps`), and the call leaves covered exactly the
keys covered before outside `[start, end]`
(`reachable_invalidate_uncovers_exactly`). The loop invariant,
`RemoveKeep`, follows the two phases of the loop: before a split the
range still to remove lies inside the removed one, and after a split the
right half to be linked meets no range.
-/

namespace ScoutfsItemCache

/-! ## The walk over the items -/

section Walk

variable {s : ItemCache}

/-- The walk of `scoutfs_item_invalidate`, from an item at or before every
cached key of `[lo, e]`, erases every item of `[lo, e]`. -/
theorem eraseWalk_clears {go isLast : CachedItem → Bool} {lo e : Nat} (hgo : ∀ z, go z = true ↔ z.key ≤ e)
    (hlast : ∀ z, isLast z = false) (item : Option CachedItem) (count : Nat) :
    ItemsSorted s.items →
      (∀ k, lo ≤ k → k ≤ e → (getAt k (itemsOf s.items)).isSome →
        ∃ it, item = some it ∧ (getAt it.key (itemsOf s.items)).isSome ∧ it.key ≤ k) →
      ∀ k, lo ≤ k → k ≤ e → getAt k (itemsOf (eraseWalk go isLast s item count).1.items) = none := by
  induction s, item, count using eraseWalk.induct go isLast with
  | case1 s count =>
    intro _ hI k h1 h2
    rw [eraseWalk_none, ← Option.not_isSome_iff_eq_none]
    intro hk
    obtain ⟨it, h, -⟩ := hI k h1 h2 hk
    cases h
  | case2 s count it hgo' p l x r h ih =>
    intro hs hI
    rw [eraseWalk_of_node hgo' h]
    obtain ⟨hplug, hxk⟩ := itemPath_node h
    have hp := itemPath_pointsTo h
    have hx : x ∈ s.items.toList := by rw [← hplug, toList_plug]; simp
    simp only [dite_eq_ite, hlast, Bool.false_eq_true, if_false] at ih ⊢
    refine ih (unlinkItem_sorted hs hp) fun k h1 h2 hk => ?_
    rw [eraseItem, getAt_unlinkItem hs hp] at hk
    split_ifs at hk with hkx
    · cases hk
    obtain ⟨_, ⟨⟩, -, hle⟩ := hI k h1 h2 hk
    obtain ⟨y, hy⟩ := Option.isSome_iff_exists.1 hk
    obtain ⟨w, hw, -, hwk⟩ := exists_mem_of_getAt hy
    rcases hn : rbNextItem s.items it.key with _ | z
    · have := rbNextItem_none hs hx (hxk ▸ hn) w hw; omega
    · obtain ⟨hz, hlt, hmin⟩ := rbNextItem_some hs hx (hxk ▸ hn)
      refine ⟨z, rfl, ?_, by have := hmin w hw (by omega); omega⟩
      rw [eraseItem, getAt_unlinkItem hs hp, if_neg (by omega), hs.getAt_of_mem hz]
      rfl
  | case3 s count it hgo' p h =>
    intro hs hI k h1 h2
    rw [eraseWalk_of_nil hgo' h, ← Option.not_isSome_iff_eq_none]
    intro hk
    obtain ⟨_, ⟨⟩, hsome, -⟩ := hI k h1 h2 hk
    rw [itemPath_nil hs h] at hsome
    cases hsome
  | case4 s count it hgo' =>
    intro _ hI k h1 h2
    rw [eraseWalk_stop (by simpa using hgo'), ← Option.not_isSome_iff_eq_none]
    intro hk
    obtain ⟨_, ⟨⟩, -, hle⟩ := hI k h1 h2 hk
    exact hgo' ((hgo it).2 (by omega))

/-- `next_item` of `lo` is at or before every cached key from `lo` on. -/
theorem nextItem_le (hs : ItemsSorted s.items) {lo k : Nat} (hk : lo ≤ k) (h : (getAt k (itemsOf s.items)).isSome) :
    ∃ it, nextItem s.items lo = some it ∧ (getAt it.key (itemsOf s.items)).isSome ∧ it.key ≤ k := by
  obtain ⟨y, hy⟩ := Option.isSome_iff_exists.1 h
  obtain ⟨w, hw, -, rfl⟩ := exists_mem_of_getAt hy
  have hwf : w ∈ s.items.toList.filter fun x => lo ≤ x.key := List.mem_filter.2 ⟨hw, by simpa using hk⟩
  have hpw : (s.items.toList.filter fun x => lo ≤ x.key).Pairwise fun a b => a.key < b.key :=
    List.Pairwise.sublist (List.filter_sublist _) hs.toList
  rw [filter_nextItem hs] at hwf hpw
  rcases hn : nextItem s.items lo with _ | a <;> rw [hn] at hwf hpw
  · cases hwf
  refine ⟨a, rfl, by rw [hs.getAt_of_mem (nextItem_mem hn)]; rfl, ?_⟩
  rcases List.mem_cons.1 hwf with rfl | hwf
  · exact le_rfl
  · exact (List.rel_of_pairwise_cons hpw hwf).le

end Walk

/-! ## What `remove_range` keeps -/

/-- No range of `L` shares an endpoint of `rem` and reaches past its other
end: the two shapes that `remove_range` erases whole. -/
def NoSharedEnd (L : List CachedRange) (rem : CachedRange) : Prop :=
  ∀ y ∈ L, ¬(y.start = rem.start ∧ rem.end < y.end) ∧ ¬(y.end = rem.end ∧ y.start < rem.start)

instance (L : List CachedRange) (rem : CachedRange) : Decidable (NoSharedEnd L rem) :=
  inferInstanceAs (Decidable (∀ y ∈ L, _))

/-- In well formed ranges every other range lies wholly before or after
the range at a node. -/
theorem RangesOk.apart_of_others {p : List (Frame CachedRange)} {l r : Tree CachedRange} {x y : CachedRange}
    (hok : RangesOk (plug p (.node l x r)).toList) (hy : y ∈ lefts p ++ l.toList ++ r.toList ++ rights p) :
    y.end < x.start ∨ x.end < y.start := by
  rw [show (plug p (.node l x r)).toList = (lefts p ++ l.toList) ++ x :: (r.toList ++ rights p) by
    simp [toList_plug]] at hok
  simp only [List.append_assoc, List.mem_append] at hy
  rcases hy with hy | hy | hy | hy
  · exact .inl (hok.split.1 y (by simp [hy]))
  · exact .inl (hok.split.1 y (by simp [hy]))
  · exact .inr (hok.split.2 y (by simp [hy]))
  · exact .inr (hok.split.2 y (by simp [hy]))

/-- What the restart loop of `remove_range` keeps while it removes `rem0`
from the ranges `t0`: every key covered in `t0` outside `rem0` stays
covered. Before a split the range being removed lies in `rem0` and no
range shares one of its endpoints and reaches past the other; after one,
the right half to be linked meets no range and holds the kept keys of the
split range. -/
def RemoveKeep (t0 : Tree CachedRange) (rem0 : CachedRange) (t : Tree CachedRange) (rem : CachedRange) :
    Bool → Prop
  | false => (∀ k, covered t0 k = true → rem0.contains k = false → covered t k = true) ∧
      rem0.start ≤ rem.start ∧ rem.end ≤ rem0.end ∧ NoSharedEnd t.toList rem
  | true => (∀ k, covered t0 k = true → rem0.contains k = false → covered t k = true ∨ rem.contains k = true) ∧
      ∀ y ∈ t.toList, y.end < rem.start ∨ rem.end < y.start

/-- What a pass of `remove_range` hands to the loop. -/
def RemoveStep.Keeps (t0 : Tree CachedRange) (rem0 : CachedRange) : RemoveStep → Prop
  | .done t => ∀ k, covered t0 k = true → rem0.contains k = false → covered t k = true
  | .restart t rem insert => RemoveKeep t0 rem0 t rem insert

section RemoveKeep

variable {t0 : Tree CachedRange} {rem0 rem rng : CachedRange} {q : List (Frame CachedRange)}
  {l r : Tree CachedRange}

/-- A right half to be linked meets no range, so the descent for it never
stops at one. -/
theorem RemoveKeep.not_overlap (hc : RemoveKeep t0 rem0 (plug q (.node l rng r)) rem true)
    (hov : rng.start ≤ rem.end ∧ rem.start ≤ rng.end) : False := by
  rcases hc.2 rng (by simp [toList_plug]) with h | h <;> omega

/-- A kept key of the tree is in the range at the node, or in another. -/
theorem RemoveKeep.kept (hc : RemoveKeep t0 rem0 (plug q (.node l rng r)) rem false) {k : Nat}
    (hk : covered t0 k = true) (h0 : rem0.contains k = false) :
    (rng.start ≤ k ∧ k ≤ rng.end ∧ (k < rem.start ∨ rem.end < k)) ∨
      (lefts q ++ l.toList ++ r.toList ++ rights q).any (·.contains k) = true := by
  obtain ⟨hkeep, h0s, h0e, -⟩ := hc
  rcases (covered_plug_node q l r rng k).1 (hkeep k hk h0) with hk' | hk'
  · simp only [CachedRange.contains, Bool.and_eq_true, decide_eq_true_eq, Bool.and_eq_false_iff,
      decide_eq_false_iff_not, not_le] at hk' h0
    left; omega
  · exact .inr hk'

end RemoveKeep

/-- One pass of `remove_range` keeps every key covered outside the removed
range. -/
theorem removeRangePass_keeps {rem : CachedRange} {insert : Bool} {p : List (Frame CachedRange)}
    {t : Tree CachedRange} {t0 : Tree CachedRange} {rem0 : CachedRange} (hok : RangesOk (plug p t).toList)
    (hrem : rem.start ≤ rem.end) (hl : ∀ y ∈ lefts p, y.end < rem.start) (hr : ∀ y ∈ rights p, rem.end < y.start)
    (hc : RemoveKeep t0 rem0 (plug p t) rem insert) : (removeRangePass rem insert p t).Keeps t0 rem0 := by
  induction rem, insert, p, t using removeRangePass.induct with
  | case1 rem insert p t q h =>
    obtain ⟨hplug, -, -⟩ := rangeDescend h hok hrem hl hr
    rw [removeRangePass_of_nil h]
    rw [← hplug] at hc
    intro k hk h0
    cases insert
    · exact hc.1 k hk h0
    · -- the right half of a split is linked
      rw [if_pos rfl, covered_plug_node]
      rcases hc.1 k hk h0 with hk' | hk'
      · exact .inr (by simpa using (covered_plug_nil q k).1 hk')
      · exact .inl hk'
  | case2 rem insert p t q l rng r h hsplit =>
    obtain ⟨hplug, -, -⟩ := rangeDescend h hok hrem hl hr
    have hov := descend_range_overlaps h
    rw [removeRangePass_of_node h, if_pos hsplit]
    rw [← hplug] at hc hok
    simp only [scoutfsKeyCompare_pos, scoutfsKeyCompare_neg] at hsplit
    cases insert
    · refine ⟨fun k hk h0 => ?_, fun y hy => ?_⟩
      · -- a kept key of the split range lies in its left half or in its right half
        rw [covered_plug_node]
        rcases hc.kept hk h0 with hk' | hk'
        · simp only [CachedRange.contains, scoutfsKeyDec_eq, scoutfsKeyInc_eq, Bool.and_eq_true,
            decide_eq_true_eq]
          omega
        · exact .inl (.inr hk')
      · rcases mem_plug_node_iff.1 hy with rfl | hy
        · left; simp only [scoutfsKeyDec_eq, scoutfsKeyInc_eq]; omega
        · rcases hok.apart_of_others hy with h1 | h1
          · left; simp only [scoutfsKeyInc_eq]; omega
          · exact .inr h1
    · exact (hc.not_overlap hov).elim
  | case3 rem insert p t q l rng r h hsplit htrim ih =>
    rw [removeRangePass_of_node h, if_neg hsplit, if_pos htrim]
    simp only [scoutfsKeyCompare_pos, scoutfsKeyCompare_neg] at htrim
    obtain ⟨h1, h2, h3, h4⟩ := removeRangePass_trimStart h hok hrem hl hr htrim
    obtain ⟨hplug, -, -⟩ := rangeDescend h hok hrem hl hr
    have hov := descend_range_overlaps h
    rw [← hplug] at hc hok
    cases insert
    · refine ih h1 h2 h3 h4 ⟨fun k hk h0 => ?_, hc.2.1, by dsimp only; have := hc.2.2.1; omega, fun y hy => ?_⟩
      · -- the kept keys of the trimmed range lie after `rem`
        rw [covered_plug_node]
        rcases hc.kept hk h0 with hk' | hk'
        · left
          simp only [CachedRange.contains, scoutfsKeyInc_eq, Bool.and_eq_true, decide_eq_true_eq]
          omega
        · exact .inr hk'
      · rcases mem_plug_node_iff.1 hy with rfl | hy
        · simp only [scoutfsKeyInc_eq]; omega
        · have hy1 := hok.1 y (mem_plug_node_iff.2 (.inr hy))
          have := hok.apart_of_others hy
          dsimp only
          omega
    · exact (hc.not_overlap hov).elim
  | case4 rem insert p t q l rng r h hsplit htrim htrim' ih =>
    rw [removeRangePass_of_node h, if_neg hsplit, if_neg htrim, if_pos htrim']
    simp only [scoutfsKeyCompare_pos, scoutfsKeyCompare_neg] at htrim'
    obtain ⟨h1, h2, h3, h4⟩ := removeRangePass_trimEnd h hok hrem hl hr htrim'
    obtain ⟨hplug, -, -⟩ := rangeDescend h hok hrem hl hr
    have hov := descend_range_overlaps h
    rw [← hplug] at hc hok
    cases insert
    · refine ih h1 h2 h3 h4 ⟨fun k hk h0 => ?_, by dsimp only; have := hc.2.1; omega, hc.2.2.1, fun y hy => ?_⟩
      · -- the kept keys of the trimmed range lie before `rem`
        rw [covered_plug_node]
        rcases hc.kept hk h0 with hk' | hk'
        · left
          simp only [CachedRange.contains, scoutfsKeyDec_eq, Bool.and_eq_true, decide_eq_true_eq]
          omega
        · exact .inr hk'
      · rcases mem_plug_node_iff.1 hy with rfl | hy
        · simp only [scoutfsKeyDec_eq]; omega
        · have hy1 := hok.1 y (mem_plug_node_iff.2 (.inr hy))
          have := hok.apart_of_others hy
          dsimp only
          omega
    · exact (hc.not_overlap hov).elim
  | case5 rem insert p t q l rng r h hsplit htrim htrim' =>
    obtain ⟨hplug, -, -⟩ := rangeDescend h hok hrem hl hr
    have hov := descend_range_overlaps h
    rw [removeRangePass_of_node h, if_neg hsplit, if_neg htrim, if_neg htrim']
    rw [← hplug] at hc hok
    simp only [scoutfsKeyCompare_pos, scoutfsKeyCompare_neg, not_and, not_lt] at hsplit htrim htrim'
    cases insert
    · -- with no shared endpoint, the erased range lies in `rem`
      have hns := hc.2.2.2 rng (mem_plug_node_iff.2 (.inl rfl))
      have hin : rem.start ≤ rng.start ∧ rng.end ≤ rem.end := by omega
      refine ⟨fun k hk h0 => ?_, hc.2.1, hc.2.2.1, fun y hy => hc.2.2.2 y ?_⟩
      · rw [covered_rbErase]
        rcases hc.kept hk h0 with hk' | hk'
        · omega
        · exact hk'
      · rw [toList_rbErase] at hy
        exact mem_plug_node_iff.2 (.inr hy)
    · exact (hc.not_overlap hov).elim

/-- `remove_range` keeps every key covered outside the removed range when
no range shares an endpoint of it and reaches past the other. -/
theorem covered_removeRange_keeps {t : Tree CachedRange} {rem : CachedRange} (hok : RangesOk t.toList)
    (hrem : rem.start ≤ rem.end) (hns : NoSharedEnd t.toList rem) {k : Nat} (hk : covered t k = true)
    (h0 : rem.contains k = false) : covered (removeRange t rem) k = true := by
  suffices ∀ t' rem' insert, RangesOk t'.toList → rem'.start ≤ rem'.end → RemoveKeep t rem t' rem' insert →
      covered (removeRangeLoop t' rem' insert) k = true from
    this t rem false hok hrem ⟨fun _ hk _ => hk, le_rfl, le_rfl, hns⟩
  intro t' rem' insert hok' hrem' hc
  induction t', rem', insert using removeRangeLoop.induct with
  | case1 t' rem' insert t'' h =>
    have := removeRangePass_keeps (p := []) (by simpa using hok') hrem' (by simp) (by simp) (by simpa using hc)
    rw [h] at this
    rw [removeRangeLoop_of_done h]
    exact this k hk h0
  | case2 t' rem' insert t'' rem'' insert' h ih =>
    have hc' := removeRangePass_keeps (p := []) (by simpa using hok') hrem' (by simp) (by simp) (by simpa using hc)
    have hok'' : (removeRangePass rem' insert [] t').Ok :=
      removeRangePass_ok (by simpa using hok') hrem' (by simp) (by simp)
    rw [h] at hc' hok''
    rw [removeRangeLoop_of_restart h]
    exact ih hok''.1 hok''.2 hc'

/-! ## The whole call -/

section Invalidate

variable {s : ItemCache}

/-- `scoutfs_item_invalidate` over a sorted tree and well formed ranges,
for `start <= end`, drops exactly the items with a key in `[start, end]`,
and no key of `[start, end]` stays covered. -/
theorem invalidate_drops_range (hs : ItemsSorted s.items) (hok : RangesOk s.ranges.toList) {start «end» : Nat}
    (hse : start ≤ «end») :
    (∀ k, getAt k (itemsOf (scoutfsItemInvalidate s start «end» false).1.items) =
      if start ≤ k ∧ k ≤ «end» then none else getAt k (itemsOf s.items)) ∧
    ∀ k, start ≤ k → k ≤ «end» → covered (scoutfsItemInvalidate s start «end» false).1.ranges k = false := by
  have hgo : ∀ z : CachedItem, decide (scoutfsKeyCompare z.key «end» ≤ 0) = true ↔ z.key ≤ «end» := by
    simp [scoutfsKeyCompare_nonpos]
  refine ⟨fun k => ?_, fun k h1 h2 => ?_⟩
  · show getAt k (itemsOf (eraseWalk _ _ s _ 0).1.items) = _
    split_ifs with hk
    · exact eraseWalk_clears hgo (fun _ => rfl) _ 0 hs (fun k h1 _ hk => nextItem_le hs h1 hk) k hk.1 hk.2
    · rcases (eraseWalk_getAt_go (fun z hz => (hgo z).1 hz) _ 0 hs fun it hit => nextItem_ge hs hit).2 k with
        e | ⟨h1, h2, -⟩
      · exact e
      · exact absurd ⟨h1, h2⟩ hk
  · rw [Bool.eq_false_iff]
    intro hc
    have := (covered_removeRange (by rw [ranges_eraseWalk]; exact hok) hse k hc).2
    simp [CachedRange.contains, h1, h2] at this

end Invalidate

/-- In every reachable world `scoutfs_item_invalidate` of `[start, end]`,
for `start <= end`, drops exactly the items with a key in the range, and
no key of the range stays covered. -/
theorem reachable_invalidate_drops_range {M : Nat} {w : World} (h : Reachable M w) {start «end» : Nat}
    (hse : start ≤ «end») :
    (∀ k, getAt k (itemsOf (scoutfsItemInvalidate w.cache start «end» false).1.items) =
      if start ≤ k ∧ k ≤ «end» then none else getAt k (itemsOf w.cache.items)) ∧
    ∀ k, start ≤ k → k ≤ «end» → covered (scoutfsItemInvalidate w.cache start «end» false).1.ranges k = false :=
  invalidate_drops_range h.inv.cache.sorted (AbsCache.Inv.ranges h.inv.cache) hse

/-- A fill of `[0, 10]` with items at keys 3 and 7. -/
def twoItemRun : List Op := [.insertBatch [(3, none), (7, none)] 0 10]

unseal insertItem insertRange in
theorem invalidate_after_two_item_fill :
    Reachable 0 (execAll setupWorld twoItemRun) ∧ (2 : Nat) ≤ 5 ∧
      ((∀ k, getAt k (itemsOf (scoutfsItemInvalidate (execAll setupWorld twoItemRun).cache 2 5 false).1.items) =
        if 2 ≤ k ∧ k ≤ 5 then none else getAt k (itemsOf (execAll setupWorld twoItemRun).cache.items)) ∧
      ∀ k, 2 ≤ k → k ≤ 5 → covered (scoutfsItemInvalidate (execAll setupWorld twoItemRun).cache 2 5 false).1.ranges k = false) :=
  have h : Reachable 0 (execAll setupWorld twoItemRun) := Reachable.setup.execAll twoItemRun rfl (by decide)
  ⟨h, by decide, reachable_invalidate_drops_range h (by decide)⟩

/-- In every reachable world where no cached range shares an endpoint with
`[start, end]` and reaches past its other end, `scoutfs_item_invalidate`
of `[start, end]`, for `start <= end`, leaves covered exactly the keys
covered before outside `[start, end]`. -/
theorem reachable_invalidate_uncovers_exactly {M : Nat} {w : World} (h : Reachable M w) {start «end» : Nat}
    (hse : start ≤ «end») (hns : NoSharedEnd w.cache.ranges.toList ⟨start, «end»⟩) (k : Nat) :
    covered (scoutfsItemInvalidate w.cache start «end» false).1.ranges k = true ↔
      covered w.cache.ranges k = true ∧ ¬(start ≤ k ∧ k ≤ «end») := by
  have hok := AbsCache.Inv.ranges h.inv.cache
  show covered (removeRange (eraseWalk _ _ w.cache _ 0).1.ranges ⟨start, «end»⟩) k = true ↔ _
  rw [ranges_eraseWalk]
  constructor
  · intro hk
    obtain ⟨h1, h2⟩ := covered_removeRange hok hse k hk
    exact ⟨h1, by simpa [CachedRange.contains] using h2⟩
  · rintro ⟨h1, h2⟩
    exact covered_removeRange_keeps hok hse hns h1 (by simpa [CachedRange.contains] using h2)

unseal insertRange in
theorem invalidate_inside_range_uncovers_exactly :
    Reachable 0 (execAll setupWorld coveredTenRun) ∧ (2 : Nat) ≤ 5 ∧
      NoSharedEnd (execAll setupWorld coveredTenRun).cache.ranges.toList ⟨2, 5⟩ ∧
      ∀ k, covered (scoutfsItemInvalidate (execAll setupWorld coveredTenRun).cache 2 5 false).1.ranges k = true ↔
        covered (execAll setupWorld coveredTenRun).cache.ranges k = true ∧ ¬(2 ≤ k ∧ k ≤ 5) :=
  have h : Reachable 0 (execAll setupWorld coveredTenRun) := Reachable.setup.execAll coveredTenRun rfl (by decide)
  have hns : NoSharedEnd (execAll setupWorld coveredTenRun).cache.ranges.toList ⟨2, 5⟩ := by decide
  ⟨h, by decide, hns, reachable_invalidate_uncovers_exactly h (by decide) hns⟩

end ScoutfsItemCache
