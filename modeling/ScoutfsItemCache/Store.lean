import ScoutfsItemCache.Tombstones

/-! # The cache over the segment store

The item cache stands in front of the segment store, modelled as a map `S`
from keys to values. Fills are `scoutfs_item_insert_batch` calls that pass
exactly the items `S` holds over `[start, end]`, and a flush applies the
items `scoutfs_item_dirty_seg` appends to `S`, a deletion item removing its
key. The conditions that keep the cache honest about the store are:

* (a) a key a cached range covers and at which no item is cached is absent
  from `S` (negative caching);
* (b) every clean item is live, persistent, and holds `S`'s value;
* (c) the key of every item without the persistent flag is absent from `S`;
* (d) every deletion item is dirty, persistent and without a value.

(b) and (d) hold in every run (`StoreReachable.ok`, `World.Tombs`). (a) and
(c) hold in the runs whose creates read the flag of the deletion item they
free back as it was (`IntactReachable`, `intact_store_ok`). When that read
gives 0, a create over a deletion item leaves a key the store holds under
an item that is not persistent, and deleting that item then leaves the key
covered and empty (`recreate_with_zeroed_flag_breaks_store`).

`remove_range` only uncovers keys (`covered_removeRange`), even when it
erases a range that shares an endpoint with the removed one; that is all
an invalidation needs.
-/

namespace ScoutfsItemCache

/-! ## What `remove_range` leaves covered -/

/-- What the restart loop of `remove_range` keeps of the coverage while it
removes `rem0` from the ranges `t0`. Every covered key was covered in `t0`.
Before a split, every key of `rem0` still covered lies in the range being
removed; after one, no key of `rem0` is covered and the right half to be
linked holds keys of `t0` outside `rem0`. -/
def RemoveCov (t0 : Tree CachedRange) (rem0 : CachedRange) (t : Tree CachedRange) (rem : CachedRange) :
    Bool → Prop
  | false => ∀ k, covered t k = true → covered t0 k = true ∧ (rem0.contains k = true → rem.contains k = true)
  | true => (∀ k, covered t k = true → covered t0 k = true ∧ rem0.contains k = false) ∧
      ∀ k, rem.contains k = true → covered t0 k = true ∧ rem0.contains k = false

/-- What a pass of `remove_range` hands to the loop. -/
def RemoveStep.Covers (t0 : Tree CachedRange) (rem0 : CachedRange) : RemoveStep → Prop
  | .done t => ∀ k, covered t k = true → covered t0 k = true ∧ rem0.contains k = false
  | .restart t rem insert => RemoveCov t0 rem0 t rem insert

section RemoveCov

variable {t0 t t' : Tree CachedRange} {rem0 rem rem' : CachedRange}

/-- Covering fewer keys, and removing fewer keys that are no longer
covered, keeps the coverage invariant. -/
theorem RemoveCov.narrow {insert : Bool} (h : RemoveCov t0 rem0 t rem insert)
    (hsub : ∀ k, covered t' k = true → covered t k = true)
    (hkeep : ∀ k, covered t' k = true → rem.contains k = true → rem'.contains k = true)
    (hrem : ∀ k, rem'.contains k = true → rem.contains k = true) : RemoveCov t0 rem0 t' rem' insert := by
  cases insert
  · exact fun k hk => ⟨(h k (hsub k hk)).1, fun h0 => hkeep k hk ((h k (hsub k hk)).2 h0)⟩
  · exact ⟨fun k hk => h.1 k (hsub k hk), fun k hk => h.2 k (hrem k hk)⟩

/-- Every covered key was covered in `t0`. -/
theorem RemoveCov.covered_before {insert : Bool} (h : RemoveCov t0 rem0 t rem insert) {k : Nat}
    (hk : covered t k = true) : covered t0 k = true := by
  cases insert
  · exact (h k hk).1
  · exact (h.1 k hk).1

/-- A covered key of `rem0` is still to be removed. -/
theorem RemoveCov.rem_of_rem0 {insert : Bool} (h : RemoveCov t0 rem0 t rem insert) {k : Nat}
    (hk : covered t k = true) (h0 : rem0.contains k = true) : rem.contains k = true := by
  cases insert
  · exact (h k hk).2 h0
  · exact absurd h0 (by simp [(h.1 k hk).2])

theorem covered_plug_nil (q : List (Frame CachedRange)) (k : Nat) :
    covered (plug q .nil) k = true ↔ (lefts q ++ rights q).any (·.contains k) = true := by
  simp [covered, toList_plug]

/-- Shrinking a range in place covers fewer keys. -/
theorem covered_plug_shrink {q : List (Frame CachedRange)} {l r : Tree CachedRange} {rng rng' : CachedRange}
    {k : Nat} (hk : covered (plug q (.node l rng' r)) k = true) (hs : rng.start ≤ rng'.start)
    (he : rng'.end ≤ rng.end) : covered (plug q (.node l rng r)) k = true := by
  rw [covered_plug_node] at hk ⊢
  refine hk.imp_left fun h => ?_
  simp only [CachedRange.contains, Bool.and_eq_true, decide_eq_true_eq] at h ⊢
  omega

end RemoveCov

/-- One pass of `remove_range` keeps the coverage invariant. -/
theorem removeRangePass_covers {rem : CachedRange} {insert : Bool} {p : List (Frame CachedRange)}
    {t : Tree CachedRange} {t0 : Tree CachedRange} {rem0 : CachedRange} (hok : RangesOk (plug p t).toList)
    (hrem : rem.start ≤ rem.end) (hl : ∀ y ∈ lefts p, y.end < rem.start) (hr : ∀ y ∈ rights p, rem.end < y.start)
    (hc : RemoveCov t0 rem0 (plug p t) rem insert) : (removeRangePass rem insert p t).Covers t0 rem0 := by
  induction rem, insert, p, t using removeRangePass.induct with
  | case1 rem insert p t q h =>
    obtain ⟨hplug, hl', hr'⟩ := rangeDescend h hok hrem hl hr
    rw [removeRangePass_of_nil h]
    rw [← hplug] at hc
    intro k hk
    cases insert
    · -- no range is left on `rem`, so no key of `rem0` stays covered
      rw [if_neg Bool.false_ne_true] at hk
      refine ⟨hc.covered_before hk, Bool.eq_false_iff.2 fun h0 => ?_⟩
      have hrk := hc.rem_of_rem0 hk h0
      obtain ⟨y, hy, hyk⟩ := List.any_eq_true.1 ((covered_plug_nil q k).1 hk)
      simp only [CachedRange.contains, Bool.and_eq_true, decide_eq_true_eq] at hrk hyk
      rcases List.mem_append.1 hy with hy | hy
      · have := hl' y hy; omega
      · have := hr' y hy; omega
    · -- the right half of a split is linked
      rw [if_pos rfl, covered_plug_node] at hk
      rcases hk with hk | hk
      · exact hc.2 k hk
      · exact hc.1 k ((covered_plug_nil q k).2 (by simpa using hk))
  | case2 rem insert p t q l rng r h hsplit =>
    obtain ⟨hplug, -, -⟩ := rangeDescend h hok hrem hl hr
    rw [removeRangePass_of_node h, if_pos hsplit]
    rw [← hplug] at hc hok
    simp only [scoutfsKeyCompare_pos, scoutfsKeyCompare_neg] at hsplit
    have hrng : ∀ k, rng.contains k = true → covered (plug q (.node l rng r)) k = true := fun k hk =>
      (covered_plug_node q l r rng k).2 (.inl hk)
    have hsub : ∀ k, covered (plug q (.node l { rng with «end» := scoutfsKeyDec rem.start } r)) k = true →
        covered (plug q (.node l rng r)) k = true := fun k hk =>
      covered_plug_shrink hk le_rfl (by simp only [scoutfsKeyDec_eq]; omega)
    refine ⟨fun k hk => ⟨hc.covered_before (hsub k hk), Bool.eq_false_iff.2 fun h0 => ?_⟩, fun k hk => ?_⟩
    · -- the left half ends before `rem`, and no other range meets `rng`
      have hrk := hc.rem_of_rem0 (hsub k hk) h0
      rw [covered_plug_node] at hk
      simp only [CachedRange.contains, Bool.and_eq_true, decide_eq_true_eq] at hrk
      rcases hk with hk | hk
      · simp only [CachedRange.contains, scoutfsKeyDec_eq, Bool.and_eq_true, decide_eq_true_eq] at hk
        omega
      · have := hok.not_contains_of_others hk
        simp only [CachedRange.contains, Bool.and_eq_false_iff, decide_eq_false_iff_not, not_le] at this
        omega
    · -- the right half holds keys of `rng` after `rem`
      simp only [CachedRange.contains, scoutfsKeyInc_eq, Bool.and_eq_true, decide_eq_true_eq] at hk
      have hk' := hrng k (by simp only [CachedRange.contains, Bool.and_eq_true, decide_eq_true_eq]; omega)
      refine ⟨hc.covered_before hk', Bool.eq_false_iff.2 fun h0 => ?_⟩
      have := hc.rem_of_rem0 hk' h0
      simp only [CachedRange.contains, Bool.and_eq_true, decide_eq_true_eq] at this
      omega
  | case3 rem insert p t q l rng r h hsplit htrim ih =>
    rw [removeRangePass_of_node h, if_neg hsplit, if_pos htrim]
    simp only [scoutfsKeyCompare_pos, scoutfsKeyCompare_neg] at htrim
    obtain ⟨h1, h2, h3, h4⟩ := removeRangePass_trimStart h hok hrem hl hr htrim
    obtain ⟨hplug, -, -⟩ := rangeDescend h hok hrem hl hr
    have hov := descend_range_overlaps h
    rw [← hplug] at hc hok
    refine ih h1 h2 h3 h4 (hc.narrow (fun k hk => covered_plug_shrink hk (by simp only [scoutfsKeyInc_eq]; omega)
      le_rfl) (fun k hk hrk => ?_) fun k hk => ?_)
    · -- keys of `rem` left covered lie before the trimmed range
      rw [covered_plug_node] at hk
      simp only [CachedRange.contains, Bool.and_eq_true, decide_eq_true_eq] at hrk ⊢
      rcases hk with hk | hk
      · simp only [CachedRange.contains, scoutfsKeyInc_eq, Bool.and_eq_true, decide_eq_true_eq] at hk
        omega
      · have := hok.not_contains_of_others hk
        simp only [CachedRange.contains, Bool.and_eq_false_iff, decide_eq_false_iff_not, not_le] at this
        omega
    · simp only [CachedRange.contains, Bool.and_eq_true, decide_eq_true_eq] at hk ⊢
      omega
  | case4 rem insert p t q l rng r h hsplit htrim htrim' ih =>
    rw [removeRangePass_of_node h, if_neg hsplit, if_neg htrim, if_pos htrim']
    simp only [scoutfsKeyCompare_pos, scoutfsKeyCompare_neg] at htrim'
    obtain ⟨h1, h2, h3, h4⟩ := removeRangePass_trimEnd h hok hrem hl hr htrim'
    obtain ⟨hplug, -, -⟩ := rangeDescend h hok hrem hl hr
    have hov := descend_range_overlaps h
    rw [← hplug] at hc hok
    refine ih h1 h2 h3 h4 (hc.narrow (fun k hk => covered_plug_shrink hk le_rfl
      (by simp only [scoutfsKeyDec_eq]; omega)) (fun k hk hrk => ?_) fun k hk => ?_)
    · -- keys of `rem` left covered lie after the trimmed range
      rw [covered_plug_node] at hk
      simp only [CachedRange.contains, Bool.and_eq_true, decide_eq_true_eq] at hrk ⊢
      rcases hk with hk | hk
      · simp only [CachedRange.contains, scoutfsKeyDec_eq, Bool.and_eq_true, decide_eq_true_eq] at hk
        omega
      · have := hok.not_contains_of_others hk
        simp only [CachedRange.contains, Bool.and_eq_false_iff, decide_eq_false_iff_not, not_le] at this
        omega
    · simp only [CachedRange.contains, Bool.and_eq_true, decide_eq_true_eq] at hk ⊢
      omega
  | case5 rem insert p t q l rng r h hsplit htrim htrim' =>
    obtain ⟨hplug, -, -⟩ := rangeDescend h hok hrem hl hr
    rw [removeRangePass_of_node h, if_neg hsplit, if_neg htrim, if_neg htrim']
    rw [← hplug] at hc
    exact hc.narrow (fun k hk => by
      rw [covered_rbErase] at hk; exact (covered_plug_node q l r rng k).2 (.inr hk)) (fun _ _ h => h) fun _ h => h

/-- `remove_range` only uncovers keys, and uncovers every key of the
removed range. -/
theorem covered_removeRange {t : Tree CachedRange} {rem : CachedRange} (hok : RangesOk t.toList)
    (hrem : rem.start ≤ rem.end) (k : Nat) (hk : covered (removeRange t rem) k = true) :
    covered t k = true ∧ rem.contains k = false := by
  suffices ∀ t' rem' insert, RangesOk t'.toList → rem'.start ≤ rem'.end → RemoveCov t rem t' rem' insert →
      ∀ k, covered (removeRangeLoop t' rem' insert) k = true → covered t k = true ∧ rem.contains k = false from
    this t rem false hok hrem (fun _ hk => ⟨hk, id⟩) k hk
  intro t' rem' insert hok' hrem' hc
  induction t', rem', insert using removeRangeLoop.induct with
  | case1 t' rem' insert t'' h =>
    have := removeRangePass_covers (p := []) (by simpa using hok') hrem' (by simp) (by simp)
      (by simpa using hc)
    rw [h] at this
    rw [removeRangeLoop_of_done h]
    exact this
  | case2 t' rem' insert t'' rem'' insert' h ih =>
    have hc' := removeRangePass_covers (p := []) (by simpa using hok') hrem' (by simp) (by simp)
      (by simpa using hc)
    have hok'' : (removeRangePass rem' insert [] t').Ok :=
      removeRangePass_ok (by simpa using hok') hrem' (by simp) (by simp)
    rw [h] at hc' hok''
    rw [removeRangeLoop_of_restart h]
    exact ih hok''.1 hok''.2 hc'


/-! ## The segment store -/

/-- What writing one flushed item does to the segment store: a deletion
item removes its key. -/
def applySegItem (S : Nat → Option Bytes) (it : SegItem) : Nat → Option Bytes :=
  fun k => if k = it.key then (if it.deletion then none else some it.val) else S k

/-- The store after a flushed segment is written, item after item. -/
def applySeg (S : Nat → Option Bytes) (seg : List SegItem) : Nat → Option Bytes :=
  seg.foldl applySegItem S

theorem applySeg_append (S : Nat → Option Bytes) (seg : List SegItem) (it : SegItem) :
    applySeg S (seg ++ [it]) = applySegItem (applySeg S seg) it := by
  simp [applySeg, List.foldl_append]

/-- The batch a reader passes to fill the `n` keys from `start`: the items
the store holds there, in key order. -/
def storeBatch (S : Nat → Option Bytes) (start : Nat) : Nat → List (Nat × Option Bytes)
  | 0 => []
  | n + 1 => ((S start).map fun v => (start, some v)).toList ++ storeBatch S (start + 1) n

/-- The fill of `[start, end]` from the store. -/
def fillOp (S : Nat → Option Bytes) (start «end» : Nat) : Op :=
  .insertBatch (storeBatch S start («end» + 1 - start)) start «end»

/-- A fill's batch holds only values of the store. -/
theorem mem_storeBatch {S : Nat → Option Bytes} {start n : Nat} {kv : Nat × Option Bytes}
    (h : kv ∈ storeBatch S start n) : ∃ v, S kv.1 = some v ∧ kv.2 = some v := by
  induction n generalizing start with
  | zero => exact nomatch h
  | succ n ih =>
    rw [storeBatch, List.mem_append] at h
    rcases h with h | h
    · rcases hS : S start with _ | v <;> simp only [hS, Option.map_none', Option.map_some', Option.toList_none,
        Option.toList_some, List.mem_singleton, List.not_mem_nil] at h
      exact ⟨v, h ▸ hS, h ▸ rfl⟩
    · exact ih h

theorem getAt_append (k : Nat) (A B : List CachedItem) : getAt k (A ++ B) = (getAt k A).or (getAt k B) := by
  simp [getAt, List.find?_append]

/-- A fill's batch holds, at each key of its interval, the store's value. -/
theorem getAt_storeBatch (S : Nat → Option Bytes) (start n k : Nat) :
    getAt k (batchItems (storeBatch S start n)) =
      if start ≤ k ∧ k < start + n then (S k).map fun v => allocItem k (some v) else none := by
  induction n generalizing start with
  | zero => rw [if_neg (by omega)]; rfl
  | succ n ih =>
    rw [storeBatch, batchItems, List.map_append, getAt_append,
      show List.map _ (storeBatch S (start + 1) n) = batchItems (storeBatch S (start + 1) n) from rfl, ih]
    by_cases hk : k = start
    · subst hk
      rw [if_neg (show ¬(k + 1 ≤ k ∧ k < k + 1 + n) by omega), if_pos (show k ≤ k ∧ k < k + (n + 1) by omega),
        Option.or_none]
      rcases S k with _ | v <;> simp [getAt, allocItem]
    · have h0 : getAt k (((S start).map fun v => (start, some v)).toList.map fun kv => allocItem kv.1 kv.2) =
          none := by
        rcases S start with _ | v
        · rfl
        · simp [getAt, allocItem, Ne.symm hk]
      rw [h0, Option.none_or]
      split_ifs <;> first | rfl | omega

/-- A world with the segment store behind its cache. -/
structure StoreWorld where
  world : World
  store : Nat → Option Bytes

/-- The steps of runs over the store, labelled with the section they run:
any locked section but a batch insertion or a flush, which leaves the store
alone; a fill, which passes exactly the store's items over `[start, end]`;
and a flush, which writes the appended items to the store, taken while no
caller holds items `scoutfs_item_delete_save` handed over. Each step has
arguments callers pass and fires no `BUG_ON`, as in `Reachable`. -/
inductive StoreStep (M : Nat) : StoreWorld → Op → StoreWorld → Prop where
  | exec {w : World} {S : Nat → Option Bytes} (op : Op) :
      (∀ b start «end», op ≠ .insertBatch b start «end») → op ≠ .dirtySeg → op.callerOk M = true →
      (exec w op).cache.bug = false → StoreStep M ⟨w, S⟩ op ⟨exec w op, S⟩
  | fill {w : World} {S : Nat → Option Bytes} (start «end» : Nat) :
      (fillOp S start «end»).callerOk M = true → (exec w (fillOp S start «end»)).cache.bug = false →
      StoreStep M ⟨w, S⟩ (fillOp S start «end») ⟨exec w (fillOp S start «end»), S⟩
  | flush {w : World} {S : Nat → Option Bytes} :
      (∀ n, w.saved n = []) → (exec w .dirtySeg).cache.bug = false →
      StoreStep M ⟨w, S⟩ .dirtySeg ⟨exec w .dirtySeg, applySeg S (scoutfsItemDirtySeg w.cache).2⟩

/-- The worlds runs from `scoutfs_item_setup` over a store reach, whatever
the flags read from freed items. -/
inductive StoreReachable (M : Nat) : StoreWorld → Prop where
  | setup (S : Nat → Option Bytes) : StoreReachable M ⟨setupWorld, S⟩
  | step {sw sw' : StoreWorld} {op : Op} : StoreReachable M sw → StoreStep M sw op sw' → StoreReachable M sw'

/-- A section whose read of a freed item's flag gives the flag back. Only
the read of `scoutfs_item_create` is constrained: the item it erases is a
deletion item, persistent in every reachable world (`World.Tombs`), so
the flag read intact is 1. The read of `scoutfs_item_restore` may give
anything: a restored item's own flags already keep the conditions below. -/
def Op.FreedReadIntact : Op → Prop
  | .create _ _ freed => freed = freedKept
  | _ => True

/-- The worlds of the runs over the store in which every create reads the
freed flag back intact. -/
inductive IntactReachable (M : Nat) : StoreWorld → Prop where
  | setup (S : Nat → Option Bytes) : IntactReachable M ⟨setupWorld, S⟩
  | step {sw sw' : StoreWorld} {op : Op} : IntactReachable M sw → StoreStep M sw op sw' → op.FreedReadIntact →
      IntactReachable M sw'

theorem IntactReachable.store {M : Nat} {sw : StoreWorld} (h : IntactReachable M sw) : StoreReachable M sw := by
  induction h with
  | setup S => exact .setup S
  | step _ hs _ ih => exact ih.step hs

/-- A step over the store is a step of the cache. -/
theorem StoreStep.reachable {M : Nat} {sw sw' : StoreWorld} {op : Op} (hs : StoreStep M sw op sw')
    (h : Reachable M sw.world) : Reachable M sw'.world := by
  cases hs with
  | exec op _ _ hop hbug => exact h.step op hop hbug
  | fill start «end» hop hbug => exact h.step _ hop hbug
  | flush _ hbug => exact h.step .dirtySeg rfl hbug

/-- A run over the store is a run of the cache. -/
theorem StoreReachable.reachable {M : Nat} {sw : StoreWorld} (h : StoreReachable M sw) : Reachable M sw.world := by
  induction h with
  | setup S => exact .setup
  | step _ hs ih => exact hs.reachable ih

/-! ## The invariant at one key -/

/-- Conditions (a)–(c) at one key, given whether a range covers it, what
the cache reads there, and the store's value. Condition (b) holds in every
run; (a) and (c) are asked for only when `intact`, in the runs whose
creates read a freed flag back intact. -/
structure KeyOk (intact c : Bool) (o : Option CachedItem) (v : Option Bytes) : Prop where
  negative : intact = true → c = true → o = none → v = none
  clean : ∀ y, o = some y → itemIsDirty y = false → y.deletion = false ∧ y.persistent = true ∧ v = some y.value
  fresh : intact = true → ∀ y, o = some y → y.persistent = false → v = none

/-- What an item a caller holds must keep to be restored. -/
def SavedOk (intact : Bool) (S : Nat → Option Bytes) (y : CachedItem) : Prop :=
  (itemIsDirty y = false → y.persistent = true ∧ S y.key = some y.value) ∧
    (intact = true → y.persistent = false → S y.key = none)

section KeyOk

variable {intact c : Bool} {o : Option CachedItem} {v : Option Bytes}

theorem KeyOk.of_none (h : intact = true → c = true → v = none) : KeyOk intact c none v :=
  ⟨fun hi hc _ => h hi hc, fun _ h => (nomatch h), fun _ _ h => (nomatch h)⟩

/-- A dirty item needs the store only when it is not persistent. -/
theorem KeyOk.of_dirty {y : CachedItem} (hd : itemIsDirty y = true)
    (hp : intact = true → y.persistent = false → v = none) : KeyOk intact c (some y) v :=
  ⟨fun _ _ h => (nomatch h), fun _ h h' => by cases h; simp [hd] at h', fun hi _ h h' => by cases h; exact hp hi h'⟩

theorem KeyOk.liveAt {f : CachedItem → Option CachedItem} (ho : KeyOk intact c o v)
    (hf : ∀ y, o = some y → y.deletion = false → KeyOk intact c (f y) v) : KeyOk intact c (liveAt f o) v := by
  rcases o with _ | y
  · exact ho
  · cases hd : y.deletion
    · rw [liveAt_of_live hd]; exact hf y rfl hd
    · rw [liveAt_of_dead fun _ h => Option.some.inj h ▸ hd]; exact ho

/-- Dirtying the item at a key keeps its persistent flag. -/
theorem KeyOk.dirtied {y z : CachedItem} (ho : KeyOk intact c (some y) v) (hd : itemIsDirty z = true)
    (hp : z.persistent = y.persistent) : KeyOk intact c (some z) v :=
  .of_dirty hd fun hi h => ho.fresh hi y rfl (hp ▸ h)

theorem KeyOk.deleteAtKey {y : CachedItem} (ho : KeyOk intact c (some y) v) :
    KeyOk intact c (deleteAtKey y) v := by
  unfold ScoutfsItemCache.deleteAtKey
  split_ifs with hp
  · exact .of_dirty rfl fun _ h => nomatch h
  · exact .of_none fun hi _ => ho.fresh hi y rfl (by simpa using hp)

/-- The item a flush leaves, with the store it writes. -/
theorem KeyOk.flushAt (y : CachedItem) :
    KeyOk intact c (flushAt y) (if y.deletion then none else some y.value) := by
  unfold ScoutfsItemCache.flushAt
  split_ifs with hd
  · exact .of_none fun _ _ => rfl
  · refine ⟨fun _ _ h => (nomatch h), fun z h _ => ?_, fun _ z h h' => ?_⟩ <;> cases h
    · exact ⟨by simpa using hd, rfl, rfl⟩
    · cases h'

/-- A saved item put back at its key, whatever the flag read from a
replaced deletion item: a set flag only makes the item persistent. -/
theorem KeyOk.restoreAt {S : Nat → Option Bytes} {y : CachedItem} (hy : SavedOk intact S y)
    (hl : y.deletion = false) (freed : Nat → Bool) (o : Option CachedItem) :
    KeyOk intact c (restoreAt y freed o) (S y.key) := by
  unfold ScoutfsItemCache.restoreAt
  refine ⟨fun _ _ h => (nomatch h), fun z h hd => ?_, fun hi z h hp => ?_⟩ <;> cases h
  · split_ifs at hd ⊢
    · exact ⟨hl, rfl, (hy.1 (by simpa using hd)).2⟩
    · simp only [CachedItem.itemIsDirty_data] at hd
      exact ⟨hl, (hy.1 hd).1, (hy.1 hd).2⟩
  · split_ifs at hp
    · cases hp
    · exact hy.2 hi hp

end KeyOk

/-- Conditions (a)–(c) at every key of a cache. -/
def KeysOk (intact : Bool) (S : Nat → Option Bytes) (s : ItemCache) : Prop :=
  ∀ k, KeyOk intact (covered s.ranges k) (getAt k (itemsOf s.items)) (S k)


/-! ## The ranges the point sections leave -/

section SectionRanges

variable {s : ItemCache}

@[simp] theorem ranges_createAttempt (item : CachedItem) (freed : Nat → Bool) :
    (createAttempt item freed s).1.ranges = s.ranges := by
  unfold createAttempt; dsimp only; split_ifs <;> simp

@[simp] theorem ranges_createForceLocked (item : CachedItem) : (createForceLocked item s).1.ranges = s.ranges := by
  unfold createForceLocked; dsimp only; split_ifs <;> simp

@[simp] theorem ranges_dirtyAttempt (key : Nat) : (dirtyAttempt key s).1.ranges = s.ranges :=
  ranges_pointAttempt_of fun _ => ranges_markItemDirty

@[simp] theorem ranges_updateAttempt (key : Nat) (val : Option Bytes) : (updateAttempt key val s).1.ranges = s.ranges :=
  ranges_pointAttempt_of fun _ => by simp

@[simp] theorem ranges_deleteAttempt (key : Nat) : (deleteAttempt key s).1.ranges = s.ranges :=
  ranges_pointAttempt_of fun _ => ranges_deleteItem

@[simp] theorem ranges_deleteForceLocked (key : Nat) : (deleteForceLocked key s).ranges = s.ranges := by
  unfold deleteForceLocked; dsimp only; split_ifs <;> simp

@[simp] theorem ranges_deleteSaveAttempt (key : Nat) : (deleteSaveAttempt key s).1.ranges = s.ranges :=
  ranges_pointAttempt_of fun ptr => by
    rcases ptr with ⟨p, _ | ⟨l, it, r⟩⟩
    · rfl
    · dsimp only; split_ifs <;> simp

@[simp] theorem ranges_scoutfsItemDeleteDirty (key : Nat) : (scoutfsItemDeleteDirty s key).ranges = s.ranges := by
  unfold scoutfsItemDeleteDirty; split <;> simp

@[simp] theorem ranges_scoutfsItemUpdateDirty (key : Nat) (val : Option Bytes) :
    (scoutfsItemUpdateDirty s key val).ranges = s.ranges := by
  unfold scoutfsItemUpdateDirty; split <;> rfl

@[simp] theorem ranges_restoreItems (freed : Nat → Bool) (list : List CachedItem) :
    (restoreItems freed s list).ranges = s.ranges := by
  induction list generalizing s with
  | nil => rfl
  | cons y rest ih => rw [restoreItems, ih, ranges_restoreItem]

end SectionRanges

/-- `scoutfs_item_update_dirty` that fires no `BUG_ON` found a dirty item. -/
theorem scoutfsItemUpdateDirty_dirty {s : ItemCache} (hs : ItemsSorted s.items) {key : Nat} {val : Option Bytes}
    (hbug : (scoutfsItemUpdateDirty s key val).bug = false) {y : CachedItem}
    (hy : getAt key (itemsOf s.items) = some y) (hl : y.deletion = false) : itemIsDirty y = true := by
  unfold scoutfsItemUpdateDirty at hbug
  rcases hf : findItem s.items key with _ | ⟨p, _ | ⟨l, it, r⟩⟩
  · exact absurd (findItem_none hs hf y hy) (by simp [hl])
  · simp [hf] at hbug
  obtain ⟨x, hp, hk, -⟩ := findItem_some hf
  have hx := hp.getAt hs
  obtain ⟨l', r', hptr, -⟩ := hp
  cases hptr
  simp only [hf, updateDirtyItemCounts, Bool.or_eq_false_iff, Bool.not_eq_false'] at hbug
  rw [← hk, hx] at hy
  cases hy
  exact hbug.1.2

/-! ## Every step keeps the cache honest about the store -/

section Steps

variable {M : Nat} {intact : Bool} {S : Nat → Option Bytes} {s : ItemCache}

theorem KeysOk.of_same {s' : ItemCache} (h : KeysOk intact S s) (hi : itemsOf s'.items = itemsOf s.items)
    (hr : s'.ranges.toList = s.ranges.toList) : KeysOk intact S s' := fun k => by
  rw [hi, show covered s'.ranges k = covered s.ranges k by simp only [covered, hr]]
  exact h k

/-- A section that changes the cache at one key only. -/
theorem KeysOk.of_at {s' : ItemCache} (h : KeysOk intact S s) (hr : s'.ranges = s.ranges) {key : Nat}
    {o : Option CachedItem} (ho : KeyOk intact (covered s.ranges key) o (S key))
    (he : ∀ k, getAt k (itemsOf s'.items) = if k = key then o else getAt k (itemsOf s.items)) :
    KeysOk intact S s' :=
  fun k => by
    rw [hr, he k]
    split_ifs with hk
    · exact hk ▸ ho
    · exact h k

/-- A point operation on the live item at `key` that leaves it well kept. -/
theorem KeysOk.liveAt {s' : ItemCache} (h : KeysOk intact S s) (hr : s'.ranges = s.ranges) {key : Nat}
    {f : CachedItem → Option CachedItem}
    (hf : ∀ y, getAt key (itemsOf s.items) = some y → y.deletion = false →
      KeyOk intact (covered s.ranges key) (f y) (S key))
    (he : ∀ k, getAt k (itemsOf s'.items) =
      if k = key then liveAt f (getAt key (itemsOf s.items)) else getAt k (itemsOf s.items)) :
    KeysOk intact S s' :=
  h.of_at hr ((h key).liveAt hf) he

/-- The item a create leaves over a deletion item is dirty, and persistent
when the flag it reads from the freed item is set; so (c) needs that read
intact. -/
theorem KeyOk.createAt {c : Bool} {o : Option CachedItem} {v : Option Bytes} {item : CachedItem}
    {freed : Nat → Bool} (ho : KeyOk intact c o v) (hc : c = true)
    (hf : intact = true → freed = freedKept) : KeyOk intact c (createAt item freed o) v := by
  rcases o with _ | z
  · -- a covered key without an item is absent from the store
    exact .of_dirty rfl fun hi _ => ho.negative hi hc rfl
  · simp only [ScoutfsItemCache.createAt]
    split_ifs with hz hzp
    · exact .of_dirty rfl fun _ h => by simp at h
    · exact .of_dirty rfl fun hi _ => absurd (by rw [hf hi]; rfl) hzp
    · exact ho

theorem KeysOk.create (h : KeysOk intact S s) (hs : ItemsSorted s.items)
    (hok : RangesOk s.ranges.toList) (item : CachedItem) {freed : Nat → Bool}
    (hf : intact = true → freed = freedKept) : KeysOk intact S (createAttempt item freed s).1 := fun k => by
  rw [ranges_createAttempt, getAt_createAttempt hs]
  split_ifs with hk
  · obtain ⟨rfl, hc⟩ := hk
    exact (h _).createAt (by rwa [← checkRange_isSome hok]) hf
  · exact h k

theorem KeysOk.restoreItems (h : KeysOk intact S s) (hs : ItemsSorted s.items) (freed : Nat → Bool)
    (list : List CachedItem) (hl : ∀ y ∈ list, SavedOk intact S y ∧ y.deletion = false) :
    KeysOk intact S (restoreItems freed s list) := by
  induction list generalizing s with
  | nil => exact h
  | cons y rest ih =>
    have hy := hl y (.head _)
    exact ih (h.of_at (ranges_restoreItem freed y) (.restoreAt hy.1 hy.2 freed _) (getAt_restoreItem hs freed y))
      (restoreItem_sorted hs freed y) fun z hz => hl z (.tail _ hz)

/-- A covered key keeps what it held; reading less coverage keeps the conditions. -/
theorem KeyOk.mono {c c' : Bool} {o : Option CachedItem} {v : Option Bytes} (h : KeyOk intact c o v)
    (hc : c' = true → c = true) : KeyOk intact c' o v :=
  ⟨fun hi h' => h.negative hi (hc h'), h.clean, h.fresh⟩

theorem KeysOk.invalidate (h : KeysOk intact S s) (hs : ItemsSorted s.items) (hok : RangesOk s.ranges.toList)
    {start «end» : Nat} (hse : start ≤ «end») : KeysOk intact S (scoutfsItemInvalidate s start «end» false).1 := by
  have hw := (@eraseWalk_getAt_go s (fun it => scoutfsKeyCompare it.key «end» ≤ 0) (fun _ => false) start «end»
    (fun z hz => by simpa using hz) (nextItem s.items start) 0 hs fun it hit => nextItem_ge hs hit).2
  intro k
  have hcov : covered (scoutfsItemInvalidate s start «end» false).1.ranges k = true →
      covered s.ranges k = true ∧ (⟨start, «end»⟩ : CachedRange).contains k = false := fun hk =>
    ranges_eraseWalk .. ▸ covered_removeRange (by rw [ranges_eraseWalk]; exact hok) hse k hk
  rcases hw k with e | ⟨h1, h2, e⟩
  · exact e ▸ (h k).mono fun hk => (hcov hk).1
  · refine e ▸ KeyOk.of_none fun _ hk => ?_
    have := (hcov hk).2
    simp only [CachedRange.contains, Bool.and_eq_false_iff, decide_eq_false_iff_not] at this
    omega

theorem KeysOk.shrink (h : KeysOk intact S s) (hI : s.Inv M) (fuel nrToScan : Nat) :
    KeysOk intact S (itemLruShrink fuel s nrToScan).1 := fun k => by
  obtain ⟨hitems, hcov⟩ := itemLruShrink_run hI fuel nrToScan
  rcases hitems k with e | ⟨e, y, hy, -⟩
  · exact e ▸ (h k).mono fun hk => (hcov k hk).1
  · rw [e]
    refine .of_none fun _ hk => ?_
    have := (hcov k hk).2
    rw [e, hy] at this
    cases this

/-- A cached item stays, whatever the coverage. -/
theorem KeyOk.of_some {c c' : Bool} {y : CachedItem} {v : Option Bytes} (h : KeyOk intact c (some y) v) :
    KeyOk intact c' (some y) v :=
  ⟨fun _ _ h => (nomatch h), h.clean, h.fresh⟩

/-- A fill caches the store's items over its interval where nothing was cached. -/
theorem KeysOk.fill (h : KeysOk intact S s) (hs : ItemsSorted s.items) (start «end» : Nat) :
    KeysOk intact S
      (scoutfsItemInsertBatch s (batchItems (storeBatch S start («end» + 1 - start))) start «end» false).1 := by
  unfold scoutfsItemInsertBatch
  split_ifs with h1
  · exact h
  · exact h
  intro k
  simp only [scoutfsKeyCompare_pos, not_lt] at h1
  dsimp only
  rw [ranges_insertBatchItems, getAt_insertBatchItems (s := { s with ranges := insertRange s.ranges ⟨start, «end»⟩ }) hs,
    getAt_storeBatch]
  rcases ho : getAt k (itemsOf s.items) with _ | y
  · rw [Option.none_or]
    split_ifs with hin
    · rcases S k with _ | v
      · exact .of_none fun _ _ => rfl
      · -- the filled item: clean, live, persistent, with the store's value
        refine ⟨fun _ _ h => (nomatch h), fun z hz _ => ?_, fun _ z hz hp => ?_⟩ <;> cases hz
        · exact ⟨rfl, rfl, by simp [CachedItem.value, allocItem]⟩
        · cases hp
    · -- outside the interval only the old ranges cover the key
      refine .of_none fun hi hk => ?_
      rcases (covered_insertRange _ _ k).1 hk with hk | hk
      · exact (h k).negative hi hk ho
      · simp only [CachedRange.contains, Bool.and_eq_true, decide_eq_true_eq] at hk
        omega
  · exact (ho ▸ h k).of_some

/-- A flush leaves each item it writes clean and persistent, or erases a
deletion item, and the store takes the written values. -/
theorem KeysOk.dirtySeg (h : KeysOk intact S s) (hs : ItemsSorted s.items) :
    KeysOk intact (applySeg S (scoutfsItemDirtySeg s).2) (scoutfsItemDirtySeg s).1 :=
  scoutfsItemDirtySeg_induction (fun s seg => KeysOk intact (applySeg S seg) s)
    (fun _ _ _ it _ _ hr _ hk h' k => by
      rw [applySeg_append, hr, hk k]
      by_cases hkey : k = it.key
      · subst hkey
        rw [if_pos rfl]
        simpa [applySegItem] using KeyOk.flushAt (c := covered _ it.key) it.data
      · rw [if_neg hkey]
        simpa [applySegItem, hkey] using h' k) hs h

end Steps

/-- The invariant of a world over the store: conditions (a)–(c) at every
key, and the items callers hold can be put back. Condition (d) is
`World.Tombs`. -/
structure StoreOk (intact : Bool) (sw : StoreWorld) : Prop where
  keys : KeysOk intact sw.store sw.world.cache
  saved : ∀ n, ∀ y ∈ sw.world.saved n, SavedOk intact sw.store y

section Exec

variable {M : Nat} {intact : Bool} {w : World} {S : Nat → Option Bytes}

/-- Every locked section but a batch insertion and a flush keeps the cache
honest about an unchanged store. -/
theorem StoreOk.exec (hok : StoreOk intact ⟨w, S⟩) (hI : w.Inv M) (ht : w.Tombs) (op : Op)
    (hb : ∀ b start «end», op ≠ .insertBatch b start «end») (hd : op ≠ .dirtySeg) (hop : op.callerOk M = true)
    (hbug : (exec w op).cache.bug = false) (hread : intact = true → op.FreedReadIntact) :
    StoreOk intact ⟨exec w op, S⟩ := by
  have hs := hI.cache.sorted
  have hk : KeysOk intact S w.cache := hok.keys
  cases op with
  | lookup key bufLen =>
    obtain ⟨hi, hr⟩ := lookupAttempt_items key bufLen w.cache
    exact ⟨hk.of_same (congrArg itemsOf hi) (by simp only [ScoutfsItemCache.exec, hr]), hok.saved⟩
  | next last pos bufLen =>
    simp only [ScoutfsItemCache.exec]
    split
    · obtain ⟨hi, hr⟩ := walkFound_items bufLen w.cache ‹_›
      exact ⟨hk.of_same (congrArg itemsOf hi) (by rw [hr]), hok.saved⟩
    · exact hok
  | prev first pos bufLen =>
    simp only [ScoutfsItemCache.exec]
    split
    · obtain ⟨hi, hr⟩ := walkFound_items bufLen w.cache ‹_›
      exact ⟨hk.of_same (congrArg itemsOf hi) (by rw [hr]), hok.saved⟩
    · exact hok
  | create key val freed => exact ⟨hk.create hs hI.cache.ranges _ hread, hok.saved⟩
  | createForce key val =>
    exact ⟨hk.of_at (ranges_createForceLocked _) (.of_dirty (by rfl) fun _ h => by simp at h)
      (getAt_createForceLocked hs _), hok.saved⟩
  | insertBatch b start «end» => exact absurd rfl (hb b start «end»)
  | dirty key =>
    exact ⟨hk.liveAt (ranges_dirtyAttempt key) (fun y hy _ => (hy ▸ hk key).dirtied rfl rfl)
      (getAt_dirtyAttempt hs key), hok.saved⟩
  | update key val =>
    exact ⟨hk.liveAt (ranges_updateAttempt key val) (fun y hy _ => (hy ▸ hk key).dirtied rfl rfl)
      (getAt_updateAttempt hs key val), hok.saved⟩
  | delete key =>
    exact ⟨hk.liveAt (ranges_deleteAttempt key) (fun y hy _ => (hy ▸ hk key).deleteAtKey)
      (getAt_deleteAttempt hs key), hok.saved⟩
  | deleteForce key =>
    exact ⟨hk.of_at (ranges_deleteForceLocked key) (.of_dirty (by rfl) fun _ h => by simp [tombstone] at h)
      (getAt_deleteForceLocked hs key), hok.saved⟩
  | deleteSave key list =>
    refine ⟨hk.liveAt (ranges_deleteSaveAttempt key) (fun y hy _ => (hy ▸ hk key).deleteAtKey)
      (getAt_deleteSaveAttempt hs key), fun n y hy => ?_⟩
    simp only [ScoutfsItemCache.exec, setSaved] at hy
    split_ifs at hy with hn
    · rcases List.mem_append.1 hy with hy | hy
      · exact hok.saved list y hy
      · -- the item handed over is the live item at the key
        obtain ⟨-, hx⟩ := deleteSaveAttempt_saved hs key (Option.mem_toList.1 hy)
        have hkey : y.key = key := by simpa using getAt_key hx
        have hky := hk key
        rw [hx] at hky
        refine ⟨fun hd => ?_, fun hi hp => ?_⟩ <;> rw [hkey]
        · obtain ⟨-, hp, hv⟩ := hky.clean _ rfl (by simpa using hd)
          exact ⟨by simpa using hp, by simpa using hv⟩
        · exact hky.fresh hi _ rfl (by simpa using hp)
    · exact hok.saved n y hy
  | restore list lock freed =>
    refine ⟨?_, fun n y hy => ?_⟩
    · show KeysOk intact S (scoutfsItemRestore w.cache (w.saved list) lock freed).1
      unfold scoutfsItemRestore
      split_ifs
      · exact hk
      · exact hk
      · exact hk.restoreItems hs freed _ fun y hy => ⟨hok.saved list y hy, ht.saved list y hy⟩
    · simp only [ScoutfsItemCache.exec, setSaved] at hy
      split_ifs at hy with hn
      · unfold scoutfsItemRestore at hy
        split_ifs at hy
        · exact nomatch hy
        · exact hok.saved list y hy
        · exact nomatch hy
      · exact hok.saved n y hy
  | deleteDirty key =>
    exact ⟨hk.liveAt (ranges_scoutfsItemDeleteDirty key) (fun y hy _ => (hy ▸ hk key).deleteAtKey)
      (getAt_scoutfsItemDeleteDirty hs key), hok.saved⟩
  | updateDirty key val =>
    -- the item is dirty, or the `BUG_ON` fires
    exact ⟨hk.liveAt (ranges_scoutfsItemUpdateDirty key val)
      (fun y hy hl => (hy ▸ hk key).dirtied
        (show itemIsDirty (updateDirtyItem val y) = true from scoutfsItemUpdateDirty_dirty (y := y) hs hbug hy hl) rfl)
      (getAt_scoutfsItemUpdateDirty hs key val), hok.saved⟩
  | dirtySeg => exact absurd rfl hd
  | invalidate start «end» =>
    exact ⟨hk.invalidate hs hI.cache.ranges (by simpa [Op.callerOk] using hop), hok.saved⟩
  | shrink nrToScan fuel => exact ⟨hk.shrink hI.cache fuel nrToScan, hok.saved⟩
  | rotateItems key left =>
    exact ⟨hk.of_same (congrArg AbsCache.items (rotateItemsAt_abs w.cache key left)) rfl, hok.saved⟩
  | rotateRanges key left =>
    exact ⟨hk.of_same rfl (congrArg AbsCache.ranges (rotateRangesAt_abs w.cache key left)), hok.saved⟩

end Exec

/-- Every step of a run over the store keeps the cache honest about it,
with (a) and (c) when a create reads the freed flag intact. -/
theorem StoreOk.step {M : Nat} {intact : Bool} {sw sw' : StoreWorld} {op : Op} (hok : StoreOk intact sw)
    (hI : sw.world.Inv M) (ht : sw.world.Tombs) (h : StoreStep M sw op sw')
    (hread : intact = true → op.FreedReadIntact) : StoreOk intact sw' := by
  cases h with
  | exec op hb hd hop hbug => exact hok.exec hI ht op hb hd hop hbug hread
  | fill start «end» _ _ => exact ⟨hok.keys.fill hI.cache.sorted start «end», hok.saved⟩
  | flush hsaved _ => exact ⟨hok.keys.dirtySeg hI.cache.sorted, fun n y hy => by simp [ScoutfsItemCache.exec, hsaved] at hy⟩

theorem StoreOk.setup (intact : Bool) (S : Nat → Option Bytes) : StoreOk intact ⟨setupWorld, S⟩ :=
  ⟨fun k => .of_none fun _ h => by simp [covered, setupWorld, scoutfsItemSetup] at h, fun _ _ h => (nomatch h)⟩

/-- In every run over the store, clean items hold the store's values. -/
theorem StoreReachable.ok {M : Nat} {sw : StoreWorld} (h : StoreReachable M sw) : StoreOk false sw := by
  induction h with
  | setup S => exact .setup false S
  | step hr hs ih => exact ih.step hr.reachable.inv hr.reachable.tombs hs nofun

/-- In the runs whose creates read the freed flag intact, conditions
(a)–(c) hold. -/
theorem IntactReachable.ok {M : Nat} {sw : StoreWorld} (h : IntactReachable M sw) : StoreOk true sw := by
  induction h with
  | setup S => exact .setup true S
  | step hr hs hread ih => exact ih.step hr.store.reachable.inv hr.store.reachable.tombs hs fun _ => hread


/-- No item of a tree has the key exactly when the reading there is empty. -/
theorem getAt_eq_none_iff (t : Tree CachedItem) (k : Nat) :
    getAt k (itemsOf t) = none ↔ ∀ x ∈ t.toList, x.key ≠ k := by
  simp [getAt, itemsOf, List.find?_eq_none]

/-- In every world of a run over the segment store whose creates read the
freed flag intact: (a) a key a cached range covers, at which the tree holds
no item, is absent from the store; (b) every clean item is live,
persistent, and holds the store's value; (c) the key of every item without
the persistent flag is absent from the store; (d) every deletion item is
dirty, persistent, with `val_len` 0 and no buffer. Every step keeps them
(`StoreOk.step`). -/
theorem intact_store_ok {M : Nat} {sw : StoreWorld} (h : IntactReachable M sw) :
    let s := sw.world.cache
    let S := sw.store
    (∀ k, covered s.ranges k = true → (∀ x ∈ s.items.toList, x.key ≠ k) → S k = none) ∧
    (∀ x ∈ s.items.toList, itemIsDirty x = false → x.deletion = false ∧ x.persistent = true ∧ S x.key = some x.value) ∧
    (∀ x ∈ s.items.toList, x.persistent = false → S x.key = none) ∧
    (∀ x ∈ s.items.toList, x.deletion = true →
      itemIsDirty x = true ∧ x.persistent = true ∧ x.valLen = 0 ∧ x.val = none) := by
  intro s S
  have hok := h.ok.keys
  have hs := h.store.reachable.inv.cache.sorted
  have ht := h.store.reachable.tombs.items
  refine ⟨fun k hk hn => (hok k).negative rfl hk ((getAt_eq_none_iff _ k).2 hn), fun x hx hd => ?_,
    fun x hx hp => ?_, fun x hx hd => ?_⟩ <;> have hkx := hok x.key <;> rw [hs.getAt_of_mem hx] at hkx
  · simpa using hkx.clean _ rfl (by simpa using hd)
  · exact hkx.fresh rfl _ rfl (by simpa using hp)
  · simpa using ht x.key _ (hs.getAt_of_mem hx) (by simpa using hd)

/-! ## A create that reads the freed flag as 0 -/

/-- The store holding only the key 3. -/
def keyThreeStore (k : Nat) : Option Bytes := if k = 3 then some [7] else none

/-- Fill `[0, 10]` from `keyThreeStore` and delete 3, which leaves a
persistent deletion item. -/
def tombstoneRun : List Op := [fillOp keyThreeStore 0 10, .delete 3]

/-- Then create 3 over the deletion item, the freed flag reading as `freed`. -/
def recreateRun (freed : Nat → Bool) : List Op := tombstoneRun ++ [.create 3 none freed]

unseal insertItem insertRange in
theorem recreateRun_intact (M : Nat) :
    IntactReachable (M + 1) ⟨exec (execAll setupWorld (recreateRun freedKept)) (.delete 3), keyThreeStore⟩ :=
  .step (.step (.step (.step (.setup _) (.fill 0 10 (by rfl) (by decide)) trivial)
    (.exec (.delete 3) nofun nofun rfl (by decide)) trivial)
    (.exec (.create 3 none freedKept) nofun nofun rfl (by decide)) rfl)
    (.exec (.delete 3) nofun nofun rfl (by decide)) trivial

theorem store_ok_after_recreate :
    let s := (exec (execAll setupWorld (recreateRun freedKept)) (.delete 3)).cache
    let S := keyThreeStore
    (∀ k, covered s.ranges k = true → (∀ x ∈ s.items.toList, x.key ≠ k) → S k = none) ∧
    (∀ x ∈ s.items.toList, itemIsDirty x = false → x.deletion = false ∧ x.persistent = true ∧ S x.key = some x.value) ∧
    (∀ x ∈ s.items.toList, x.persistent = false → S x.key = none) ∧
    (∀ x ∈ s.items.toList, x.deletion = true →
      itemIsDirty x = true ∧ x.persistent = true ∧ x.valLen = 0 ∧ x.val = none) :=
  intact_store_ok (recreateRun_intact 0)

unseal insertItem insertRange in
theorem recreateRun_zeroed (M : Nat) :
    StoreReachable (M + 1) ⟨execAll setupWorld (recreateRun freedZeroed), keyThreeStore⟩ :=
  .step (.step (.step (.setup _) (.fill 0 10 (by rfl) (by decide)))
    (.exec (.delete 3) nofun nofun rfl (by decide))) (.exec (.create 3 none freedZeroed) nofun nofun rfl (by decide))

unseal insertItem insertRange in
/-- The run goes on with a second delete of 3. -/
theorem recreateRun_zeroed_delete (M : Nat) :
    StoreReachable (M + 1) ⟨exec (execAll setupWorld (recreateRun freedZeroed)) (.delete 3), keyThreeStore⟩ :=
  (recreateRun_zeroed M).step (.exec (.delete 3) nofun nofun rfl (by decide))

unseal insertItem insertRange in
/-- With the freed flag read as 0 (memory zeroed on free), the create leaves
an item without the persistent flag at a key the store holds, against
(c); the next delete erases it without a deletion item, and the key stays
covered with no item while the store holds it, against (a). -/
theorem recreate_with_zeroed_flag_breaks_store (M : Nat) :
    StoreReachable (M + 1) ⟨execAll setupWorld (recreateRun freedZeroed), keyThreeStore⟩ ∧
      ((execAll setupWorld (recreateRun freedZeroed)).cache.items.toList.filter fun x => !x.persistent).map
        CachedItem.key = [3] ∧
      keyThreeStore 3 = some [7] ∧
      StoreReachable (M + 1) ⟨exec (execAll setupWorld (recreateRun freedZeroed)) (.delete 3), keyThreeStore⟩ ∧
      covered (exec (execAll setupWorld (recreateRun freedZeroed)) (.delete 3)).cache.ranges 3 = true ∧
      ∀ x ∈ (exec (execAll setupWorld (recreateRun freedZeroed)) (.delete 3)).cache.items.toList, x.key ≠ 3 :=
  ⟨recreateRun_zeroed M, by decide, rfl, recreateRun_zeroed_delete M, by decide, by decide⟩

end ScoutfsItemCache
