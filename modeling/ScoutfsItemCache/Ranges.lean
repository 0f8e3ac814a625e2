import ScoutfsItemCache.System

/-! # The cached ranges stay ordered

The range tree is well formed when every range has `start <= end` and the
ranges follow each other in key order with gaps or touching but never
overlapping: each range ends below the next one's start (`RangesOk`).
Over a well formed tree a descent with `scoutfs_key_compare_ranges`
leaves every range below the searched interval to the left of its path
and every range above it to the right, so `check_range` finds the range
holding a key whenever there is one.

`insert_range` and `remove_range` keep the tree well formed: every range
they edit shrinks in place, every range they link goes into the gap its
descent ended in.

`remove_range` erases a range it does not trim or split, and it trims or
splits only when a comparison of endpoints is strict. A range that shares
one endpoint with the removed interval and reaches beyond it is erased
whole, so its keys outside the interval stop being cached
(`invalidate_uncovers_keys_outside_range`).
-/

namespace ScoutfsItemCache

/-- Whether a range holds a key. -/
def CachedRange.contains (rng : CachedRange) (k : Nat) : Bool := rng.start ≤ k && k ≤ rng.end

/-- Whether a cached range holds a key. -/
def covered (t : Tree CachedRange) (k : Nat) : Bool := t.toList.any fun rng => rng.contains k

/-- Every range has `start <= end`, and each range ends below the start of
every later one. -/
def RangesOk (L : List CachedRange) : Prop :=
  (∀ rng ∈ L, rng.start ≤ rng.end) ∧ L.Pairwise fun a b => a.end < b.start

section RangesOk

variable {A B L : List CachedRange} {x y : CachedRange}

theorem RangesOk.sublist (h : RangesOk L) {L' : List CachedRange} (hs : L'.Sublist L) : RangesOk L' :=
  ⟨fun r hr => h.1 r (hs.subset hr), h.2.sublist hs⟩

theorem RangesOk.erase (h : RangesOk (A ++ x :: B)) : RangesOk (A ++ B) :=
  h.sublist ((List.Sublist.refl A).append (List.sublist_cons_self x B))

/-- A range may shrink in place. -/
theorem RangesOk.shrink (h : RangesOk (A ++ x :: B)) (hs : x.start ≤ y.start) (he : y.end ≤ x.end)
    (hy : y.start ≤ y.end) : RangesOk (A ++ y :: B) := by
  obtain ⟨h1, h2⟩ := h
  simp only [List.pairwise_append, List.pairwise_cons, List.mem_cons] at h2
  refine ⟨fun r hr => ?_, ?_⟩
  · rcases List.mem_append.1 hr with hr | hr
    · exact h1 r (List.mem_append_left _ hr)
    · rcases List.mem_cons.1 hr with rfl | hr
      · exact hy
      · exact h1 r (List.mem_append_right _ (List.mem_cons_of_mem _ hr))
  · simp only [List.pairwise_append, List.pairwise_cons, List.mem_cons]
    refine ⟨h2.1, ⟨fun b hb => by have := h2.2.1.1 b hb; omega, h2.2.1.2⟩, fun a ha b hb => ?_⟩
    rcases hb with rfl | hb
    · have := h2.2.2 a ha x (.inl rfl); omega
    · exact h2.2.2 a ha b (.inr hb)

/-- A range goes into a gap between the ranges below and above it. -/
theorem RangesOk.insert (h : RangesOk (A ++ B)) (hA : ∀ r ∈ A, r.end < x.start)
    (hB : ∀ r ∈ B, x.end < r.start) (hx : x.start ≤ x.end) : RangesOk (A ++ x :: B) := by
  obtain ⟨h1, h2⟩ := h
  simp only [List.pairwise_append] at h2
  refine ⟨fun r hr => ?_, ?_⟩
  · rcases List.mem_append.1 hr with hr | hr
    · exact h1 r (List.mem_append_left _ hr)
    · rcases List.mem_cons.1 hr with rfl | hr
      · exact hx
      · exact h1 r (List.mem_append_right _ hr)
  · simp only [List.pairwise_append, List.pairwise_cons, List.mem_cons]
    refine ⟨h2.1, ⟨hB, h2.2.1⟩, fun a ha b hb => ?_⟩
    rcases hb with rfl | hb
    · exact hA a ha
    · exact h2.2.2 a ha b hb

/-- In a well formed sequence the range `x` splits the others into those
before and those after it. -/
theorem RangesOk.split (h : RangesOk (A ++ x :: B)) :
    (∀ r ∈ A, r.end < x.start) ∧ (∀ r ∈ B, x.end < r.start) := by
  have h2 := h.2
  simp only [List.pairwise_append, List.pairwise_cons, List.mem_cons] at h2
  exact ⟨fun r hr => h2.2.2 r hr x (.inl rfl), h2.2.1.1⟩

/-- Over well formed ranges the comparison results with any interval are
in order. -/
theorem RangesOk.cmpOrdered (h : RangesOk L) (s e : Nat) : (L.map (rangeCmp s e)).Pairwise CmpOrdered := by
  rw [List.pairwise_map]
  refine List.Pairwise.imp_of_mem (fun {a b} ha hb hab => ?_) h.2
  have := h.1 a ha
  have := h.1 b hb
  simp only [CmpOrdered, rangeCmp, scoutfsKeyCompareRanges_neg, scoutfsKeyCompareRanges_pos]
  omega

end RangesOk

/-! ## Descents over well formed ranges -/

section Descend

variable {s e : Nat} {p q : List (Frame CachedRange)} {t f : Tree CachedRange}

/-- A descent for `[s, e]` keeps the tree and keeps the ranges left of the
path below `s` and those right of it above `e`. -/
theorem rangeDescend (h : descend (rangeCmp s e) id id p t = (q, f)) (hok : RangesOk (plug p t).toList)
    (hse : s ≤ e) (hl : ∀ y ∈ lefts p, y.end < s) (hr : ∀ y ∈ rights p, e < y.start) :
    plug q f = plug p t ∧ (∀ y ∈ lefts q, y.end < s) ∧ (∀ y ∈ rights q, e < y.start) := by
  have hplug := plug_descend_id (rangeCmp s e) p t
  rw [h] at hplug
  have hmem : ∀ y ∈ lefts p ++ rights p, y.start ≤ y.end := fun y hy =>
    hok.1 y (by rw [toList_plug]; rcases List.mem_append.1 hy with hy | hy <;> simp [hy])
  obtain ⟨h1, h2⟩ := descend_separates (rangeCmp s e) id id (fun _ => rfl) (fun _ => rfl) p t
    (hok.cmpOrdered s e)
    (fun y hy => by
      have := hl y hy; have := hmem y (List.mem_append_left _ hy)
      simp only [rangeCmp, scoutfsKeyCompareRanges_pos]; omega)
    (fun y hy => by
      have := hr y hy
      simp only [rangeCmp, scoutfsKeyCompareRanges_neg]; omega)
  rw [h] at h1 h2
  refine ⟨hplug, fun y hy => ?_, fun y hy => ?_⟩
  · have := h1 y hy
    simp only [rangeCmp, scoutfsKeyCompareRanges_pos] at this
    omega
  · have := h2 y hy
    simpa [rangeCmp] using this

end Descend

theorem checkRange_some_mem {t : Tree CachedRange} {k : Nat} {rng : CachedRange}
    (h : checkRange t k = some rng) : rng ∈ t.toList := by
  unfold checkRange walkRanges rangePath at h
  have hplug := plug_descend_id (rangeCmp k k) [] t
  revert h hplug
  generalize descend (rangeCmp k k) id id [] t = d
  obtain ⟨q, f⟩ := d
  intro h hplug
  simp only [plug_nil] at hplug
  cases f with
  | nil => cases h
  | node l x r =>
    cases h
    rw [← hplug, toList_plug]
    simp

/-- Over well formed ranges `check_range` finds a range exactly when one
holds the key. -/
theorem checkRange_isSome {t : Tree CachedRange} (hok : RangesOk t.toList) (k : Nat) :
    (checkRange t k).isSome = covered t k := by
  unfold checkRange walkRanges rangePath
  obtain ⟨hplug, hl, hr⟩ := rangeDescend (p := []) (t := t) (q := (descend (rangeCmp k k) id id [] t).1)
    (f := (descend (rangeCmp k k) id id [] t).2) rfl (by simpa using hok) le_rfl (by simp) (by simp)
  simp only [plug_nil] at hplug
  rcases descend_focus (rangeCmp k k) id id [] t with h0 | ⟨l, x, r, h0, hx⟩
  · rw [h0] at hplug ⊢
    simp only [Tree.root_nil, Option.isSome_none, covered]
    symm
    rw [List.any_eq_false, ← hplug, toList_plug]
    intro y hy
    simp only [Tree.toList_nil, List.append_nil, List.mem_append] at hy
    rcases hy with hy | hy
    · have := hl y hy; simp [CachedRange.contains]; omega
    · have := hr y hy; simp [CachedRange.contains]; omega
  · rw [h0]
    simp only [Tree.root_node, Option.isSome_some, covered]
    symm
    rw [List.any_eq_true]
    refine ⟨x, ?_, ?_⟩
    · rw [h0] at hplug; rw [← hplug, toList_plug]; simp
    · simp only [rangeCmp, scoutfsKeyCompareRanges_eq_zero] at hx
      simp [CachedRange.contains]; omega

/-! ## Insertion and removal -/

/-- `insert_range` of a range with `start <= end` keeps the ranges well
formed: the widened range stays ordered, and it is linked in the gap the
last descent ends in. -/
theorem insertRange_ok {t : Tree CachedRange} {ins : CachedRange} (hok : RangesOk t.toList)
    (hins : ins.start ≤ ins.end) : RangesOk (insertRange t ins).toList := by
  induction t, ins using insertRange.induct with
  | case1 t ins p h =>
    obtain ⟨hplug, hl, hr⟩ := rangeDescend h (by simpa using hok) hins (by simp) (by simp)
    simp only [plug_nil] at hplug
    rw [insertRange_of_nil h, toList_plug]
    rw [← hplug, toList_plug] at hok
    simpa using hok.insert (x := ins) (by simpa using hl) (by simpa using hr) hins
  | case2 t ins p l rng r h hin =>
    rw [insertRange_of_node h, if_pos hin]
    exact hok
  | case3 t ins p l rng r h hin ih =>
    rw [insertRange_of_node h, if_neg hin]
    simp only [dite_eq_ite] at ih
    have hplug := plug_descend_id (rangeCmp ins.start ins.end) [] t
    rw [h, plug_nil] at hplug
    have hov := descend_range_overlaps h
    refine ih ?_ ?_
    · rw [toList_rbErase]
      rw [← hplug, toList_plug] at hok
      simpa using (show RangesOk ((lefts p ++ l.toList) ++ rng :: (r.toList ++ rights p)) by simpa using hok).erase
    · split_ifs <;> simp_all

/-- The state a pass goes on with after trimming the start of the range it
found: the trimmed tree is well formed, and the removed range ends at the
old start of that range. -/
theorem removeRangePass_trimStart {rem : CachedRange} {p q : List (Frame CachedRange)} {t l r : Tree CachedRange}
    {rng : CachedRange} (h : descend (rangeCmp rem.start rem.end) id id p t = (q, .node l rng r))
    (hok : RangesOk (plug p t).toList) (hrem : rem.start ≤ rem.end) (hl : ∀ y ∈ lefts p, y.end < rem.start)
    (hr : ∀ y ∈ rights p, rem.end < y.start) (htrim : rem.start < rng.start ∧ rem.end < rng.end) :
    RangesOk (plug q (.node l { rng with start := scoutfsKeyInc rem.end } r)).toList ∧
      rem.start ≤ rng.start ∧ (∀ y ∈ lefts q, y.end < rem.start) ∧ (∀ y ∈ rights q, rng.start < y.start) := by
  obtain ⟨hplug, hl', -⟩ := rangeDescend h hok hrem hl hr
  have hov := descend_range_overlaps h
  rw [← hplug, toList_plug] at hok
  have hok' : RangesOk ((lefts q ++ l.toList) ++ rng :: (r.toList ++ rights q)) := by simpa using hok
  have hrng := hok'.1 rng (by simp)
  refine ⟨?_, ?_, hl', fun y hy => ?_⟩
  · rw [toList_plug]
    simpa using hok'.shrink (y := { rng with start := scoutfsKeyInc rem.end }) (by simp; omega) le_rfl
      (by simp; omega)
  · omega
  · have := hok'.split.2 y (by simp [hy]); omega

/-- The state a pass goes on with after trimming the end of the range it
found. -/
theorem removeRangePass_trimEnd {rem : CachedRange} {p q : List (Frame CachedRange)} {t l r : Tree CachedRange}
    {rng : CachedRange} (h : descend (rangeCmp rem.start rem.end) id id p t = (q, .node l rng r))
    (hok : RangesOk (plug p t).toList) (hrem : rem.start ≤ rem.end) (hl : ∀ y ∈ lefts p, y.end < rem.start)
    (hr : ∀ y ∈ rights p, rem.end < y.start) (htrim : rng.start < rem.start ∧ rng.end < rem.end) :
    RangesOk (plug q (.node l { rng with «end» := scoutfsKeyDec rem.start } r)).toList ∧
      rng.end ≤ rem.end ∧ (∀ y ∈ lefts q, y.end < rng.end) ∧ (∀ y ∈ rights q, rem.end < y.start) := by
  obtain ⟨hplug, -, hr'⟩ := rangeDescend h hok hrem hl hr
  have hov := descend_range_overlaps h
  rw [← hplug, toList_plug] at hok
  have hok' : RangesOk ((lefts q ++ l.toList) ++ rng :: (r.toList ++ rights q)) := by simpa using hok
  have hrng := hok'.1 rng (by simp)
  refine ⟨?_, ?_, fun y hy => ?_, hr'⟩
  · rw [toList_plug]
    simpa using hok'.shrink (y := { rng with «end» := scoutfsKeyDec rem.start }) le_rfl
      (by simp; omega) (by simp; omega)
  · omega
  · have := hok'.split.1 y (by simp [hy]); omega

/-- What one pass of `remove_range` leaves for the next: a well formed tree,
and on a restart a range with `start <= end`. -/
def RemoveStep.Ok : RemoveStep → Prop
  | .done t => RangesOk t.toList
  | .restart t rem _ => RangesOk t.toList ∧ rem.start ≤ rem.end

/-- One pass of `remove_range` from a path whose ranges lie outside the
removed range: trims and splits shrink the range in place, the split's
right half and the range to go on with are ordered, and a linked right
half goes into a gap. -/
theorem removeRangePass_ok {rem : CachedRange} {insert : Bool} {p : List (Frame CachedRange)}
    {t : Tree CachedRange} (hok : RangesOk (plug p t).toList) (hrem : rem.start ≤ rem.end)
    (hl : ∀ y ∈ lefts p, y.end < rem.start) (hr : ∀ y ∈ rights p, rem.end < y.start) :
    (removeRangePass rem insert p t).Ok := by
  induction rem, insert, p, t using removeRangePass.induct with
  | case1 rem insert p t q h =>
    obtain ⟨hplug, hl', hr'⟩ := rangeDescend h hok hrem hl hr
    rw [removeRangePass_of_nil h]
    rw [← hplug, toList_plug] at hok
    simp only [RemoveStep.Ok, toList_plug]
    split_ifs
    · simpa using hok.insert (x := rem) (by simpa using hl') (by simpa using hr') hrem
    · simpa using hok
  | case2 rem insert p t q l rng r h hsplit =>
    obtain ⟨hplug, -, -⟩ := rangeDescend h hok hrem hl hr
    rw [removeRangePass_of_node h, if_pos hsplit]
    rw [← hplug, toList_plug] at hok
    have hok' : RangesOk ((lefts q ++ l.toList) ++ rng :: (r.toList ++ rights q)) := by simpa using hok
    simp only [scoutfsKeyCompare_pos, scoutfsKeyCompare_neg] at hsplit
    refine ⟨?_, by simp; omega⟩
    rw [toList_plug]
    simpa using hok'.shrink (y := { rng with «end» := scoutfsKeyDec rem.start }) le_rfl
      (by simp; omega) (by simp; omega)
  | case3 rem insert p t q l rng r h hsplit htrim ih =>
    rw [removeRangePass_of_node h, if_neg hsplit, if_pos htrim]
    simp only [scoutfsKeyCompare_pos, scoutfsKeyCompare_neg] at htrim
    obtain ⟨h1, h2, h3, h4⟩ := removeRangePass_trimStart h hok hrem hl hr htrim
    exact ih h1 h2 h3 h4
  | case4 rem insert p t q l rng r h hsplit htrim htrim' ih =>
    rw [removeRangePass_of_node h, if_neg hsplit, if_neg htrim, if_pos htrim']
    simp only [scoutfsKeyCompare_pos, scoutfsKeyCompare_neg] at htrim'
    obtain ⟨h1, h2, h3, h4⟩ := removeRangePass_trimEnd h hok hrem hl hr htrim'
    exact ih h1 h2 h3 h4
  | case5 rem insert p t q l rng r h hsplit htrim htrim' =>
    obtain ⟨hplug, -, -⟩ := rangeDescend h hok hrem hl hr
    rw [removeRangePass_of_node h, if_neg hsplit, if_neg htrim, if_neg htrim']
    rw [← hplug, toList_plug] at hok
    have hok' : RangesOk ((lefts q ++ l.toList) ++ rng :: (r.toList ++ rights q)) := by simpa using hok
    refine ⟨?_, hrem⟩
    rw [toList_rbErase]
    simpa using hok'.erase

/-- `remove_range` of a range with `start <= end` keeps the ranges well formed. -/
theorem removeRange_ok {t : Tree CachedRange} {rem : CachedRange} (hok : RangesOk t.toList)
    (hrem : rem.start ≤ rem.end) : RangesOk (removeRange t rem).toList := by
  unfold removeRange
  generalize false = insert
  induction t, rem, insert using removeRangeLoop.induct with
  | case1 t rem insert t' h =>
    have : (removeRangePass rem insert [] t).Ok :=
      removeRangePass_ok (by simpa using hok) hrem (by simp) (by simp)
    rw [h] at this
    rw [removeRangeLoop_of_done h]
    exact this
  | case2 t rem insert t' rem' insert' h ih =>
    have : (removeRangePass rem insert [] t).Ok :=
      removeRangePass_ok (by simpa using hok) hrem (by simp) (by simp)
    rw [h] at this
    rw [removeRangeLoop_of_restart h]
    exact ih this.1 this.2

/-! ## A range sharing one endpoint with an invalidation -/

/-- Cache the keys `[0, 10]` without items. -/
def coveredTenRun : List Op := [.insertBatch [] 0 10]

unseal insertRange removeRangeLoop removeRangePass eraseWalk in
theorem invalidate_uncovers_keys_outside_range (maxValSize : Nat) :
    Reachable maxValSize (execAll setupWorld coveredTenRun) ∧
      covered (execAll setupWorld coveredTenRun).cache.ranges 6 = true ∧
      covered (scoutfsItemInvalidate (execAll setupWorld coveredTenRun).cache 0 5 false).1.ranges 6 = false :=
  ⟨Reachable.setup.execAll coveredTenRun rfl (by decide), by decide, by decide⟩

end ScoutfsItemCache
