import ScoutfsItemCache.Item

/-! # The cached range tree

`walk_ranges`, `check_range`, `insert_range` and `remove_range` over the
rbtree of `struct cached_range`. The range tree has no augmentation:
`rb_erase` is `rbEraseAugmented` with callbacks that change nothing.

Both `insert_range` and `remove_range` restart their descent after they
erase a range; `remove_range` also restarts after splitting a range, and
re-examines the same node after trimming one (`continue`). Their
termination measures are part of the definitions: the tree shrinks at
each restart of `insert_range`; the summed length of the ranges shrinks,
or stays and the tree shrinks, at each restart of `remove_range`.
-/

namespace ScoutfsItemCache

/-- `scoutfs_key_compare_ranges(start, end, &rng->start, &rng->end)`. -/
def rangeCmp (start «end» : Nat) (rng : CachedRange) : Int :=
  scoutfsKeyCompareRanges start «end» rng.start rng.end

/-- `rb_erase` on the range tree. -/
def rbErase (p : List (Frame CachedRange)) (t : Tree CachedRange) : Tree CachedRange :=
  rbEraseAugmented (fun _ x _ => x) p t

/-- The descent of `walk_ranges` for `key`. -/
def rangePath (t : Tree CachedRange) (key : Nat) : List (Frame CachedRange) × Tree CachedRange :=
  descend (rangeCmp key key) id id [] t

theorem plug_of_rangePath {t : Tree CachedRange} {key : Nat} {p : List (Frame CachedRange)}
    {u : Tree CachedRange} (h : rangePath t key = (p, u)) : plug p u = t := by
  have := plug_descend_id (rangeCmp key key) [] t
  rwa [← rangePath, h] at this

/-- The range `walk_ranges` stops at contains the key. -/
theorem rangePath_node {t : Tree CachedRange} {key : Nat} {p : List (Frame CachedRange)}
    {l r : Tree CachedRange} {rng : CachedRange} (h : rangePath t key = (p, .node l rng r)) :
    rng.start ≤ key ∧ key ≤ rng.end := by
  rcases descend_focus (rangeCmp key key) id id [] t with h0 | ⟨l', x, r', h0, hx⟩
  · rw [← rangePath, h] at h0; cases h0
  · rw [← rangePath, h] at h0
    cases h0
    simp only [rangeCmp, scoutfsKeyCompareRanges_eq_zero] at hx
    omega

/-- `walk_ranges`: the range containing `key`, if any, and the last ranges
the descent passed on its right (`*prev`) and on its left (`*next`). -/
def walkRanges (t : Tree CachedRange) (key : Nat) :
    Option CachedRange × Option CachedRange × Option CachedRange :=
  ((rangePath t key).2.root, prevParent (rangePath t key).1, nextParent (rangePath t key).1)

/-- `check_range`: the cached range covering `key`, if any. -/
def checkRange (t : Tree CachedRange) (key : Nat) : Option CachedRange := (walkRanges t key).1

/-- The range `check_range` returns contains the key. -/
theorem checkRange_mem {t : Tree CachedRange} {key : Nat} {rng : CachedRange}
    (h : checkRange t key = some rng) : rng.start ≤ key ∧ key ≤ rng.end := by
  unfold checkRange walkRanges at h
  rcases hp : rangePath t key with ⟨p, _ | ⟨l, x, r⟩⟩
  · rw [hp] at h; cases h
  · rw [hp] at h
    cases h
    exact rangePath_node hp

theorem rbErase_size (p : List (Frame CachedRange)) (l : Tree CachedRange) (x : CachedRange)
    (r : Tree CachedRange) : (rbErase p (.node l x r)).size + 1 = (plug p (.node l x r)).size :=
  size_rbEraseAugmented (fun _ x _ => x) id (fun _ _ _ => rfl) p l x r

theorem toList_rbErase (p : List (Frame CachedRange)) (l : Tree CachedRange) (x : CachedRange)
    (r : Tree CachedRange) :
    (rbErase p (.node l x r)).toList = lefts p ++ l.toList ++ r.toList ++ rights p := by
  simpa using toList_rbEraseAugmented (fun _ x _ => x) id (fun _ _ _ => rfl) p l x r

/-- `insert_range`: descend to a range overlapping `ins`; if `ins` lies
inside it, drop `ins`; otherwise widen `ins` over a range it partially
overlaps, erase the range, and restart. Without overlap, link `ins`. -/
def insertRange (t : Tree CachedRange) (ins : CachedRange) : Tree CachedRange :=
  match _h : descend (rangeCmp ins.start ins.end) id id [] t with
  | (p, .nil) => plug p (.node .nil ins .nil)
  | (p, .node l rng r) =>
    if 0 ≤ scoutfsKeyCompare ins.start rng.start ∧ scoutfsKeyCompare ins.end rng.end ≤ 0 then t
    else
      insertRange (rbErase p (.node l rng r))
        (if scoutfsKeyCompare ins.start rng.start < 0 ∧ scoutfsKeyCompare ins.end rng.end < 0 then
          { ins with «end» := rng.end }
        else if 0 < scoutfsKeyCompare ins.start rng.start ∧
            0 < scoutfsKeyCompare ins.end rng.end then
          { ins with start := rng.start }
        else ins)
termination_by t.size
decreasing_by
  have h1 := rbErase_size p l rng r
  have h2 := congrArg Tree.size (plug_descend_id (rangeCmp ins.start ins.end) [] t)
  rw [_h] at h2
  simp only [plug_nil] at h2
  simp_wf
  omega

theorem insertRange_of_nil {t : Tree CachedRange} {ins : CachedRange} {p : List (Frame CachedRange)}
    (h : descend (rangeCmp ins.start ins.end) id id [] t = (p, .nil)) :
    insertRange t ins = plug p (.node .nil ins .nil) := by
  rw [insertRange]; split <;> simp_all

theorem insertRange_of_node {t : Tree CachedRange} {ins : CachedRange} {p : List (Frame CachedRange)}
    {l r : Tree CachedRange} {rng : CachedRange}
    (h : descend (rangeCmp ins.start ins.end) id id [] t = (p, .node l rng r)) :
    insertRange t ins =
      if 0 ≤ scoutfsKeyCompare ins.start rng.start ∧ scoutfsKeyCompare ins.end rng.end ≤ 0 then t
      else
        insertRange (rbErase p (.node l rng r))
          (if scoutfsKeyCompare ins.start rng.start < 0 ∧ scoutfsKeyCompare ins.end rng.end < 0 then
            { ins with «end» := rng.end }
          else if 0 < scoutfsKeyCompare ins.start rng.start ∧
              0 < scoutfsKeyCompare ins.end rng.end then
            { ins with start := rng.start }
          else ins) := by
  rw [insertRange]; split <;> simp_all

/-- The number of keys a range covers. -/
def rangeLen (rng : CachedRange) : Nat := rng.end + 1 - rng.start

/-- The summed length of the ranges of a tree. -/
def coverLen (t : Tree CachedRange) : Nat := (t.toList.map rangeLen).sum

/-- Whether the root of a subtree overlaps the removed range. -/
def rootOverlaps (rem : CachedRange) : Tree CachedRange → Nat
  | .nil => 0
  | .node _ rng _ => if rangeCmp rem.start rem.end rng = 0 then 1 else 0

/-- What one descent of `remove_range` ends with: the final tree, or a
tree and the range to go on removing (or inserting) after a restart. -/
inductive RemoveStep where
  | done (t : Tree CachedRange)
  | restart (t : Tree CachedRange) (rem : CachedRange) (insert : Bool)

theorem descend_step_measure (rem rem' rng' : CachedRange) (p q : List (Frame CachedRange))
    (t l r : Tree CachedRange) (rng : CachedRange)
    (h : descend (rangeCmp rem.start rem.end) id id p t = (q, .node l rng r))
    (hne : rangeCmp rem'.start rem'.end rng' ≠ 0) :
    Prod.Lex (· < ·) (· < ·) ((Tree.node l rng' r).size, rootOverlaps rem' (.node l rng' r))
      (t.size, rootOverlaps rem t) := by
  have hroot : rangeCmp rem.start rem.end rng = 0 := by
    have h0 := descend_focus (rangeCmp rem.start rem.end) id id p t
    rw [h] at h0
    rcases h0 with h0 | ⟨_, _, _, h0, h0'⟩
    · cases h0
    · cases h0; exact h0'
  have hz : rootOverlaps rem' (.node l rng' r) = 0 := by simp [rootOverlaps, hne]
  rcases size_descend_focus (rangeCmp rem.start rem.end) id id p t with hs | hs
  · rw [h] at hs
    exact Prod.Lex.left _ _ (by simpa using hs)
  · rw [hs] at h
    obtain ⟨-, rfl⟩ := Prod.mk.inj h
    rw [hz]
    simp only [rootOverlaps, hroot, if_true, Tree.size_node]
    exact Prod.Lex.right _ Nat.zero_lt_one

/-- One descent of `remove_range`, from the node at the focus of `p`:
split a range that strictly contains `rem` (restarting to insert the right
half), trim a range that `rem` overlaps on one side and look at the same
node again, erase a range `rem` covers (restarting). At the end, link
`rem` if it is a split's right half, else drop it. -/
def removeRangePass (rem : CachedRange) (insert : Bool) (p : List (Frame CachedRange))
    (t : Tree CachedRange) : RemoveStep :=
  match _h : descend (rangeCmp rem.start rem.end) id id p t with
  | (q, .nil) => .done (plug q (if insert then .node .nil rem .nil else .nil))
  | (q, .node l rng r) =>
    if 0 < scoutfsKeyCompare rem.start rng.start ∧ scoutfsKeyCompare rem.end rng.end < 0 then
      .restart (plug q (.node l { rng with «end» := scoutfsKeyDec rem.start } r))
        ⟨scoutfsKeyInc rem.end, rng.end⟩ true
    else if scoutfsKeyCompare rem.start rng.start < 0 ∧ scoutfsKeyCompare rem.end rng.end < 0 then
      removeRangePass { rem with «end» := rng.start } insert q
        (.node l { rng with start := scoutfsKeyInc rem.end } r)
    else if 0 < scoutfsKeyCompare rem.start rng.start ∧ 0 < scoutfsKeyCompare rem.end rng.end then
      removeRangePass { rem with start := rng.end } insert q
        (.node l { rng with «end» := scoutfsKeyDec rem.start } r)
    else .restart (rbErase q (.node l rng r)) rem insert
termination_by (t.size, rootOverlaps rem t)
decreasing_by
  all_goals
    have hf := descend_focus (rangeCmp rem.start rem.end) id id p t
    rw [_h] at hf
    rcases hf with hf | ⟨_, _, _, hf, hf'⟩
    · cases hf
    · cases hf
      refine descend_step_measure rem _ _ p q t l r rng _h ?_
      simp only [rangeCmp, ne_eq, scoutfsKeyCompareRanges_eq_zero, scoutfsKeyInc_eq,
        scoutfsKeyDec_eq, scoutfsKeyCompare_pos, scoutfsKeyCompare_neg] at *
      omega

theorem removeRangePass_of_nil {rem : CachedRange} {insert : Bool} {p q : List (Frame CachedRange)}
    {t : Tree CachedRange} (h : descend (rangeCmp rem.start rem.end) id id p t = (q, .nil)) :
    removeRangePass rem insert p t = .done (plug q (if insert then .node .nil rem .nil else .nil)) := by
  rw [removeRangePass]; split <;> simp_all

theorem removeRangePass_of_node {rem : CachedRange} {insert : Bool} {p q : List (Frame CachedRange)}
    {t l r : Tree CachedRange} {rng : CachedRange}
    (h : descend (rangeCmp rem.start rem.end) id id p t = (q, .node l rng r)) :
    removeRangePass rem insert p t =
      if 0 < scoutfsKeyCompare rem.start rng.start ∧ scoutfsKeyCompare rem.end rng.end < 0 then
        .restart (plug q (.node l { rng with «end» := scoutfsKeyDec rem.start } r))
          ⟨scoutfsKeyInc rem.end, rng.end⟩ true
      else if scoutfsKeyCompare rem.start rng.start < 0 ∧ scoutfsKeyCompare rem.end rng.end < 0 then
        removeRangePass { rem with «end» := rng.start } insert q
          (.node l { rng with start := scoutfsKeyInc rem.end } r)
      else if 0 < scoutfsKeyCompare rem.start rng.start ∧ 0 < scoutfsKeyCompare rem.end rng.end then
        removeRangePass { rem with start := rng.end } insert q
          (.node l { rng with «end» := scoutfsKeyDec rem.start } r)
      else .restart (rbErase q (.node l rng r)) rem insert := by
  rw [removeRangePass]; split <;> simp_all

theorem coverLen_plug (p : List (Frame CachedRange)) (t : Tree CachedRange) :
    coverLen (plug p t) =
      ((lefts p).map rangeLen).sum + coverLen t + ((rights p).map rangeLen).sum := by
  simp [coverLen, toList_plug, List.sum_append]; omega

/-- The range a descent stops at overlaps the searched range. -/
theorem descend_range_overlaps {rem : CachedRange} {p q : List (Frame CachedRange)}
    {t l r : Tree CachedRange} {rng : CachedRange}
    (h : descend (rangeCmp rem.start rem.end) id id p t = (q, .node l rng r)) :
    rng.start ≤ rem.end ∧ rem.start ≤ rng.end := by
  have h0 := descend_focus (rangeCmp rem.start rem.end) id id p t
  rw [h] at h0
  rcases h0 with h0 | ⟨_, _, _, h0, h0'⟩
  · cases h0
  · cases h0
    simp only [rangeCmp, scoutfsKeyCompareRanges_eq_zero] at h0'
    omega

theorem plug_descend_range {rem : CachedRange} {p q : List (Frame CachedRange)}
    {t f : Tree CachedRange} (h : descend (rangeCmp rem.start rem.end) id id p t = (q, f)) :
    plug q f = plug p t := by
  have := plug_descend_id (rangeCmp rem.start rem.end) p t
  rwa [h] at this

/-- Every restart of `remove_range` shortens the summed length of the
ranges, or keeps it and removes a node. -/
theorem removeRangePass_restart (rem : CachedRange) (insert : Bool) (p : List (Frame CachedRange))
    (t : Tree CachedRange) {t' : Tree CachedRange} {rem' : CachedRange} {insert' : Bool}
    (hr : removeRangePass rem insert p t = .restart t' rem' insert') :
    coverLen t' < coverLen (plug p t) ∨
      (coverLen t' ≤ coverLen (plug p t) ∧ t'.size < (plug p t).size) := by
  induction rem, insert, p, t using removeRangePass.induct with
  | case1 rem insert p t q h =>
    rw [removeRangePass_of_nil h] at hr; cases hr
  | case2 rem insert p t q l rng r h hsplit =>
    rw [removeRangePass_of_node h, if_pos hsplit] at hr
    cases hr
    left
    have hov := descend_range_overlaps h
    simp only [scoutfsKeyCompare_pos, scoutfsKeyCompare_neg] at hsplit
    rw [← plug_descend_range h, coverLen_plug, coverLen_plug]
    simp only [coverLen, Tree.toList_node, List.map_append, List.map_cons, List.sum_append,
      List.sum_cons, rangeLen, scoutfsKeyDec_eq]
    omega
  | case3 rem insert p t q l rng r h hsplit htrim ih =>
    rw [removeRangePass_of_node h, if_neg hsplit, if_pos htrim] at hr
    have hov := descend_range_overlaps h
    simp only [scoutfsKeyCompare_pos, scoutfsKeyCompare_neg] at htrim
    have hlt : coverLen (plug q (.node l { rng with start := scoutfsKeyInc rem.end } r)) <
        coverLen (plug p t) := by
      rw [← plug_descend_range h, coverLen_plug, coverLen_plug]
      simp only [coverLen, Tree.toList_node, List.map_append, List.map_cons, List.sum_append,
        List.sum_cons, rangeLen, scoutfsKeyInc_eq]
      omega
    have hsz : (plug q (.node l { rng with start := scoutfsKeyInc rem.end } r)).size =
        (plug p t).size := by
      rw [← plug_descend_range h, size_plug, size_plug]; simp
    rcases ih hr with h1 | h1 <;> omega
  | case4 rem insert p t q l rng r h hsplit htrim htrim' ih =>
    rw [removeRangePass_of_node h, if_neg hsplit, if_neg htrim, if_pos htrim'] at hr
    have hov := descend_range_overlaps h
    simp only [scoutfsKeyCompare_pos, scoutfsKeyCompare_neg] at htrim'
    have hlt : coverLen (plug q (.node l { rng with «end» := scoutfsKeyDec rem.start } r)) <
        coverLen (plug p t) := by
      rw [← plug_descend_range h, coverLen_plug, coverLen_plug]
      simp only [coverLen, Tree.toList_node, List.map_append, List.map_cons, List.sum_append,
        List.sum_cons, rangeLen, scoutfsKeyDec_eq]
      omega
    have hsz : (plug q (.node l { rng with «end» := scoutfsKeyDec rem.start } r)).size =
        (plug p t).size := by
      rw [← plug_descend_range h, size_plug, size_plug]; simp
    rcases ih hr with h1 | h1 <;> omega
  | case5 rem insert p t q l rng r h hsplit htrim htrim' =>
    rw [removeRangePass_of_node h, if_neg hsplit, if_neg htrim, if_neg htrim'] at hr
    cases hr
    right
    have hsize := rbErase_size q l rng r
    rw [plug_descend_range h] at hsize
    refine ⟨?_, by omega⟩
    rw [← plug_descend_range h, coverLen_plug, coverLen, toList_rbErase]
    simp only [coverLen, Tree.toList_node, List.map_append, List.map_cons, List.sum_append,
      List.sum_cons]
    omega

/-- The restart loop of `remove_range`. -/
def removeRangeLoop (t : Tree CachedRange) (rem : CachedRange) (insert : Bool) :
    Tree CachedRange :=
  match _h : removeRangePass rem insert [] t with
  | .done t' => t'
  | .restart t' rem' insert' => removeRangeLoop t' rem' insert'
termination_by (coverLen t, t.size)
decreasing_by
  rcases removeRangePass_restart rem insert [] t _h with h1 | ⟨h1, h2⟩
  · exact Prod.Lex.left _ _ h1
  · rcases Nat.lt_or_eq_of_le h1 with h1 | h1
    · exact Prod.Lex.left _ _ h1
    · simp only [plug_nil] at h1 h2
      rw [h1]; exact Prod.Lex.right _ h2

theorem removeRangeLoop_of_done {t t' : Tree CachedRange} {rem : CachedRange} {insert : Bool}
    (h : removeRangePass rem insert [] t = .done t') : removeRangeLoop t rem insert = t' := by
  rw [removeRangeLoop]; split <;> simp_all

theorem removeRangeLoop_of_restart {t t' : Tree CachedRange} {rem rem' : CachedRange} {insert insert' : Bool}
    (h : removeRangePass rem insert [] t = .restart t' rem' insert') :
    removeRangeLoop t rem insert = removeRangeLoop t' rem' insert' := by
  rw [removeRangeLoop]; split <;> simp_all

/-- `remove_range`: remove the keys of `rem` from the cached ranges. -/
def removeRange (t : Tree CachedRange) (rem : CachedRange) : Tree CachedRange :=
  removeRangeLoop t rem false

end ScoutfsItemCache
