import ScoutfsItemCache.Effects

/-! # What the shrinker drops

`item_lru_shrink` erases only items that `shrink_boundary` saw clean, and
edits the range around them so that no erased key stays covered. Read key
by key, one pass of its scan loop goes from a cache `s` to a cache `s'`
that differ on an interval `[lo, hi]` of keys (`ShrinkStep`):

* every item of `s` in `[lo, hi]` is clean;
* off `[lo, hi]` every key holds what it held, and in `[lo, hi]` what it
  held or nothing;
* every key a range of `s'` covers was covered in `s`, and lies outside
  `[lo, hi]`.

Over the whole loop the intervals add up to the relation `ShrinkRun`:
every key holds what it held or, where `s` held a clean item, nothing, and
every key still covered holds exactly what it held.

`shrinkAround_cases` says everything one call of `shrink_around` does:
either both walks stop at the item, which has a dirty neighbour inside the
range on each side, and nothing changes; or it frees items on an interval
around the item, and every stretch of keys off that interval that one
range held, with items at both ends, one range still holds (`Spanned`).
-/

namespace ScoutfsItemCache

/-! ## The keys the range edits cover -/

section Coverage

theorem covered_plug_node (p : List (Frame CachedRange)) (l r : Tree CachedRange) (x : CachedRange) (k : Nat) :
    covered (plug p (.node l x r)) k = true ↔
      x.contains k = true ∨ (lefts p ++ l.toList ++ r.toList ++ rights p).any (·.contains k) = true := by
  simp only [covered, toList_plug, Tree.toList_node, List.any_append, List.any_cons, Bool.or_eq_true, or_assoc,
    or_left_comm]

theorem covered_rbErase (p : List (Frame CachedRange)) (l r : Tree CachedRange) (x : CachedRange) (k : Nat) :
    covered (rbErase p (.node l x r)) k = true ↔
      (lefts p ++ l.toList ++ r.toList ++ rights p).any (·.contains k) = true := by
  rw [covered, toList_rbErase]

/-- In well formed ranges no other range meets the range at a node. -/
theorem RangesOk.not_contains_of_others {p : List (Frame CachedRange)} {l r : Tree CachedRange}
    {x : CachedRange} (hok : RangesOk (plug p (.node l x r)).toList) {k : Nat}
    (h : (lefts p ++ l.toList ++ r.toList ++ rights p).any (·.contains k) = true) : x.contains k = false := by
  have hpw := hok.2
  rw [show (plug p (.node l x r)).toList = (lefts p ++ l.toList) ++ x :: (r.toList ++ rights p) by
    simp [toList_plug], List.pairwise_append, List.pairwise_cons] at hpw
  obtain ⟨y, hy, hyk⟩ := List.any_eq_true.1 h
  simp only [CachedRange.contains, Bool.and_eq_true, decide_eq_true_eq] at hyk
  simp only [CachedRange.contains, Bool.and_eq_false_iff, decide_eq_false_iff_not, not_le]
  simp only [List.mem_append] at hy
  rcases hy with ((hy | hy) | hy) | hy
  · have := hpw.2.2 y (List.mem_append.2 (.inl hy)) x (.head _); omega
  · have := hpw.2.2 y (List.mem_append.2 (.inr hy)) x (.head _); omega
  · have := hpw.2.1.1 y (List.mem_append.2 (.inl hy)); omega
  · have := hpw.2.1.1 y (List.mem_append.2 (.inr hy)); omega

/-- The range `insert_range` goes on with after erasing a range it
partially overlaps holds the keys of both. -/
theorem insertRange_widen_contains {ins rng : CachedRange} (hov : rng.start ≤ ins.end ∧ ins.start ≤ rng.end)
    (hin : ¬(0 ≤ scoutfsKeyCompare ins.start rng.start ∧ scoutfsKeyCompare ins.end rng.end ≤ 0)) (k : Nat) :
    (if scoutfsKeyCompare ins.start rng.start < 0 ∧ scoutfsKeyCompare ins.end rng.end < 0 then
        { ins with «end» := rng.end }
      else if 0 < scoutfsKeyCompare ins.start rng.start ∧ 0 < scoutfsKeyCompare ins.end rng.end then
        { ins with start := rng.start }
      else ins).contains k = true ↔ ins.contains k = true ∨ rng.contains k = true := by
  simp only [scoutfsKeyCompare_neg, scoutfsKeyCompare_pos, scoutfsKeyCompare_nonneg,
    scoutfsKeyCompare_nonpos] at hin ⊢
  split_ifs <;> simp only [CachedRange.contains, Bool.and_eq_true, decide_eq_true_eq] <;> omega

/-- `insert_range` covers the keys it was given and those already covered. -/
theorem covered_insertRange (t : Tree CachedRange) (ins : CachedRange) (k : Nat) :
    covered (insertRange t ins) k = true ↔ covered t k = true ∨ ins.contains k = true := by
  induction t, ins using insertRange.induct with
  | case1 t ins p h =>
    have hplug := plug_descend_range h
    rw [plug_nil] at hplug
    rw [insertRange_of_nil h, covered_plug_node, ← hplug]
    simp only [covered, toList_plug, Tree.toList_nil, List.append_nil, Tree.toList_nil, List.nil_append,
      List.any_append, Bool.or_eq_true, or_comm]
  | case2 t ins p l rng r h hin =>
    rw [insertRange_of_node h, if_pos hin]
    refine ⟨.inl, fun h' => h'.elim id fun hk => ?_⟩
    rw [← plug_nil t, ← plug_descend_range h, covered_plug_node]
    left
    simp only [scoutfsKeyCompare_nonneg, scoutfsKeyCompare_nonpos] at hin
    simp only [CachedRange.contains, Bool.and_eq_true, decide_eq_true_eq] at hk ⊢
    omega
  | case3 t ins p l rng r h hin ih =>
    simp only [dite_eq_ite] at ih
    rw [insertRange_of_node h, if_neg hin, ih, covered_rbErase, insertRange_widen_contains
      (descend_range_overlaps h) hin, ← plug_nil t, ← plug_descend_range h, covered_plug_node]
    simp only [or_assoc, or_left_comm, or_comm]

/-- Some cached range holds every key from `a` up to `b`. -/
def Spanned (t : Tree CachedRange) (a b : Nat) : Prop :=
  a ≤ b ∧ ∃ r ∈ t.toList, r.start ≤ a ∧ b ≤ r.end

theorem mem_plug_node_iff {p : List (Frame CachedRange)} {l r : Tree CachedRange} {x y : CachedRange} :
    y ∈ (plug p (.node l x r)).toList ↔ y = x ∨ y ∈ lefts p ++ l.toList ++ r.toList ++ rights p := by
  simp only [toList_plug, Tree.toList_node, List.mem_append, List.mem_cons, or_assoc, or_left_comm]

/-- `insert_range` only merges: the range it inserts and every range of the
tree lie inside ranges of the result. -/
theorem insertRange_subsumes (t : Tree CachedRange) (ins : CachedRange) :
    ∀ x, x ∈ t.toList ∨ x = ins →
      ∃ y ∈ (insertRange t ins).toList, y.start ≤ x.start ∧ x.end ≤ y.end := by
  induction t, ins using insertRange.induct with
  | case1 t ins p h =>
    have hplug := plug_descend_range h
    rw [plug_nil] at hplug
    rw [insertRange_of_nil h, ← hplug]
    intro x hx
    refine ⟨x, ?_, le_rfl, le_rfl⟩
    rw [mem_plug_node_iff]
    rw [toList_plug] at hx
    simp only [Tree.toList_nil, List.append_nil, List.mem_append] at hx ⊢
    rcases hx with hx | rfl
    · exact .inr hx
    · exact .inl rfl
  | case2 t ins p l rng r h hin =>
    rw [insertRange_of_node h, if_pos hin]
    rintro x (hx | rfl)
    · exact ⟨x, hx, le_rfl, le_rfl⟩
    · refine ⟨rng, ?_, ?_⟩
      · rw [← plug_nil t, ← plug_descend_range h, mem_plug_node_iff]; exact .inl rfl
      · simp only [scoutfsKeyCompare_nonneg, scoutfsKeyCompare_nonpos] at hin; omega
  | case3 t ins p l rng r h hin ih =>
    rw [insertRange_of_node h, if_neg hin]
    have hov := descend_range_overlaps h
    simp only [scoutfsKeyCompare_neg, scoutfsKeyCompare_pos, scoutfsKeyCompare_nonneg,
      scoutfsKeyCompare_nonpos] at hin ih ⊢
    -- the widened range holds both `ins` and `rng`
    obtain ⟨y, hy, hy1, hy2⟩ := ih _ (.inr rfl)
    have hw : y.start ≤ rng.start ∧ rng.end ≤ y.end ∧ y.start ≤ ins.start ∧ ins.end ≤ y.end := by
      split_ifs at hy1 hy2 <;> (try dsimp only at hy1 hy2) <;> omega
    intro x hx
    rw [← plug_nil t, ← plug_descend_range h, mem_plug_node_iff, ← toList_rbErase] at hx
    rcases hx with (rfl | hx) | rfl
    · exact ⟨y, hy, hw.1, hw.2.1⟩
    · exact ih x (.inl hx)
    · exact ⟨y, hy, hw.2.2⟩

theorem spanned_insertRange {t : Tree CachedRange} {a b : Nat} (h : Spanned t a b) (ins : CachedRange) :
    Spanned (insertRange t ins) a b := by
  obtain ⟨hab, x, hx, h1, h2⟩ := h
  obtain ⟨y, hy, hy1, hy2⟩ := insertRange_subsumes t ins x (.inl hx)
  exact ⟨hab, y, hy, by omega, by omega⟩

theorem spanned_insertRange_self (t : Tree CachedRange) {ins : CachedRange} {a b : Nat} (hab : a ≤ b)
    (h1 : ins.start ≤ a) (h2 : b ≤ ins.end) : Spanned (insertRange t ins) a b := by
  obtain ⟨y, hy, hy1, hy2⟩ := insertRange_subsumes t ins ins (.inr rfl)
  exact ⟨hab, y, hy, by omega, by omega⟩


end Coverage

/-! ## Steps and runs of the shrinker -/

/-- One pass of the scan loop, erasing clean items on `[lo, hi]` and
uncovering those keys. -/
def ShrinkStep (s s' : ItemCache) : Prop :=
  ∃ lo hi : Nat,
    (∀ k y, lo ≤ k → k ≤ hi → getAt k (itemsOf s.items) = some y → itemIsDirty y = false) ∧
    (∀ k, getAt k (itemsOf s'.items) = getAt k (itemsOf s.items) ∨
      (lo ≤ k ∧ k ≤ hi ∧ getAt k (itemsOf s'.items) = none)) ∧
    ∀ k, covered s'.ranges k = true → covered s.ranges k = true ∧ ¬(lo ≤ k ∧ k ≤ hi)

/-- `ShrinkStep` on the interval `[lo, hi]`. -/
def ShrinkStepOn (s s' : ItemCache) (lo hi : Nat) : Prop :=
  (∀ k y, lo ≤ k → k ≤ hi → getAt k (itemsOf s.items) = some y → itemIsDirty y = false) ∧
  (∀ k, getAt k (itemsOf s'.items) = getAt k (itemsOf s.items) ∨
    (lo ≤ k ∧ k ≤ hi ∧ getAt k (itemsOf s'.items) = none)) ∧
  ∀ k, covered s'.ranges k = true → covered s.ranges k = true ∧ ¬(lo ≤ k ∧ k ≤ hi)

theorem ShrinkStepOn.step {s s' : ItemCache} {lo hi : Nat} (h : ShrinkStepOn s s' lo hi) : ShrinkStep s s' :=
  ⟨lo, hi, h⟩

/-- A run of the shrinker: only clean items go, and covered keys keep
their items. -/
def ShrinkRun (s s' : ItemCache) : Prop :=
  (∀ k, getAt k (itemsOf s'.items) = getAt k (itemsOf s.items) ∨
    (getAt k (itemsOf s'.items) = none ∧ ∃ y, getAt k (itemsOf s.items) = some y ∧ itemIsDirty y = false)) ∧
  ∀ k, covered s'.ranges k = true → covered s.ranges k = true ∧ getAt k (itemsOf s'.items) = getAt k (itemsOf s.items)

section Runs

variable {s s' s'' : ItemCache}

/-- A pass that only changes what the run does not look at. -/
theorem ShrinkRun.of_eq (hi : s'.items = s.items) (hr : s'.ranges = s.ranges) : ShrinkRun s s' :=
  ⟨fun k => .inl (by rw [hi]), fun k hk => ⟨hr ▸ hk, by rw [hi]⟩⟩

theorem ShrinkRun.trans (h1 : ShrinkRun s s') (h2 : ShrinkRun s' s'') : ShrinkRun s s'' := by
  refine ⟨fun k => ?_, fun k hk => ?_⟩
  · rcases h2.1 k with e2 | ⟨n2, y, hy, hyd⟩
    · rw [e2]; exact h1.1 k
    · rcases h1.1 k with e1 | ⟨n1, -⟩
      · exact .inr ⟨n2, y, e1 ▸ hy, hyd⟩
      · rw [n1] at hy; cases hy
  · obtain ⟨hc, he⟩ := h2.2 k hk
    obtain ⟨hc', he'⟩ := h1.2 k hc
    exact ⟨hc', he.trans he'⟩

theorem ShrinkStep.run (h : ShrinkStep s s') : ShrinkRun s s' := by
  obtain ⟨lo, hi, hclean, hitems, hcov⟩ := h
  refine ⟨fun k => ?_, fun k hk => ?_⟩
  · rcases hitems k with e | ⟨hlo, hhi, hn⟩
    · exact .inl e
    · rcases hy : getAt k (itemsOf s.items) with _ | y
      · exact .inl hn
      · exact .inr ⟨hn, y, rfl, hclean k y hlo hhi hy⟩
  · obtain ⟨hc, hout⟩ := hcov k hk
    refine ⟨hc, (hitems k).resolve_right fun h => hout ⟨h.1, h.2.1⟩⟩

/-- A pass that erases nothing and leaves the ranges. -/
theorem ShrinkStep.refl (hi : s'.items = s.items) (hr : s'.ranges = s.ranges) : ShrinkStep s s' :=
  ⟨1, 0, fun _ _ h1 h2 => absurd (h1.trans h2) (by omega), fun k => .inl (by rw [hi]),
    fun k hk => ⟨hr ▸ hk, by omega⟩⟩

end Runs

/-! ## The passes of the scan loop -/

theorem ranges_eraseWalk (go isLast : CachedItem → Bool) (s : ItemCache) (item : Option CachedItem) (count : Nat) :
    (eraseWalk go isLast s item count).1.ranges = s.ranges :=
  eraseWalk_induction (fun s' => s'.ranges = s.ranges)
    (fun _ _ _ _ _ h _ => by dsimp only [eraseItem]; rw [ranges_unlinkItem]; exact h) item rfl

/-- A key no range holds, by the descent of `walk_ranges`. -/
theorem covered_of_rangePath_nil {t : Tree CachedRange} (hok : RangesOk t.toList) {k : Nat}
    {p : List (Frame CachedRange)} (h : rangePath t k = (p, .nil)) : covered t k = false := by
  rw [← checkRange_isSome hok]
  simp [checkRange, walkRanges, h]

/-- The range `shrink_around` keeps in place holds only keys of the old
range outside the run, unless the range is erased (no neighbour on either
side). -/
theorem shrinkRange_contains {rng : CachedRange} {first last : CachedItem} {prev next : Option CachedItem}
    (hf : rng.start ≤ first.key) (hfl : first.key ≤ last.key) (hl : last.key ≤ rng.end)
    (hprev : ∀ m, prev = some m → m.key < first.key) {k : Nat}
    (h : (shrinkRange rng first last prev next).contains k = true) :
    rng.contains k = true ∧ ((prev = none ∧ next = none) ∨ ¬(first.key ≤ k ∧ k ≤ last.key)) := by
  unfold shrinkRange at h
  rcases prev with _ | m
  · rcases next with _ | m'
    · exact ⟨h, .inl ⟨rfl, rfl⟩⟩
    · simp only [CachedRange.contains, Bool.and_eq_true, decide_eq_true_eq] at h ⊢
      simp at h
      omega
  · have := hprev m rfl
    simp only [CachedRange.contains, Bool.and_eq_true, decide_eq_true_eq] at h ⊢
    simp at h
    omega

/-- An erasing walk from an item of the tree erases at least that item. -/
theorem eraseWalk_count_pos {go isLast : CachedItem → Bool} {s : ItemCache} {it : CachedItem} {count : Nat}
    (hs : ItemsSorted s.items) (hit : it ∈ s.items.toList) (hgo : go it = true) :
    count < (eraseWalk go isLast s (some it) count).2 := by
  rcases h : itemPath s.items it.key with ⟨p, _ | ⟨l, x, r⟩⟩
  · have := itemPath_nil hs h
    rw [hs.getAt_of_mem hit] at this
    exact nomatch this
  · rw [eraseWalk_of_node hgo h]
    exact (eraseWalk_count _).1

/-- A walk that erases from `first` up to the item at `b` extends a step on
an interval `[first.key, hi]` around `b`. -/
theorem shrinkStepOn_eraseWalk {s s2 : ItemCache} {first : CachedItem} {hi b : Nat}
    {isLast : CachedItem → Bool} (hs2 : ItemsSorted s2.items) (hlast : ∀ z, isLast z = true ↔ z.key = b)
    (hb : first.key ≤ b) (hbh : b ≤ hi) (hbs : (getAt b (itemsOf s2.items)).isSome)
    (h : ShrinkStepOn s s2 first.key hi) :
    ShrinkStepOn s (eraseWalk (fun _ => true) isLast s2 (some first) 0).1 first.key hi := by
  obtain ⟨hclean, hitems, hcov⟩ := h
  have hw := (@eraseWalk_getAt_last s2 (fun _ => true) isLast first.key b hlast (some first) 0 hs2
    (by rintro it ⟨⟩; exact ⟨le_rfl, hb, hbs⟩)).2
  refine ⟨hclean, fun k => ?_, fun k hk => hcov k (by rwa [ranges_eraseWalk] at hk)⟩
  rcases hw k with e | ⟨hk1, hk2, hn⟩
  · rw [e]; exact hitems k
  · exact .inr ⟨hk1, by omega, hn⟩

section Passes

variable {M : Nat} {s : ItemCache}

/-- What one call of `shrink_around` on a clean item inside a range does:
either both walks stop at the item itself, with a neighbour on each side,
and nothing changes; or it frees items, as a step of the shrinker on an
interval around the item that keeps every other stretch of keys a range
held with items at both ends. -/
theorem shrinkAround_cases (hI : s.Inv M) {rp : List (Frame CachedRange)} {rl rr : Tree CachedRange}
    {rng : CachedRange} {item : CachedItem} (hr : rangePath s.ranges item.key = (rp, .node rl rng rr))
    (hitem : item ∈ s.items.toList) (hd : itemIsDirty item = false) :
    (shrinkAround s rp rl rng rr item = (s, 0) ∧ ∃ prev next,
      shrinkBoundary s.items item rng.start false = (some item, some prev) ∧
      shrinkBoundary s.items item rng.end true = (some item, some next)) ∨
    (0 < (shrinkAround s rp rl rng rr item).2 ∧ ∃ lo hi, lo ≤ item.key ∧ item.key ≤ hi ∧
      ShrinkStepOn s (shrinkAround s rp rl rng rr item).1 lo hi ∧
      ∀ a b, Spanned s.ranges a b → (getAt a (itemsOf s.items)).isSome →
        (getAt b (itemsOf s.items)).isSome → b < lo ∨ hi < a →
        Spanned (shrinkAround s rp rl rng rr item).1.ranges a b) := by
  have hs := hI.sorted
  have hplugR := plug_of_rangePath hr
  have hokT : RangesOk (plug rp (.node rl rng rr)).toList := by rw [hplugR]; exact AbsCache.Inv.ranges hI
  have hin := rangePath_node hr
  have hL := shrinkBoundary_left hs hitem hd hin.1
  have hR := shrinkBoundary_right hs hitem hd hin.2
  have hEL := shrinkBoundary_edge_left hs hitem rng.start
  have hER := shrinkBoundary_edge_right hs hitem rng.end
  generalize hres : shrinkAround s rp rl rng rr item = res
  unfold shrinkAround at hres
  rcases hl : shrinkBoundary s.items item rng.start false with ⟨_ | first, prev⟩
  · rw [hl] at hEL; exact nomatch hEL.1
  rcases hr' : shrinkBoundary s.items item rng.end true with ⟨_ | last, next⟩
  · rw [hr'] at hER; exact nomatch hER.1
  rw [hl] at hL hEL hres
  rw [hr'] at hR hER hres
  obtain ⟨hfm, hf1, hf2, hclL, hprev⟩ := hL first rfl
  obtain ⟨hlm, hl1, hl2, hclR, hnext⟩ := hR last rfl
  have hrun : ∀ k, (shrinkRange rng first last prev next).contains k = true →
      rng.contains k = true ∧ ((prev = none ∧ next = none) ∨ ¬(first.key ≤ k ∧ k ≤ last.key)) :=
    fun k hk => shrinkRange_contains hf1 (hf2.trans hl1) hl2 (fun m h => (hprev m h).2) hk
  have hclean : ∀ k y, first.key ≤ k → k ≤ last.key → getAt k (itemsOf s.items) = some y →
      itemIsDirty y = false := by
    intro k y h1 h2 hy
    obtain ⟨x, hx, rfl, rfl⟩ := exists_mem_of_getAt hy
    rw [CachedItem.itemIsDirty_data]
    by_cases hk : x.key ≤ item.key
    · exact hclL x hx h1 hk
    · exact hclR x hx (by omega) h2
  -- keys of the range and of the other ranges
  have hrng : ∀ k, rng.contains k = true → covered s.ranges k = true := fun k hk => by
    rw [← hplugR, covered_plug_node]; exact .inl hk
  have hO : ∀ k, (lefts rp ++ rl.toList ++ rr.toList ++ rights rp).any (·.contains k) = true →
      covered s.ranges k = true ∧ ¬(first.key ≤ k ∧ k ≤ last.key) := fun k hk => by
    refine ⟨by rw [← hplugR, covered_plug_node]; exact .inr hk, fun h => ?_⟩
    have := hokT.not_contains_of_others hk
    simp only [CachedRange.contains, Bool.and_eq_false_iff, decide_eq_false_iff_not, not_le] at this
    omega
  -- a stretch held by a range, with items at both ends off the run, is held
  -- by another range, or by this one on a side where a neighbour remains
  have hspan : ∀ a b, Spanned s.ranges a b → (getAt a (itemsOf s.items)).isSome →
      (getAt b (itemsOf s.items)).isSome → b < first.key ∨ last.key < a →
      (∃ x ∈ lefts rp ++ rl.toList ++ rr.toList ++ rights rp, x.start ≤ a ∧ b ≤ x.end) ∨
      (rng.start ≤ a ∧ b ≤ rng.end ∧ ((b < first.key ∧ prev.isSome) ∨ (last.key < a ∧ next.isSome))) := by
    rintro a b ⟨hab, x, hx, h1, h2⟩ ha hb hout
    rw [← hplugR, mem_plug_node_iff] at hx
    rcases hx with rfl | hx
    · refine .inr ⟨h1, h2, hout.imp (fun h => ⟨h, ?_⟩) fun h => ⟨h, ?_⟩⟩
      · obtain ⟨z, hz, -, rfl⟩ := exists_mem_of_getAt (Option.get_mem ha)
        rcases prev with _ | m
        · exact (hEL.2 first rfl z hz h1 (by omega)).elim
        · rfl
      · obtain ⟨z, hz, -, rfl⟩ := exists_mem_of_getAt (Option.get_mem hb)
        rcases next with _ | m
        · exact (hER.2 last rfl z hz (by omega) h2).elim
        · rfl
    · exact .inl ⟨x, hx, h1, h2⟩
  have hlast_in : (getAt last.key (itemsOf s.items)).isSome := by rw [hs.getAt_of_mem hlm]; rfl
  dsimp only at hres
  split_ifs at hres with h0 hboth hnone <;> subst hres
  · -- no progress: both walks stopped at the item
    simp only [Bool.and_eq_true, decide_eq_true_eq, Option.isSome_iff_exists] at h0
    obtain ⟨⟨⟨n, rfl⟩, ⟨p, rfl⟩⟩, he⟩ := h0
    obtain rfl := hs.key_inj hfm hitem (by omega)
    obtain rfl := hs.key_inj hlm hitem (by omega)
    exact .inl ⟨rfl, p, n, rfl, rfl⟩
  · -- a split: `last` is unlinked for the new range, and the walk stops before it
    obtain ⟨m, hm⟩ := Option.isSome_iff_exists.1 (by simp only [Bool.and_eq_true] at hboth; exact hboth.2)
    obtain ⟨m', hm'⟩ := Option.isSome_iff_exists.1 (by simp only [Bool.and_eq_true] at hboth; exact hboth.1)
    have hne : first.key ≠ last.key := fun he => h0 (by simp [he, hm, hm'])
    obtain ⟨nl, hnl⟩ : ∃ nl, rbPrevItem s.items last.key = some nl := by
      rcases h : rbPrevItem s.items last.key with _ | nl
      · have := rbPrevItem_none hs hlm h first hfm; omega
      · exact ⟨nl, rfl⟩
    obtain ⟨hnlm, hnl1, hnl2⟩ := rbPrevItem_some hs hlm hnl
    have h1 := getAt_unlinkItem_path hs last.key
    refine .inr ⟨Nat.succ_pos _, first.key, last.key, hf2, hl1,
      shrinkStepOn_eraseWalk (b := nl.key) ?_ ?_ ?_ ?_ ?_ ⟨hclean, ?_, ?_⟩, ?_⟩
    · exact unlinkItem_path_sorted hs last.key
    · intro z; rw [hnl]; simp only [Option.map_some', beq_iff_eq, Option.some.injEq]; exact eq_comm
    · exact hnl2 first hfm (by omega)
    · omega
    · dsimp only
      rw [h1, if_neg (Nat.ne_of_lt hnl1), hs.getAt_of_mem hnlm]; rfl
    · intro k
      dsimp only
      rw [h1]
      split_ifs with hk
      · exact .inr ⟨by omega, by omega, rfl⟩
      · exact .inl rfl
    · intro k hk
      dsimp only at hk
      rw [covered_insertRange, covered_plug_node] at hk
      rcases hk with (hk | hk) | hk
      · obtain ⟨hc, hout⟩ := hrun k hk
        exact ⟨hrng k hc, hout.resolve_left fun h => by rw [hm] at h; exact nomatch h.1⟩
      · exact hO k hk
      · simp only [CachedRange.contains, scoutfsKeyInc_eq, Bool.and_eq_true, decide_eq_true_eq] at hk
        refine ⟨hrng k ?_, by omega⟩
        simp only [CachedRange.contains, Bool.and_eq_true, decide_eq_true_eq]; omega
    · intro a b hsp ha hb hout
      rw [ranges_eraseWalk]
      dsimp only
      rcases hspan a b hsp ha hb hout with ⟨x, hx, h1, h2⟩ | ⟨h1, h2, ⟨hbf, -⟩ | ⟨hla, -⟩⟩
      · exact spanned_insertRange ⟨hsp.1, x, mem_plug_node_iff.2 (.inr hx), h1, h2⟩ _
      · refine spanned_insertRange ⟨hsp.1, _, mem_plug_node_iff.2 (.inl rfl), ?_, ?_⟩ _ <;>
          simp only [shrinkRange, hm, hm', Option.isSome_some, Option.isNone_some, if_true, Bool.and_false,
            Bool.false_eq_true, if_false, scoutfsKeyDec_eq] <;> omega
      · exact spanned_insertRange_self _ hsp.1 (by simp only [scoutfsKeyInc_eq]; omega) h2
  all_goals
    refine .inr ⟨eraseWalk_count_pos hs hfm rfl, first.key, last.key, hf2, hl1,
      shrinkStepOn_eraseWalk hs (fun z => by simp) (by omega) le_rfl hlast_in
        ⟨hclean, fun k => .inl rfl, ?_⟩, ?_⟩
  · -- no neighbour on either side: the range is erased
    intro k hk
    dsimp only at hk
    rw [covered_rbErase] at hk
    exact hO k hk
  · intro a b hsp ha hb hout
    rw [ranges_eraseWalk]
    dsimp only
    simp only [Bool.and_eq_true, Option.isNone_iff_eq_none] at hnone
    rcases hspan a b hsp ha hb hout with ⟨x, hx, h1, h2⟩ | ⟨-, -, ⟨-, h⟩ | ⟨-, h⟩⟩
    · exact ⟨hsp.1, x, by rw [toList_rbErase]; exact hx, h1, h2⟩
    · rw [hnone.2] at h; exact nomatch h
    · rw [hnone.1] at h; exact nomatch h
  · -- the range shrinks at one end
    intro k hk
    dsimp only at hk
    rw [covered_plug_node] at hk
    rcases hk with hk | hk
    · obtain ⟨hc, hout⟩ := hrun k hk
      exact ⟨hrng k hc, hout.resolve_left fun ⟨h1, h2⟩ => hnone (by simp [h1, h2])⟩
    · exact hO k hk
  · intro a b hsp ha hb hout
    rw [ranges_eraseWalk]
    dsimp only
    rcases hspan a b hsp ha hb hout with ⟨x, hx, h1, h2⟩ | ⟨h1, h2, ⟨hbf, hp⟩ | ⟨hla, hn⟩⟩
    · exact ⟨hsp.1, x, mem_plug_node_iff.2 (.inr hx), h1, h2⟩
    · obtain ⟨p, rfl⟩ := Option.isSome_iff_exists.1 hp
      refine ⟨hsp.1, _, mem_plug_node_iff.2 (.inl rfl), ?_, ?_⟩ <;>
        simp only [shrinkRange, Option.isSome_some, Option.isNone_some, if_true, Bool.and_false,
          Bool.false_eq_true, if_false, scoutfsKeyDec_eq] <;> omega
    · have hp : prev = none := by
        rcases prev with _ | m
        · rfl
        · simp [hn] at hboth
      refine ⟨hsp.1, _, mem_plug_node_iff.2 (.inl rfl), ?_, ?_⟩ <;>
        simp only [shrinkRange, hp, hn, Option.isSome_none, Option.isNone_none, Bool.false_eq_true, if_false,
          Bool.and_self, if_true, scoutfsKeyInc_eq] <;> omega

/-- One call of `shrink_around` is a step of the shrinker on the keys from
the first to the last item of the run it erases. -/
theorem shrinkAround_step (hI : s.Inv M) {rp : List (Frame CachedRange)} {rl rr : Tree CachedRange}
    {rng : CachedRange} {item : CachedItem} (hr : rangePath s.ranges item.key = (rp, .node rl rng rr))
    (hitem : item ∈ s.items.toList) (hd : itemIsDirty item = false) :
    ShrinkStep s (shrinkAround s rp rl rng rr item).1 := by
  rcases shrinkAround_cases hI hr hitem hd with ⟨h, -⟩ | ⟨-, lo, hi, -, -, h, -⟩
  · rw [h]; exact ShrinkStep.refl rfl rfl
  · exact h.step

/-- Erasing a clean item that no range covers, as the scan loop does with
an item outside every range. -/
theorem unlinkItem_stepOn (hI : s.Inv M) {ptr : ItemPtr} {x : CachedItem} (hp : PointsTo s.items ptr x)
    (hd : itemIsDirty x = false) (hnc : covered s.ranges x.key = false) :
    ShrinkStepOn s (unlinkItem s ptr) x.key x.key := by
  have hx := hp.getAt hI.sorted
  refine ⟨fun k y h1 h2 hy => ?_, fun k => ?_, fun k hk => ?_⟩
  · rw [show k = x.key by omega, hx] at hy
    cases hy
    rwa [CachedItem.itemIsDirty_data]
  · rw [getAt_unlinkItem hI.sorted hp]
    split_ifs with hk
    · exact .inr ⟨hk.ge, hk.le, rfl⟩
    · exact .inl rfl
  · rw [ranges_unlinkItem] at hk
    exact ⟨hk, fun h => by rw [show k = x.key by omega, hnc] at hk; exact nomatch hk⟩

theorem unlinkItem_step (hI : s.Inv M) {ptr : ItemPtr} {x : CachedItem} (hp : PointsTo s.items ptr x)
    (hd : itemIsDirty x = false) (hnc : covered s.ranges x.key = false) : ShrinkStep s (unlinkItem s ptr) :=
  (unlinkItem_stepOn hI hp hd hnc).step

/-- Every run of the scan loop of `item_lru_shrink` is a run of the
shrinker. -/
theorem lruShrinkLoop_run (fuel : Nat) :
    ∀ {s : ItemCache} (nr : Nat) (firstMoved : Option Nat), s.Inv M →
      ShrinkRun s (lruShrinkLoop fuel s nr firstMoved) := by
  induction fuel with
  | zero => intro s nr fm _; exact .of_eq rfl rfl
  | succ n ih =>
    intro s nr fm hI
    simp only [lruShrinkLoop]
    split_ifs with hnr
    · exact .of_eq rfl rfl
    rcases hl : s.lruList with _ | ⟨k, ks⟩
    · exact .of_eq rfl rfl
    dsimp only
    rcases hp : itemPath s.items k with ⟨p, _ | ⟨l, item, r⟩⟩
    · exact .of_eq rfl rfl
    dsimp only
    have hpt := itemPath_pointsTo hp
    have hk : item.key = k := (itemPath_node hp).2
    have hclean : itemIsDirty item = false :=
      hI.clean_of_lru hpt (by rw [hk, hl]; exact List.mem_cons_self _ _)
    have hmem : item ∈ s.items.toList := by rw [← (itemPath_node hp).1, toList_plug]; simp
    simp only [hclean, Bool.false_eq_true, if_false]
    rcases hrp : rangePath s.ranges item.key with ⟨rp, _ | ⟨rl, rng, rr⟩⟩
    · exact (unlinkItem_step hI hpt hclean (covered_of_rangePath_nil (AbsCache.Inv.ranges hI) hrp)).run.trans
        (ih _ _ (hI.unlinkItem hpt))
    · have ha := hI.shrinkAround hrp hmem hclean
      have hrun := (shrinkAround_step hI hrp hmem hclean).run
      dsimp only
      split_ifs with h0
      · exact hrun
      · refine hrun.trans ((ShrinkRun.of_eq rfl rfl).trans (ih _ _ (ha.moveTail ?_)))
        rw [shrinkAround_lru_of_zero h0, hl, hk]
        exact List.mem_cons_self _ _
      · exact hrun.trans (ih _ _ ha)

/-- `item_lru_shrink` is a run of the shrinker; its final purge of the
ranges of an empty cache only uncovers keys. -/
theorem itemLruShrink_run (hI : s.Inv M) (fuel nrToScan : Nat) : ShrinkRun s (itemLruShrink fuel s nrToScan).1 := by
  unfold itemLruShrink
  split_ifs
  · exact .of_eq rfl rfl
  · have h := lruShrinkLoop_run fuel nrToScan none hI
    dsimp only
    split
    · refine h.trans ⟨fun k => .inl rfl, fun k hk => ?_⟩
      simp [eraseFirstRanges_eq_nil, covered] at hk
    · exact h

end Passes


end ScoutfsItemCache
