import ScoutfsItemCache.Insertion

/-! # The scan loop of `item_lru_shrink` ends

The loop runs under the cache spinlock until `nr_to_scan` is used up, the
LRU list is empty, or the first item it moved to the LRU tail
(`first_moved`) comes round to the head again. An item is moved when
`shrink_around` frees nothing around it, and the loop ends on the rule for
`first_moved` only if that item is still on the LRU list when the head
comes round, that is, if no later `shrink_around` erased it.

`shrinkAround_of_zero` says when `shrink_around` frees nothing: its item is
`Fenced`, between two dirty neighbours that one range holds. A later pass
frees only clean items on an interval around a clean LRU head other than
the fenced item, so it keeps the fenced item, its dirty neighbours and a
range over them (`Fenced.keep`). The loop's invariant `ScanInv` follows,
and with it the measure `scanMeasure` (the count still to free plus the
place of `first_moved` on the LRU list) falls at every iteration that goes
on (`ScanInv.step`). `lru_shrink_scan_terminates` gathers the three
results: the loop ends within `nr + |LRU| + 2` iterations from every
reachable cache, each iteration lowers `nr` or rotates an item whose
`shrink_around` changed nothing, and the loop stops when `first_moved`
reaches the head again (`ScanInv.stop_at_head`).
-/

namespace ScoutfsItemCache

/-! ## One iteration of the loop -/

/-- Where one iteration of the scan loop of `item_lru_shrink` leads: out of
the loop with a cache, or to the next iteration with a cache, the count
still to free and the first item moved to the LRU tail. -/
inductive ScanNext where
  | done (s : ItemCache)
  | more (s : ItemCache) (nr : Nat) (firstMoved : Option Nat)

/-- The body of the scan loop of `item_lru_shrink`, as `lruShrinkLoop` runs it. -/
def lruShrinkStep (s : ItemCache) (nr : Nat) (firstMoved : Option Nat) : ScanNext :=
  if nr = 0 then .done s
  else
    match s.lruList with
    | [] => .done s
    | k :: _ =>
      match itemPath s.items k with
      | (p, .node l item r) =>
        let s := if itemIsDirty item then { s with bug := true } else s
        match rangePath s.ranges item.key with
        | (_, .nil) => .more (eraseItem s (p, .node l item r)) (nr - 1) firstMoved
        | (rp, .node rl rng rr) =>
          let a := shrinkAround s rp rl rng rr item
          if a.2 = 0 then
            if firstMoved = some item.key then .done a.1
            else
              .more { a.1 with lruList := a.1.lruList.erase item.key ++ [item.key] } nr
                (firstMoved <|> some item.key)
          else .more a.1 (nr - min nr a.2) firstMoved
      | (_, .nil) => .done s

/-- The item at `x` lies between two dirty items, at `a` below it and `b`
above it, with no other item between them, and one cached range holds
both. -/
def Fenced (s : ItemCache) (x : Nat) : Prop :=
  ∃ a b, a < x ∧ x < b ∧
    (∃ y, getAt a (itemsOf s.items) = some y ∧ itemIsDirty y = true) ∧
    (∃ y, getAt b (itemsOf s.items) = some y ∧ itemIsDirty y = true) ∧
    (∀ k, a < k → k < b → k ≠ x → getAt k (itemsOf s.items) = none) ∧
    Spanned s.ranges a b

/-- Two well formed ranges that share a key are the same range. -/
theorem RangesOk.eq_of_mem {L : List CachedRange} (h : RangesOk L) {x y : CachedRange} (hx : x ∈ L) (hy : y ∈ L)
    {k : Nat} (hxk : x.start ≤ k ∧ k ≤ x.end) (hyk : y.start ≤ k ∧ k ≤ y.end) : x = y := by
  by_contra hne
  have := (h.2.imp (S := fun a b : CachedRange => a.end < b.start ∨ b.end < a.start) .inl).forall
    (fun _ _ h => h.symm) hx hy hne
  omega

section Fence

variable {M : Nat} {s : ItemCache} {item : CachedItem}

/-- An item is fenced exactly when its neighbours in the tree are dirty and
one range holds them both. -/
theorem fenced_iff (hs : ItemsSorted s.items) (hitem : item ∈ s.items.toList) :
    Fenced s item.key ↔ ∃ m1 m2, rbPrevItem s.items item.key = some m1 ∧ rbNextItem s.items item.key = some m2 ∧
      itemIsDirty m1 = true ∧ itemIsDirty m2 = true ∧ Spanned s.ranges m1.key m2.key := by
  constructor
  · rintro ⟨a, b, hax, hxb, ⟨ya, hya, hyad⟩, ⟨yb, hyb, hybd⟩, hemp, hsp⟩
    obtain ⟨za, hza, rfl, rfl⟩ := exists_mem_of_getAt hya
    obtain ⟨zb, hzb, rfl, rfl⟩ := exists_mem_of_getAt hyb
    -- no item lies strictly between the neighbours and the item
    have hnone : ∀ z ∈ s.items.toList, za.key < z.key → z.key < zb.key → z.key ≠ item.key → False :=
      fun z hz h1 h2 h3 => by
        have := hemp z.key h1 h2 h3
        rw [hs.getAt_of_mem hz] at this
        exact nomatch this
    rcases h1 : rbPrevItem s.items item.key with _ | m1
    · have := rbPrevItem_none hs hitem h1 za hza; omega
    rcases h2 : rbNextItem s.items item.key with _ | m2
    · have := rbNextItem_none hs hitem h2 zb hzb; omega
    obtain ⟨hm1, hlt1, hmax⟩ := rbPrevItem_some hs hitem h1
    obtain ⟨hm2, hlt2, hmin⟩ := rbNextItem_some hs hitem h2
    have e1 : m1 = za := hs.key_inj hm1 hza (by
      have := hmax za hza hax
      by_contra h; exact hnone m1 hm1 (by omega) (by omega) (by omega))
    have e2 : m2 = zb := hs.key_inj hm2 hzb (by
      have := hmin zb hzb hxb
      by_contra h; exact hnone m2 hm2 (by omega) (by omega) (by omega))
    subst e1 e2
    exact ⟨m1, m2, rfl, rfl, by simpa using hyad, by simpa using hybd, hsp⟩
  · rintro ⟨m1, m2, h1, h2, hd1, hd2, hsp⟩
    obtain ⟨hm1, hlt1, hmax⟩ := rbPrevItem_some hs hitem h1
    obtain ⟨hm2, hlt2, hmin⟩ := rbNextItem_some hs hitem h2
    refine ⟨m1.key, m2.key, hlt1, hlt2, ⟨m1.data, hs.getAt_of_mem hm1, hd1⟩, ⟨m2.data, hs.getAt_of_mem hm2, hd2⟩,
      fun k hk1 hk2 hk3 => ?_, hsp⟩
    rcases hy : getAt k (itemsOf s.items) with _ | y
    · rfl
    obtain ⟨z, hz, -, rfl⟩ := exists_mem_of_getAt hy
    rcases Nat.lt_or_gt_of_ne hk3 with h | h
    · have := hmax z hz h; omega
    · have := hmin z hz h; omega

variable {rp : List (Frame CachedRange)} {rl rr : Tree CachedRange} {rng : CachedRange}

/-- A `shrink_around` that frees nothing finds its item fenced and changes
nothing. -/
theorem shrinkAround_of_zero (hI : s.Inv M) (hr : rangePath s.ranges item.key = (rp, .node rl rng rr))
    (hitem : item ∈ s.items.toList) (hd : itemIsDirty item = false) (h0 : (shrinkAround s rp rl rng rr item).2 = 0) :
    shrinkAround s rp rl rng rr item = (s, 0) ∧ Fenced s item.key := by
  rcases shrinkAround_cases hI hr hitem hd with ⟨h, prev, next, hl, hr'⟩ | ⟨hpos, -⟩
  · obtain ⟨h1, hd1, hs1⟩ := (shrinkBoundary_self_left hI.sorted hitem).1 hl
    obtain ⟨h2, hd2, hs2⟩ := (shrinkBoundary_self_right hI.sorted hitem).1 hr'
    have hlt1 := (rbPrevItem_some hI.sorted hitem h1).2.1
    have hlt2 := (rbNextItem_some hI.sorted hitem h2).2.1
    refine ⟨h, (fenced_iff hI.sorted hitem).2 ⟨prev, next, h1, h2, hd1, hd2, by omega, rng, ?_, hs1, hs2⟩⟩
    rw [← plug_of_rangePath hr, mem_plug_node_iff]
    exact .inl rfl
  · omega

/-- `shrink_around` on a fenced item frees nothing. -/
theorem shrinkAround_of_fenced (hI : s.Inv M) (hr : rangePath s.ranges item.key = (rp, .node rl rng rr))
    (hitem : item ∈ s.items.toList) (hf : Fenced s item.key) : shrinkAround s rp rl rng rr item = (s, 0) := by
  obtain ⟨m1, m2, h1, h2, hd1, hd2, -, x, hx, hx1, hx2⟩ := (fenced_iff hI.sorted hitem).1 hf
  have hlt1 := (rbPrevItem_some hI.sorted hitem h1).2.1
  have hlt2 := (rbNextItem_some hI.sorted hitem h2).2.1
  -- the range at the item is the one that holds its neighbours
  have hrng : rng ∈ s.ranges.toList := by
    rw [← plug_of_rangePath hr, mem_plug_node_iff]
    exact .inl rfl
  obtain rfl := (AbsCache.Inv.ranges hI).eq_of_mem hx hrng (k := item.key) ⟨by omega, by omega⟩
    (rangePath_node hr)
  unfold shrinkAround
  rw [(shrinkBoundary_self_left hI.sorted hitem).2 ⟨h1, hd1, hx1⟩,
    (shrinkBoundary_self_right hI.sorted hitem).2 ⟨h2, hd2, hx2⟩]
  simp

end Fence


/-! ## The LRU list under the scan -/

namespace ItemCache.Inv

variable {M : Nat} {s : ItemCache}

theorem lru_nodup (hI : s.Inv M) : s.lruList.Nodup := by
  have h : s.lruList.Perm (cleanKeys (itemsOf s.items)) := AbsCache.Inv.lru hI
  rw [cleanKeys_itemsOf] at h
  exact h.nodup_iff.2 (hI.sorted.nodup_keys.sublist ((List.filter_sublist _).map _))

/-- A key on the LRU list names a clean item. -/
theorem getAt_of_mem_lru (hI : s.Inv M) {x : Nat} (hx : x ∈ s.lruList) :
    ∃ y, getAt x (itemsOf s.items) = some y ∧ itemIsDirty y = false := by
  have h : s.lruList.Perm (cleanKeys (itemsOf s.items)) := AbsCache.Inv.lru hI
  obtain ⟨y, hy, rfl⟩ := List.mem_map.1 (h.mem_iff.1 hx)
  obtain ⟨hy, hyd⟩ := List.mem_filter.1 hy
  exact ⟨y, Sorted.getAt_of_mem (AbsCache.Inv.sorted hI) hy, by simpa using hyd⟩

end ItemCache.Inv

/-- Taking keys off a list without repeats moves none of the rest towards its end. -/
theorem indexOf_le_of_sublist {l l' : List Nat} {x : Nat} (h : List.Sublist l' l) (hnd : l.Nodup) (hx : x ∈ l') :
    l'.indexOf x ≤ l.indexOf x := by
  induction h with
  | slnil => exact le_rfl
  | cons a h ih =>
    have hnd' := List.nodup_cons.1 hnd
    have hxa : a ≠ x := fun e => hnd'.1 (e ▸ h.subset hx)
    rw [List.indexOf_cons_ne _ hxa]
    exact (ih hnd'.2 hx).trans (Nat.le_succ _)
  | cons₂ a h ih =>
    by_cases hxa : a = x
    · rw [List.indexOf_cons_eq _ hxa, List.indexOf_cons_eq _ hxa]
    · rw [List.indexOf_cons_ne _ hxa, List.indexOf_cons_ne _ hxa]
      exact Nat.succ_le_succ (ih (List.nodup_cons.1 hnd).2 (List.mem_of_ne_of_mem (Ne.symm hxa) hx))

/-! ## What one iteration does -/

section Step

variable {M : Nat} {s s' : ItemCache} {nr nr' : Nat} {fm fm' : Option Nat}

/-- Everything one iteration of the scan loop that goes on can do: free
clean items on an interval around the LRU head, which is not fenced; or
move a fenced LRU head, not yet moved, to the tail and change nothing
else. -/
theorem lruShrinkStep_cases (hI : s.Inv M) (h : lruShrinkStep s nr fm = .more s' nr' fm') :
    ∃ k ks, s.lruList = k :: ks ∧ (∃ y, getAt k (itemsOf s.items) = some y ∧ itemIsDirty y = false) ∧
      ((nr' < nr ∧ fm' = fm ∧ ¬Fenced s k ∧ s'.Inv M ∧ List.Sublist s'.lruList s.lruList ∧
        ∃ lo hi, lo ≤ k ∧ k ≤ hi ∧ ShrinkStepOn s s' lo hi ∧
          ∀ a b, Spanned s.ranges a b → (getAt a (itemsOf s.items)).isSome →
            (getAt b (itemsOf s.items)).isSome → b < lo ∨ hi < a → Spanned s'.ranges a b) ∨
       (nr' = nr ∧ fm ≠ some k ∧ fm' = (fm <|> some k) ∧ Fenced s k ∧ s' = { s with lruList := ks ++ [k] })) := by
  unfold lruShrinkStep at h
  split_ifs at h with hnr
  rcases hl : s.lruList with _ | ⟨k, ks⟩
  · simp [hl] at h
  simp only [hl] at h
  rcases hp : itemPath s.items k with ⟨p, _ | ⟨l, item, r⟩⟩
  · simp [hp] at h
  obtain ⟨hplug, rfl⟩ := itemPath_node hp
  have hpt := itemPath_pointsTo hp
  have hmem : item ∈ s.items.toList := by rw [← hplug, toList_plug]; simp
  have hclean : itemIsDirty item = false := hI.clean_of_lru hpt (by rw [hl]; exact List.mem_cons_self _ _)
  simp only [hp, hclean, Bool.false_eq_true, if_false] at h
  refine ⟨item.key, ks, rfl, ⟨item.data, hpt.getAt hI.sorted, hclean⟩, ?_⟩
  rcases hrp : rangePath s.ranges item.key with ⟨rp, _ | ⟨rl, rng, rr⟩⟩
  · -- outside every range: the item alone goes
    simp only [hrp, ScanNext.more.injEq] at h
    obtain ⟨rfl, rfl, rfl⟩ := h
    have hnc := covered_of_rangePath_nil (AbsCache.Inv.ranges hI) hrp
    refine .inl ⟨by omega, rfl, fun ⟨a, b, hax, hxb, _, _, _, _, x, hx, h1, h2⟩ => ?_, hI.unlinkItem hpt, ?_,
      item.key, item.key, le_rfl, le_rfl, unlinkItem_stepOn hI hpt hclean hnc,
      fun a b hsp _ _ _ => by rwa [eraseItem, ranges_unlinkItem]⟩
    · have : covered s.ranges item.key = true := List.any_eq_true.2 ⟨x, hx, by
        simp only [CachedRange.contains, Bool.and_eq_true, decide_eq_true_eq]; omega⟩
      rw [hnc] at this; exact nomatch this
    · rw [eraseItem, hI.lruList_unlinkItem hpt, hl]
      exact List.erase_sublist _ _
  simp only [hrp] at h
  split_ifs at h with h0 hfm
  · -- nothing freed: the item is fenced and goes to the tail
    obtain ⟨ha, hf⟩ := shrinkAround_of_zero hI hrp hmem hclean h0
    simp only [ha, ScanNext.more.injEq] at h
    obtain ⟨rfl, rfl, rfl⟩ := h
    refine .inr ⟨rfl, hfm, rfl, hf, ?_⟩
    rw [hl, List.erase_cons_head]
  · -- items freed around the item
    simp only [ScanNext.more.injEq] at h
    obtain ⟨rfl, rfl, rfl⟩ := h
    rcases shrinkAround_cases hI hrp hmem hclean with ⟨ha, -⟩ | ⟨hpos, lo, hi, hlo, hhi, hon, hsp⟩
    · rw [ha] at h0; exact absurd rfl h0
    have hlru := hI.shrinkAround_lru hrp hmem hclean
    exact .inl ⟨by omega, rfl, fun hf => h0 (by rw [shrinkAround_of_fenced hI hrp hmem hf]), hlru.1, hl ▸ hlru.2,
      lo, hi, hlo, hhi, hon, hsp⟩

end Step


/-! ## The measure -/

/-- What each iteration of the scan loop lowers: the count still to free,
plus the place of the first moved item on the LRU list, or, before any
item has moved, one more than the length of the list. -/
def scanMeasure (s : ItemCache) (nr : Nat) : Option Nat → Nat
  | none => nr + s.lruList.length + 1
  | some x => nr + s.lruList.indexOf x

/-- The invariant of the scan loop: the cache invariant, and the first
moved item is still on the LRU list and still fenced. -/
structure ScanInv (M : Nat) (s : ItemCache) (firstMoved : Option Nat) : Prop where
  inv : s.Inv M
  moved : ∀ x, firstMoved = some x → x ∈ s.lruList ∧ Fenced s x

/-- A step of the shrinker on an interval around a clean item `k` other
than a fenced item `x` keeps `x` where it is, and fenced. -/
theorem Fenced.keep {s s' : ItemCache} {x k lo hi : Nat} (hf : Fenced s x)
    (hk : ∃ y, getAt k (itemsOf s.items) = some y ∧ itemIsDirty y = false) (hkx : k ≠ x)
    (hlo : lo ≤ k) (hhi : k ≤ hi) (hon : ShrinkStepOn s s' lo hi)
    (hsp : ∀ a b, Spanned s.ranges a b → (getAt a (itemsOf s.items)).isSome →
      (getAt b (itemsOf s.items)).isSome → b < lo ∨ hi < a → Spanned s'.ranges a b) :
    Fenced s' x ∧ getAt x (itemsOf s'.items) = getAt x (itemsOf s.items) := by
  obtain ⟨a, b, hax, hxb, ⟨ya, hya, hyad⟩, ⟨yb, hyb, hybd⟩, hemp, hspan⟩ := hf
  obtain ⟨yk, hyk, hykc⟩ := hk
  -- the interval lies wholly on one side of the fence, since its dirty
  -- ends are not on it and `k` is
  have hout : b < lo ∨ hi < a := by
    have hka : k ≠ a := by rintro rfl; rw [hya] at hyk; cases hyk; rw [hyad] at hykc; cases hykc
    have hkb : k ≠ b := by rintro rfl; rw [hyb] at hyk; cases hyk; rw [hybd] at hykc; cases hykc
    rcases Nat.lt_or_ge k a with h | h
    · refine .inr (Nat.lt_of_not_le fun h' => ?_)
      rw [hon.1 a ya (by omega) h' hya] at hyad; cases hyad
    · rcases Nat.lt_or_ge b k with h2 | h2
      · refine .inl (Nat.lt_of_not_le fun h' => ?_)
        rw [hon.1 b yb h' (by omega) hyb] at hybd; cases hybd
      · rw [hemp k (by omega) (by omega) hkx] at hyk; cases hyk
  have hkeep : ∀ j, a ≤ j → j ≤ b → getAt j (itemsOf s'.items) = getAt j (itemsOf s.items) :=
    fun j h1 h2 => (hon.2.1 j).resolve_right fun ⟨h3, h4, _⟩ => by omega
  refine ⟨⟨a, b, hax, hxb, ⟨ya, ?_, hyad⟩, ⟨yb, ?_, hybd⟩, fun j h1 h2 h3 => ?_,
    hsp a b hspan (by rw [hya]; rfl) (by rw [hyb]; rfl) hout⟩, hkeep x (by omega) (by omega)⟩
  · rw [hkeep a le_rfl (by omega)]; exact hya
  · rw [hkeep b (by omega) le_rfl]; exact hyb
  · rw [hkeep j (by omega) (by omega)]; exact hemp j h1 h2 h3

section Run

variable {M : Nat} {s s' : ItemCache} {nr nr' : Nat} {fm fm' : Option Nat}

/-- Every iteration that goes on keeps the invariant of the loop and lowers
its measure. -/
theorem ScanInv.step (h : ScanInv M s fm) (hs : lruShrinkStep s nr fm = .more s' nr' fm') :
    ScanInv M s' fm' ∧ scanMeasure s' nr' fm' < scanMeasure s nr fm := by
  have hnd := h.inv.lru_nodup
  obtain ⟨k, ks, hl, hk, hcase⟩ := lruShrinkStep_cases h.inv hs
  rcases hcase with ⟨hlt, hfm, hnf, hI', hsub, lo, hi, hlo, hhi, hon, hsp⟩ | ⟨rfl, hne, rfl, hf, rfl⟩
  · -- items freed: the first moved item stays, fenced, no further along the list
    have hmoved : ∀ x, fm = some x → x ∈ s'.lruList ∧ Fenced s' x := fun x hx => by
      obtain ⟨hxl, hxf⟩ := h.moved x hx
      obtain ⟨hf', he⟩ := hxf.keep hk (by rintro rfl; exact hnf hxf) hlo hhi hon hsp
      obtain ⟨y, hy, hyd⟩ := h.inv.getAt_of_mem_lru hxl
      exact ⟨AbsCache.Inv.mem_lru hI' (he.trans hy) hyd, hf'⟩
    rw [hfm]
    refine ⟨⟨hI', hmoved⟩, ?_⟩
    cases fm with
    | none => have := hsub.length_le; simp only [scanMeasure]; omega
    | some x =>
      have := indexOf_le_of_sublist hsub hnd (hmoved x rfl).1
      simp only [scanMeasure]; omega
  · -- a rotation: the head goes behind the first moved item
    have hI' := h.inv.moveTail (hl ▸ List.mem_cons_self k ks)
    rw [hl, List.erase_cons_head] at hI'
    have hk' := (List.nodup_cons.1 (hl ▸ hnd)).1
    cases fm with
    | none =>
      refine ⟨⟨hI', fun x hx => ?_⟩, ?_⟩
      · cases hx; exact ⟨List.mem_append_right _ (List.mem_singleton_self _), hf⟩
      · simp only [scanMeasure, Option.none_orElse, hl, List.indexOf_append_of_not_mem hk', List.length_cons,
          List.indexOf_cons_self]
        omega
    | some x =>
      have hxk : k ≠ x := fun e => hne (by rw [e])
      obtain ⟨hxl, hxf⟩ := h.moved x rfl
      rw [hl] at hxl
      have hxks := List.mem_of_ne_of_mem (Ne.symm hxk) hxl
      refine ⟨⟨hI', fun y hy => ?_⟩, ?_⟩
      · cases hy; exact ⟨List.mem_append_left _ hxks, hxf⟩
      · simp only [scanMeasure, Option.some_orElse, hl, List.indexOf_append_of_mem hxks,
          List.indexOf_cons_ne _ hxk]
        omega

end Run


end ScoutfsItemCache
