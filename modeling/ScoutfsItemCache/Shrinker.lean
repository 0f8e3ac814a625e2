import ScoutfsItemCache.Preserve

/-! # The shrinker keeps the invariant

`shrink_boundary` walks from an item of the LRU through its neighbours,
`rb_next` to the right and `rb_prev` to the left. Over a sorted tree these
are the items with the next larger and the next smaller key, so each walk
covers a run of consecutive keys, and it only steps onto clean items. The
boundary it returns is an item of the run; the neighbour it returns with
a usable boundary lies strictly beyond the boundary and still inside the
range (`shrinkBoundaryLoop_left`, `shrinkBoundaryLoop_right`). A walk
always returns a boundary; it returns one without a neighbour only when no
item lies between the boundary and the range end it walks to
(`shrinkBoundary_edge_left`), and it stops at its own item exactly when the
neighbour there is dirty and inside the range (`shrinkBoundary_self_left`).

From these bounds every range `shrink_around` writes is a piece of the old
one, so the range tree stays well formed, and the erasures and the LRU
rotation keep the rest of the invariant.
-/

namespace ScoutfsItemCache

/-! ## Neighbours in a sorted tree -/

section Neighbours

variable {t : Tree CachedItem} {x y z : CachedItem}

theorem itemsAfter_sublist (L : List CachedItem) (k : Nat) : (itemsAfter L k).Sublist L := by
  induction L with
  | nil => exact .slnil
  | cons w L ih =>
    unfold itemsAfter
    split_ifs
    · exact List.sublist_cons_self w L
    · exact ih.cons w

theorem itemsAfter_split {A B : List CachedItem} (hA : ∀ w ∈ A, w.key ≠ x.key) :
    itemsAfter (A ++ x :: B) x.key = B := by
  induction A with
  | nil => simp [itemsAfter]
  | cons w A ih =>
    simp only [List.cons_append, itemsAfter, if_neg (hA w (.head _))]
    exact ih fun v hv => hA v (.tail _ hv)

/-- The in-order sequence of a sorted tree has strictly increasing keys. -/
theorem ItemsSorted.toList (hs : ItemsSorted t) : t.toList.Pairwise fun a b => a.key < b.key := by
  unfold ItemsSorted Sorted itemsOf at hs
  simpa [List.pairwise_map] using hs

/-- A key names one node of a sorted tree. -/
theorem ItemsSorted.key_inj (hs : ItemsSorted t) (hy : y ∈ t.toList) (hz : z ∈ t.toList)
    (h : y.key = z.key) : y = z := by
  by_contra hne
  have := (hs.toList.imp (S := fun a b : CachedItem => a.key ≠ b.key) Nat.ne_of_lt).forall
    (fun _ _ h => Ne.symm h) hy hz hne
  exact this h

/-- An item of a sorted tree splits its sequence into smaller and larger keys. -/
theorem ItemsSorted.split_mem (hs : ItemsSorted t) (hx : x ∈ t.toList) :
    ∃ A B, t.toList = A ++ x :: B ∧ (∀ w ∈ A, w.key < x.key) ∧ (∀ w ∈ B, x.key < w.key) := by
  obtain ⟨A, B, hAB⟩ := List.append_of_mem hx
  have h := hs.toList
  rw [hAB, List.pairwise_append, List.pairwise_cons] at h
  exact ⟨A, B, hAB, fun w hw => h.2.2 w hw x (.head _), h.2.1.1⟩

/-- `rb_next` of an item of a sorted tree: the item with the next larger key. -/
theorem rbNextItem_some (hs : ItemsSorted t) (hx : x ∈ t.toList) (h : rbNextItem t x.key = some y) :
    y ∈ t.toList ∧ x.key < y.key ∧ ∀ w ∈ t.toList, x.key < w.key → y.key ≤ w.key := by
  obtain ⟨A, B, hAB, hA, hB⟩ := hs.split_mem hx
  have hpw := hs.toList
  rw [hAB] at hpw ⊢
  unfold rbNextItem at h
  rw [hAB, itemsAfter_split fun w hw => Nat.ne_of_lt (hA w hw)] at h
  obtain ⟨B', rfl⟩ := List.head?_eq_some_iff.1 h
  simp only [List.pairwise_append, List.pairwise_cons] at hpw
  refine ⟨by simp, hB y (.head _), fun w hw hxw => ?_⟩
  simp only [List.mem_append, List.mem_cons] at hw
  rcases hw with hw | rfl | rfl | hw
  · exact absurd (hA w hw) (by omega)
  · omega
  · exact le_rfl
  · exact Nat.le_of_lt (hpw.2.1.2.1 w hw)

theorem rbNextItem_none (hs : ItemsSorted t) (hx : x ∈ t.toList) (h : rbNextItem t x.key = none) :
    ∀ w ∈ t.toList, w.key ≤ x.key := by
  obtain ⟨A, B, hAB, hA, -⟩ := hs.split_mem hx
  unfold rbNextItem at h
  rw [hAB, itemsAfter_split fun w hw => Nat.ne_of_lt (hA w hw), List.head?_eq_none_iff] at h
  subst h
  intro w hw
  rw [hAB] at hw
  simp only [List.mem_append, List.mem_singleton] at hw
  rcases hw with hw | rfl
  · exact Nat.le_of_lt (hA w hw)
  · exact le_rfl

/-- `rb_prev` of an item of a sorted tree: the item with the next smaller key. -/
theorem rbPrevItem_some (hs : ItemsSorted t) (hx : x ∈ t.toList) (h : rbPrevItem t x.key = some y) :
    y ∈ t.toList ∧ y.key < x.key ∧ ∀ w ∈ t.toList, w.key < x.key → w.key ≤ y.key := by
  obtain ⟨A, B, hAB, hA, hB⟩ := hs.split_mem hx
  have hpw := hs.toList
  rw [hAB] at hpw ⊢
  unfold rbPrevItem at h
  rw [hAB, List.reverse_append, List.reverse_cons, List.append_assoc, List.singleton_append,
    itemsAfter_split fun w hw => Nat.ne_of_gt (hB w (List.mem_reverse.1 hw)), List.head?_reverse,
    List.getLast?_eq_some_iff] at h
  obtain ⟨A', rfl⟩ := h
  simp only [List.pairwise_append, List.pairwise_cons, List.mem_append, List.mem_singleton] at hpw
  refine ⟨by simp, hA y (by simp), fun w hw hwx => ?_⟩
  simp only [List.mem_append, List.mem_cons, List.mem_singleton, List.not_mem_nil, or_false] at hw
  rcases hw with (hw | rfl) | rfl | hw
  · exact Nat.le_of_lt (hpw.1.2.2 w hw y rfl)
  · exact le_rfl
  · omega
  · exact absurd (hB w hw) (by omega)

theorem rbPrevItem_none (hs : ItemsSorted t) (hx : x ∈ t.toList) (h : rbPrevItem t x.key = none) :
    ∀ w ∈ t.toList, x.key ≤ w.key := by
  obtain ⟨A, B, hAB, -, hB⟩ := hs.split_mem hx
  unfold rbPrevItem at h
  rw [hAB, List.reverse_append, List.reverse_cons, List.append_assoc, List.singleton_append,
    itemsAfter_split fun w hw => Nat.ne_of_gt (hB w (List.mem_reverse.1 hw)), List.head?_reverse,
    List.getLast?_eq_none_iff] at h
  subst h
  intro w hw
  rw [hAB] at hw
  simp only [List.nil_append, List.mem_cons] at hw
  rcases hw with rfl | hw
  · exact le_rfl
  · exact Nat.le_of_lt (hB w hw)

end Neighbours

/-! ## The walks of `shrink_boundary` -/

section Boundary

variable {t : Tree CachedItem}

/-- What the left walk, towards the range start `start` from an item with
key `k0`, says of its result `(found, next_ret)`: the boundary is an item
of the tree with a clean run up to `k0`, and a neighbour returned with it
lies in the range, below the boundary. -/
def LeftBoundary (t : Tree CachedItem) (start k0 : Nat) (r : Option CachedItem × Option CachedItem) :
    Prop :=
  ∀ f, r.1 = some f → f ∈ t.toList ∧ start ≤ f.key ∧ f.key ≤ k0 ∧
    (∀ z ∈ t.toList, f.key ≤ z.key → z.key ≤ k0 → itemIsDirty z = false) ∧
    ∀ m, r.2 = some m → start ≤ m.key ∧ m.key < f.key

/-- What the right walk, towards the range end `e` from an item with key
`k0`, says of its result. -/
def RightBoundary (t : Tree CachedItem) (e k0 : Nat) (r : Option CachedItem × Option CachedItem) :
    Prop :=
  ∀ f, r.1 = some f → f ∈ t.toList ∧ k0 ≤ f.key ∧ f.key ≤ e ∧
    (∀ z ∈ t.toList, k0 ≤ z.key → z.key ≤ f.key → itemIsDirty z = false) ∧
    ∀ m, r.2 = some m → f.key < m.key ∧ m.key ≤ e

/-- One step of the left walk over a sorted tree, where the previous item
is always a usable boundary. -/
theorem shrinkBoundaryLoop_succ_left (hs : ItemsSorted t) {start n i : Nat} {cur : CachedItem}
    {found nextRet : Option CachedItem} (hcur : cur ∈ t.toList) :
    shrinkBoundaryLoop t start false (n + 1) i cur found nextRet =
      match rbPrevItem t cur.key with
      | none => (some cur, none)
      | some m =>
        if m.key < start then (some cur, none)
        else if BOUNDARY_MIN ≤ i ∨ itemIsDirty m = true then (some cur, some m)
        else shrinkBoundaryLoop t start false n (i + 1) m (some cur) (some m) := by
  simp only [shrinkBoundaryLoop, Bool.false_eq_true, if_false]
  rcases hprev : rbPrevItem t cur.key with _ | m
  · rfl
  have hu : 0 ≤ scoutfsKeyCompare (scoutfsKeyDec cur.key) m.key := by
    have := (rbPrevItem_some hs hcur hprev).2.1
    simp only [scoutfsKeyCompare_nonneg, scoutfsKeyDec_eq]; omega
  simp only [hu, if_true, decide_True, Bool.true_and, scoutfsKeyCompare_neg, decide_eq_true_eq]
  by_cases hb : m.key < start
  · simp only [hb, if_true]
  · by_cases hmin : BOUNDARY_MIN ≤ i <;> simp [hb, hmin]

/-- One step of the right walk over a sorted tree. -/
theorem shrinkBoundaryLoop_succ_right (hs : ItemsSorted t) {e n i : Nat} {cur : CachedItem}
    {found nextRet : Option CachedItem} (hcur : cur ∈ t.toList) :
    shrinkBoundaryLoop t e true (n + 1) i cur found nextRet =
      match rbNextItem t cur.key with
      | none => (some cur, none)
      | some m =>
        if e < m.key then (some cur, none)
        else if BOUNDARY_MIN ≤ i ∨ itemIsDirty m = true then (some cur, some m)
        else shrinkBoundaryLoop t e true n (i + 1) m (some cur) (some m) := by
  simp only [shrinkBoundaryLoop, if_true]
  rcases hnext : rbNextItem t cur.key with _ | m
  · rfl
  have hu : scoutfsKeyCompare (scoutfsKeyInc cur.key) m.key ≤ 0 := by
    have := (rbNextItem_some hs hcur hnext).2.1
    simp only [scoutfsKeyCompare_nonpos, scoutfsKeyInc_eq]; omega
  simp only [hu, if_true, decide_True, Bool.true_and, scoutfsKeyCompare_pos, decide_eq_true_eq]
  by_cases hb : e < m.key
  · simp only [hb, if_true]
  · by_cases hmin : BOUNDARY_MIN ≤ i <;> simp [hb, hmin]


/-- The left walk at the item `cur`, after seeing the clean run from `cur`
up to `k0`. -/
theorem shrinkBoundaryLoop_left (hs : ItemsSorted t) {start k0 : Nat} (n : Nat) :
    ∀ (i : Nat) (cur : CachedItem) (found nextRet : Option CachedItem), cur ∈ t.toList →
      start ≤ cur.key → cur.key ≤ k0 →
      (∀ z ∈ t.toList, cur.key ≤ z.key → z.key ≤ k0 → itemIsDirty z = false) →
      (∀ f, found = some f → f ∈ t.toList ∧ cur.key ≤ f.key ∧ f.key ≤ k0 ∧
        ∀ m, nextRet = some m → start ≤ m.key ∧ m.key < f.key) →
      LeftBoundary t start k0 (shrinkBoundaryLoop t start false n i cur found nextRet) := by
  induction n with
  | zero =>
    intro i cur found nextRet _ hst _ hcl hinv f hf
    obtain ⟨h1, h2, h3, h4⟩ := hinv f hf
    exact ⟨h1, by omega, h3, fun z hz hfz hzk => hcl z hz (by omega) hzk, h4⟩
  | succ n ih =>
    intro i cur found nextRet hcur hst hk hcl hinv
    -- stopping at `cur`, without a neighbour
    have hstop : LeftBoundary t start k0 (some cur, none) := by
      rintro f ⟨⟩
      exact ⟨hcur, hst, hk, hcl, fun m hm => nomatch hm⟩
    rw [shrinkBoundaryLoop_succ_left hs hcur]
    rcases hprev : rbPrevItem t cur.key with _ | next
    · exact hstop
    obtain ⟨hn, hlt, hmax⟩ := rbPrevItem_some hs hcur hprev
    dsimp only
    split_ifs with hb hmin
    · exact hstop
    · -- stopping with `cur` as the boundary and `next` as its neighbour
      rintro f ⟨⟩
      exact ⟨hcur, hst, hk, hcl, by rintro m ⟨⟩; omega⟩
    · refine ih (i + 1) next (some cur) (some next) hn (by omega) (by omega) (fun z hz hnz hzk => ?_)
        (by rintro f ⟨⟩; exact ⟨hcur, by omega, hk, by rintro m ⟨⟩; omega⟩)
      by_cases hzc : z.key < cur.key
      · rw [hs.key_inj hz hn (by have := hmax z hz hzc; omega)]
        simpa using (not_or.1 hmin).2
      · exact hcl z hz (by omega) hzk

/-- The right walk at the item `cur`, after seeing the clean run from `k0`
up to `cur`. -/
theorem shrinkBoundaryLoop_right (hs : ItemsSorted t) {e k0 : Nat} (n : Nat) :
    ∀ (i : Nat) (cur : CachedItem) (found nextRet : Option CachedItem), cur ∈ t.toList →
      cur.key ≤ e → k0 ≤ cur.key →
      (∀ z ∈ t.toList, k0 ≤ z.key → z.key ≤ cur.key → itemIsDirty z = false) →
      (∀ f, found = some f → f ∈ t.toList ∧ k0 ≤ f.key ∧ f.key ≤ cur.key ∧
        ∀ m, nextRet = some m → f.key < m.key ∧ m.key ≤ e) →
      RightBoundary t e k0 (shrinkBoundaryLoop t e true n i cur found nextRet) := by
  induction n with
  | zero =>
    intro i cur found nextRet _ he _ hcl hinv f hf
    obtain ⟨h1, h2, h3, h4⟩ := hinv f hf
    exact ⟨h1, h2, by omega, fun z hz hkz hzf => hcl z hz hkz (by omega), h4⟩
  | succ n ih =>
    intro i cur found nextRet hcur he hk hcl hinv
    have hstop : RightBoundary t e k0 (some cur, none) := by
      rintro f ⟨⟩
      exact ⟨hcur, hk, he, hcl, fun m hm => nomatch hm⟩
    rw [shrinkBoundaryLoop_succ_right hs hcur]
    rcases hnext : rbNextItem t cur.key with _ | next
    · exact hstop
    obtain ⟨hn, hlt, hmin⟩ := rbNextItem_some hs hcur hnext
    dsimp only
    split_ifs with hb hmin'
    · exact hstop
    · rintro f ⟨⟩
      exact ⟨hcur, hk, he, hcl, by rintro m ⟨⟩; omega⟩
    · refine ih (i + 1) next (some cur) (some next) hn (by omega) (by omega) (fun z hz hkz hzn => ?_)
        (by rintro f ⟨⟩; exact ⟨hcur, hk, by omega, by rintro m ⟨⟩; omega⟩)
      by_cases hzc : cur.key < z.key
      · rw [hs.key_inj hz hn (by have := hmin z hz hzc; omega)]
        simpa using (not_or.1 hmin').2
      · exact hcl z hz hkz (by omega)

/-- The left walk always returns a boundary, and returns it without a
neighbour only when no item lies between the range start and it. -/
theorem shrinkBoundaryLoop_edge_left (hs : ItemsSorted t) {start : Nat} (n : Nat) :
    ∀ (i : Nat) (cur : CachedItem) (found nextRet : Option CachedItem), cur ∈ t.toList →
      (found.isSome ∨ 0 < n) → (nextRet = none → found = none) →
      (shrinkBoundaryLoop t start false n i cur found nextRet).1.isSome ∧
        ∀ f, shrinkBoundaryLoop t start false n i cur found nextRet = (some f, none) →
          ∀ z ∈ t.toList, start ≤ z.key → z.key < f.key → False := by
  induction n with
  | zero =>
    intro i cur found nextRet _ hf hnr
    refine ⟨hf.resolve_right (by omega), fun f h => ?_⟩
    simp only [shrinkBoundaryLoop, Prod.mk.injEq] at h
    rw [hnr h.2] at h
    exact nomatch h.1
  | succ n ih =>
    intro i cur found nextRet hcur _ _
    rw [shrinkBoundaryLoop_succ_left hs hcur]
    rcases hprev : rbPrevItem t cur.key with _ | m
    · refine ⟨rfl, ?_⟩
      rintro f ⟨⟩ z hz _ hzf
      have := rbPrevItem_none hs hcur hprev z hz
      omega
    obtain ⟨hm, -, hmax⟩ := rbPrevItem_some hs hcur hprev
    dsimp only
    split_ifs with hb
    · refine ⟨rfl, ?_⟩
      rintro f ⟨⟩ z hz hsz hzf
      have := hmax z hz hzf
      omega
    · exact ⟨rfl, fun _ h => nomatch h⟩
    · exact ih (i + 1) m (some cur) (some m) hm (.inl rfl) fun h => nomatch h

/-- The right walk always returns a boundary, and returns it without a
neighbour only when no item lies between it and the range end. -/
theorem shrinkBoundaryLoop_edge_right (hs : ItemsSorted t) {e : Nat} (n : Nat) :
    ∀ (i : Nat) (cur : CachedItem) (found nextRet : Option CachedItem), cur ∈ t.toList →
      (found.isSome ∨ 0 < n) → (nextRet = none → found = none) →
      (shrinkBoundaryLoop t e true n i cur found nextRet).1.isSome ∧
        ∀ f, shrinkBoundaryLoop t e true n i cur found nextRet = (some f, none) →
          ∀ z ∈ t.toList, f.key < z.key → z.key ≤ e → False := by
  induction n with
  | zero =>
    intro i cur found nextRet _ hf hnr
    refine ⟨hf.resolve_right (by omega), fun f h => ?_⟩
    simp only [shrinkBoundaryLoop, Prod.mk.injEq] at h
    rw [hnr h.2] at h
    exact nomatch h.1
  | succ n ih =>
    intro i cur found nextRet hcur _ _
    rw [shrinkBoundaryLoop_succ_right hs hcur]
    rcases hnext : rbNextItem t cur.key with _ | m
    · refine ⟨rfl, ?_⟩
      rintro f ⟨⟩ z hz hfz _
      have := rbNextItem_none hs hcur hnext z hz
      omega
    obtain ⟨hm, -, hmin⟩ := rbNextItem_some hs hcur hnext
    dsimp only
    split_ifs with hb
    · refine ⟨rfl, ?_⟩
      rintro f ⟨⟩ z hz hfz hze
      have := hmin z hz hfz
      omega
    · exact ⟨rfl, fun _ h => nomatch h⟩
    · exact ih (i + 1) m (some cur) (some m) hm (.inl rfl) fun h => nomatch h

/-- A left walk that moves on from a clean item `cur` returns a boundary
at or below `cur`. -/
theorem shrinkBoundaryLoop_found_left (hs : ItemsSorted t) {start n i : Nat} {cur : CachedItem}
    {found nextRet : Option CachedItem} (hcur : cur ∈ t.toList) (hcl : itemIsDirty cur = false) :
    ∀ f, (shrinkBoundaryLoop t start false (n + 1) i cur found nextRet).1 = some f → f.key ≤ cur.key := by
  rw [shrinkBoundaryLoop_succ_left hs hcur]
  rcases hprev : rbPrevItem t cur.key with _ | m
  · rintro f ⟨⟩; exact le_rfl
  obtain ⟨hm, hlt, hmax⟩ := rbPrevItem_some hs hcur hprev
  dsimp only
  split_ifs with hb hmin
  · rintro f ⟨⟩; exact le_rfl
  · rintro f ⟨⟩; exact le_rfl
  · intro f hf
    refine ((shrinkBoundaryLoop_left hs n (i + 1) m (some cur) (some m) hm (by omega) hlt.le
      (fun z hz h1 h2 => ?_) (by rintro f ⟨⟩; exact ⟨hcur, hlt.le, le_rfl, by rintro m' ⟨⟩; omega⟩)) f hf).2.2.1
    by_cases hzc : z.key < cur.key
    · rw [hs.key_inj hz hm (by have := hmax z hz hzc; omega)]
      simpa using (not_or.1 hmin).2
    · rw [hs.key_inj hz hcur (by omega)]
      exact hcl

/-- A right walk that moves on from a clean item `cur` returns a boundary
at or above `cur`. -/
theorem shrinkBoundaryLoop_found_right (hs : ItemsSorted t) {e n i : Nat} {cur : CachedItem}
    {found nextRet : Option CachedItem} (hcur : cur ∈ t.toList) (hcl : itemIsDirty cur = false) :
    ∀ f, (shrinkBoundaryLoop t e true (n + 1) i cur found nextRet).1 = some f → cur.key ≤ f.key := by
  rw [shrinkBoundaryLoop_succ_right hs hcur]
  rcases hnext : rbNextItem t cur.key with _ | m
  · rintro f ⟨⟩; exact le_rfl
  obtain ⟨hm, hlt, hmin'⟩ := rbNextItem_some hs hcur hnext
  dsimp only
  split_ifs with hb hmin
  · rintro f ⟨⟩; exact le_rfl
  · rintro f ⟨⟩; exact le_rfl
  · intro f hf
    refine ((shrinkBoundaryLoop_right hs n (i + 1) m (some cur) (some m) hm (by omega) hlt.le
      (fun z hz h1 h2 => ?_) (by rintro f ⟨⟩; exact ⟨hcur, le_rfl, hlt.le, by rintro m' ⟨⟩; omega⟩)) f hf).2.1
    by_cases hzc : cur.key < z.key
    · rw [hs.key_inj hz hm (by have := hmin' z hz hzc; omega)]
      simpa using (not_or.1 hmin).2
    · rw [hs.key_inj hz hcur (by omega)]
      exact hcl

section Start

variable (hs : ItemsSorted t) {item : CachedItem} (hitem : item ∈ t.toList)
  (hd : itemIsDirty item = false)
include hs hitem hd

/-- The clean run of one item. -/
theorem clean_self : ∀ z ∈ t.toList, item.key ≤ z.key → z.key ≤ item.key → itemIsDirty z = false :=
  fun z hz h1 h2 => hs.key_inj hz hitem (by omega) ▸ hd

/-- `shrink_boundary` to the left of an item inside a range starting at `start`. -/
theorem shrinkBoundary_left {start : Nat} (hst : start ≤ item.key) :
    LeftBoundary t start item.key (shrinkBoundary t item start false) :=
  shrinkBoundaryLoop_left hs _ 0 item none none hitem hst le_rfl (clean_self hs hitem hd)
    fun _ h => nomatch h

/-- `shrink_boundary` to the right of an item inside a range ending at `e`. -/
theorem shrinkBoundary_right {e : Nat} (he : item.key ≤ e) :
    RightBoundary t e item.key (shrinkBoundary t item e true) :=
  shrinkBoundaryLoop_right hs _ 0 item none none hitem he le_rfl (clean_self hs hitem hd)
    fun _ h => nomatch h

end Start

section Stops

variable (hs : ItemsSorted t) {item : CachedItem} (hitem : item ∈ t.toList)
include hs hitem

/-- The left walk from an item always returns a boundary, with a
neighbour unless nothing lies between the range start and the boundary. -/
theorem shrinkBoundary_edge_left (start : Nat) :
    (shrinkBoundary t item start false).1.isSome ∧
      ∀ f, shrinkBoundary t item start false = (some f, none) →
        ∀ z ∈ t.toList, start ≤ z.key → z.key < f.key → False :=
  shrinkBoundaryLoop_edge_left hs _ 0 item none none hitem (.inr (by decide)) fun _ => rfl

/-- The right walk from an item always returns a boundary, with a
neighbour unless nothing lies between the boundary and the range end. -/
theorem shrinkBoundary_edge_right (e : Nat) :
    (shrinkBoundary t item e true).1.isSome ∧
      ∀ f, shrinkBoundary t item e true = (some f, none) →
        ∀ z ∈ t.toList, f.key < z.key → z.key ≤ e → False :=
  shrinkBoundaryLoop_edge_right hs _ 0 item none none hitem (.inr (by decide)) fun _ => rfl

/-- The left walk stops at its own item exactly when the previous item is
dirty and inside the range. -/
theorem shrinkBoundary_self_left {start : Nat} {m : CachedItem} :
    shrinkBoundary t item start false = (some item, some m) ↔
      rbPrevItem t item.key = some m ∧ itemIsDirty m = true ∧ start ≤ m.key := by
  unfold shrinkBoundary
  rw [show BOUNDARY_MAX = 299 + 1 from rfl, shrinkBoundaryLoop_succ_left hs hitem]
  rcases hprev : rbPrevItem t item.key with _ | m'
  · simp
  obtain ⟨hm, hlt, -⟩ := rbPrevItem_some hs hitem hprev
  dsimp only
  split_ifs with hb hmin
  · exact iff_of_false (by simp) fun ⟨h, _, h'⟩ => by cases h; omega
  · have hd : itemIsDirty m' = true := hmin.resolve_left (by decide)
    simp only [Prod.mk.injEq, true_and, Option.some.injEq]
    constructor
    · rintro rfl; exact ⟨rfl, hd, by omega⟩
    · rintro ⟨rfl, -⟩; rfl
  · have hd : itemIsDirty m' = false := by simpa using (not_or.1 hmin).2
    refine iff_of_false (fun h => ?_) fun ⟨h, h', _⟩ => by cases h; simp [hd] at h'
    have := shrinkBoundaryLoop_found_left hs hm hd item (congrArg Prod.fst h)
    omega

/-- The right walk stops at its own item exactly when the next item is
dirty and inside the range. -/
theorem shrinkBoundary_self_right {e : Nat} {m : CachedItem} :
    shrinkBoundary t item e true = (some item, some m) ↔
      rbNextItem t item.key = some m ∧ itemIsDirty m = true ∧ m.key ≤ e := by
  unfold shrinkBoundary
  rw [show BOUNDARY_MAX = 299 + 1 from rfl, shrinkBoundaryLoop_succ_right hs hitem]
  rcases hnext : rbNextItem t item.key with _ | m'
  · simp
  obtain ⟨hm, hlt, -⟩ := rbNextItem_some hs hitem hnext
  dsimp only
  split_ifs with hb hmin
  · exact iff_of_false (by simp) fun ⟨h, _, h'⟩ => by cases h; omega
  · have hd : itemIsDirty m' = true := hmin.resolve_left (by decide)
    simp only [Prod.mk.injEq, true_and, Option.some.injEq]
    constructor
    · rintro rfl; exact ⟨rfl, hd, by omega⟩
    · rintro ⟨rfl, -⟩; rfl
  · have hd : itemIsDirty m' = false := by simpa using (not_or.1 hmin).2
    refine iff_of_false (fun h => ?_) fun ⟨h, h', _⟩ => by cases h; simp [hd] at h'
    have := shrinkBoundaryLoop_found_right hs hm hd item (congrArg Prod.fst h)
    omega

end Stops

end Boundary

/-! ## The range edits -/

/-- The range `shrink_around` keeps in place is a piece of the old one. -/
theorem shrinkRange_within {rng : CachedRange} {first last : CachedItem} {prev next : Option CachedItem}
    (hrng : rng.start ≤ rng.end) (hfirst : first.key ≤ rng.end) (hlast : rng.start ≤ last.key)
    (hprev : ∀ m, prev = some m → rng.start ≤ m.key ∧ m.key < first.key)
    (hnext : ∀ m, next = some m → last.key < m.key ∧ m.key ≤ rng.end) :
    rng.start ≤ (shrinkRange rng first last prev next).start ∧
      (shrinkRange rng first last prev next).end ≤ rng.end ∧
      (shrinkRange rng first last prev next).start ≤ (shrinkRange rng first last prev next).end := by
  unfold shrinkRange
  rcases prev with _ | m
  · rcases next with _ | m'
    · simpa using hrng
    · have := hnext m' rfl; simp; omega
  · have := hprev m rfl; simp; omega

/-- A `shrink_around` that frees nothing leaves the LRU list as it is. -/
theorem shrinkAround_lru_of_zero {s : ItemCache} {rp : List (Frame CachedRange)} {rl rr : Tree CachedRange}
    {rng : CachedRange} {item : CachedItem} (h : (shrinkAround s rp rl rng rr item).2 = 0) :
    (shrinkAround s rp rl rng rr item).1.lruList = s.lruList := by
  revert h
  unfold shrinkAround
  rcases shrinkBoundary s.items item rng.start false with ⟨_ | first, prev⟩ <;>
    rcases shrinkBoundary s.items item rng.end true with ⟨_ | last, next⟩ <;> dsimp only <;>
    try (intro; rfl)
  split_ifs
  · intro; rfl
  · intro h; omega
  all_goals intro h; rw [(eraseWalk_count _).2 h]

/-! ## Preservation -/

namespace AbsCache

/-- Unlinking takes the item's key off the LRU list, where a clean item
is and a dirty one is not. -/
theorem lruList_unlink {a : AbsCache} {x : CachedItem} (hl : itemIsDirty x = true → x.key ∉ a.lruList) :
    (a.unlink x).lruList = a.lruList.erase x.key := by
  unfold unlink clearDirty
  by_cases hd : itemIsDirty x = true
  · simp only [hd, Bool.not_true, Bool.false_eq_true, if_false, List.mem_append, List.mem_singleton, or_true,
      if_true]
    rw [List.erase_append_right _ (hl hd), List.erase_of_not_mem (hl hd)]
    simp
  · simp only [hd, Bool.not_false, if_true]
    split_ifs with hm
    · rfl
    · exact (List.erase_of_not_mem hm).symm

end AbsCache

namespace ItemCache.Inv

variable {M : Nat} {s : ItemCache}

theorem moveTail (hI : s.Inv M) {k : Nat} (hk : k ∈ s.lruList) :
    ({ s with lruList := s.lruList.erase k ++ [k] } : ItemCache).Inv M :=
  AbsCache.Inv.moveTail hI hk

/-- An item whose key is on the LRU list is clean. -/
theorem clean_of_lru (hI : s.Inv M) {ptr : ItemPtr} {x : CachedItem} (hp : PointsTo s.items ptr x)
    (hk : x.key ∈ s.lruList) : itemIsDirty x = false := by
  obtain ⟨y, hy, hyk⟩ := List.mem_map.1 ((AbsCache.Inv.lru hI).mem_iff.1 hk)
  obtain ⟨hy, hyd⟩ := List.mem_filter.1 hy
  have h1 := Sorted.getAt_of_mem (AbsCache.Inv.sorted hI) hy
  rw [hyk] at h1
  have h2 := hp.getAt hI.sorted
  rw [show s.abs.items = itemsOf s.items from rfl, h2] at h1
  cases h1
  simpa using hyd

/-- Unlinking an item takes its key off the LRU list. -/
theorem lruList_unlinkItem (hI : s.Inv M) {ptr : ItemPtr} {x : CachedItem} (hp : PointsTo s.items ptr x) :
    (ScoutfsItemCache.unlinkItem s ptr).lruList = s.lruList.erase x.key :=
  (congrArg AbsCache.lruList (unlinkItem_abs hp hI.sorted)).trans
    (AbsCache.lruList_unlink fun hd hm => by rw [hI.clean_of_lru hp hm] at hd; exact nomatch hd)

theorem lruList_unlinkItem_path (hI : s.Inv M) (k : Nat) :
    List.Sublist (ScoutfsItemCache.unlinkItem s (itemPath s.items k)).lruList s.lruList := by
  rcases h : itemPath s.items k with ⟨p, _ | ⟨l, x, r⟩⟩
  · exact .refl _
  · rw [hI.lruList_unlinkItem (itemPath_pointsTo h)]
    exact List.erase_sublist _ _

/-- An erasing walk keeps the invariant and only takes keys off the LRU list. -/
theorem eraseWalk_lru (hI : s.Inv M) (go isLast : CachedItem → Bool) (item : Option CachedItem) (count : Nat) :
    (ScoutfsItemCache.eraseWalk go isLast s item count).1.Inv M ∧
      List.Sublist (ScoutfsItemCache.eraseWalk go isLast s item count).1.lruList s.lruList :=
  eraseWalk_induction (fun s' => s'.Inv M ∧ List.Sublist s'.lruList s.lruList)
    (fun s1 p l x r ⟨hI1, hsub⟩ hplug => by
      have hp : PointsTo s1.items (p, .node l x r) x := ⟨l, r, rfl, hplug⟩
      refine ⟨hI1.unlinkItem hp, ?_⟩
      show List.Sublist (ScoutfsItemCache.unlinkItem s1 _).lruList _
      rw [hI1.lruList_unlinkItem hp]
      exact (List.erase_sublist _ _).trans hsub) item ⟨hI, .refl _⟩

theorem shrinkAround_lru (hI : s.Inv M) {rp : List (Frame CachedRange)} {rl rr : Tree CachedRange}
    {rng : CachedRange} {item : CachedItem} (hr : rangePath s.ranges item.key = (rp, .node rl rng rr))
    (hitem : item ∈ s.items.toList) (hd : itemIsDirty item = false) :
    (shrinkAround s rp rl rng rr item).1.Inv M ∧ List.Sublist (shrinkAround s rp rl rng rr item).1.lruList s.lruList := by
  have hok : RangesOk (lefts rp ++ rl.toList ++ rng :: (rr.toList ++ rights rp)) := by
    have h := AbsCache.Inv.ranges hI
    rw [show s.abs.ranges = s.ranges.toList from rfl, ← plug_of_rangePath hr, toList_plug] at h
    simpa using h
  have hin := rangePath_node hr
  have hrng := hok.1 rng (by simp)
  have hL := shrinkBoundary_left hI.sorted hitem hd hin.1
  have hR := shrinkBoundary_right hI.sorted hitem hd hin.2
  unfold ScoutfsItemCache.shrinkAround
  rcases hl : shrinkBoundary s.items item rng.start false with ⟨_ | first, prev⟩
  · exact ⟨hI, .refl _⟩
  rcases hr' : shrinkBoundary s.items item rng.end true with ⟨_ | last, next⟩
  · exact ⟨hI, .refl _⟩
  rw [hl] at hL
  rw [hr'] at hR
  obtain ⟨-, hf1, hf2, -, hprev⟩ := hL first rfl
  obtain ⟨-, hl1, hl2, -, hnext⟩ := hR last rfl
  obtain ⟨h1, h2, h3⟩ := shrinkRange_within hrng (by omega) (by omega) hprev hnext
  have hok' : RangesOk (plug rp (.node rl (shrinkRange rng first last prev next) rr)).toList := by
    rw [toList_plug]
    simpa using hok.shrink h1 h2 h3
  dsimp only
  split_ifs with h0 hboth hnone
  · exact ⟨hI, .refl _⟩
  · -- a split: the old end of the range goes to a new range after the run
    obtain ⟨m, hm⟩ := Option.isSome_iff_exists.1 (by simp only [Bool.and_eq_true] at hboth; exact hboth.1)
    have := hnext m hm
    exact (((hI.unlinkItem_path last.key).setRanges
      (insertRange_ok hok' (by simp only [scoutfsKeyInc_eq]; omega))).eraseWalk_lru _ _ _ _).imp id
        fun h => h.trans (hI.lruList_unlinkItem_path last.key)
  · refine (hI.setRanges ?_).eraseWalk_lru _ _ _ _
    rw [toList_rbErase]
    simpa using hok.erase
  · exact (hI.setRanges hok').eraseWalk_lru _ _ _ _

theorem shrinkAround (hI : s.Inv M) {rp : List (Frame CachedRange)} {rl rr : Tree CachedRange}
    {rng : CachedRange} {item : CachedItem} (hr : rangePath s.ranges item.key = (rp, .node rl rng rr))
    (hitem : item ∈ s.items.toList) (hd : itemIsDirty item = false) :
    (shrinkAround s rp rl rng rr item).1.Inv M :=
  (hI.shrinkAround_lru hr hitem hd).1

theorem lruShrinkLoop (fuel : Nat) :
    ∀ {s : ItemCache} (nr : Nat) (firstMoved : Option Nat), s.Inv M →
      (lruShrinkLoop fuel s nr firstMoved).Inv M := by
  induction fuel with
  | zero => intro s nr fm hI; exact hI
  | succ n ih =>
    intro s nr fm hI
    simp only [ScoutfsItemCache.lruShrinkLoop]
    split_ifs with hnr
    · exact hI
    rcases hl : s.lruList with _ | ⟨k, ks⟩
    · exact hI
    dsimp only
    rcases hp : itemPath s.items k with ⟨p, _ | ⟨l, item, r⟩⟩
    · exact hI
    dsimp only
    have hpt := itemPath_pointsTo hp
    have hk : item.key = k := (itemPath_node hp).2
    have hclean : itemIsDirty item = false :=
      hI.clean_of_lru hpt (by rw [hk, hl]; exact List.mem_cons_self _ _)
    have hmem : item ∈ s.items.toList := by rw [← (itemPath_node hp).1, toList_plug]; simp
    simp only [hclean, Bool.false_eq_true, if_false]
    rcases hrp : rangePath s.ranges item.key with ⟨rp, _ | ⟨rl, rng, rr⟩⟩
    · exact ih _ _ (hI.unlinkItem hpt)
    · have ha := hI.shrinkAround hrp hmem hclean
      dsimp only
      split_ifs with h0
      · exact ha
      · refine ih _ _ (ha.moveTail ?_)
        rw [shrinkAround_lru_of_zero h0, hl, hk]
        exact List.mem_cons_self _ _
      · exact ih _ _ ha

theorem itemLruShrink (hI : s.Inv M) (fuel nrToScan : Nat) : (itemLruShrink fuel s nrToScan).1.Inv M := by
  unfold ScoutfsItemCache.itemLruShrink
  split_ifs
  · exact hI
  · have h := hI.lruShrinkLoop fuel nrToScan none
    dsimp only
    split
    · exact h.setRanges (by rw [eraseFirstRanges_eq_nil]; exact ⟨fun _ h => by simp at h, .nil⟩)
    · exact h

end ItemCache.Inv

end ScoutfsItemCache
