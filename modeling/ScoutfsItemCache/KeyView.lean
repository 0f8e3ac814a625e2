import ScoutfsItemCache.Runs

/-! # The cache read one key at a time

Every operation of the cache changes the sequence of items at few keys,
most at one. `getAt k` reads the item at key `k`; this module says what
each list operation of the abstract cache and each tree function does to
that reading: at the key it works on, and nowhere else. A sorted sequence
is determined by its readings (`Sorted.ext_getAt`), so per-key facts give
back facts about whole sequences.
-/

namespace ScoutfsItemCache

/-! ## Reading one key of a sequence -/

section GetAt

variable {k k' : Nat} {x : CachedItem}

theorem getAt_eraseAt_of_ne (h : k ≠ k') (L : List CachedItem) : getAt k (eraseAt k' L) = getAt k L := by
  unfold getAt eraseAt
  rw [List.find?_filter]
  congr 1
  funext z
  by_cases hz : z.key = k
  · rw [hz]; simp [h]
  · simp [hz]

theorem getAt_setAt {f : CachedItem → CachedItem} (hf : ∀ z, (f z).key = z.key) (k k' : Nat)
    (L : List CachedItem) : getAt k (setAt k' f L) = if k = k' then (getAt k L).map f else getAt k L := by
  unfold getAt setAt
  have hp : ((fun z : CachedItem => decide (z.key = k)) ∘ fun z => if z.key = k' then f z else z) =
      fun z => decide (z.key = k) := by
    funext z
    by_cases hz : z.key = k' <;> simp [hz, hf]
  rw [List.find?_map, hp]
  generalize hfind : List.find? _ L = o
  rcases o with _ | z
  · split_ifs <;> rfl
  · have hz : z.key = k := by simpa using List.find?_some hfind
    split_ifs with hk <;> simp [hz, hk]

theorem getAt_setAt_of_ne {f : CachedItem → CachedItem} (hf : ∀ z, (f z).key = z.key) (h : k ≠ k')
    (L : List CachedItem) : getAt k (setAt k' f L) = getAt k L := by
  rw [getAt_setAt hf, if_neg h]

/-- Writes that keep the key and the persistent flag keep what `getAt`
says of persistence. -/
theorem persistent_getAt_setAt {f : CachedItem → CachedItem} (hf : ∀ z, (f z).key = z.key)
    (hp : ∀ z, (f z).persistent = z.persistent) (k k' : Nat) (L : List CachedItem) :
    (getAt k (setAt k' f L)).map CachedItem.persistent = (getAt k L).map CachedItem.persistent := by
  rw [getAt_setAt hf]
  split_ifs
  · rw [Option.map_map]
    exact Option.map_congr fun z _ => hp z
  · rfl

theorem getAt_insertAt (k : Nat) (L : List CachedItem) :
    getAt k (insertAt x L) = if k = x.key then some x else getAt k L := by
  unfold getAt insertAt
  rw [List.find?_append, List.find?_cons, List.find?_filter, List.find?_filter]
  by_cases hk : k = x.key
  · subst hk
    have : L.find? (fun a => decide (decide (a.key < x.key) = true ∧ decide (a.key = x.key) = true)) = none :=
      List.find?_eq_none.2 fun z _ => by simp only [decide_eq_true_eq]; omega
    rw [this, Option.none_or, if_pos rfl]
    simp
  · rw [if_neg hk, show decide (x.key = k) = false by simpa using Ne.symm hk]
    dsimp only
    rcases Nat.lt_or_gt_of_ne hk with hlt | hgt
    · have h2 : L.find? (fun a => decide (decide (x.key < a.key) = true ∧ decide (a.key = k) = true)) = none :=
        List.find?_eq_none.2 fun z _ => by simp only [decide_eq_true_eq]; omega
      rw [h2, Option.or_none]
      congr 1
      funext z
      by_cases hz : z.key = k
      · rw [hz]; simp [hlt]
      · simp [hz]
    · have h1 : L.find? (fun a => decide (decide (a.key < x.key) = true ∧ decide (a.key = k) = true)) = none :=
        List.find?_eq_none.2 fun z _ => by simp only [decide_eq_true_eq]; omega
      rw [h1, Option.none_or]
      congr 1
      funext z
      by_cases hz : z.key = k
      · rw [hz]; simp [hgt]
      · simp [hz]

/-- A sorted sequence is determined by what it holds at each key. -/
theorem Sorted.ext_getAt {A B : List CachedItem} (hA : Sorted A) (hB : Sorted B)
    (h : ∀ k, getAt k A = getAt k B) : A = B := by
  induction A generalizing B with
  | nil =>
    cases B with
    | nil => rfl
    | cons b B => simpa [getAt] using (h b.key).symm
  | cons a A ih =>
    cases B with
    | nil => simpa [getAt] using h a.key
    | cons b B =>
      have hA' := List.pairwise_cons.1 hA
      have hB' := List.pairwise_cons.1 hB
      have hab : a = b := by
        have h1 := h a.key
        have h2 := h b.key
        simp only [getAt, List.find?_cons, decide_True] at h1 h2
        by_cases hk : b.key = a.key
        · simpa [hk] using h1
        · rw [show decide (b.key = a.key) = false by simpa using hk] at h1
          rw [show decide (a.key = b.key) = false by simpa using Ne.symm hk] at h2
          have := hB'.1 a (List.mem_of_find?_eq_some h1.symm)
          have := hA'.1 b (List.mem_of_find?_eq_some h2)
          omega
      subst hab
      refine congrArg _ (ih hA'.2 hB'.2 fun k => ?_)
      by_cases hk : a.key = k
      · subst hk
        have hnone : ∀ C : List CachedItem, (∀ z ∈ C, a.key < z.key) → getAt a.key C = none :=
          fun C hC => List.find?_eq_none.2 fun z hz => by have := hC z hz; simp only [decide_eq_true_eq]; omega
        rw [hnone A hA'.1, hnone B hB'.1]
      · simpa [getAt, List.find?_cons, hk] using h k

end GetAt

/-! ## What the abstract operations do at one key -/

namespace AbsCache

variable {a : AbsCache} {x : CachedItem} {k : Nat}

theorem getAt_markDirty_of_ne (h : k ≠ x.key) : getAt k (a.markDirty x).items = getAt k a.items := by
  unfold markDirty
  split_ifs
  · rfl
  · dsimp only
    exact getAt_setAt_of_ne (by intro; rfl) h a.items

theorem getAt_clearDirty_of_ne (h : k ≠ x.key) : getAt k (a.clearDirty x).items = getAt k a.items := by
  unfold clearDirty
  split_ifs
  · rfl
  · dsimp only
    exact getAt_setAt_of_ne (by intro; rfl) h a.items

theorem getAt_set_of_ne {k' : Nat} {f : CachedItem → CachedItem} (hf : ∀ z, (f z).key = z.key) (h : k ≠ k') :
    getAt k (a.set k' f).items = getAt k a.items :=
  getAt_setAt_of_ne hf h a.items

theorem getAt_unlink_of_ne (h : k ≠ x.key) : getAt k (a.unlink x).items = getAt k a.items := by
  rw [unlink_items, getAt_eraseAt_of_ne h, getAt_clearDirty_of_ne h]

theorem getAt_unlink_self : getAt x.key (a.unlink x).items = none := by
  rw [unlink_items]; exact getAt_eraseAt _ _

theorem link_items : (a.link x).items = insertAt x.data a.items := by
  unfold link; split_ifs <;> rfl

theorem getAt_link (k : Nat) : getAt k (a.link x).items = if k = x.key then some x.data else getAt k a.items := by
  rw [link_items, getAt_insertAt]; rfl

theorem persistent_markDirty (k : Nat) :
    (getAt k (a.markDirty x).items).map CachedItem.persistent = (getAt k a.items).map CachedItem.persistent := by
  unfold markDirty
  split_ifs
  · rfl
  · dsimp only
    exact persistent_getAt_setAt (by intro; rfl) (by intro; rfl) _ _ _

theorem persistent_clearDirty (k : Nat) :
    (getAt k (a.clearDirty x).items).map CachedItem.persistent = (getAt k a.items).map CachedItem.persistent := by
  unfold clearDirty
  split_ifs
  · rfl
  · dsimp only
    exact persistent_getAt_setAt (by intro; rfl) (by intro; rfl) _ _ _

@[simp] theorem ranges_markDirty : (a.markDirty x).ranges = a.ranges := by
  unfold markDirty; split_ifs <;> rfl

@[simp] theorem ranges_clearDirty : (a.clearDirty x).ranges = a.ranges := by
  unfold clearDirty; split_ifs <;> rfl

@[simp] theorem ranges_set {k' : Nat} {f : CachedItem → CachedItem} : (a.set k' f).ranges = a.ranges := rfl

@[simp] theorem ranges_unlink : (a.unlink x).ranges = a.ranges := by
  unfold unlink; dsimp only; split_ifs <;> simp

@[simp] theorem ranges_link : (a.link x).ranges = a.ranges := by
  unfold link; split_ifs <;> rfl

@[simp] theorem ranges_insert (lo cp : Bool) (freed : Nat → Bool) : (a.insert x lo cp freed).1.ranges = a.ranges := by
  unfold insert
  split
  · split_ifs <;> simp
  · simp

end AbsCache

/-! ## The tree functions at one key -/

theorem ItemCache.ranges_abs (s : ItemCache) : s.abs.ranges = s.ranges.toList := rfl

theorem ItemCache.items_abs (s : ItemCache) : s.abs.items = itemsOf s.items := rfl

section Tree

variable {M : Nat} {s : ItemCache} {ptr : ItemPtr} {x : CachedItem}

/-- The item with `ITEM_DIRTY` set to `b`. -/
def CachedItem.withDirty (y : CachedItem) (b : Bool) : CachedItem := { y with dirty := { y.dirty with item := b } }

@[simp] theorem CachedItem.key_withDirty (y : CachedItem) (b : Bool) : (y.withDirty b).key = y.key := rfl

@[simp] theorem CachedItem.deletion_withDirty (y : CachedItem) (b : Bool) : (y.withDirty b).deletion = y.deletion := rfl

@[simp] theorem CachedItem.persistent_withDirty (y : CachedItem) (b : Bool) :
    (y.withDirty b).persistent = y.persistent := rfl

@[simp] theorem itemIsDirty_withDirty (y : CachedItem) (b : Bool) : itemIsDirty (y.withDirty b) = b := rfl

@[simp] theorem CachedItem.value_withDirty (y : CachedItem) (b : Bool) : (y.withDirty b).value = y.value := rfl

theorem CachedItem.data_withDirty (y : CachedItem) (b : Bool) : (y.withDirty b).data = y.data.withDirty b := rfl

theorem CachedItem.data_withDirty_of_eq {y : CachedItem} {b : Bool} (h : itemIsDirty y = b) :
    y.data.withDirty b = y.data := by
  subst h; rfl

/-- `mark_item_dirty` sets `ITEM_DIRTY` on the item at its key. -/
theorem getAt_markItemDirty (hs : ItemsSorted s.items) (hp : PointsTo s.items ptr x) (k : Nat) :
    getAt k (itemsOf (markItemDirty s ptr).items) =
      if k = x.key then some (x.data.withDirty true) else getAt k (itemsOf s.items) := by
  rw [← ItemCache.items_abs, markItemDirty_abs hp hs]
  unfold AbsCache.markDirty
  split_ifs with hd hk hk
  · rw [hk, CachedItem.data_withDirty_of_eq hd]; exact hp.getAt hs
  · rfl
  · dsimp only
    rw [getAt_setAt (by intro; rfl), if_pos hk, ItemCache.items_abs, hk, hp.getAt hs]
    rfl
  · dsimp only
    exact getAt_setAt_of_ne (by intro; rfl) hk _

/-- `clear_item_dirty` clears `ITEM_DIRTY` on the item at its key. -/
theorem getAt_clearItemDirty (hs : ItemsSorted s.items) (hp : PointsTo s.items ptr x) (k : Nat) :
    getAt k (itemsOf (clearItemDirty s ptr).1.items) =
      if k = x.key then some (x.data.withDirty false) else getAt k (itemsOf s.items) := by
  rw [← ItemCache.items_abs, clearItemDirty_abs hp hs]
  unfold AbsCache.clearDirty
  split_ifs with hd hk hk
  · rw [hk, CachedItem.data_withDirty_of_eq (by simpa using hd)]; exact hp.getAt hs
  · rfl
  · dsimp only
    rw [getAt_setAt (by intro; rfl), if_pos hk, ItemCache.items_abs, hk, hp.getAt hs]
    rfl
  · dsimp only
    exact getAt_setAt_of_ne (by intro; rfl) hk _

/-- Plain field writes change the item at its key. -/
theorem getAt_setItem (hs : ItemsSorted s.items) (hp : PointsTo s.items ptr x) {f : CachedItem → CachedItem}
    (hfk : ∀ z, (f z).key = z.key) (hf : ∀ z, (f z).data = f z.data) (k : Nat) :
    getAt k (itemsOf (setItem s ptr f).1.items) =
      if k = x.key then some (f x.data) else getAt k (itemsOf s.items) := by
  rw [← ItemCache.items_abs, setItem_abs hp hs f hf]
  unfold AbsCache.set
  rw [getAt_setAt hfk, ItemCache.items_abs]
  split_ifs with hk
  · rw [hk, hp.getAt hs]; rfl
  · rfl

/-- `unlink_item` leaves no item at its key. -/
theorem getAt_unlinkItem (hs : ItemsSorted s.items) (hp : PointsTo s.items ptr x) (k : Nat) :
    getAt k (itemsOf (unlinkItem s ptr).items) = if k = x.key then none else getAt k (itemsOf s.items) := by
  rw [← ItemCache.items_abs, unlinkItem_abs hp hs]
  split_ifs with hk
  · rw [hk]; exact AbsCache.getAt_unlink_self
  · exact AbsCache.getAt_unlink_of_ne hk

/-- What `insert_item` leaves at the key of the new item, given what was
there: an item it may not replace stays, and otherwise the new item is
linked, persistent when the flag read from the replaced item once freed
is set. -/
def insertAtKey (ins : CachedItem) (logicalOverwrite cachePopulate : Bool) (freed : Nat → Bool) :
    Option CachedItem → Option CachedItem
  | some z =>
    if cachePopulate || (!z.deletion && !logicalOverwrite) then some z
    else some (if freed z.key then { ins with persistent := true } else ins).data
  | none => some ins.data

/-- `insert_item` changes the cache at the key of the new item only. -/
theorem getAt_insertItem (hs : ItemsSorted s.items) (ins : CachedItem) (lo cp : Bool) (freed : Nat → Bool)
    (k : Nat) :
    getAt k (itemsOf (insertItem s ins lo cp freed).1.items) =
      if k = ins.key then insertAtKey ins lo cp freed (getAt ins.key (itemsOf s.items))
      else getAt k (itemsOf s.items) := by
  have h : (insertItem s ins lo cp freed).1.abs = (s.abs.insert ins lo cp freed).1 :=
    congrArg Prod.fst (insertItem_abs hs ins lo cp freed)
  rw [← ItemCache.items_abs, h]
  unfold AbsCache.insert
  rw [ItemCache.items_abs]
  rcases hz : getAt ins.key (itemsOf s.items) with _ | z
  · dsimp only
    rw [AbsCache.getAt_link]
    rfl
  · have hzk : z.key = ins.key := getAt_key hz
    dsimp only [insertAtKey]
    by_cases hc : (cp || (!z.deletion && !lo)) = true
    · simp only [if_pos hc]
      split_ifs with hk
      · rw [hk]; exact hz
      · rfl
    · have hkey : (if freed z.key then { ins with persistent := true } else ins).key = ins.key := by
        split <;> rfl
      simp only [if_neg hc]
      rw [AbsCache.getAt_link, hkey]
      by_cases hk : k = ins.key
      · rw [if_pos hk, if_pos hk]
      · rw [if_neg hk, if_neg hk, AbsCache.getAt_unlink_of_ne (hzk ▸ hk)]; rfl

/-- `insert_item` of an item at a key holding nothing or a deletion item
links it there, and does not fail; elsewhere nothing changes. When the
flag read from a replaced deletion item is set, the new item is persistent
already. -/
theorem insertItem_getAt (hs : ItemsSorted s.items) (ins : CachedItem) (freed : Nat → Bool)
    (hdel : ∀ z, getAt ins.key (itemsOf s.items) = some z →
      z.deletion = true ∧ (freed z.key = true → ins.persistent = true)) :
    (insertItem s ins false false freed).2 = 0 ∧
      (insertItem s ins false false freed).1.ranges.toList = s.ranges.toList ∧
      ∀ k, getAt k (itemsOf (insertItem s ins false false freed).1.items) =
        if k = ins.key then some ins.data else getAt k (itemsOf s.items) := by
  have h := insertItem_abs hs ins false false freed
  have hr : (insertItem s ins false false freed).1.ranges.toList = s.ranges.toList := by
    have := congrArg (fun q => q.1.ranges) h
    simpa only [AbsCache.ranges_insert] using this
  simp only [AbsCache.insert, ItemCache.items_abs] at h
  rcases hz : getAt ins.key (itemsOf s.items) with _ | z
  · rw [hz, Prod.mk.injEq] at h
    refine ⟨h.2, hr, fun k => ?_⟩
    rw [← ItemCache.items_abs, h.1, AbsCache.getAt_link]
    rfl
  · obtain ⟨hzd, hzp⟩ := hdel z hz
    have hins : (if freed z.key = true then { ins with persistent := true } else ins) = ins := by
      split_ifs with hp
      · rw [← hzp hp]
      · rfl
    have hzk : z.key = ins.key := getAt_key hz
    rw [hz] at h
    simp only [hzd, Bool.false_or, Bool.not_true, Bool.false_and, Bool.false_eq_true, if_false, hins,
      Prod.mk.injEq] at h
    refine ⟨h.2, hr, fun k => ?_⟩
    rw [← ItemCache.items_abs, h.1, AbsCache.getAt_link]
    split_ifs with hk
    · rfl
    · exact AbsCache.getAt_unlink_of_ne (hzk ▸ hk)

/-- What `delete_item` leaves: nothing changes off the item's key, and at
the key there is at most a persistent item, when the item was persistent. -/
theorem deleteItem_getAt (hs : ItemsSorted s.items) (hp : PointsTo s.items ptr x) :
    (deleteItem s ptr).ranges.toList = s.ranges.toList ∧
      (∀ k, k ≠ x.key → getAt k (itemsOf (deleteItem s ptr).items) = getAt k (itemsOf s.items)) ∧
      ∀ z, getAt x.key (itemsOf (deleteItem s ptr).items) = some z → z.persistent = true ∧ x.persistent = true := by
  have hx := hp.getAt hs
  have hu := unlinkItem_abs hp hs
  have hc := clearItemDirty_abs hp hs
  have hpc := clearItemDirty_pointsTo hp
  have hsc := clearItemDirty_sorted hp hs
  obtain ⟨p, t⟩ := ptr
  obtain ⟨l, r, rfl, hplug⟩ := hp
  simp only [deleteItem]
  split_ifs with hpers
  · unfold eraseItem
    refine ⟨?_, fun k hk => ?_, fun z hz => ?_⟩
    · rw [← ItemCache.ranges_abs, hu, AbsCache.ranges_unlink, ItemCache.ranges_abs]
    · rw [← ItemCache.items_abs, hu, AbsCache.getAt_unlink_of_ne hk, ItemCache.items_abs]
    · rw [← ItemCache.items_abs, hu, AbsCache.getAt_unlink_self] at hz
      cases hz
  · set c := clearItemDirty s (p, .node l x r)
    set f : CachedItem → CachedItem := fun it => { it with val := none, valLen := 0, deletion := true }
    have hd := setItem_abs hpc hsc f fun _ => rfl
    have hsd : ItemsSorted (setItem c.1 c.2 f).1.items := by
      unfold ItemsSorted
      rw [← ItemCache.items_abs, hd]
      exact AbsCache.sorted_set (a := c.1.abs) hsc _ fun _ => rfl
    have hm := markItemDirty_abs (setItem_pointsTo hpc f) hsd
    have hrest : ∀ k, k ≠ x.key → getAt k (itemsOf (markItemDirty (setItem c.1 c.2 f).1 (setItem c.1 c.2 f).2).items) =
        getAt k (itemsOf s.items) := fun k hk =>
      calc _ = getAt k (setItem c.1 c.2 f).1.abs.items := by
            rw [← ItemCache.items_abs, hm]; exact AbsCache.getAt_markDirty_of_ne hk
        _ = getAt k c.1.abs.items := by rw [hd]; exact AbsCache.getAt_set_of_ne (fun _ => rfl) hk
        _ = getAt k (itemsOf s.items) := by rw [hc]; exact AbsCache.getAt_clearDirty_of_ne hk
    have hat : (getAt x.key (itemsOf (markItemDirty (setItem c.1 c.2 f).1 (setItem c.1 c.2 f).2).items)).map
        CachedItem.persistent = some x.persistent :=
      calc _ = (getAt x.key (setItem c.1 c.2 f).1.abs.items).map CachedItem.persistent := by
            rw [← ItemCache.items_abs, hm]; exact AbsCache.persistent_markDirty x.key
        _ = (getAt x.key c.1.abs.items).map CachedItem.persistent := by
            rw [hd]; exact persistent_getAt_setAt (f := f) (fun _ => rfl) (fun _ => rfl) _ _ _
        _ = (getAt x.key (itemsOf s.items)).map CachedItem.persistent := by
            rw [hc]; exact AbsCache.persistent_clearDirty x.key
        _ = some x.persistent := by rw [hx]; rfl
    have hxp : x.persistent = true := by simpa using hpers
    refine ⟨?_, hrest, fun z hz => ?_⟩
    · rw [← ItemCache.ranges_abs, hm, AbsCache.ranges_markDirty, hd, AbsCache.ranges_set, hc,
        AbsCache.ranges_clearDirty, ItemCache.ranges_abs]
    · rw [hz, Option.map_some', Option.some.injEq] at hat
      exact ⟨hat.trans hxp, hxp⟩

/-- `delete_item` at the node the search for a key ends in. -/
theorem deleteItem_path_getAt (hs : ItemsSorted s.items) (key : Nat) :
    (deleteItem s (itemPath s.items key)).ranges.toList = s.ranges.toList ∧
      (∀ k, k ≠ key → getAt k (itemsOf (deleteItem s (itemPath s.items key)).items) = getAt k (itemsOf s.items)) ∧
      ∀ z, getAt key (itemsOf (deleteItem s (itemPath s.items key)).items) = some z →
        z.persistent = true ∧ ∃ y, getAt key (itemsOf s.items) = some y ∧ y.persistent = true := by
  rcases h : itemPath s.items key with ⟨p, _ | ⟨l, x, r⟩⟩
  · refine ⟨rfl, fun _ _ => rfl, fun z hz => ?_⟩
    rw [show deleteItem s (p, .nil) = s from rfl, itemPath_nil hs h] at hz
    cases hz
  · obtain ⟨hplug, rfl⟩ := itemPath_node h
    obtain ⟨hr, hne, hat⟩ := deleteItem_getAt hs (⟨l, r, rfl, hplug⟩ : PointsTo s.items (p, .node l x r) x)
    refine ⟨hr, hne, fun z hz => ?_⟩
    obtain ⟨h1, h2⟩ := hat z hz
    exact ⟨h1, x.data, hs.getAt hplug, h2⟩

end Tree

end ScoutfsItemCache
