import ScoutfsItemCache.Invariant

/-! # The tree functions keep the invariant

`ItemCache.Inv` is the invariant of `Invariant` read through
`ItemCache.abs`. Each tree primitive keeps it when its pointer leads to a
node of the tree (`PointsTo`), by the refinement lemmas of `Refine`; at
the node `walk_items` finds for a key the primitives keep it whether the
key is cached or not. The loops built from the primitives (the erasing
walks, the flush loop, population and restore) keep it by induction.
-/

namespace ScoutfsItemCache

/-- The invariant of a cache: that of its reading as sequences. -/
def ItemCache.Inv (maxValSize : Nat) (s : ItemCache) : Prop := s.abs.Inv maxValSize

section Pointers

variable {t : Tree CachedItem} {ptr : ItemPtr} {x : CachedItem}

theorem PointsTo.getAt (hp : PointsTo t ptr x) (hs : ItemsSorted t) : getAt x.key (itemsOf t) = some x.data := by
  obtain ⟨l, r, -, hplug⟩ := hp
  exact hs.getAt hplug

theorem itemPath_pointsTo {k : Nat} {p : List (Frame CachedItem)} {l r : Tree CachedItem}
    (h : itemPath t k = (p, .node l x r)) : PointsTo t (p, .node l x r) x :=
  ⟨l, r, rfl, (itemPath_node h).1⟩

/-- An item of a sorted tree is the one at its key. -/
theorem ItemsSorted.getAt_of_mem (hs : ItemsSorted t) (hx : x ∈ t.toList) :
    ScoutfsItemCache.getAt x.key (itemsOf t) = some x.data :=
  Sorted.getAt_of_mem hs (List.mem_map_of_mem _ hx)

/-- The nodes `first_dirty` finds are nodes of the tree. -/
theorem firstDirty_plug {p q : List (Frame CachedItem)} {u : Tree CachedItem}
    (h : firstDirty p t = some (q, u)) : plug q u = plug p t := by
  induction t generalizing p with
  | nil => cases h
  | node l it r ihl ihr =>
    simp only [firstDirty] at h
    split_ifs at h
    · exact ihl h
    · cases h; rfl
    · exact ihr h

end Pointers

theorem itemReferenced_abs (s : ItemCache) (it : CachedItem) :
    (itemReferenced s it).abs = s.abs.referenced it := by
  unfold itemReferenced AbsCache.referenced; split_ifs <;> rfl

/-! ## The primitives -/

namespace ItemCache.Inv

variable {M : Nat} {s : ItemCache} {ptr : ItemPtr} {x : CachedItem}

theorem sorted (hI : s.Inv M) : ItemsSorted s.items := AbsCache.Inv.sorted hI

theorem valLen_le (hI : s.Inv M) (hp : PointsTo s.items ptr x) : x.valLen ≤ M :=
  AbsCache.Inv.valLen hI x.data (getAt_mem (hp.getAt hI.sorted))

theorem setRanges (hI : s.Inv M) {t : Tree CachedRange} (h : RangesOk t.toList) :
    ({ s with ranges := t } : ItemCache).Inv M :=
  AbsCache.Inv.setRanges hI h

theorem markItemDirty (hI : s.Inv M) (hp : PointsTo s.items ptr x) : (markItemDirty s ptr).Inv M := by
  unfold ItemCache.Inv
  rw [markItemDirty_abs hp hI.sorted]
  exact AbsCache.Inv.markDirty hI (hp.getAt hI.sorted) rfl

theorem clearItemDirty (hI : s.Inv M) (hp : PointsTo s.items ptr x) : (clearItemDirty s ptr).1.Inv M := by
  unfold ItemCache.Inv
  rw [clearItemDirty_abs hp hI.sorted]
  exact AbsCache.Inv.clearDirty hI (hp.getAt hI.sorted) rfl

/-- Plain field writes to a clean item that keep its key and dirty bit. -/
theorem setItem (hI : s.Inv M) (hp : PointsTo s.items ptr x) (hd : itemIsDirty x = false)
    {f : CachedItem → CachedItem} (hfk : ∀ z, (f z).key = z.key)
    (hfd : ∀ z, itemIsDirty (f z) = itemIsDirty z) (hf : ∀ z, (f z).data = f z.data)
    (hv : (f x).valLen ≤ M) : (setItem s ptr f).1.Inv M := by
  unfold ItemCache.Inv
  rw [setItem_abs hp hI.sorted f hf]
  exact AbsCache.Inv.set hI (hp.getAt hI.sorted) hd hfk hfd (by rw [← hf]; exact hv)

theorem unlinkItem (hI : s.Inv M) (hp : PointsTo s.items ptr x) : (unlinkItem s ptr).Inv M := by
  unfold ItemCache.Inv
  rw [unlinkItem_abs hp hI.sorted]
  exact AbsCache.Inv.unlink hI (hp.getAt hI.sorted) (CachedItem.data_data x)

theorem deleteItem (hI : s.Inv M) (hp : PointsTo s.items ptr x) : (deleteItem s ptr).Inv M := by
  have hc := hI.clearItemDirty hp
  have hpc := clearItemDirty_pointsTo hp
  obtain ⟨p, t⟩ := ptr
  obtain ⟨l, r, rfl, hplug⟩ := hp
  simp only [ScoutfsItemCache.deleteItem]
  split_ifs
  · exact hI.unlinkItem ⟨l, r, rfl, hplug⟩
  · have hd := hc.setItem hpc rfl (f := fun it => { it with val := none, valLen := 0, deletion := true })
      (fun _ => rfl) (fun _ => rfl) (fun _ => rfl) (Nat.zero_le M)
    exact hd.markItemDirty (setItem_pointsTo hpc _)

/-- `insert_item` of a clean item. -/
theorem insertItem (hI : s.Inv M) (ins : CachedItem) (hd : itemIsDirty ins = false) (hv : ins.valLen ≤ M)
    (lo cp : Bool) (freed : Nat → Bool) : (insertItem s ins lo cp freed).1.Inv M := by
  unfold ItemCache.Inv
  rw [show (ScoutfsItemCache.insertItem s ins lo cp freed).1.abs = (s.abs.insert ins lo cp freed).1 from
    congrArg Prod.fst (insertItem_abs hI.sorted ins lo cp freed)]
  exact AbsCache.Inv.insert hI hd hv lo cp freed

theorem itemReferenced (hI : s.Inv M) {it : CachedItem} (hmem : it ∈ s.items.toList) :
    (itemReferenced s it).Inv M := by
  unfold ItemCache.Inv
  rw [itemReferenced_abs]
  exact AbsCache.Inv.referenced hI (hI.sorted.getAt_of_mem hmem) (CachedItem.data_data it)

/-! ### At the node found for a key -/

theorem markItemDirty_path (hI : s.Inv M) (k : Nat) :
    (ScoutfsItemCache.markItemDirty s (itemPath s.items k)).Inv M := by
  rcases h : itemPath s.items k with ⟨p, _ | ⟨l, x, r⟩⟩
  · exact hI
  · exact hI.markItemDirty (itemPath_pointsTo h)

theorem unlinkItem_path (hI : s.Inv M) (k : Nat) :
    (ScoutfsItemCache.unlinkItem s (itemPath s.items k)).Inv M := by
  rcases h : itemPath s.items k with ⟨p, _ | ⟨l, x, r⟩⟩
  · exact hI
  · exact hI.unlinkItem (itemPath_pointsTo h)

theorem deleteItem_path (hI : s.Inv M) (k : Nat) :
    (ScoutfsItemCache.deleteItem s (itemPath s.items k)).Inv M := by
  rcases h : itemPath s.items k with ⟨p, _ | ⟨l, x, r⟩⟩
  · exact hI
  · exact hI.deleteItem (itemPath_pointsTo h)

/-! ## The loops -/

theorem eraseWalk (hI : s.Inv M) (go isLast : CachedItem → Bool) (item : Option CachedItem) (count : Nat) :
    (eraseWalk go isLast s item count).1.Inv M :=
  eraseWalk_induction (fun s => s.Inv M) (fun _ _ _ _ _ hI hplug => hI.unlinkItem ⟨_, _, rfl, hplug⟩) item hI

/-- The flush loop from a pointer into the tree. -/
theorem dirtySegLoop (fuel : Nat) :
    ∀ {s : ItemCache} {ptr : Option ItemPtr} (seg : List SegItem), s.Inv M →
      (∀ q u, ptr = some (q, u) → plug q u = s.items) → (dirtySegLoop fuel s ptr seg).1.Inv M := by
  induction fuel with
  | zero => intro s ptr seg hI _; exact hI
  | succ n ih =>
    intro s ptr seg hI hptr
    rcases ptr with _ | ⟨p, _ | ⟨l, it, r⟩⟩
    · exact hI
    · exact hI
    have hp : PointsTo s.items (p, .node l it r) it := ⟨l, r, rfl, hptr _ _ rfl⟩
    have hpc := clearItemDirty_pointsTo hp
    have hd := (hI.clearItemDirty hp).setItem hpc rfl (f := fun it => { it with persistent := true })
      (fun _ => rfl) (fun _ => rfl) (fun _ => rfl) (show it.valLen ≤ M from hI.valLen_le hp)
    have hpd := setItem_pointsTo hpc fun it => { it with persistent := true }
    simp only [ScoutfsItemCache.dirtySegLoop]
    refine ih _ (by split <;> first | exact hd.unlinkItem hpd | exact hd) fun q u h => ?_
    obtain ⟨k, -, hk⟩ := Option.map_eq_some'.1 h
    exact plug_of_itemPath hk

theorem scoutfsItemDirtySeg (hI : s.Inv M) : (scoutfsItemDirtySeg s).1.Inv M :=
  hI.dirtySegLoop _ [] fun _ _ h => firstDirty_plug h

theorem insertBatchItems (hI : s.Inv M) (refused list : List CachedItem)
    (hl : ∀ x ∈ list, itemIsDirty x = false ∧ x.valLen ≤ M) : (insertBatchItems s refused list).1.Inv M := by
  induction list generalizing s refused with
  | nil => exact hI
  | cons x rest ih =>
    exact ih (hI.insertItem { x with persistent := true } (hl x (.head _)).1 (hl x (.head _)).2
      false true _) _ fun y hy => hl y (.tail _ hy)

theorem restoreItem (hI : s.Inv M) (freed : Nat → Bool) (x : CachedItem) (hv : x.valLen ≤ M) :
    (restoreItem freed s x).Inv M := by
  unfold ScoutfsItemCache.restoreItem
  dsimp only
  have h1 : ((findItem s.items x.key).elim s (ScoutfsItemCache.eraseItem s)).Inv M := by
    rcases h : findItem s.items x.key with _ | e
    · exact hI
    · obtain ⟨y, hp, -, -⟩ := findItem_some h
      exact hI.unlinkItem hp
  have h2 := h1.insertItem { x with dirty := { x.dirty with item := false } } rfl hv false false freed
  split
  · exact h2.markItemDirty_path _
  · exact h2

theorem restoreItems (hI : s.Inv M) (freed : Nat → Bool) (list : List CachedItem)
    (hl : ∀ x ∈ list, x.valLen ≤ M) : (restoreItems freed s list).Inv M := by
  induction list generalizing s with
  | nil => exact hI
  | cons x rest ih => exact ih (hI.restoreItem freed x (hl x (.head _))) fun y hy => hl y (.tail _ hy)

end ItemCache.Inv

end ScoutfsItemCache
