import ScoutfsItemCache.Api

/-! # The shrinker

`item_lru_shrink` with `shrink_boundary` and `shrink_around`. The shrinker
takes clean items from the head of the LRU. An item outside every cached
range is erased on its own. Around an item inside a range it erases a run
of clean neighbours and shrinks, splits or erases the range so that no
erased key stays covered. A split's new range is built in the memory of
the item at the run's end, which is unlinked for it.

The scan loop ends when `nr_to_scan` is used up, the LRU is empty, or the
first item it moved to the tail comes round again; the model bounds it by
`fuel` iterations as well.
-/

namespace ScoutfsItemCache

/-- `BOUNDARY_MIN`: the walk may stop at a usable boundary after this many items. -/
def BOUNDARY_MIN : Nat := 32

/-- `BOUNDARY_MAX`: the walk never looks at more items. -/
def BOUNDARY_MAX : Nat := 300

/-- `INT_MAX`. -/
def INT_MAX : Nat := 2 ^ 31 - 1

/-- The loop of `shrink_boundary` at iteration `i` with `n` iterations
left, from `item`, with the boundary found so far and its neighbour
(`*next_ret`). `right` walks towards `end` through `rb_next`, otherwise
towards it through `rb_prev`. -/
def shrinkBoundaryLoop (t : Tree CachedItem) («end» : Nat) (right : Bool) :
    Nat → Nat → CachedItem → Option CachedItem → Option CachedItem →
      Option CachedItem × Option CachedItem
  | 0, _, _, found, nextRet => (found, nextRet)
  | n + 1, i, item, found, nextRet =>
    match (if right then rbNextItem t item.key else rbPrevItem t item.key) with
    | none => (some item, none)
    | some next =>
      if (if right then 0 < scoutfsKeyCompare next.key «end»
          else scoutfsKeyCompare next.key «end» < 0) then (some item, none)
      else
        let usable := if right then scoutfsKeyCompare (scoutfsKeyInc item.key) next.key ≤ 0
          else 0 ≤ scoutfsKeyCompare (scoutfsKeyDec item.key) next.key
        let found := if usable then some item else found
        let nextRet := if usable then some next else nextRet
        if usable && decide (BOUNDARY_MIN ≤ i) then (found, nextRet)
        else if itemIsDirty next then (found, nextRet)
        else shrinkBoundaryLoop t «end» right n (i + 1) next found nextRet

/-- `shrink_boundary`: the last item of the run to erase on one side of
`item`, and the remaining neighbour beyond it inside the range, if any. -/
def shrinkBoundary (t : Tree CachedItem) (item : CachedItem) («end» : Nat) (right : Bool) :
    Option CachedItem × Option CachedItem :=
  shrinkBoundaryLoop t «end» right BOUNDARY_MAX 0 item none none

/-- The edits `shrink_around` makes in place to the range around a run
from `first` to `last`: its end moves below the run when an item remains
before it (`prev`), and otherwise its start moves above the run when an
item remains after it (`next`). -/
def shrinkRange (rng : CachedRange) (first last : CachedItem) (prev next : Option CachedItem) :
    CachedRange :=
  let rng := if prev.isSome then { rng with «end» := scoutfsKeyDec first.key } else rng
  if next.isSome && prev.isNone then { rng with start := scoutfsKeyInc last.key } else rng

/-- `shrink_around` for the range at the focus of the path `rp` and an item
inside it: the state and the number of items freed. -/
def shrinkAround (s : ItemCache) (rp : List (Frame CachedRange)) (rl : Tree CachedRange)
    (rng : CachedRange) (rr : Tree CachedRange) (item : CachedItem) : ItemCache × Nat :=
  let (first, prev) := shrinkBoundary s.items item rng.start false
  let (last, next) := shrinkBoundary s.items item rng.end true
  match first, last with
  | some first, some last =>
    if next.isSome && prev.isSome && first.key = last.key then (s, 0)
    else
      let rng' := shrinkRange rng first last prev next
      let ranges := plug rp (.node rl rng' rr)
      if next.isSome && prev.isSome then
        let newLast := rbPrevItem s.items last.key
        let s := unlinkItem s (itemPath s.items last.key)
        let s := { s with ranges := insertRange ranges ⟨scoutfsKeyInc last.key, rng.end⟩ }
        let r := eraseWalk (fun _ => true) (fun it => newLast.map CachedItem.key == some it.key) s
          (some first) 0
        (r.1, r.2 + 1)
      else
        let s := { s with
          ranges := if next.isNone && prev.isNone then rbErase rp (.node rl rng' rr) else ranges }
        eraseWalk (fun _ => true) (fun it => it.key = last.key) s (some first) 0
  | _, _ => (s, 0)

/-- The scan loop of `item_lru_shrink`, at most `fuel` iterations, with
`nr` items still to free and the first item moved to the LRU tail. The
head of the LRU is always a cached item; the empty branch only makes the
function total. -/
def lruShrinkLoop : Nat → ItemCache → Nat → Option Nat → ItemCache
  | 0, s, _, _ => s
  | fuel + 1, s, nr, firstMoved =>
    if nr = 0 then s
    else
      match s.lruList with
      | [] => s
      | k :: _ =>
        match itemPath s.items k with
        | (p, .node l item r) =>
          let s := if itemIsDirty item then { s with bug := true } else s
          match rangePath s.ranges item.key with
          | (_, .nil) => lruShrinkLoop fuel (eraseItem s (p, .node l item r)) (nr - 1) firstMoved
          | (rp, .node rl rng rr) =>
            let a := shrinkAround s rp rl rng rr item
            if a.2 = 0 then
              if firstMoved = some item.key then a.1
              else
                lruShrinkLoop fuel
                  { a.1 with lruList := a.1.lruList.erase item.key ++ [item.key] } nr
                  (firstMoved <|> some item.key)
            else lruShrinkLoop fuel a.1 (nr - min nr a.2) firstMoved
        | (_, .nil) => s

/-- Erasing the leftmost range shrinks the range tree. -/
theorem rbErase_leftmost_size_lt {l r a b : Tree CachedRange} {x y : CachedRange} {q : List (Frame CachedRange)}
    (h : leftmostPath [] (.node l x r) = (q, .node a y b)) :
    (rbErase q (.node a y b)).size < (Tree.node l x r).size := by
  have h1 := rbErase_size q a y b
  obtain ⟨q', s, sr, h2, h3, -⟩ := leftmostPath_spec [] l x r
  rw [h] at h2
  cases h2
  rw [h3] at h1
  simp only [plug_nil] at h1
  omega

/-- The purge loop of `item_lru_shrink`: erase `rb_first` of the range
tree until it is empty. -/
def eraseFirstRanges (t : Tree CachedRange) : Tree CachedRange :=
  match t with
  | .nil => .nil
  | .node l x r =>
    match _h : leftmostPath [] (.node l x r) with
    | (q, .node a y b) => eraseFirstRanges (rbErase q (.node a y b))
    | (_, .nil) => .nil
termination_by t.size
decreasing_by exact rbErase_leftmost_size_lt _h

/-- The purge empties the range tree. -/
theorem eraseFirstRanges_eq_nil (t : Tree CachedRange) : eraseFirstRanges t = .nil := by
  induction t using eraseFirstRanges.induct with
  | case1 => rw [eraseFirstRanges]
  | case2 l x r q a y b h ih => rw [eraseFirstRanges]; split <;> simp_all
  | case3 l x r q h => rw [eraseFirstRanges]; split <;> simp_all

/-- `item_lru_shrink`: scan up to `nr_to_scan` items, purge the ranges of
an empty cache, and return the LRU length clamped to `INT_MAX`. -/
def itemLruShrink (fuel : Nat) (s : ItemCache) (nrToScan : Nat) : ItemCache × Nat :=
  if nrToScan = 0 then (s, min s.lruNr INT_MAX)
  else
    let s := lruShrinkLoop fuel s nrToScan none
    let s := match s.items with
      | .nil => { s with ranges := eraseFirstRanges s.ranges }
      | .node _ _ _ => s
    (s, min s.lruNr INT_MAX)

end ScoutfsItemCache
