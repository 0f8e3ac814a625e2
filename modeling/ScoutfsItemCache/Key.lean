import Mathlib

/-! # Keys, locks and machine words of the item cache

The primitives `item.c` takes from the rest of scoutfs: the key order, the
overlap compare of two key intervals, key increment and decrement, the
cluster lock record with its coverage check, the errno values the item API
returns, and the 32-bit conversions the dirty accounting goes through.

Keys are modelled as natural numbers: `struct scoutfs_key` is a fixed-size
record compared field by field, i.e. as one large unsigned number, and
`scoutfs_key_inc`/`scoutfs_key_dec` add or subtract one with carry. The
cache never increments the largest key nor decrements the smallest one
(every `inc` is applied to a key strictly below another key, every `dec` to
a key strictly above another), so the unbounded order loses nothing.
-/

namespace ScoutfsItemCache

/-- An item value: the bytes of a `struct kvec`. -/
abbrev Bytes := List UInt8

/-- Modelled from the spec: `scoutfs_key_compare` (key.h is not under src/),
the sign of the comparison of two keys. -/
def scoutfsKeyCompare (a b : Nat) : Int :=
  if a < b then -1 else if b < a then 1 else 0

/-- Modelled from the spec: `scoutfs_key_compare_ranges`, comparing the
interval `[aStart, aEnd]` with `[bStart, bEnd]`: negative when it lies
entirely below, positive when entirely above, zero when they overlap. -/
def scoutfsKeyCompareRanges (aStart aEnd bStart bEnd : Nat) : Int :=
  if aEnd < bStart then -1 else if bEnd < aStart then 1 else 0

/-- Modelled from the spec: `scoutfs_key_inc`. -/
def scoutfsKeyInc (k : Nat) : Nat := k + 1

/-- Modelled from the spec: `scoutfs_key_dec`. -/
def scoutfsKeyDec (k : Nat) : Nat := k - 1

section Compare

variable {a b c d : Nat}

@[simp] theorem scoutfsKeyCompare_neg : scoutfsKeyCompare a b < 0 ↔ a < b := by
  unfold scoutfsKeyCompare; split_ifs <;> simp <;> omega

@[simp] theorem scoutfsKeyCompare_pos : 0 < scoutfsKeyCompare a b ↔ b < a := by
  unfold scoutfsKeyCompare; split_ifs <;> simp <;> omega

@[simp] theorem scoutfsKeyCompare_nonpos : scoutfsKeyCompare a b ≤ 0 ↔ a ≤ b := by
  unfold scoutfsKeyCompare; split_ifs <;> simp <;> omega

@[simp] theorem scoutfsKeyCompare_nonneg : 0 ≤ scoutfsKeyCompare a b ↔ b ≤ a := by
  unfold scoutfsKeyCompare; split_ifs <;> simp <;> omega

@[simp] theorem scoutfsKeyCompareRanges_neg :
    scoutfsKeyCompareRanges a b c d < 0 ↔ b < c := by
  unfold scoutfsKeyCompareRanges; split_ifs <;> simp <;> omega

@[simp] theorem scoutfsKeyCompareRanges_pos :
    0 < scoutfsKeyCompareRanges a b c d ↔ ¬ b < c ∧ d < a := by
  unfold scoutfsKeyCompareRanges; split_ifs <;> simp <;> omega

@[simp] theorem scoutfsKeyCompareRanges_eq_zero :
    scoutfsKeyCompareRanges a b c d = 0 ↔ ¬ b < c ∧ ¬ d < a := by
  unfold scoutfsKeyCompareRanges; split_ifs <;> simp <;> omega

@[simp] theorem scoutfsKeyInc_eq : scoutfsKeyInc a = a + 1 := rfl

@[simp] theorem scoutfsKeyDec_eq : scoutfsKeyDec a = a - 1 := rfl

end Compare

/-! ## Error codes -/

/-- The errno values of the item API (positive, returned negated). -/
def ENOENT : Int := 2
def ENOMEM : Int := 12
def EEXIST : Int := 17
def EINVAL : Int := 22
def ENODATA : Int := 61

/-! ## Cluster locks -/

/-- The lock modes `lock_coverage` distinguishes. -/
inductive ScoutfsLockMode where
  | read
  | write
  | writeOnly
deriving DecidableEq, Repr

/-- The fields of `struct scoutfs_lock` the item cache reads. -/
structure ScoutfsLock where
  mode : ScoutfsLockMode
  start : Nat
  «end» : Nat
deriving DecidableEq, Repr

/-- `lock_coverage`: the lock protects `key` for an operation of mode
`opMode`; a write lock also covers reads. -/
def lockCoverage (lock : ScoutfsLock) (key : Nat) (opMode : ScoutfsLockMode) : Bool :=
  (opMode == lock.mode || (opMode == .read && lock.mode == .write)) &&
    scoutfsKeyCompareRanges key key lock.start lock.end == 0

theorem lockCoverage_iff {lock : ScoutfsLock} {key : Nat} {opMode : ScoutfsLockMode} :
    lockCoverage lock key opMode = true ↔
      (opMode = lock.mode ∨ (opMode = .read ∧ lock.mode = .write)) ∧
        lock.start ≤ key ∧ key ≤ lock.end := by
  simp only [lockCoverage, Bool.and_eq_true, Bool.or_eq_true, beq_iff_eq,
    scoutfsKeyCompareRanges_eq_zero, not_lt]

/-! ## 32-bit arithmetic of the dirty accounting -/

/-- The value of a 32-bit pattern read as a signed `int` (two's complement,
as gcc converts `unsigned int` to `int`). -/
def toS32 (x : Nat) : Int :=
  if x % 2 ^ 32 < 2 ^ 31 then (x % 2 ^ 32 : Nat) else (x % 2 ^ 32 : Nat) - 2 ^ 32

/-- Negation of an `unsigned int`, which wraps modulo `2^32`. -/
def negU32 (x : Nat) : Nat := (2 ^ 32 - x % 2 ^ 32) % 2 ^ 32

/-- Subtraction of two `unsigned int`s, which wraps modulo `2^32`. -/
def subU32 (x y : Nat) : Nat := (x % 2 ^ 32 + 2 ^ 32 - y % 2 ^ 32) % 2 ^ 32

theorem toS32_of_lt {x : Nat} (h : x < 2 ^ 31) : toS32 x = x := by
  unfold toS32
  rw [Nat.mod_eq_of_lt (by omega), if_pos h]

theorem toS32_negU32 {x : Nat} (h : x < 2 ^ 31) : toS32 (negU32 x) = -(x : Int) := by
  unfold toS32 negU32
  rcases Nat.eq_zero_or_pos x with rfl | hx
  · simp
  · have h1 : x % 2 ^ 32 = x := Nat.mod_eq_of_lt (by omega)
    have h2 : (2 ^ 32 - x) % 2 ^ 32 = 2 ^ 32 - x := Nat.mod_eq_of_lt (by omega)
    rw [h1, h2, Nat.mod_eq_of_lt (by omega)]
    rw [if_neg (by omega)]
    omega

/-- A `long` stored into an `int`: its value modulo `2^32` read as a
signed `int`, as gcc converts it. -/
def longToInt (x : Int) : Int := toS32 (x % 2 ^ 32).toNat

theorem longToInt_of_lt {x : Int} (h0 : 0 ≤ x) (h : x < 2 ^ 31) : longToInt x = x := by
  unfold longToInt
  rw [Int.emod_eq_of_lt h0 (by omega), toS32_of_lt (by omega)]
  omega

theorem toS32_subU32 {x y : Nat} (hxy : x ≤ y) (hy : y < 2 ^ 31) :
    toS32 (subU32 x y) = (x : Int) - y := by
  unfold toS32 subU32
  rw [Nat.mod_eq_of_lt (show x < 2 ^ 32 by omega), Nat.mod_eq_of_lt (show y < 2 ^ 32 by omega)]
  rcases Nat.eq_or_lt_of_le hxy with rfl | hlt
  · simp
  · have h2 : (x + 2 ^ 32 - y) % 2 ^ 32 = x + 2 ^ 32 - y := Nat.mod_eq_of_lt (by omega)
    rw [h2, Nat.mod_eq_of_lt (by omega), if_neg (by omega)]
    omega

end ScoutfsItemCache
