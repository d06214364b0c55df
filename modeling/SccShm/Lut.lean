import Mathlib.Logic.Function.Basic
import SccShm.Address

/-!
# The page table: `SCCMallocLut` and `SCCFreeLut`

The allocator of remote pages in `sccmalloc.c`. Its table `lutState` has an entry
for every page; the first and the last entry of a run of pages carry the run's
state and length, the entries between them are not looked at.

An access outside of `lutState` is a fault.
-/

namespace SccShm

/-- `lut_state_t`. -/
structure LutState : Type where
  /-- the run is free -/
  free : Bool
  /-- its length in pages, an `unsigned char` -/
  size : ℕ
  deriving DecidableEq

/-- `lutState` and its length, `remote_pages`. -/
structure LutTable : Type where
  entry : ℕ → LutState
  pages : ℕ

namespace LutTable

/-- Read `lutState[i]`. -/
def load (t : LutTable) (i : ℤ) : Exec LutState :=
  if 0 ≤ i ∧ i < t.pages then .ok (t.entry i.toNat) else .error .fault

/-- The table with entry `i` replaced. -/
def set (t : LutTable) (i : ℕ) (e : LutState) : LutTable :=
  { t with entry := Function.update t.entry i e }

/-- `lutState[i] = e`. -/
def store (t : LutTable) (i : ℤ) (e : LutState) : Exec LutTable :=
  if 0 ≤ i ∧ i < t.pages then .ok (t.set i.toNat e) else .error .fault

variable {t : LutTable} {i j : ℕ} {e : LutState}

theorem load_natCast (t : LutTable) (i : ℕ) :
    t.load i = if i < t.pages then .ok (t.entry i) else .error .fault := by
  simp [load]

theorem store_natCast (t : LutTable) (i : ℕ) (e : LutState) :
    t.store i e = if i < t.pages then .ok (t.set i e) else .error .fault := by
  simp [store]

@[simp] theorem pages_set : (t.set i e).pages = t.pages := rfl

@[simp] theorem entry_set_self : (t.set i e).entry i = e := Function.update_self ..

theorem entry_set_of_ne (h : j ≠ i) : (t.set i e).entry j = t.entry j :=
  Function.update_of_ne h ..

theorem set_entry_self (t : LutTable) (i : ℕ) : t.set i (t.entry i) = t := by
  rw [set, Function.update_eq_self]

end LutTable

/-- The table `SCCInit` sets up in the memory it allocated: one free run. -/
def sccInitLut (pages : ℕ) (entry : ℕ → LutState) : Exec LutTable := do
  let t ← LutTable.store ⟨entry, pages⟩ 0 ⟨true, pages⟩
  let e ← t.load 0
  t.store (pages - 1) e

/-! ## `SCCMallocLut` -/

/-- The whole run at `curr` is taken. -/
def takeRun (t : LutTable) (curr size : ℕ) : Exec LutTable := do
  let c ← t.load curr
  let t ← t.store curr { c with free := false }
  let f ← t.load (curr + size - 1)
  t.store (curr + size - 1) { f with free := false }

/-- The first `size` pages of the run at `curr` are taken. -/
def splitRun (t : LutTable) (curr size : ℕ) : Exec LutTable := do
  let next : ℕ := curr + size
  let c ← t.load curr
  let t ← t.store next ⟨true, (c.size - size) % charSize⟩
  let n ← t.load next
  let t ← t.store (next + n.size - 1) n
  let t ← t.store curr ⟨false, size % charSize⟩
  let c ← t.load curr
  t.store (curr + c.size - 1) c

/-- One pass through the loop of `SCCMallocLut` at the run `curr`. -/
def mallocLutBody (lut size : ℕ) (t : LutTable) (curr : ℕ) : Exec (ℕ ⊕ (ℕ × LutTable)) := do
  let c ← t.load curr
  if c.free = true ∧ size ≤ c.size then
    let t ← if c.size = size then takeRun t curr size else splitRun t curr size
    .ok (.inr ((lut + curr) % charSize, t))
  else if curr + c.size < t.pages then
    .ok (.inl (curr + c.size))
  else
    .ok (.inr (0, t))

/-- `SCCMallocLut(size)`, where `lut` is `REMOTE_LUT`: the entry of the first
page, `0` for none, and the new table. -/
def sccMallocLut (lut fuel size : ℕ) (t : LutTable) : Exec (ℕ × LutTable) :=
  loop (mallocLutBody lut size t) fuel 0

/-! ## `SCCFreeLut` -/

/-- Let the run at `i` swallow a free run behind it. -/
def joinNext (t : LutTable) (i : ℤ) : Exec LutTable := do
  let c ← t.load i
  if i + c.size < t.pages then
    let n ← t.load (i + c.size)
    if n.free then t.store i { c with size := (c.size + n.size) % charSize } else .ok t
  else
    .ok t

/-- Let a free run before `i` swallow the run at `i`; the result is the run that is left. -/
def joinPrev (t : LutTable) (i : ℤ) : Exec (ℤ × LutTable) := do
  if 0 < i then
    let f ← t.load (i - 1)
    if f.free then
      let i := i - f.size
      let c ← t.load i
      let n ← t.load (i + c.size)
      let t ← t.store i { c with size := (c.size + n.size) % charSize }
      .ok (i, t)
    else
      .ok (i, t)
  else
    .ok (i, t)

/-- Mark the run at `i` as free. -/
def markFree (t : LutTable) (i : ℤ) : Exec LutTable := do
  let c ← t.load i
  let t ← t.store i { c with free := true }
  let c ← t.load i
  t.store (i + c.size - 1) c

/-- `SCCFreeLut(p)`. -/
def sccFreeLut (A : PtrArith) (P : Placement) (p : ℤ) (t : LutTable) : Exec LutTable := do
  let lut := P.pageIndex A p
  let t ← joinNext t lut
  let (lut, t) ← joinPrev t lut
  markFree t lut

end SccShm
