import Mathlib.Data.Int.Notation
import SccShm.FreeList

/-!
# Addresses

The address computations of `sccmalloc.c` are written with a `PtrArith`: how the
compiler rounds `int` products, pointers and pointer differences. On the cores
all three are 32 bits wide (`PtrArith.word32`); `PtrArith.exact` is what the
formulas mean.
-/

namespace SccShm

/-- `LOCAL_LUT`. -/
def localLut : ℕ := 0x14

/-- `MAX_PAGES`. -/
def maxPages : ℕ := 172

/-- Values of an `unsigned char` stay below this. -/
def charSize : ℕ := 256

/-- How address computations are evaluated. -/
structure PtrArith : Type where
  /-- an `int` product -/
  int : ℤ → ℤ
  /-- a pointer -/
  addr : ℤ → ℤ
  /-- the difference of two pointers -/
  diff : ℤ → ℤ

namespace PtrArith

/-- On integers of any size. -/
def exact : PtrArith := ⟨id, id, id⟩

/-- On the 32-bit cores. -/
def word32 : PtrArith where
  int x := x.bmod wordSize
  addr x := x % wordSize
  diff x := x.bmod wordSize

theorem word32_int (x : ℤ) : word32.int x = x.bmod wordSize := rfl

theorem word32_addr (x : ℤ) : word32.addr x = x % wordSize := rfl

theorem word32_diff (x : ℤ) : word32.diff x = x.bmod wordSize := rfl

/-- A product wrapped to 32 bits leads to the same address. -/
theorem word32_addr_add_int (x y : ℤ) :
    word32.addr (x + word32.int y) = (x + y) % wordSize := by
  rw [word32_addr, word32_int, Int.add_emod, Int.bmod_emod, ← Int.add_emod]

end PtrArith

/-- Where `SCCInit` has mapped the two windows, and how many pages each has. -/
structure Placement : Type where
  /-- `local` -/
  loc : ℕ
  /-- `remote` -/
  remote : ℕ
  /-- `local_pages` -/
  localPages : ℕ
  /-- `remote_pages` -/
  remotePages : ℕ

/-- The placement comes from `SCCInit(local_pages)`, with `remap` on. -/
structure Placement.Remapped (P : Placement) : Prop where
  pos : 0 < P.localPages
  lt : P.localPages < maxPages
  remote : P.remotePages = maxPages - P.localPages

namespace Placement

variable (A : PtrArith) (P : Placement)

/-- `REMOTE_LUT`. -/
def remoteLut : ℕ := localLut + P.localPages

/-- `local <= p && p <= local + local_pages * PAGE_SIZE`. -/
def hitsLocal (p : ℤ) : Prop :=
  P.loc ≤ p ∧ p ≤ A.addr (P.loc + A.int (P.localPages * pageSize))

/-- `remote <= p && p <= remote + remote_pages * PAGE_SIZE`. -/
def hitsRemote (p : ℤ) : Prop :=
  P.remote ≤ p ∧ p ≤ A.addr (P.remote + A.int (P.remotePages * pageSize))

instance (p : ℤ) : Decidable (P.hitsLocal A p) := inferInstanceAs (Decidable (_ ∧ _))

instance (p : ℤ) : Decidable (P.hitsRemote A p) := inferInstanceAs (Decidable (_ ∧ _))

/-- The address of page `i` of the remote window. -/
def page (i : ℕ) : ℤ := P.remote + i * pageSize

/-- `(p - remote) / PAGE_SIZE`. -/
def pageIndex (p : ℤ) : ℤ := (A.diff (p - P.remote)).tdiv pageSize

end Placement

/-- `lut_addr_t`, for addresses of this node. -/
structure LutAddr : Type where
  lut : ℕ
  offset : ℕ

/-- `SCCAddr2Ptr(addr)`; an invalid address is reported and gives `NULL`. -/
def sccAddr2Ptr (A : PtrArith) (P : Placement) (a : LutAddr) : ℤ :=
  if localLut ≤ a.lut ∧ a.lut < localLut + P.localPages then
    A.addr (A.int ((a.lut - localLut) * pageSize) + a.offset + P.loc)
  else if P.remoteLut ≤ a.lut ∧ a.lut < P.remoteLut + P.remotePages then
    A.addr (A.int ((a.lut - P.remoteLut) * pageSize) + a.offset + P.remote)
  else
    0

end SccShm
