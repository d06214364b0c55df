import SccShm.Chain

/-!
# The LPEL allocator: `LPEL_shmalloc` and `LPEL_shfree`

The allocator of `LPEL_shmalloc.c`, translated statement by statement. The memory it
hands out is described by bookkeeping nodes outside of that memory, which come from
`malloc` and go back by `free`; they form a circular list. `LPEL_BLOCK *` is the name
of a node, `t_vcharp` an address; `malloc` never fails, and the name of the node it
yields is a parameter of the call.
-/

namespace SccShm

/-- `LPEL_BLOCK`. -/
structure LpelBlock : Type where
  /-- where the block begins -/
  space : ℕ
  /-- the size of the block if it is free, otherwise `0` -/
  freeSize : ℕ
  next : ℕ
  deriving DecidableEq

/-- What the allocator works on. -/
structure Lpel : Type where
  /-- the nodes that have been allocated and not freed -/
  store : Store ℕ LpelBlock
  /-- `LPEL_spacep->tail` -/
  tail : ℕ

/-- The size of the memory handed out. -/
def lpelSize : ℕ := 256 * 1024

/-- `LPEL_shmalloc_init`, for a window mapped at `base`: one node for all of it. -/
def lpelShmallocInit (node base : ℕ) : Lpel :=
  ⟨Store.put (fun _ => none) node ⟨base, lpelSize, node⟩, node⟩

/-! ## `LPEL_shmalloc` -/

/-- Split the block of node `b` behind its first `size` bytes, which are used up from
now on; the rest gets the new node `new`. -/
def cutBlock (new size b : ℕ) (st : Store ℕ LpelBlock) : Exec (Store ℕ LpelBlock) := do
  -- all fields of the new node are set before they are read
  let st := st.put new ⟨0, 0, 0⟩
  let c ← st.get b
  let st ← st.modify new fun x => { x with next := c.next }
  let st ← st.modify b fun x => { x with next := new }
  let st ← st.modify new fun x => { x with freeSize := c.freeSize - size }
  let st ← st.modify new fun x => { x with space := c.space + size }
  st.modify b fun x => { x with freeSize := 0 }

/-- One test of the loop of `LPEL_shmalloc` at `b1`: leave with `b1` if the next block
is large enough, or with `NULL` if that was the tail. -/
def shmallocBody (size : ℕ) (s : Lpel) (b1 : ℕ) : Exec (ℕ ⊕ Option ℕ) := do
  let c1 ← s.store.get b1
  let c2 ← s.store.get c1.next
  if c2.freeSize < size then
    if c1.next = s.tail then .ok (.inr none) else .ok (.inl c1.next)
  else
    .ok (.inr (some b1))

/-- Allocate from the block behind `b1`. -/
def takeNext (new size b1 : ℕ) (s : Lpel) : Exec (Option ℕ × Lpel) := do
  let c1 ← s.store.get b1
  let b2 := c1.next
  let c2 ← s.store.get b2
  if size < c2.freeSize then do
    let st ← cutBlock new size b2 s.store
    .ok (some c2.space, { s with store := st })
  else do
    let st ← s.store.modify b2 fun x => { x with freeSize := 0 }
    .ok (some c2.space, { s with store := st })

/-- `LPEL_shmalloc(size)`, with `new` the node that `malloc` yields if it is called:
the result, `none` for `NULL`, and the new state. -/
def lpelShmalloc (fuel new size : ℕ) (s : Lpel) : Exec (Option ℕ × Lpel) :=
  if size = 0 then
    .ok (none, s)
  else do
    let b1 := s.tail
    let c1 ← s.store.get b1
    if size ≤ c1.freeSize then do
      let st ← cutBlock new size b1 s.store
      .ok (some c1.space, ⟨st, new⟩)
    else do
      let found ← loop (shmallocBody size s) fuel b1
      match found with
      | none => .ok (none, s)
      | some b1 => takeNext new size b1 s

/-! ## `LPEL_shfree` -/

/-- One test of the loop of `LPEL_shfree` at `b1`. -/
def shfreeBody (ptr : ℕ) (s : Lpel) (b1 : ℕ) : Exec (ℕ ⊕ ℕ) := do
  let c1 ← s.store.get b1
  let c2 ← s.store.get c1.next
  if c2.space ≠ ptr ∧ c1.next ≠ s.tail then .ok (.inl c1.next) else .ok (.inr b1)

/-- Merge the free block `b2` with its neighbours `b1` and `b3`, as far as they are
free. -/
def mergeBlocks (b1 b2 b3 : ℕ) (s : Lpel) : Exec Lpel := do
  let c1 ← s.store.get b1
  let c2 ← s.store.get b2
  let c3 ← s.store.get b3
  let tail := fun b => if b3 = s.tail then b else s.tail
  if 0 < c1.freeSize ∧ b1 ≠ s.tail then
    if 0 < c3.freeSize ∨ b3 = s.tail then do
      let st ← s.store.modify b1 fun x => { x with next := c3.next }
      let st ← st.modify b1 fun x =>
        { x with freeSize := x.freeSize + (c3.freeSize + c2.freeSize) }
      let st ← st.free b3
      let st ← st.free b2
      .ok ⟨st, tail b1⟩
    else do
      let st ← s.store.modify b1 fun x => { x with freeSize := x.freeSize + c2.freeSize }
      let st ← st.modify b1 fun x => { x with next := b3 }
      let st ← st.free b2
      .ok ⟨st, s.tail⟩
  else
    if 0 < c3.freeSize ∨ b3 = s.tail then do
      let st ← s.store.modify b2 fun x => { x with next := c3.next }
      let st ← st.modify b2 fun x => { x with freeSize := x.freeSize + c3.freeSize }
      let st ← st.free b3
      .ok ⟨st, tail b2⟩
    else
      .ok s

/-- `LPEL_shfree(ptr)`. -/
def lpelShfree (fuel ptr : ℕ) (s : Lpel) : Exec Lpel := do
  let b1 ← loop (shfreeBody ptr s) fuel s.tail
  let c1 ← s.store.get b1
  let b2 := c1.next
  if b2 = s.tail then
    .ok s
  else do
    let c2 ← s.store.get b2
    let b3 := c2.next
    let c3 ← s.store.get b3
    let st ← s.store.modify b2 fun x => { x with freeSize := c3.space - c2.space }
    mergeBlocks b1 b2 b3 { s with store := st }

/-! ### More fuel changes nothing -/

theorem lpelShmalloc_fuelStable (new size : ℕ) (s : Lpel) :
    FuelStable fun fuel => lpelShmalloc fuel new size s := by
  unfold lpelShmalloc
  split
  · exact FuelStable.const _
  · refine FuelStable.bind (FuelStable.const _) fun c1 => ?_
    split
    · exact FuelStable.const _
    · exact FuelStable.bind (loop_fuelStable _ _) fun _ => FuelStable.const _

theorem lpelShfree_fuelStable (ptr : ℕ) (s : Lpel) :
    FuelStable fun fuel => lpelShfree fuel ptr s := by
  unfold lpelShfree
  exact FuelStable.bind (loop_fuelStable _ _) fun _ => FuelStable.const _

end SccShm
