import Mathlib.Algebra.Group.Nat.Defs
import SccShm.Loop
import SccShm.Ring

/-!
# The message passing buffer: `cpy_mem_to_mpb` and `cpy_mpb_to_mem`

Every node has a buffer of `B_SIZE` bytes with two indices, `START` and `END`, and
a flag `WRITING`. Writers append at `END`, in chunks that do not wrap around,
and wait when there is no room; the reader copies from a snapshot of `START` and
`END` and publishes the new `START` at the end.
-/

namespace SccShm

/-- A `char`. -/
abbrev Byte : Type := Fin 256

/-- `B_SIZE`, that is `MPBSIZE - B_START`. -/
def bSize : ℕ := 2 ^ 13 - (64 + 32)

/-- The buffer of a node. -/
structure Mpb : Type where
  /-- the bytes from `B_START` on; beyond `B_SIZE`, whatever memory holds there -/
  buf : ℕ → Byte
  /-- `START(node)` -/
  start : ℕ
  /-- `END(node)` -/
  stop : ℕ
  /-- `WRITING(node)` -/
  writing : Bool

/-- What `SccInit` leaves. -/
def Mpb.init (buf : ℕ → Byte) : Mpb := ⟨buf, 0, 0, false⟩

/-! ## Writing -/

/-- `free` in `cpy_mem_to_mpb`: the room in a line behind `END`, at most `size`. -/
def Mpb.free (m : Mpb) (size : ℕ) : ℕ :=
  min (if m.stop < m.start then m.start - m.stop - 1
    else bSize - m.stop - (if m.start = 0 then 1 else 0)) size

/-- The part of an iteration behind the wait: copy `free` bytes of `src`. -/
def Mpb.put (m : Mpb) (src : List Byte) : Mpb where
  buf := putAt m.buf m.stop src
  start := m.start
  stop := (m.stop + src.length) % bSize
  writing := false

/-- One iteration of the loop of `cpy_mem_to_mpb` with `src` still to be copied:
the buffer and what is left of `src`. Without room nothing changes: the call gives
up the lock, sleeps and tries again. -/
def Mpb.writeIter (m : Mpb) (src : List Byte) : Mpb × List Byte :=
  let free := m.free src.length
  if free = 0 then (m, src) else (m.put (src.take free), src.drop free)

/-- `cpy_mem_to_mpb(node, src, size)`, run without interruption. -/
def cpyMemToMpb (fuel : ℕ) (src : List Byte) (m : Mpb) : Exec Mpb :=
  if bSize ≤ src.length then
    .error .exit
  else
    loop (fun s : Mpb × List Byte =>
      if s.2.length = 0 then .ok (.inr s.1) else .ok (.inl (s.1.writeIter s.2)))
      fuel ({ m with writing := true }, src)

/-! ## Reading -/

/-- The local variables of `cpy_mpb_to_mem`. -/
structure Reading : Type where
  start : ℕ
  stop : ℕ
  /-- `size`: the bytes still to be copied -/
  left : ℕ
  /-- the bytes copied to `dst` so far -/
  dst : List Byte

/-- The snapshot at the beginning of `cpy_mpb_to_mem(size)`. -/
def Mpb.snapshot (m : Mpb) (size : ℕ) : Reading := ⟨m.start, m.stop, size, []⟩

/-- `cpy`: the length of the next chunk. -/
def Reading.cpy (r : Reading) : ℕ :=
  if r.stop < r.start then min r.left (bSize - r.start) else r.left

/-- One iteration of the loop of `cpy_mpb_to_mem`. -/
def Mpb.readIter (m : Mpb) (r : Reading) : Reading where
  start := (r.start + r.cpy) % bSize
  stop := r.stop
  left := r.left - r.cpy
  dst := r.dst ++ stretch m.buf r.start r.cpy

@[simp] theorem Mpb.left_readIter (m : Mpb) (r : Reading) :
    (m.readIter r).left = r.left - r.cpy := rfl

@[simp] theorem Mpb.length_dst_readIter (m : Mpb) (r : Reading) :
    (m.readIter r).dst.length = r.dst.length + r.cpy := by
  rw [readIter, List.length_append, length_stretch]

/-- `START(node) = start`. -/
def Mpb.publish (m : Mpb) (r : Reading) : Mpb := { m with start := r.start }

/-- `cpy_mpb_to_mem(node, dst, size)`, run without interruption: `dst` and the buffer. -/
def cpyMpbToMem (fuel size : ℕ) (m : Mpb) : Exec (List Byte × Mpb) :=
  loop (fun r : Reading =>
    if r.left = 0 then .ok (.inr (r.dst, m.publish r)) else .ok (.inl (m.readIter r)))
    fuel (m.snapshot size)

/-! ## What is stored -/

/-- The number of bytes stored. -/
def Mpb.stored (m : Mpb) : ℕ :=
  if m.start ≤ m.stop then m.stop - m.start else m.stop + bSize - m.start

/-- The buffer holds the bytes `q`. -/
abbrev Mpb.Holds (m : Mpb) (q : List Byte) : Prop := RingAt m.buf bSize m.start m.stop q

namespace Mpb

variable {m : Mpb} {q src : List Byte} {r : Reading}

theorem bSize_pos : 0 < bSize := by decide

theorem holds_init (buf : ℕ → Byte) : (Mpb.init buf).Holds [] := RingAt.empty bSize_pos

theorem Holds.length_eq (h : m.Holds q) : q.length = m.stored := RingAt.length_eq h

/-- The writer's chunk fits into the free slots and does not wrap around. -/
theorem Holds.free_le (h : m.Holds q) (size : ℕ) :
    q.length + m.free size < bSize ∧ m.stop + m.free size ≤ bSize := by
  have hstart := h.first
  have hstop := h.last_lt
  have hlen := h.length_eq
  rw [stored] at hlen
  rw [free]
  split at hlen <;> split <;> try split
  all_goals omega

theorem free_le_size (m : Mpb) (size : ℕ) : m.free size ≤ size := Nat.min_le_right _ _

/-- The chunk of an iteration is the front of what was still to be copied. -/
theorem take_writeIter (m : Mpb) (src : List Byte) :
    src.take (m.free src.length) ++ (m.writeIter src).2 = src := by
  rw [writeIter]
  split
  · next h0 => rw [h0, List.take_zero, List.nil_append]
  · exact List.take_append_drop ..

/-- One iteration of the writer appends the chunk. -/
theorem Holds.writeIter (h : m.Holds q) (src : List Byte) :
    (m.writeIter src).1.Holds (q ++ src.take (m.free src.length)) := by
  obtain ⟨hroom, hline⟩ := h.free_le src.length
  have hlen : (src.take (m.free src.length)).length = m.free src.length := by
    rw [List.length_take, Nat.min_eq_left (m.free_le_size _)]
  rw [Mpb.writeIter]
  split
  · next h0 =>
    rw [h0, List.take_zero, List.append_nil]
    exact h
  · exact h.push (by omega) (by omega)

/-- The reader is in the middle of a call: it has copied the front of the queue `q`, and
what it has left was stored when it took its snapshot. -/
structure Reads (m : Mpb) (q : List Byte) (r : Reading) : Prop where
  copied : r.dst = q.take r.dst.length
  start : r.start = (m.start + r.dst.length) % bSize
  /-- `n` bytes were stored at the snapshot -/
  stop : ∃ n, r.dst.length + r.left ≤ n ∧ n ≤ q.length ∧ r.stop = (m.start + n) % bSize

theorem Reads.snapshot (h : m.Holds q) {size : ℕ} (hsize : size ≤ q.length) :
    m.Reads q (m.snapshot size) :=
  ⟨rfl, (Nat.mod_eq_of_lt h.first).symm, q.length,
    by simpa [Mpb.snapshot] using hsize, le_refl _, h.last⟩

/-- The reader's chunk does not wrap around. -/
theorem Reads.cpy_le (hr : m.Reads q r) (h : m.Holds q) :
    r.start + r.cpy ≤ bSize ∧ r.cpy ≤ r.left := by
  obtain ⟨n, hn, hnq, hstop⟩ := hr.stop
  have hstart := hr.start
  have hfirst := h.first
  have hroom := h.room
  rw [mod_eq_ite (by omega)] at hstart hstop
  rw [Reading.cpy]
  -- if the snapshot's `END` is not behind the local `start`, the rest lies in a line
  split at hstart <;> split at hstop <;> split <;> omega

/-- One iteration of the reader copies what comes next. -/
theorem Reads.readIter (hr : m.Reads q r) (h : m.Holds q) : m.Reads q (m.readIter r) := by
  obtain ⟨hline, hleft⟩ := hr.cpy_le h
  obtain ⟨n, hn, hnq, hstop⟩ := hr.stop
  have hlen := m.length_dst_readIter r
  refine ⟨?_, ?_, n, ?_, hnq, hstop⟩
  · rw [hlen, List.take_add, ← hr.copied, ← h.front (by omega) (by rw [← hr.start]; exact hline),
      ← hr.start]
    rfl
  · rw [hlen, ← Nat.add_assoc, ← Nat.mod_add_mod, ← hr.start]
    rfl
  · rw [hlen, m.left_readIter]
    omega

/-- Publishing `START` drops what was copied. -/
theorem Reads.publish (hr : m.Reads q r) (h : m.Holds q) :
    (m.publish r).Holds (q.drop r.dst.length) := by
  obtain ⟨n, hn, hnq, -⟩ := hr.stop
  have h' := h
  rw [Mpb.Holds, ← List.take_append_drop r.dst.length q] at h'
  have hpop := h'.pop
  rwa [List.length_take, Nat.min_eq_left (by omega), ← hr.start] at hpop

end Mpb

end SccShm
