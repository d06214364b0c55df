import SccShm.Mpb

/-!
# One writer and one reader

The writer works through calls of `cpy_mem_to_mpb` an iteration at a time, the
reader through calls of `cpy_mpb_to_mem`: snapshot, chunks, publication of `START`,
in any interleaving. If no read asks for more than is stored at its snapshot, the
buffer is a first-in-first-out queue of bytes (`mpb_fifo`).
-/

namespace SccShm

/-- A writer and a reader of one buffer. -/
structure Fifo : Type where
  mpb : Mpb
  /-- what the writer's call still has to copy; `[]` between calls -/
  src : List Byte
  /-- the reader's call, if there is one -/
  reading : Option Reading
  /-- the messages of all calls of the writer so far, one after the other -/
  sent : List Byte
  /-- all bytes appended so far -/
  appended : List Byte
  /-- all bytes delivered by finished reads -/
  delivered : List Byte

/-- The steps of the two. -/
inductive FifoOp : Type where
  /-- the writer calls `cpy_mem_to_mpb` -/
  | begin (msg : List Byte)
  /-- one iteration of its loop -/
  | write
  /-- the reader calls `cpy_mpb_to_mem` and takes its snapshot -/
  | snapshot (size : ℕ)
  /-- one iteration of its loop -/
  | copy
  /-- the reader stores `START` and returns -/
  | publish

/-- One step. -/
inductive FifoStep : Fifo → FifoOp → Fifo → Prop where
  | begin {s : Fifo} (msg : List Byte) : s.src = [] → 0 < msg.length → msg.length < bSize →
      FifoStep s (.begin msg) { s with
        mpb := { s.mpb with writing := true }
        src := msg
        sent := s.sent ++ msg }
  | write {s : Fifo} : s.src ≠ [] →
      FifoStep s .write { s with
        mpb := (s.mpb.writeIter s.src).1
        src := (s.mpb.writeIter s.src).2
        appended := s.appended ++ s.src.take (s.mpb.free s.src.length) }
  | snapshot {s : Fifo} (size : ℕ) : s.reading = none →
      FifoStep s (.snapshot size) { s with reading := some (s.mpb.snapshot size) }
  | copy {s : Fifo} {r : Reading} : s.reading = some r → r.left ≠ 0 →
      FifoStep s .copy { s with reading := some (s.mpb.readIter r) }
  | publish {s : Fifo} {r : Reading} : s.reading = some r → r.left = 0 →
      FifoStep s .publish { s with
        mpb := s.mpb.publish r
        reading := none
        delivered := s.delivered ++ r.dst }

/-- Before the first call. -/
def Fifo.initial (buf : ℕ → Byte) : Fifo := ⟨Mpb.init buf, [], none, [], [], []⟩

/-- Every read asks for at most what is stored at its snapshot. -/
def AsksStored (s : Fifo) : FifoOp → Prop
  | .snapshot size => size ≤ s.mpb.stored
  | _ => True

/-- What holds of the buffer at any time. -/
structure FifoOk (s : Fifo) : Prop where
  start_lt : s.mpb.start < bSize
  stop_lt : s.mpb.stop < bSize
  stored_le : s.mpb.stored ≤ bSize - 1
  /-- delivered, followed by stored, is appended -/
  queue : s.delivered ++ slots s.mpb.buf bSize s.mpb.start s.mpb.stored = s.appended
  /-- appended are the messages, less what the call in progress still has to copy -/
  sent : s.appended ++ s.src = s.sent
  /-- the writer's next chunk lies inside the buffer -/
  writes : s.mpb.stop + s.mpb.free s.src.length ≤ bSize
  /-- and on no byte that the reader has not given up -/
  keeps : ∀ j < s.mpb.stored, ¬ (s.mpb.stop ≤ (s.mpb.start + j) % bSize ∧
    (s.mpb.start + j) % bSize < s.mpb.stop + s.mpb.free s.src.length)
  /-- the reader's next chunk lies inside the buffer -/
  reads : ∀ r, s.reading = some r → r.start + r.cpy ≤ bSize

/-- The invariant: the buffer holds `q`, and the reader is copying the front of it. -/
structure FifoHolds (q : List Byte) (s : Fifo) : Prop where
  holds : s.mpb.Holds q
  queue : s.delivered ++ q = s.appended
  sent : s.appended ++ s.src = s.sent
  reading : ∀ r, s.reading = some r → s.mpb.Reads q r

section Steps

variable {q : List Byte} {s s' : Fifo} {op : FifoOp}

/-- The reader does not notice a longer queue. -/
theorem Mpb.Reads.append {m m' : Mpb} {ys : List Byte} {r : Reading} (hr : m.Reads q r)
    (hstart : m'.start = m.start) : m'.Reads (q ++ ys) r := by
  obtain ⟨n, hn, hnq, hstop⟩ := hr.stop
  refine ⟨?_, by rw [hstart]; exact hr.start, n, hn, ?_, by rw [hstart]; exact hstop⟩
  · rw [List.take_append_of_le_length (by omega)]
    exact hr.copied
  · rw [List.length_append]
    omega

theorem Mpb.start_writeIter (m : Mpb) (src : List Byte) : (m.writeIter src).1.start = m.start := by
  rw [Mpb.writeIter]
  split <;> rfl

theorem FifoHolds.step (hI : FifoHolds q s) (hok : AsksStored s op) (hs : FifoStep s op s') :
    ∃ q', FifoHolds q' s' := by
  cases hs with
  | begin msg hsrc _ _ =>
    have hsent := hI.sent
    rw [hsrc, List.append_nil] at hsent
    exact ⟨q, hI.holds, hI.queue, congrArg (· ++ msg) hsent, fun r hr =>
      ⟨(hI.reading r hr).copied, (hI.reading r hr).start, (hI.reading r hr).stop⟩⟩
  | write _ =>
    refine ⟨_, hI.holds.writeIter s.src, ?_, ?_, fun r hr => ?_⟩
    · rw [← List.append_assoc, hI.queue]
    · rw [List.append_assoc, Mpb.take_writeIter, hI.sent]
    · exact (hI.reading r hr).append (s.mpb.start_writeIter s.src)
  | snapshot size _ =>
    refine ⟨q, hI.holds, hI.queue, hI.sent, fun r hr => ?_⟩
    obtain rfl := Option.some.inj hr
    exact Mpb.Reads.snapshot hI.holds (by rw [hI.holds.length_eq]; exact hok)
  | copy hr _ =>
    refine ⟨q, hI.holds, hI.queue, hI.sent, fun r' hr' => ?_⟩
    obtain rfl := Option.some.inj hr'
    exact (hI.reading _ hr).readIter hI.holds
  | publish hr _ =>
    have hreads := hI.reading _ hr
    refine ⟨_, hreads.publish hI.holds, ?_, hI.sent, fun r' hr' => by cases hr'⟩
    have hq : ∀ r : Reading, s.mpb.Reads q r → r.dst ++ q.drop r.dst.length = q := by
      intro r hr
      nth_rewrite 1 [hr.copied]
      exact List.take_append_drop _ _
    change s.delivered ++ _ ++ _ = s.appended
    rw [List.append_assoc, hq _ hreads, hI.queue]

theorem FifoHolds.ok (hI : FifoHolds q s) : FifoOk s := by
  have hlen := hI.holds.length_eq
  have hroom := hI.holds.room
  obtain ⟨hfree, hline⟩ := hI.holds.free_le s.src.length
  refine ⟨hI.holds.first, hI.holds.last_lt, by omega, ?_, hI.sent, hline, fun j hj => ?_,
    fun r hr => ?_⟩
  · rw [← hlen, hI.holds.elems]
    exact hI.queue
  · exact hI.holds.not_mem_room hfree hline (by omega)
  · exact ((hI.reading r hr).cpy_le hI.holds).1

/-- **The buffer is a queue.** For one writer and one reader, in every interleaving
in which reads ask for what is stored, the indices and chunks stay inside the
buffer, no unread byte is overwritten, and what is delivered, stored and still to be
copied are, one after the other, the messages. -/
theorem mpb_fifo (buf : ℕ → Byte)
    (h : Reach (Guarded FifoStep AsksStored) (Fifo.initial buf) s) : FifoOk s := by
  obtain ⟨q, hI⟩ := h.invariant (I := fun s => ∃ q, FifoHolds q s)
    ⟨[], Mpb.holds_init buf, rfl, rfl, fun r hr => by cases hr⟩
    fun s op s' ⟨q, hI⟩ hs => hI.step hs.1 hs.2
  exact hI.ok

/-- Three bytes appended, two of them read. -/
theorem mpb_fifo_demo :
    ∃ s, s.appended = [1, 2, 3] ∧ s.delivered = [1, 2] ∧ FifoOk s := by
  have r₀ : Reach (Guarded FifoStep AsksStored) (Fifo.initial fun _ => 0) _ := Reach.init
  have r₁ := r₀.next (a := FifoOp.begin [1, 2, 3])
    ⟨trivial, .begin [1, 2, 3] rfl (by decide) (by decide)⟩
  have r₂ := r₁.next (a := FifoOp.write) ⟨trivial, .write (by decide)⟩
  have r₃ := r₂.next (a := FifoOp.snapshot 2) ⟨Nat.le_of_ble_eq_true rfl, .snapshot 2 rfl⟩
  have r₄ := r₃.next (a := FifoOp.copy) ⟨trivial, .copy rfl (by decide)⟩
  have r₅ := r₄.next (a := FifoOp.publish) ⟨trivial, .publish rfl rfl⟩
  exact ⟨_, rfl, rfl, mpb_fifo _ r₅⟩

end Steps

end SccShm
