import SccShm.Mpb

/-!
# Whole calls of a writer and a reader

The writer calls `cpy_mem_to_mpb`, the reader `cpy_mpb_to_mem`, each call running
without interruption, in any order. The writer waits for room, but the reader
waits for nothing: it takes as many bytes as it was asked for.

* `cpyMemToMpb_room` — the writer waits only in a full buffer, and copies what there is
  room for in at most two iterations.
* `cpyMemToMpb_iff` — a message is accepted exactly if there is room for it.
* `reader_behind` — the reader stays behind the writer exactly if every read asks
  for what is stored.
* `reader_ahead` — a read from the empty buffer.
-/

namespace SccShm

/-! ## The calls -/

section Calls

variable {m m' : Mpb} {q src : List Byte} {size : ℕ}

/-- If a slot is free, the writer finds room. -/
theorem Mpb.Holds.free_pos (h : m.Holds q) (hroom : q.length + 1 < bSize) (hsize : 0 < size) :
    0 < m.free size := by
  have hstart := h.first
  have hstop := h.last_lt
  have hlen := h.length_eq
  rw [Mpb.stored] at hlen
  rw [Mpb.free]
  split at hlen <;> split <;> try split
  all_goals omega

/-- A finished call has appended the message. -/
theorem cpyMemToMpb_holds (h : m.Holds q)
    (hret : Returns (fun fuel => cpyMemToMpb fuel src m) m') : m'.Holds (q ++ src) := by
  obtain ⟨fuel, hfuel⟩ := hret
  change cpyMemToMpb fuel src m = _ at hfuel
  rw [cpyMemToMpb] at hfuel
  split at hfuel
  · cases hfuel
  · refine loop_partial (I := fun s : Mpb × List Byte => ∃ p, s.1.Holds p ∧ p ++ s.2 = q ++ src)
      (Q := fun m' : Mpb => m'.Holds (q ++ src)) ?_ ?_ ⟨q, h, rfl⟩ hfuel
    · rintro ⟨m₁, src₁⟩ s' ⟨p, hp, heq⟩ hbody
      change (if src₁.length = 0 then _ else _) = _ at hbody
      split at hbody
      · cases hbody
      · obtain rfl := Sum.inl.inj (Except.ok.inj hbody)
        refine ⟨_, hp.writeIter src₁, ?_⟩
        rw [List.append_assoc, Mpb.take_writeIter, heq]
    · rintro ⟨m₁, src₁⟩ r ⟨p, hp, heq⟩ hbody
      change (if src₁.length = 0 then _ else _) = _ at hbody
      split at hbody
      · next h0 =>
        obtain rfl := Sum.inr.inj (Except.ok.inj hbody)
        rw [List.length_eq_zero_iff.mp h0, List.append_nil] at heq
        rwa [← heq]
      · cases hbody

/-! ### The room -/

/-- `k` iterations of the loop copy all of `src`, and none of them gives up the lock. -/
inductive Mpb.Copies : ℕ → Mpb → List Byte → Mpb → Prop where
  | done {m : Mpb} : Copies 0 m [] m
  | next {k : ℕ} {m m' : Mpb} {src : List Byte} : src ≠ [] → m.free src.length ≠ 0 →
      Copies k (m.writeIter src).1 (m.writeIter src).2 m' → Copies (k + 1) m src m'

theorem Mpb.Copies.loop_eq {k : ℕ} (h : Mpb.Copies k m src m') :
    loop (fun s : Mpb × List Byte =>
      if s.2.length = 0 then .ok (.inr s.1) else .ok (.inl (s.1.writeIter s.2)))
      (k + 1) (m, src) = .ok m' := by
  induction h with
  | done => rfl
  | @next _ m _ src hsrc _ _ ih =>
    have hbody : (if src.length = 0 then .ok (.inr m) else .ok (.inl (m.writeIter src)) :
        Exec ((Mpb × List Byte) ⊕ Mpb)) = .ok (.inl (m.writeIter src)) :=
      if_neg (mt List.length_eq_zero_iff.mp hsrc)
    exact (loop_next hbody _).trans ih

/-- Wherever the two indices stand, they are the ends of a queue. -/
theorem Mpb.exists_holds (hstart : m.start < bSize) (hstop : m.stop < bSize) :
    ∃ q, m.Holds q := ⟨_, RingAt.of_ends hstart hstop⟩

/-- The writer waits exactly in a full buffer. -/
theorem Mpb.Holds.free_eq_zero_iff (h : m.Holds q) (hsize : 0 < size) :
    m.free size = 0 ↔ m.stored = bSize - 1 := by
  have hroom := h.free_le size
  rw [← h.length_eq]
  have := h.room
  refine ⟨fun h0 => ?_, fun hfull => by omega⟩
  by_contra hne
  have := h.free_pos (by omega) hsize
  omega

/-- If the room in a line is not enough, the buffer is filled up to its end, and from the
beginning on there is room for the rest. -/
theorem Mpb.Holds.free_rest (h : m.Holds q) (hroom : q.length + size < bSize)
    (hlt : m.free size < size) (hsrc : src.length = m.free size) :
    (m.put src).free (size - m.free size) = size - m.free size := by
  have hstart := h.first
  have hstop := h.last_lt
  have hlen := h.length_eq
  have hline : m.stop + m.free size = bSize ∧ size - m.free size < m.start := by
    have hfree : m.free size = min (if m.stop < m.start then m.start - m.stop - 1
      else bSize - m.stop - (if m.start = 0 then 1 else 0)) size := rfl
    rw [Mpb.stored] at hlen
    split at hlen <;> split at hfree <;> try split at hfree
    all_goals omega
  have hzero : (m.put src).stop = 0 := by
    change (m.stop + src.length) % bSize = 0
    rw [hsrc, hline.1, Nat.mod_self]
  rw [Mpb.free, hzero]
  change min (if 0 < m.start then m.start - 0 - 1 else _) _ = _
  rw [if_pos (by omega)]
  omega

/-- An iteration that finds room appends what it copies. -/
theorem Mpb.writeIter_eq {n : ℕ} (hfree : m.free src.length = n) (hn : n ≠ 0) :
    m.writeIter src = (m.put (src.take n), src.drop n) := by
  rw [Mpb.writeIter, hfree]
  exact if_neg hn

/-- A message there is room for is copied in at most two iterations. -/
theorem Mpb.Holds.copies (h : m.Holds q) (hroom : q.length + src.length < bSize) :
    ∃ k ≤ 2, ∃ m', Mpb.Copies k m src m' ∧ m'.Holds (q ++ src) := by
  by_cases hsrc : src = []
  · subst hsrc
    exact ⟨0, Nat.zero_le 2, m, .done, by rwa [List.append_nil]⟩
  have hpos : 0 < src.length := List.length_pos_iff.mpr hsrc
  have hfree : m.free src.length ≠ 0 := (h.free_pos (by omega) hpos).ne'
  have hiter := h.writeIter src
  have heq := Mpb.writeIter_eq rfl hfree
  rcases Nat.lt_or_eq_of_le (m.free_le_size src.length) with hlt | hall
  · -- the rest follows from the beginning of the buffer on
    have hlen : (src.take (m.free src.length)).length = m.free src.length := by
      rw [List.length_take, Nat.min_eq_left hlt.le]
    have hrest := h.free_rest hroom hlt hlen
    rw [← List.length_drop] at hrest
    have hne : src.drop (m.free src.length) ≠ [] := by
      apply List.ne_nil_of_length_pos
      rw [List.length_drop]
      omega
    have hfree' := hrest.trans_ne (List.length_pos_iff.mpr hne).ne'
    have heq' := Mpb.writeIter_eq hrest (List.length_pos_iff.mpr hne).ne'
    rw [heq] at hiter
    have hiter' := hiter.writeIter (src.drop (m.free src.length))
    rw [hrest, List.take_length, List.append_assoc, List.take_append_drop] at hiter'
    refine ⟨2, le_refl 2, _, .next hsrc hfree ?_, hiter'⟩
    rw [heq]
    refine .next hne hfree' ?_
    rw [heq']
    simp only [List.drop_length]
    exact .done
  · rw [hall, List.take_length] at hiter
    refine ⟨1, by decide, _, .next hsrc hfree ?_, hiter⟩
    rw [heq]
    simp only [hall, List.drop_length]
    exact .done

/-- **The writer uses all the room there is**, and waits only when there is none. -/
theorem cpyMemToMpb_room (hstart : m.start < bSize) (hstop : m.stop < bSize) :
    (∀ size, 0 < size → (m.free size = 0 ↔ m.stored = bSize - 1)) ∧
      ∀ src : List Byte, src.length ≤ bSize - 1 - m.stored →
        ∃ k ≤ 2, ∃ m', Mpb.Copies k { m with writing := true } src m' ∧
          cpyMemToMpb (k + 1) src m = .ok m' ∧ m'.stored = m.stored + src.length := by
  obtain ⟨q, hq⟩ := Mpb.exists_holds hstart hstop
  refine ⟨fun size hsize => hq.free_eq_zero_iff hsize, fun src hroom => ?_⟩
  have hlen := hq.length_eq
  have hmax := hq.room
  have hflag : { m with writing := true }.Holds q := hq
  obtain ⟨k, hk, m', hcopies, hm'⟩ := hflag.copies (show q.length + src.length < bSize by omega)
  refine ⟨k, hk, m', hcopies, ?_, ?_⟩
  · rw [cpyMemToMpb, if_neg (by omega)]
    exact hcopies.loop_eq
  · rw [← hm'.length_eq, List.length_append, hlen]

/-- Three bytes, one at the end of the buffer and two at its beginning. -/
theorem cpyMemToMpb_room_demo :
    ∃ k ≤ 2, ∃ m', Mpb.Copies k ⟨fun _ => 0, 5, bSize - 1, true⟩ [1, 2, 3] m' ∧
      m'.stored = bSize - 3 := by
  obtain ⟨-, hroom⟩ := cpyMemToMpb_room (m := ⟨fun _ => 0, 5, bSize - 1, false⟩)
    (by decide) (by decide)
  obtain ⟨k, hk, m', hcopies, -, hstored⟩ := hroom [1, 2, 3] (by decide)
  exact ⟨k, hk, m', hcopies, hstored⟩

/-- **A message is accepted exactly if there is room for it.** -/
theorem cpyMemToMpb_iff (h : m.Holds q) (hsrc : src.length < bSize) :
    (∃ m', Returns (fun fuel => cpyMemToMpb fuel src m) m') ↔ q.length + src.length < bSize := by
  refine ⟨?_, ?_⟩
  · rintro ⟨m', hret⟩
    have := (cpyMemToMpb_holds h hret).room
    rwa [List.length_append] at this
  · intro hroom
    have hflag : { m with writing := true }.Holds q := h
    obtain ⟨k, -, m', hcopies, -⟩ := hflag.copies hroom
    refine ⟨m', k + 1, ?_⟩
    change cpyMemToMpb _ src m = _
    rw [cpyMemToMpb, if_neg (by omega)]
    exact hcopies.loop_eq

theorem Reading.cpy_le_left (r : Reading) : r.cpy ≤ r.left := by
  rw [Reading.cpy]
  split
  · exact Nat.min_le_left _ _
  · exact le_refl _

/-- A finished read has delivered as many bytes as it was asked for. -/
theorem cpyMpbToMem_length {out : List Byte × Mpb}
    (hret : Returns (fun fuel => cpyMpbToMem fuel size m) out) : out.1.length = size := by
  obtain ⟨fuel, hfuel⟩ := hret
  refine loop_partial (I := fun r : Reading => r.dst.length + r.left = size)
    (Q := fun out : List Byte × Mpb => out.1.length = size) ?_ ?_ ?_ hfuel
  · intro r r' hI hbody
    split at hbody
    · cases hbody
    · obtain rfl := Sum.inl.inj (Except.ok.inj hbody)
      have := r.cpy_le_left
      rw [Mpb.length_dst_readIter, Mpb.left_readIter]
      omega
  · intro r out hI hbody
    split at hbody
    · obtain rfl := Sum.inr.inj (Except.ok.inj hbody)
      change r.dst.length = size
      omega
    · cases hbody
  · simp [Mpb.snapshot]

/-- A read of what is stored delivers the front of the queue. -/
theorem cpyMpbToMem_spec (h : m.Holds q) (hsize : size ≤ q.length) :
    ∃ m', Returns (fun fuel => cpyMpbToMem fuel size m) (q.take size, m') ∧
      m'.Holds (q.drop size) := by
  have hloop := loop_total
    (fun r : Reading =>
      if r.left = 0 then .ok (.inr (r.dst, m.publish r)) else .ok (.inl (m.readIter r)))
    (I := fun r : Reading => m.Reads q r ∧ r.dst.length + r.left = size)
    (Q := fun out : List Byte × Mpb => out.1 = q.take size ∧ out.2.Holds (q.drop size))
    (fun r => r.left) ?_ (size + 1) (m.snapshot size)
    ⟨Mpb.Reads.snapshot h hsize, by simp [Mpb.snapshot]⟩ (Nat.lt_succ_self _)
  · obtain ⟨⟨dst, m'⟩, hret, rfl, hm'⟩ := hloop
    exact ⟨m', ⟨size + 1, hret⟩, hm'⟩
  · rintro r ⟨hr, hsum⟩
    by_cases h0 : r.left = 0
    · have hlen : r.dst.length = size := by omega
      refine Or.inl ⟨_, if_pos h0, ?_, ?_⟩
      · rw [← hlen]
        exact hr.copied
      · rw [← hlen]
        exact hr.publish h
    · have hcpy := r.cpy_le_left
      have hpos : 0 < r.cpy := by
        have hlt : r.start < bSize := by rw [hr.start]; exact Nat.mod_lt _ Mpb.bSize_pos
        rw [Reading.cpy]
        split <;> omega
      refine Or.inr ⟨_, if_neg h0, ⟨hr.readIter h, ?_⟩, ?_⟩
      · rw [Mpb.length_dst_readIter, Mpb.left_readIter]
        omega
      · rw [Mpb.left_readIter]
        omega

end Calls

/-! ## Runs -/

/-- A buffer, with the bytes that went in and came out. -/
structure Exchange : Type where
  mpb : Mpb
  appended : List Byte
  delivered : List Byte

/-- The calls. -/
inductive ExchangeOp : Type where
  /-- the writer calls `cpy_mem_to_mpb` -/
  | write (msg : List Byte)
  /-- the reader calls `cpy_mpb_to_mem` -/
  | read (size : ℕ)

/-- One whole call. -/
inductive ExchangeStep : Exchange → ExchangeOp → Exchange → Prop where
  | write {s : Exchange} {m' : Mpb} (msg : List Byte) : 0 < msg.length → msg.length < bSize →
      Returns (fun fuel => cpyMemToMpb fuel msg s.mpb) m' →
      ExchangeStep s (.write msg) ⟨m', s.appended ++ msg, s.delivered⟩
  | read {s : Exchange} {dst : List Byte} {m' : Mpb} (size : ℕ) : 0 < size →
      Returns (fun fuel => cpyMpbToMem fuel size s.mpb) (dst, m') →
      ExchangeStep s (.read size) ⟨m', s.appended, s.delivered ++ dst⟩

/-- Before the first call. -/
def Exchange.initial (buf : ℕ → Byte) : Exchange := ⟨Mpb.init buf, [], []⟩

/-- A read asks for at most what is stored. -/
def ReadsStored (s : Exchange) : ExchangeOp → Prop
  | .read size => size ≤ s.mpb.stored
  | .write _ => True

/-- The reader has not run ahead of the writer. -/
structure Behind (s : Exchange) : Prop where
  consumed : s.delivered.length ≤ s.appended.length
  /-- what was delivered was written, in this order -/
  written : s.delivered <+: s.appended
  /-- messages are accepted as long as they fit beside the bytes not yet consumed -/
  room : ∀ msg : List Byte, 0 < msg.length → msg.length < bSize →
    ((∃ m', Returns (fun fuel => cpyMemToMpb fuel msg s.mpb) m') ↔
      msg.length ≤ bSize - 1 - (s.appended.length - s.delivered.length))

/-- The invariant: the buffer holds what was appended and not delivered. -/
def ExchangeHolds (q : List Byte) (s : Exchange) : Prop :=
  s.mpb.Holds q ∧ s.delivered ++ q = s.appended

section Runs

variable {q : List Byte} {s s' : Exchange} {op : ExchangeOp}

theorem ExchangeHolds.behind (hI : ExchangeHolds q s) : Behind s := by
  obtain ⟨hq, heq⟩ := hI
  have hlen := congrArg List.length heq
  rw [List.length_append] at hlen
  refine ⟨by omega, ⟨q, heq⟩, fun msg hpos hmsg => ?_⟩
  have := hq.room
  rw [cpyMemToMpb_iff hq hmsg]
  omega

theorem ExchangeHolds.step (hI : ExchangeHolds q s) (hok : ReadsStored s op)
    (hs : ExchangeStep s op s') : ∃ q', ExchangeHolds q' s' := by
  obtain ⟨hq, heq⟩ := hI
  cases hs with
  | write msg _ _ hret =>
    refine ⟨q ++ msg, cpyMemToMpb_holds hq hret, ?_⟩
    rw [← heq, List.append_assoc]
  | read size _ hret =>
    have hsize : size ≤ q.length := by
      rw [hq.length_eq]
      exact hok
    obtain ⟨m', hret', hm'⟩ := cpyMpbToMem_spec hq hsize
    have hout := hret.unique (loop_fuel_mono _ _) hret'
    simp only [Prod.mk.injEq] at hout
    obtain ⟨rfl, rfl⟩ := hout
    refine ⟨q.drop size, hm', ?_⟩
    rw [List.append_assoc, List.take_append_drop]
    exact heq

/-- **The reader stays behind the writer** as long as every read asks for what is
stored; and the first read that asks for more brings it ahead. -/
theorem reader_behind (buf : ℕ → Byte)
    (h : Reach (Guarded ExchangeStep ReadsStored) (Exchange.initial buf) s) :
    Behind s ∧ ∀ op s', ExchangeStep s op s' → (Behind s' ↔ ReadsStored s op) := by
  obtain ⟨q, hI⟩ := h.invariant (I := fun s => ∃ q, ExchangeHolds q s)
    ⟨[], Mpb.holds_init buf, rfl⟩ fun s op s' ⟨q, hI⟩ hs => hI.step hs.1 hs.2
  refine ⟨hI.behind, fun op s' hs => ⟨fun hbehind => ?_, fun hok => ?_⟩⟩
  · cases hs with
    | write => trivial
    | read size _ hret =>
      -- one byte too many is delivered, whatever it is
      have hlen := congrArg List.length hI.2
      have hdst := cpyMpbToMem_length hret
      simp only at hdst
      have hconsumed := hbehind.consumed
      rw [List.length_append] at hlen
      rw [List.length_append] at hconsumed
      change size ≤ s.mpb.stored
      rw [← hI.1.length_eq]
      change _ ≤ s.appended.length at hconsumed
      omega
  · obtain ⟨q', hI'⟩ := hI.step hok hs
    exact hI'.behind

/-- Four bytes written and read. -/
theorem reader_behind_demo :
    ∃ s, s.delivered = [7, 0, 0, 1] ∧ Behind s := by
  have r₀ : Reach (Guarded ExchangeStep ReadsStored) (Exchange.initial fun _ => 0) _ := Reach.init
  have r₁ := r₀.next (a := ExchangeOp.write [7, 0, 0, 1])
    ⟨trivial, .write [7, 0, 0, 1] (by decide) (by decide) ⟨2, rfl⟩⟩
  have r₂ := r₁.next (a := ExchangeOp.read 4)
    ⟨Nat.le_of_ble_eq_true rfl, .read 4 (by decide) ⟨2, rfl⟩⟩
  exact ⟨_, rfl, (reader_behind _ r₂).1⟩

/-- A read of four bytes before anything was written. -/
theorem reader_ahead :
    ∃ s, Reach ExchangeStep (Exchange.initial fun _ => 0) s ∧ ¬ Behind s := by
  have r₀ : Reach ExchangeStep (Exchange.initial fun _ => 0) _ := Reach.init
  have r₁ := r₀.next (.read 4 (by decide) ⟨2, rfl⟩)
  exact ⟨_, r₁, fun hbehind => absurd hbehind.consumed (by decide)⟩

end Runs

end SccShm
