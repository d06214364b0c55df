import SccShm.MpbCalls
import SccShm.MpbFifo

/-!
# The buffers in memory

`mpbs[node]` is an area of `MPBSIZE` bytes: `START` and `END` are two bytes each at
`B_OFFSET`, behind them are the flags `HANDLING` and `WRITING`, and the ring begins at
`B_START`. After it has written to any node's area, a core stores a byte at the beginning of
its own one (`FOOL_WRITE_COMBINE`).

* `beginAt`, `writeAt`, `copyAt`, `publishAt` — the pieces of `cpy_mem_to_mpb` and
  `cpy_mpb_to_mem`, byte for byte. Copying from or to somewhere outside of the area faults.
* `TrafficStep` — every node's area has a writer and a reader, on any cores, in any
  interleaving.
* `FifoHolds.simulates` — a step on an area is a step of the buffer it shows (`Traffic.at`).
* `traffic_fifo` — every area is a queue, no copy faults, and nothing else in the areas
  changes.
-/

namespace SccShm

/-- The bytes of an area. Those from `MPBSIZE` on are not mapped. -/
abbrev Area : Type := ℕ → Byte

/-- `mpbs`. -/
abbrev Mpbs : Type := ℕ → Area

/-- `MPBSIZE`. -/
def mpbSize : ℕ := 2 ^ 13

/-- `B_OFFSET`. -/
def bOffset : ℕ := 64

/-- `B_START`. -/
def bStart : ℕ := bOffset + 32

namespace Area

/-- Two bytes as a `uint16_t`. -/
def get16 (a : Area) (i : ℕ) : ℕ := a i + 256 * a (i + 1)

/-- A `uint16_t` stored in two bytes. -/
def set16 (a : Area) (i v : ℕ) : Area :=
  Function.update (Function.update a i (Fin.ofNat 256 v)) (i + 1) (Fin.ofNat 256 (v / 256))

/-- `START`. -/
def start (a : Area) : ℕ := a.get16 bOffset

/-- `END`. -/
def stop (a : Area) : ℕ := a.get16 (bOffset + 2)

/-- `WRITING`. -/
def writing (a : Area) : Byte := a (bOffset + 5)

/-- `START(i) = v`. -/
def setStart (a : Area) (v : ℕ) : Area := a.set16 bOffset v

/-- `END(i) = v`. -/
def setStop (a : Area) (v : ℕ) : Area := a.set16 (bOffset + 2) v

/-- `HANDLING(i) = v`. -/
def setHandling (a : Area) (v : Byte) : Area := Function.update a (bOffset + 4) v

/-- `WRITING(i) = v`. -/
def setWriting (a : Area) (v : Byte) : Area := Function.update a (bOffset + 5) v

end Area

namespace Mpbs

/-- Node `node`'s area becomes `a`. -/
def set (M : Mpbs) (node : ℕ) (a : Area) : Mpbs := Function.update M node a

/-- `FOOL_WRITE_COMBINE` on core `self`. -/
def fool (M : Mpbs) (self : ℕ) : Mpbs := M.set self (Function.update (M self) 0 1)

/-! ## `SccInit` -/

/-- What `SccInit` does to the core's own area. -/
def sccInit (M : Mpbs) (self : ℕ) : Mpbs :=
  (M.set self (((((M self).setStart 0).setStop 0).setHandling 1).setWriting 0)).fool self

/-! ## `cpy_mem_to_mpb` -/

/-- Core `self` enters `cpy_mem_to_mpb(node, ..)`. -/
def beginAt (M : Mpbs) (self node : ℕ) : Mpbs := (M.set node ((M node).setWriting 1)).fool self

/-- `free`, an `int`. -/
def free (a : Area) (size : ℕ) : ℤ :=
  min (if a.stop < a.start then (a.start : ℤ) - a.stop - 1
    else bSize - (a.stop : ℤ) - (if a.start = 0 then 1 else 0)) size

/-- One iteration of the loop: the areas and what is left of `src`. -/
def writeAt (M : Mpbs) (self node : ℕ) (src : List Byte) : Exec (Mpbs × List Byte) :=
  let a := M node
  let free := free a src.length
  if free = 0 then .ok (M, src)
  else if 0 < free ∧ bStart + a.stop + free ≤ mpbSize then
    let b : Area := putAt a (bStart + a.stop) (src.take free.toNat)
    let b := (b.setStop ((a.stop + free.toNat) % bSize)).setWriting 0
    .ok ((M.set node b).fool self, src.drop free.toNat)
  else .error .fault

/-! ## `cpy_mpb_to_mem` -/

/-- The snapshot of `START` and `END`. -/
def snapshotAt (M : Mpbs) (node size : ℕ) : Reading := ⟨(M node).start, (M node).stop, size, []⟩

/-- `cpy`, an `int`. -/
def cpy (r : Reading) : ℤ :=
  if r.stop < r.start then min (r.left : ℤ) (bSize - r.start) else r.left

/-- One iteration of the loop. -/
def copyAt (M : Mpbs) (node : ℕ) (r : Reading) : Exec Reading :=
  let cpy := cpy r
  if 0 ≤ cpy ∧ bStart + r.start + cpy ≤ mpbSize then
    .ok ⟨(r.start + cpy.toNat) % bSize, r.stop, r.left - cpy.toNat,
      r.dst ++ stretch (M node) (bStart + r.start) cpy.toNat⟩
  else .error .fault

/-- `START(node) = start` at the end. -/
def publishAt (M : Mpbs) (self node : ℕ) (r : Reading) : Mpbs :=
  (M.set node ((M node).setStart r.start)).fool self

end Mpbs

/-! ## Runs -/

/-- The areas of all nodes, with the calls in progress, at most one that writes and one that
reads for each node, and the bytes that went in and came out. -/
structure Traffic : Type where
  mpbs : Mpbs
  /-- what the call that writes to a node still has to copy; `[]` between calls -/
  src : ℕ → List Byte
  /-- the call that reads from a node -/
  reading : ℕ → Option Reading
  sent : ℕ → List Byte
  appended : ℕ → List Byte
  delivered : ℕ → List Byte

/-- A core, the node whose area it works on, and what it does. -/
abbrev TrafficOp : Type := ℕ × ℕ × FifoOp

/-- One step. -/
inductive TrafficStep : Traffic → TrafficOp → Traffic → Prop where
  | begin {s : Traffic} (self node : ℕ) (msg : List Byte) : s.src node = [] →
      0 < msg.length → msg.length < bSize →
      TrafficStep s (self, node, .begin msg) { s with
        mpbs := s.mpbs.beginAt self node
        src := Function.update s.src node msg
        sent := Function.update s.sent node (s.sent node ++ msg) }
  | write {s : Traffic} {M : Mpbs} {src : List Byte} (self node : ℕ) : s.src node ≠ [] →
      s.mpbs.writeAt self node (s.src node) = .ok (M, src) →
      TrafficStep s (self, node, .write) { s with
        mpbs := M
        src := Function.update s.src node src
        appended := Function.update s.appended node
          (s.appended node ++ (s.src node).take ((s.src node).length - src.length)) }
  | snapshot {s : Traffic} (self node size : ℕ) : s.reading node = none →
      TrafficStep s (self, node, .snapshot size) { s with
        reading := Function.update s.reading node (some (s.mpbs.snapshotAt node size)) }
  | copy {s : Traffic} {r r' : Reading} (self node : ℕ) : s.reading node = some r → r.left ≠ 0 →
      s.mpbs.copyAt node r = .ok r' →
      TrafficStep s (self, node, .copy) { s with
        reading := Function.update s.reading node (some r') }
  | publish {s : Traffic} {r : Reading} (self node : ℕ) : s.reading node = some r → r.left = 0 →
      TrafficStep s (self, node, .publish) { s with
        mpbs := s.mpbs.publishAt self node r
        reading := Function.update s.reading node none
        delivered := Function.update s.delivered node (s.delivered node ++ r.dst) }

/-- Every core has run `SccInit`, over any contents of the areas. -/
def Traffic.initial (M : Mpbs) : Traffic :=
  ⟨fun node => M.sccInit node node, fun _ => [], fun _ => none, fun _ => [], fun _ => [],
    fun _ => []⟩

/-! ## What an area shows -/

/-- The buffer in an area. -/
def Area.view (a : Area) : Mpb where
  buf i := a (bStart + i)
  start := a.start
  stop := a.stop
  writing := a.writing != 0

/-- The offsets that the functions write to. -/
def Used (i : ℕ) : Prop :=
  i = 0 ∨ (bOffset ≤ i ∧ i < bOffset + 4) ∨ i = bOffset + 5 ∨ (bStart ≤ i ∧ i < mpbSize)

section View

variable {a b : Area} {M : Mpbs} {self node n i j v e : ℕ} {x : Byte} {xs : List Byte}

theorem get16_set16 (hv : v < 65536) : (a.set16 i v).get16 i = v := by
  have hlow : (a.set16 i v) i = Fin.ofNat 256 v := by
    rw [Area.set16, Function.update_of_ne (by omega), Function.update_self]
  have hhigh : (a.set16 i v) (i + 1) = Fin.ofNat 256 (v / 256) := Function.update_self ..
  rw [Area.get16, hlow, hhigh, Fin.val_ofNat, Fin.val_ofNat]
  omega

theorem set16_of_ne (hj : j ≠ i) (hj' : j ≠ i + 1) : (a.set16 i v) j = a j := by
  rw [Area.set16, Function.update_of_ne hj', Function.update_of_ne hj]

theorem get16_congr (h : b i = a i) (h' : b (i + 1) = a (i + 1)) : b.get16 i = a.get16 i := by
  rw [Area.get16, Area.get16, h, h']

theorem bStart_add_ne (hi : i < bStart) : bStart + n ≠ i := by omega

/-- The view depends on nothing in front of `B_OFFSET`, nor on `HANDLING`. -/
theorem view_congr (h : ∀ i, i ≠ 0 → i ≠ bOffset + 4 → b i = a i) : b.view = a.view := by
  rw [Area.view, Area.view, Mpb.mk.injEq]
  refine ⟨funext fun i => h _ (bStart_add_ne (by decide)) (bStart_add_ne (by decide)),
    get16_congr (h _ (by decide) (by decide)) (h _ (by decide) (by decide)),
    get16_congr (h _ (by decide) (by decide)) (h _ (by decide) (by decide)), ?_⟩
  rw [Area.writing, Area.writing, h _ (by decide) (by decide)]

theorem view_setWriting : (a.setWriting x).view = { a.view with writing := x != 0 } := by
  have hne : ∀ {i}, i ≠ bOffset + 5 → a.setWriting x i = a i := fun h => Function.update_of_ne h ..
  rw [Area.view, Area.view, Mpb.mk.injEq]
  refine ⟨funext fun i => hne (bStart_add_ne (by decide)),
    get16_congr (hne (by decide)) (hne (by decide)),
    get16_congr (hne (by decide)) (hne (by decide)), ?_⟩
  rw [Area.writing, Area.setWriting, Function.update_self]

theorem view_setHandling : (a.setHandling x).view = a.view :=
  view_congr fun _ _ hi => Function.update_of_ne hi ..

theorem view_setStart (hv : v < 65536) : (a.setStart v).view = { a.view with start := v } := by
  have hne : ∀ {i}, i ≠ bOffset → i ≠ bOffset + 1 → a.setStart v i = a i := set16_of_ne
  rw [Area.view, Area.view, Mpb.mk.injEq]
  refine ⟨funext fun i => hne (bStart_add_ne (by decide)) (bStart_add_ne (by decide)),
    get16_set16 hv, get16_congr (hne (by decide) (by decide)) (hne (by decide) (by decide)), ?_⟩
  rw [Area.writing, hne (by decide) (by decide)]
  rfl

theorem view_setStop (hv : v < 65536) : (a.setStop v).view = { a.view with stop := v } := by
  have hne : ∀ {i}, i ≠ bOffset + 2 → i ≠ bOffset + 2 + 1 → a.setStop v i = a i := set16_of_ne
  rw [Area.view, Area.view, Mpb.mk.injEq]
  refine ⟨funext fun i => hne (bStart_add_ne (by decide)) (bStart_add_ne (by decide)),
    get16_congr (hne (by decide) (by decide)) (hne (by decide) (by decide)), get16_set16 hv, ?_⟩
  rw [Area.writing, hne (by decide) (by decide)]
  rfl

theorem view_putAt :
    Area.view (putAt a (bStart + e) xs) = { a.view with buf := putAt a.view.buf e xs } := by
  have hne : ∀ {i}, i < bStart → putAt a (bStart + e) xs i = a i := fun h => putAt_of_lt (by omega)
  rw [Area.view, Area.view, Mpb.mk.injEq]
  refine ⟨funext fun i => ?_, get16_congr (hne (by decide)) (hne (by decide)),
    get16_congr (hne (by decide)) (hne (by decide)), ?_⟩
  · rw [putAt, putAt, Nat.add_sub_add_left]
    exact if_congr (Nat.add_le_add_iff_left) rfl rfl
  · rw [Area.writing, hne (by decide)]
    rfl

theorem fool_of_ne (hi : i ≠ 0) : M.fool self n i = M n i := by
  rw [Mpbs.fool, Mpbs.set]
  by_cases hn : n = self
  · rw [hn, Function.update_self, Function.update_of_ne hi]
  · rw [Function.update_of_ne hn]

theorem view_fool : (M.fool self n).view = (M n).view := view_congr fun _ hi _ => fool_of_ne hi

/-- Core `self` has changed one area. -/
theorem view_set_self : ((M.set node a).fool self node).view = a.view := by
  rw [view_fool, Mpbs.set, Function.update_self]

theorem view_set_of_ne (hn : n ≠ node) : ((M.set node a).fool self n).view = (M n).view := by
  rw [view_fool, Mpbs.set, Function.update_of_ne hn]

/-! ### One node -/

/-- `free` is what `Mpb.free` says. -/
theorem free_eq (hstop : a.stop < bSize) (size : ℕ) :
    Mpbs.free a size = a.view.free size := by
  have hs : a.view.start = a.start := rfl
  have he : a.view.stop = a.stop := rfl
  rw [Mpbs.free, Mpb.free, hs, he]
  split
  · omega
  · split <;> omega

theorem view_beginAt :
    (M.beginAt self node node).view = { (M node).view with writing := true } := by
  rw [Mpbs.beginAt, view_set_self, view_setWriting]
  rfl

theorem mod_bSize_lt (i : ℕ) : i % bSize < 65536 := (Nat.mod_lt _ Mpb.bSize_pos).trans (by decide)

/-- How much an iteration copies. -/
theorem Mpb.length_sub_writeIter (m : Mpb) (src : List Byte) :
    src.length - (m.writeIter src).2.length = m.free src.length := by
  have hle := m.free_le_size src.length
  rw [Mpb.writeIter]
  split
  · next h0 => rw [h0, Nat.sub_self]
  · rw [List.length_drop]
    omega

/-- In an area that holds a queue, an iteration of the writer does not fault, and does what
`Mpb.writeIter` says. -/
theorem writeAt_eq {q : List Byte} (self : ℕ) (h : (M node).view.Holds q) (src : List Byte) :
    ∃ M', M.writeAt self node src = .ok (M', ((M node).view.writeIter src).2) ∧
      (M' node).view = ((M node).view.writeIter src).1 ∧
      ∀ n, n ≠ node → (M' n).view = (M n).view := by
  have hfree : Mpbs.free (M node) src.length = (M node).view.free src.length :=
    free_eq h.last_lt src.length
  obtain ⟨-, hline⟩ := h.free_le src.length
  change (M node).stop + _ ≤ bSize at hline
  rw [Mpbs.writeAt, hfree]
  by_cases h0 : (M node).view.free src.length = 0
  · rw [if_pos (by exact_mod_cast h0), Mpb.writeIter, if_pos h0]
    exact ⟨M, rfl, rfl, fun _ _ => rfl⟩
  · have hsize : (bStart : ℤ) + (M node).stop + (M node).view.free src.length ≤ mpbSize := by
      have : bStart + bSize = mpbSize := rfl
      omega
    rw [if_neg (by exact_mod_cast h0), if_pos ⟨by omega, hsize⟩, Mpb.writeIter_eq rfl h0,
      Int.toNat_natCast]
    refine ⟨_, rfl, ?_, fun n hn => view_set_of_ne hn⟩
    rw [view_set_self, view_setWriting, view_setStop (mod_bSize_lt _), view_putAt, Mpb.put,
      List.length_take, Nat.min_eq_left (Mpb.free_le_size _ _)]
    rfl

/-- In an area that holds a queue, an iteration of a reader in the middle of it does not
fault, and does what `Mpb.readIter` says. -/
theorem copyAt_eq {q : List Byte} {r : Reading} (h : (M node).view.Holds q)
    (hr : (M node).view.Reads q r) :
    M.copyAt node r = .ok ((M node).view.readIter r) := by
  obtain ⟨hline, -⟩ := hr.cpy_le h
  have hcpy : Mpbs.cpy r = r.cpy := by
    rw [Mpbs.cpy, Reading.cpy]
    split <;> omega
  have hsize : (bStart : ℤ) + r.start + r.cpy ≤ mpbSize := by
    have : bStart + bSize = mpbSize := rfl
    omega
  rw [Mpbs.copyAt, hcpy, if_pos ⟨by omega, hsize⟩, Int.toNat_natCast, Mpb.readIter]
  congr 3
  refine List.map_congr_left fun i _ => ?_
  rw [Nat.add_assoc]
  rfl

theorem view_publishAt {r : Reading} (hr : r.start < bSize) :
    (M.publishAt self node r node).view = (M node).view.publish r := by
  rw [Mpbs.publishAt, view_set_self, view_setStart (hr.trans (by decide))]
  rfl

theorem view_sccInit : (M.sccInit node node).view = Mpb.init fun i => M node (bStart + i) := by
  rw [Mpbs.sccInit, view_set_self, view_setWriting,
    view_setHandling, view_setStop (by decide), view_setStart (by decide)]
  rfl

/-! ### The rest of the areas -/

/-- Nothing but what the functions write to is different. -/
def Kept (M M' : Mpbs) : Prop := ∀ n i, ¬ Used i → M' n i = M n i

theorem kept_fool (h : ∀ i, ¬ Used i → a i = M node i) : Kept M ((M.set node a).fool self) := by
  intro n i hi
  rw [fool_of_ne fun h0 => hi (Or.inl h0), Mpbs.set]
  by_cases hn : n = node
  · rw [hn, Function.update_self, h i hi]
  · rw [Function.update_of_ne hn]

theorem setWriting_of_not_used (hi : ¬ Used i) : a.setWriting x i = a i :=
  Function.update_of_ne (fun h => hi (Or.inr (Or.inr (Or.inl h)))) ..

theorem setStart_of_not_used (hi : ¬ Used i) : a.setStart v i = a i :=
  set16_of_ne (fun h => hi (Or.inr (Or.inl (by omega)))) fun h => hi (Or.inr (Or.inl (by omega)))

theorem setStop_of_not_used (hi : ¬ Used i) : a.setStop v i = a i :=
  set16_of_ne (fun h => hi (Or.inr (Or.inl (by omega)))) fun h => hi (Or.inr (Or.inl (by omega)))

theorem putAt_of_not_used (hi : ¬ Used i) (hline : bStart + e + xs.length ≤ mpbSize) :
    putAt a (bStart + e) xs i = a i := by
  rcases Nat.lt_or_ge i (bStart + e) with hlt | hge
  · exact putAt_of_lt hlt
  · exact putAt_of_le (Nat.le_of_not_lt fun hlt =>
      hi (Or.inr (Or.inr (Or.inr (by omega)))))

theorem kept_writeAt {M' : Mpbs} {src src' : List Byte}
    (h : M.writeAt self node src = .ok (M', src')) : Kept M M' := by
  rw [Mpbs.writeAt] at h
  split at h
  · obtain ⟨rfl, -⟩ := Prod.mk.inj (Except.ok.inj h)
    exact fun _ _ _ => rfl
  · split at h
    · next hroom =>
      obtain ⟨rfl, -⟩ := Prod.mk.inj (Except.ok.inj h)
      refine kept_fool fun i hi => ?_
      rw [setWriting_of_not_used hi, setStop_of_not_used hi, putAt_of_not_used hi]
      have := List.length_take_le (Mpbs.free (M node) src.length).toNat src
      omega
    · cases h

end View

/-! ## Every area is a queue -/

/-- The buffer of one node and the calls that work on it. -/
def Traffic.at (s : Traffic) (node : ℕ) : Fifo :=
  ⟨(s.mpbs node).view, s.src node, s.reading node, s.sent node, s.appended node,
    s.delivered node⟩

/-- Every read asks for at most what is stored at its snapshot. -/
def TrafficOk (s : Traffic) : TrafficOp → Prop
  | (_, node, op) => AsksStored (s.at node) op

section Runs

variable {s s' : Traffic} {self node : ℕ} {op : FifoOp} {q : List Byte} {M : Mpbs}

/-- What a step on one area leaves alone. -/
structure Local (s : Traffic) (node : ℕ) (s' : Traffic) : Prop where
  others : ∀ n, n ≠ node → s'.at n = s.at n
  kept : Kept s.mpbs s'.mpbs

theorem Traffic.at_eq {n : ℕ} {m : Mpb} {src : List Byte} {reading : Option Reading}
    {sent appended delivered : List Byte} (hview : (s.mpbs n).view = m) (hsrc : s.src n = src)
    (hreading : s.reading n = reading) (hsent : s.sent n = sent) (happ : s.appended n = appended)
    (hdel : s.delivered n = delivered) :
    s.at n = ⟨m, src, reading, sent, appended, delivered⟩ := by
  rw [Traffic.at, hview, hsrc, hreading, hsent, happ, hdel]

theorem FifoStep.of_eq {f f' g : Fifo} (h : FifoStep f op f') (heq : g = f') : FifoStep f op g :=
  heq ▸ h

/-- **The areas simulate the buffers.** A step on a node's area is one of `FifoStep`, and
changes no other node's buffer. -/
theorem FifoHolds.simulates (h : FifoHolds q (s.at node))
    (hs : TrafficStep s (self, node, op) s') :
    FifoStep (s.at node) op (s'.at node) ∧ Local s node s' := by
  have hother : ∀ {α : Type} {f : ℕ → α} {x : α} {n : ℕ}, n ≠ node →
      Function.update f node x n = f n := fun hn => Function.update_of_ne hn ..
  cases hs with
  | begin _ _ msg hsrc hpos hlt =>
    refine ⟨?_, fun n hn => Traffic.at_eq (view_set_of_ne hn) (hother hn) rfl (hother hn) rfl rfl,
      kept_fool fun i hi => setWriting_of_not_used hi⟩
    exact (FifoStep.begin (s := s.at node) msg hsrc hpos hlt).of_eq
      (Traffic.at_eq view_beginAt (Function.update_self ..) rfl (Function.update_self ..) rfl rfl)
  | @write M src _ _ hsrc hret =>
    obtain ⟨M', hret', hview, hviews⟩ := writeAt_eq self h.holds (s.src node)
    obtain ⟨rfl, rfl⟩ := Prod.mk.inj (Except.ok.inj (hret'.symm.trans hret))
    refine ⟨?_, fun n hn => Traffic.at_eq (hviews n hn) (hother hn) rfl rfl (hother hn) rfl,
      kept_writeAt hret⟩
    refine (FifoStep.write (s := s.at node) hsrc).of_eq
      (Traffic.at_eq hview (Function.update_self ..) rfl rfl ?_ rfl)
    rw [Mpb.length_sub_writeIter]
    exact Function.update_self ..
  | snapshot _ _ size hr =>
    refine ⟨?_, fun n hn => Traffic.at_eq rfl rfl (hother hn) rfl rfl rfl, fun _ _ _ => rfl⟩
    exact (FifoStep.snapshot (s := s.at node) size hr).of_eq
      (Traffic.at_eq rfl rfl (Function.update_self ..) rfl rfl rfl)
  | copy _ _ hr hleft hret =>
    rw [copyAt_eq h.holds (h.reading _ hr)] at hret
    obtain rfl := Except.ok.inj hret
    refine ⟨?_, fun n hn => Traffic.at_eq rfl rfl (hother hn) rfl rfl rfl, fun _ _ _ => rfl⟩
    exact (FifoStep.copy (s := s.at node) hr hleft).of_eq
      (Traffic.at_eq rfl rfl (Function.update_self ..) rfl rfl rfl)
  | @publish r _ _ hr hleft =>
    have hlt : r.start < bSize := by
      rw [(h.reading _ hr).start]
      exact Nat.mod_lt _ Mpb.bSize_pos
    refine ⟨?_, fun n hn => Traffic.at_eq (view_set_of_ne hn) rfl (hother hn) rfl rfl (hother hn),
      kept_fool fun i hi => setStart_of_not_used hi⟩
    exact (FifoStep.publish (s := s.at node) hr hleft).of_eq
      (Traffic.at_eq (view_publishAt hlt) rfl (Function.update_self ..) rfl rfl
        (Function.update_self ..))

/-- The invariant. -/
structure TrafficHolds (M : Mpbs) (s : Traffic) : Prop where
  queue : ∀ n, ∃ q, FifoHolds q (s.at n)
  kept : Kept M s.mpbs

theorem TrafficHolds.step (hI : TrafficHolds M s) (hok : TrafficOk s (self, node, op))
    (hs : TrafficStep s (self, node, op) s') : TrafficHolds M s' := by
  obtain ⟨q, hq⟩ := hI.queue node
  obtain ⟨hstep, hlocal⟩ := hq.simulates hs
  refine ⟨fun n => ?_, fun n i hi => (hlocal.kept n i hi).trans (hI.kept n i hi)⟩
  by_cases hn : n = node
  · rw [hn]
    exact hq.step hok hstep
  · rw [hlocal.others n hn]
    exact hI.queue n

theorem trafficHolds_initial (M : Mpbs) :
    TrafficHolds (Traffic.initial M).mpbs (Traffic.initial M) := by
  refine ⟨fun n => ⟨[], ?_, rfl, rfl, fun r hr => by cases hr⟩, fun _ _ _ => rfl⟩
  change (M.sccInit n n).view.Holds []
  rw [view_sccInit]
  exact Mpb.holds_init _

/-- **Every node's area is a first-in-first-out queue**, for writers and readers on any
cores and in any interleaving in which one call at a time writes to a node and one reads from
it, and reads ask for what is stored; no copy reaches beyond an area, and `HANDLING` and the
bytes that have no use stay as they are. -/
theorem traffic_fifo (M : Mpbs)
    (h : Reach (Guarded TrafficStep TrafficOk) (Traffic.initial M) s) :
    ∀ n, FifoOk (s.at n) ∧
      (∀ self, ∃ out, s.mpbs.writeAt self n (s.src n) = .ok out) ∧
      (∀ r, s.reading n = some r → ∃ r', s.mpbs.copyAt n r = .ok r') ∧
      ∀ i, ¬ Used i → s.mpbs n i = (Traffic.initial M).mpbs n i := by
  have hI := h.invariant (I := TrafficHolds (Traffic.initial M).mpbs) (trafficHolds_initial M)
    fun s op s' hI hs => hI.step hs.1 hs.2
  intro n
  obtain ⟨q, hq⟩ := hI.queue n
  refine ⟨hq.ok, fun self => ?_, fun r hr => ⟨_, copyAt_eq hq.holds (hq.reading r hr)⟩,
    fun i hi => hI.kept n i hi⟩
  obtain ⟨M', hret, -⟩ := writeAt_eq self hq.holds (s.src n)
  exact ⟨_, hret⟩

/-- Core 1 writes three bytes to node 0's area, core 0 reads two of them. -/
theorem traffic_fifo_demo :
    ∃ s : Traffic, s.delivered 0 = [1, 2] ∧ (s.mpbs 0).stop = 3 ∧ FifoOk (s.at 0) := by
  have r₀ : Reach (Guarded TrafficStep TrafficOk) (Traffic.initial fun _ _ => 0) _ := Reach.init
  have r₁ := r₀.next (a := (1, 0, FifoOp.begin [1, 2, 3]))
    ⟨trivial, .begin 1 0 [1, 2, 3] rfl (by decide) (by decide)⟩
  have r₂ := r₁.next (a := (1, 0, FifoOp.write)) ⟨trivial, .write 1 0 (by decide) rfl⟩
  have r₃ := r₂.next (a := (0, 0, FifoOp.snapshot 2))
    ⟨Nat.le_of_ble_eq_true rfl, .snapshot 0 0 2 rfl⟩
  have r₄ := r₃.next (a := (0, 0, FifoOp.copy)) ⟨trivial, .copy 0 0 rfl (by decide) rfl⟩
  have r₅ := r₄.next (a := (0, 0, FifoOp.publish)) ⟨trivial, .publish 0 0 rfl rfl⟩
  exact ⟨_, rfl, rfl, (traffic_fifo _ r₅ 0).1⟩

end Runs

end SccShm
