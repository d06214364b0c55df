import SccShm.FreeSpec

/-!
# Runs of the shared heap

Clients allocate with `SCCMallocPtr`, write into the payloads of their blocks
and return them with `SCCFreePtr`, in any order.

* `HeapStep` is one such action; the blocks in use are kept beside the heap.
* `Holds a s others`: the heap of `s` represents the arena `a`, in which the
  blocks of `s` and the ranges `others` of somebody else are live. Each action
  keeps it for some arena (`Holds.malloc`, `Holds.free`, `Owns.write`).
* `heap_safe`: blocks in use are never handed out twice nor touched by the
  allocator, as long as no `SCCFreePtr` is given a block that ends where the
  only free block begins. `heap_unsafe` is a run in which one is.
-/

namespace SccShm

/-! ## Clients -/

/-- A block in use. -/
structure Held : Type where
  /-- the unit of its header -/
  block : ℕ
  /-- the request it was allocated for, in bytes -/
  size : ℕ
  deriving DecidableEq

namespace Held

/-- Header and payload, in units. -/
def units (b : Held) : ℕ := nunits b.size

/-- What `SCCMallocPtr` returned. -/
def ptr (b : Held) : ℕ := b.block + 1

theorem units_pos (b : Held) : 0 < b.units := Nat.succ_pos _

end Held

/-- A heap together with the blocks in use. -/
structure HeapState : Type where
  heap : Heap
  live : List Held

/-- What can happen to the heap. -/
inductive HeapOp : Type where
  /-- `SCCMallocPtr(size)` -/
  | malloc (size : ℕ)
  /-- `SCCFreePtr` on a block in use -/
  | free (b : Held)
  /-- a client stores `v` in unit `u` of its block -/
  | write (b : Held) (u : ℕ) (v : Block)

/-- `*u = v` by a client. -/
def Mem.poke (m : Mem) (u : ℕ) (v : Block) : Mem := ⟨Function.update m.cell u v, m.wrote⟩

theorem Mem.cell_poke_of_ne {m : Mem} {u x : ℕ} {v : Block} (h : x ≠ u) :
    (m.poke u v).cell x = m.cell x := Function.update_of_ne h ..

/-- One action of the clients. -/
inductive HeapStep : HeapState → HeapOp → HeapState → Prop where
  | malloc {s : HeapState} {p : ℕ} {h' : Heap} (size : ℕ) : size < wordSize →
      Returns (fun fuel => sccMallocPtr fuel size s.heap) (p, h') → p ≠ 0 →
      HeapStep s (.malloc size) ⟨h', ⟨p - 1, size⟩ :: s.live⟩
  | mallocNull {s : HeapState} {h' : Heap} (size : ℕ) : size < wordSize →
      Returns (fun fuel => sccMallocPtr fuel size s.heap) (0, h') →
      HeapStep s (.malloc size) ⟨h', s.live⟩
  | free {s : HeapState} {h' : Heap} (b : Held) : b ∈ s.live →
      Returns (fun fuel => sccFreePtr fuel b.ptr s.heap) h' →
      HeapStep s (.free b) ⟨h', s.live.erase b⟩
  | write {s : HeapState} (b : Held) (u : ℕ) (v : Block) : b ∈ s.live → b.block < u →
      u < b.block + b.units →
      HeapStep s (.write b u v) ⟨{ s.heap with mem := s.heap.mem.poke u v }, s.live⟩

/-- The state after `SCCInit(size)` with the window mapped at `loc`, over any
contents of memory. -/
def sccInitState (loc size : ℕ) (cell : ℕ → Block) : HeapState :=
  ⟨sccInitHeap loc size ⟨cell, []⟩, []⟩

/-- `SCCFreePtr` is not given a block that ends where the only free block begins. -/
def FreeOk (s : HeapState) : HeapOp → Prop
  | .free b => ¬ (b.block + b.units = s.heap.freeList ∧
      (s.heap.mem.cell s.heap.freeList).next = s.heap.freeList)
  | _ => True

theorem freeOk_malloc (s : HeapState) (size : ℕ) : FreeOk s (.malloc size) := trivial

theorem freeOk_of_ne {s : HeapState} {b : Held} (h : b.block + b.units ≠ s.heap.freeList) :
    FreeOk s (.free b) := fun hb => h hb.1

/-! ## Safety -/

/-- The blocks that following the links from `freeList` reaches. -/
inductive OnList (h : Heap) : ℕ → Prop where
  | head : h.freeList ≠ 0 → OnList h h.freeList
  | next {c : ℕ} : OnList h c → (h.mem.cell c).next ≠ 0 → OnList h (h.mem.cell c).next

/-- No unit belongs to two blocks in use, or to one in use and one on the list. -/
structure Safe (s : HeapState) : Prop where
  live : s.live.Pairwise fun b c => Apart b.block b.units c.block c.units
  onList : ∀ b ∈ s.live, ∀ c, OnList s.heap c →
    Apart b.block b.units c (s.heap.mem.cell c).size

/-- A call changes no unit of a block that is in use before and after it. -/
def Untouched (s s' : HeapState) : Prop :=
  ∀ b ∈ s.live, b ∈ s'.live → ∀ u, b.block ≤ u → u < b.block + b.units →
    s'.heap.mem.cell u = s.heap.mem.cell u

/-- The action is a call of the allocator. -/
def HeapOp.isCall : HeapOp → Prop
  | .write .. => False
  | _ => True

/-! ## The invariant -/

variable {lo hi : ℕ}

/-- The memory of `s` represents `a`; live in it are the blocks of `s` and the
ranges `others`. -/
structure Owns (a : Arena lo hi) (s : HeapState) (others : ℕ → ℕ → Prop) : Prop where
  mem : s.heap.mem.Reps a
  live : ∀ i n, a.Live i n ↔ (∃ b ∈ s.live, b.block = i ∧ b.units = n) ∨ others i n
  apart : ∀ b ∈ s.live, ∀ n, ¬ others b.block n
  distinct : (s.live.map Held.block).Nodup

/-- Moreover `freeList` heads the list. -/
structure Holds (a : Arena lo hi) (s : HeapState) (others : ℕ → ℕ → Prop) : Prop
    extends Owns a s others where
  head : Heads s.heap.freeList a.starts

/-- The range belongs to nobody else. -/
def nobody : ℕ → ℕ → Prop := fun _ _ => False

section Holds

variable {a : Arena lo hi} {s : HeapState} {others : ℕ → ℕ → Prop} {b c : Held}

theorem Holds.reps (hI : Holds a s others) : s.heap.Reps a := ⟨hI.mem, hI.head⟩

theorem Owns.liveAt (hI : Owns a s others) (hb : b ∈ s.live) : a.Live b.block b.units :=
  (hI.live _ _).mpr (Or.inl ⟨b, hb, rfl, rfl⟩)

/-- The header of a block in use has its length. -/
theorem Owns.size_eq (hI : Owns a s others) (hb : b ∈ s.live) :
    (s.heap.mem.cell b.block).size = b.units := hI.mem.size _ (hI.liveAt hb)

theorem Owns.eq_of_block (hI : Owns a s others) (hb : b ∈ s.live) (hc : c ∈ s.live)
    (h : b.block = c.block) : b = c :=
  List.inj_on_of_nodup_map hI.distinct hb hc h

/-- The list reaches free pieces only. -/
theorem OnList.mem_starts {h : Heap} (hr : h.Reps a) {x : ℕ} (hx : OnList h x) :
    x ∈ a.starts := by
  induction hx with
  | head hne => exact hr.head.mem_of_ne hne
  | next _ _ ih => exact (hr.mem.links _ ih).right

theorem Holds.safe (hI : Holds a s others) : Safe s := by
  refine ⟨?_, fun b hb c hc => ?_⟩
  · have hd : s.live.Pairwise fun b c => b.block ≠ c.block := List.pairwise_map.mp hI.distinct
    refine hd.imp_of_mem fun {b c} hb hc hne => ?_
    rcases (hI.liveAt hb).apart (hI.liveAt hc) with heq | hle
    · exact absurd heq.1 hne
    · exact apart_of_le hle
  · obtain ⟨k, hk⟩ := Arena.mem_starts.mp (hc.mem_starts hI.reps)
    have hsize : (s.heap.mem.cell c).size = k := hI.reps.mem.size _ hk
    rw [hsize]
    exact apart_of_le ((hI.liveAt hb).apart_free hk)

/-! ### Each action keeps it -/

/-- `SCCMallocPtr` gives up with nothing changed, or takes the first block that
is large enough. -/
theorem Holds.malloc (hlo : 0 < lo) (hI : Holds a s others) {size p : ℕ} {h' : Heap}
    (hret : Returns (fun fuel => sccMallocPtr fuel size s.heap) (p, h')) :
    (p = 0 ∧ h' = s.heap) ∨
    ∃ (i : ℕ) (a' : Arena lo hi) (ws : List ℕ), p = i + 1 ∧ a.Allocates i (nunits size) a' ∧
      Holds a' ⟨h', ⟨i, size⟩ :: s.live⟩ others ∧ s.heap.mem.Writes ws h'.mem ∧
      (∀ u ∈ ws, ∃ p ∈ a.pieces, p.free = true ∧ u ∈ p) ∧
      (∀ u ∈ ws, ∃ p ∈ a'.pieces, p.start = u) ∧
      FirstFit s.heap.mem s.heap.freeList (nunits size)
        (s.heap.mem.cell s.heap.freeList).next i := by
  rcases hI.head with hf | ⟨-, h0⟩
  · obtain ⟨r, h₁, hret₁, hcase⟩ := sccMallocPtr_spec hlo hI.reps hf size
    have heq := hret.unique (sccMallocPtr_fuelMono size s.heap) hret₁
    simp only [Prod.mk.injEq] at heq
    obtain ⟨rfl, rfl⟩ := heq
    rcases hcase with ⟨hp, hh, -⟩ | ⟨i, hp, ⟨a', ws, hall, hreps, hw, hws, hws'⟩, hfit⟩
    · exact Or.inl ⟨hp, hh⟩
    · refine Or.inr ⟨i, a', ws, hp, hall, ⟨⟨hreps.mem, ?_, ?_, ?_⟩, hreps.head⟩, hw, hws,
        hws', hfit⟩
      · intro j k
        rw [hall.2.2, hI.live]
        simp only [List.mem_cons, exists_eq_or_imp, Held.units, eq_comm (a := j),
          eq_comm (a := k)]
        rw [or_comm, ← or_assoc]
      · intro b hb k ho
        rcases List.mem_cons.mp hb with rfl | hb
        · exact hall.fresh ((hI.live _ _).mpr (Or.inr ho))
        · exact hI.apart b hb k ho
      · rw [List.map_cons, List.nodup_cons]
        refine ⟨fun hmem => ?_, hI.distinct⟩
        obtain ⟨b, hb, hbi⟩ := List.mem_map.mp hmem
        have hl := hI.liveAt hb
        rw [hbi] at hl
        exact hall.fresh hl
  · obtain ⟨fuel, hfuel⟩ := hret
    simp [sccMallocPtr, h0, Mem.load_null] at hfuel

/-- `SCCFreePtr` gives back the block. -/
theorem Holds.free (hlo : 0 < lo) (hI : Holds a s others) (hb : b ∈ s.live)
    (hok : FreeOk s (.free b)) {h' : Heap}
    (hret : Returns (fun fuel => sccFreePtr fuel b.ptr s.heap) h') :
    ∃ (a' : Arena lo hi) (ws : List ℕ), a.Releases b.block b.units a' ∧
      Holds a' ⟨h', s.live.erase b⟩ others ∧ s.heap.mem.Writes ws h'.mem ∧
      ∀ u ∈ ws, u = b.block ∨ u ∈ a.starts := by
  obtain ⟨h₁, hret₁, a', ws, hrel, hreps, hw, hws⟩ :=
    sccFreePtr_spec hlo hI.reps (hI.liveAt hb) hok
  obtain rfl := hret.unique (sccFreePtr_fuelMono _ s.heap) hret₁
  have hnd : s.live.Nodup := hI.distinct.of_map _
  have hmem : ∀ c, c ∈ s.live.erase b ↔ c ≠ b ∧ c ∈ s.live := fun c => hnd.mem_erase_iff
  refine ⟨a', ws, hrel, ⟨⟨hreps.mem, ?_, ?_, ?_⟩, hreps.head⟩, hw, hws⟩
  · intro j k
    rw [hrel.2, hI.live]
    refine ⟨?_, ?_⟩
    · rintro ⟨⟨c, hc, rfl, rfl⟩ | ho, hne⟩
      · exact Or.inl ⟨c, (hmem c).mpr ⟨fun heq => hne (by rw [heq]; exact ⟨rfl, rfl⟩), hc⟩,
          rfl, rfl⟩
      · exact Or.inr ho
    · rintro (⟨c, hc, rfl, rfl⟩ | ho)
      · obtain ⟨hne, hc⟩ := (hmem c).mp hc
        exact ⟨Or.inl ⟨c, hc, rfl, rfl⟩, fun heq => hne (hI.eq_of_block hc hb heq.1)⟩
      · refine ⟨Or.inr ho, ?_⟩
        rintro ⟨rfl, rfl⟩
        exact hI.apart b hb _ ho
  · exact fun c hc => hI.apart c ((hmem c).mp hc).2
  · exact hI.distinct.sublist (List.erase_sublist.map _)

/-- Only the headers matter. -/
theorem Mem.Reps.congr {m m' : Mem} (hr : m.Reps a)
    (heq : ∀ p ∈ a.pieces, m'.cell p.start = m.cell p.start) : m'.Reps a := by
  refine ⟨fun p hp => ?_, fun b hb => ?_⟩
  · rw [heq p hp, hr.size p hp]
  · obtain ⟨k, hk⟩ := Arena.mem_starts.mp hb
    rw [heq _ hk]
    exact hr.links b hb

/-- Writing into a payload leaves every header alone. -/
theorem Mem.Reps.poke {m : Mem} (hr : m.Reps a) {i n u : ℕ} (hl : a.Live i n) (hlt : i < u)
    (hu : u < i + n) (v : Block) : (m.poke u v).Reps a := by
  apply hr.congr
  intro p hp
  apply Mem.cell_poke_of_ne
  intro heq
  have hpos := (a.tiles.bounds hp).2.1
  have hlp := a.tiles.eq_of_mem hl hp (u := p.start)
    ⟨by change i ≤ _; omega, by rw [Piece.stop_mk]; omega⟩ (Piece.start_mem hpos)
  rw [← hlp] at heq
  change i = u at heq
  omega

theorem Owns.write (hI : Owns a s others) (hb : b ∈ s.live) {u : ℕ} (hlt : b.block < u)
    (hu : u < b.block + b.units) (v : Block) :
    Owns a ⟨{ s.heap with mem := s.heap.mem.poke u v }, s.live⟩ others :=
  ⟨hI.mem.poke (hI.liveAt hb) hlt hu v, hI.live, hI.apart, hI.distinct⟩

/-- One action: the invariant holds again, and an allocator call leaves every
other block in use alone. -/
theorem Holds.step (hlo : 0 < lo) (hI : Holds a s others) {op : HeapOp} {s' : HeapState}
    (hok : FreeOk s op) (hs : HeapStep s op s') :
    (∃ a' : Arena lo hi, Holds a' s' others) ∧ (op.isCall → Untouched s s') := by
  cases hs with
  | malloc _ _ hret hp =>
    rcases hI.malloc hlo hret with ⟨hp0, -⟩ | ⟨i, a', ws, rfl, hall, hI', hw, hws, -, -⟩
    · exact absurd hp0 hp
    · refine ⟨⟨a', hI'⟩, fun _ c hc _ u hle hlt => hw.frame u fun hu => ?_⟩
      obtain ⟨q, hq, hqf, huq⟩ := hws u hu
      have heq := a.tiles.eq_of_mem (hI.liveAt hc) hq ⟨hle, hlt⟩ huq
      rw [← heq] at hqf
      cases hqf
  | mallocNull _ _ hret =>
    rcases hI.malloc hlo hret with ⟨-, rfl⟩ | ⟨i, _, _, hp, -⟩
    · exact ⟨⟨a, hI⟩, fun _ c _ _ u _ _ => rfl⟩
    · exact absurd hp.symm (Nat.succ_ne_zero i)
  | free b hb hret =>
    obtain ⟨a', ws, hrel, hI', hw, hws⟩ := hI.free hlo hb hok hret
    refine ⟨⟨a', hI'⟩, fun _ c hc hc' u hle hlt => hw.frame u fun hu => ?_⟩
    have hne : c ≠ b := ((hI.distinct.of_map _).mem_erase_iff.mp hc').1
    rcases hws u hu with rfl | hu
    · rcases (hI.liveAt hc).apart (hI.liveAt hb) with heq | hle' | hle'
      · exact hne (hI.eq_of_block hc hb heq.1)
      · omega
      · have := b.units_pos
        omega
    · obtain ⟨k, hk⟩ := Arena.mem_starts.mp hu
      have := hk.bounds
      rcases (hI.liveAt hc).apart_free hk with hle' | hle' <;> omega
  | write _ _ _ hb hlt hu => exact ⟨⟨a, hI.write hb hlt hu _, hI.head⟩, fun hcall => hcall.elim⟩

end Holds

/-! ## The initial heap -/

theorem heapUnits_of_lt {size : ℕ} (h : size < 256) : heapUnits size = size * 2 ^ 21 := by
  rw [heapUnits, pageSize, wordSize, sizeofBlock, Nat.mod_eq_of_lt (by omega)]
  omega

theorem heapBase_pos (loc : ℕ) : 0 < heapBase loc := by
  rw [heapBase, sizeofBlock]
  omega

theorem heapBase_lt (loc : ℕ) {size : ℕ} (hpos : 0 < size) (h : size < 256) :
    heapBase loc < heapBase loc + heapUnits size := by
  rw [heapUnits_of_lt h]
  omega

/-- `SCCInit` leaves one free block. -/
theorem sccInitHeap_reps (loc : ℕ) {size : ℕ} (hpos : 0 < size) (h : size < 256) (m : Mem) :
    (sccInitHeap loc size m).Reps (Arena.whole (heapBase_lt loc hpos h)) := by
  have hstarts : (Arena.whole (heapBase_lt loc hpos h)).starts = {heapBase loc} := rfl
  refine ⟨⟨fun p hp => ?_, fun b hb => ?_⟩, Or.inl ?_⟩
  · obtain rfl : p = _ := List.mem_singleton.mp hp
    simp [sccInitHeap]
  · rw [hstarts, Finset.mem_singleton] at hb
    have hnext : ((sccInitHeap loc size m).mem.cell b).next = b := by
      rw [hb]
      simp [sccInitHeap]
    rw [hstarts, hnext, hb]
    exact CycSucc.singleton _
  · rw [hstarts]
    exact Finset.mem_singleton_self _

theorem holds_sccInit (loc : ℕ) {size : ℕ} (hpos : 0 < size) (h : size < 256)
    (cell : ℕ → Block) :
    Holds (Arena.whole (heapBase_lt loc hpos h)) (sccInitState loc size cell) nobody := by
  have hr := sccInitHeap_reps loc hpos h ⟨cell, []⟩
  exact ⟨⟨hr.mem, by simp [sccInitState, nobody], by simp [sccInitState],
    by simp [sccInitState]⟩, hr.head⟩

/-! ## Runs -/

/-- In every run from `SCCInit` in which no `SCCFreePtr` is given a block that ends where
the only free block begins, the invariant holds. -/
theorem holds_of_reach {loc size : ℕ} (hpos : 0 < size) (hsize : size < 256)
    {cell : ℕ → Block} {s : HeapState}
    (h : Reach (Guarded HeapStep FreeOk) (sccInitState loc size cell) s) :
    ∃ a : Arena (heapBase loc) (heapBase loc + heapUnits size), Holds a s nobody :=
  h.invariant (I := fun s => ∃ a : Arena (heapBase loc) (heapBase loc + heapUnits size),
      Holds a s nobody)
    ⟨_, holds_sccInit loc hpos hsize cell⟩
    fun _ _ _ ⟨_, hI⟩ hs => (hI.step (heapBase_pos loc) hs.1 hs.2).1

/-- **Blocks in use are safe.** In every run from `SCCInit` in which no
`SCCFreePtr` is given a block that ends where the only free block begins, blocks
in use overlap neither each other nor the free list, and no call of the
allocator changes them. -/
theorem heap_safe {loc size : ℕ} (hpos : 0 < size) (hsize : size < 256) (cell : ℕ → Block)
    {s : HeapState} (h : Reach (Guarded HeapStep FreeOk) (sccInitState loc size cell) s) :
    Safe s ∧ ∀ op s', Guarded HeapStep FreeOk s op s' → op.isCall → Untouched s s' := by
  obtain ⟨a, hI⟩ := holds_of_reach hpos hsize h
  exact ⟨hI.safe, fun op s' hs => (hI.step (heapBase_pos loc) hs.1 hs.2).2⟩

/-- Two of four blocks from the heap of `SCCInit(30)` are given back; the second free merges
their units. -/
theorem heap_safe_two :
    ∃ s, s.live = [⟨321559049, 8⟩, ⟨321559047, 8⟩] ∧
      (s.heap.mem.cell 321559042).size = 5 ∧ Safe s := by
  have r₀ : Reach (Guarded HeapStep FreeOk) (sccInitState 2572472320 30 fun _ => ⟨0, 0⟩) _ :=
    Reach.init
  have r₁ := r₀.next ⟨freeOk_malloc _ 8, HeapStep.malloc 8 (by decide) ⟨1, rfl⟩ (by decide)⟩
  have r₂ := r₁.next ⟨freeOk_malloc _ 16, HeapStep.malloc 16 (by decide) ⟨1, rfl⟩ (by decide)⟩
  have r₃ := r₂.next ⟨freeOk_malloc _ 8, HeapStep.malloc 8 (by decide) ⟨1, rfl⟩ (by decide)⟩
  have r₄ := r₃.next ⟨freeOk_malloc _ 8, HeapStep.malloc 8 (by decide) ⟨1, rfl⟩ (by decide)⟩
  have r₅ := r₄.next ⟨freeOk_of_ne (b := ⟨321559042, 8⟩) (by decide),
    HeapStep.free _ (by decide) ⟨1, rfl⟩⟩
  have r₆ := r₅.next ⟨freeOk_of_ne (b := ⟨321559044, 16⟩) (by decide),
    HeapStep.free _ (by decide) ⟨2, rfl⟩⟩
  exact ⟨_, rfl, rfl, (heap_safe (by decide) (by decide) _ r₆).1⟩

/-- A run in which `SCCFreePtr` is given such a block: after `SCCInit(30)`, the
block of the second allocation contains the header `freeList` points to. -/
theorem heap_unsafe :
    ∃ s, Reach HeapStep (sccInitState 2572472320 30 fun _ => ⟨0, 0⟩) s ∧ ¬ Safe s := by
  have r₀ : Reach HeapStep (sccInitState 2572472320 30 fun _ => ⟨0, 0⟩) _ := Reach.init
  have r₁ := r₀.next (HeapStep.malloc 8 (by decide) ⟨1, rfl⟩ (by decide))
  have r₂ := r₁.next (HeapStep.free ⟨321559042, 8⟩ List.mem_cons_self ⟨1, rfl⟩)
  have r₃ := r₂.next (HeapStep.malloc 16 (by decide) ⟨1, rfl⟩ (by decide))
  refine ⟨_, r₃, fun hsafe => ?_⟩
  have := hsafe.onList ⟨321559042, 16⟩ List.mem_cons_self 321559044 (.head (by decide)) 321559044
  revert this
  decide

end SccShm
