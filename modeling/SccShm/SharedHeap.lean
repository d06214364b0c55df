import SccShm.HeapRuns

/-!
# The heap on several cores

Every core maps the same pages at the same address, so the headers are shared;
the variable `freeList` is not, and every core's `SCCInit` sets up the heap anew.

* `SharedStep` — the cores' calls in any order, each call atomic.
* `shared_apart` — blocks of different cores are disjoint as long as a core calls
  the allocator only when its `freeList` still heads the list, and runs
  `SCCInit` only while no block is in use.
* `shared_overlap` — two cores that each initialise and allocate.
-/

namespace SccShm

/-- The shared memory and what each core knows about it. -/
structure Shared (κ : Type) : Type where
  /-- the pages all windows show -/
  mem : Mem
  /-- the core has run `SCCInit` -/
  started : κ → Bool
  /-- the core's variable `freeList` -/
  freeList : κ → ℕ
  /-- the core's blocks in use -/
  live : κ → List Held

namespace Shared

variable {κ : Type} [DecidableEq κ]

/-- The heap as core `c` sees it. -/
def view (s : Shared κ) (c : κ) : HeapState := ⟨⟨s.mem, s.freeList c⟩, s.live c⟩

/-- Core `c` has made the heap it sees `v`. -/
def update (s : Shared κ) (c : κ) (v : HeapState) : Shared κ where
  mem := v.heap.mem
  started := s.started
  freeList := Function.update s.freeList c v.heap.freeList
  live := Function.update s.live c v.live

/-- Core `c` runs `SCCInit(size)`. -/
def init (s : Shared κ) (loc size : ℕ) (c : κ) : Shared κ where
  mem := (sccInitHeap loc size s.mem).mem
  started := Function.update s.started c true
  freeList := Function.update s.freeList c (sccInitHeap loc size s.mem).freeList
  live := s.live

/-- Before any core has started, over any contents of memory. -/
def initial (κ : Type) (cell : ℕ → Block) : Shared κ :=
  ⟨⟨cell, []⟩, fun _ => false, fun _ => 0, fun _ => []⟩

/-- `[i, i + n)` is a block in use on some core. -/
def Live (s : Shared κ) (i n : ℕ) : Prop := ∃ c, ∃ b ∈ s.live c, b.block = i ∧ b.units = n

end Shared

/-- What a core can do. -/
inductive SharedOp (κ : Type) : Type where
  /-- run `SCCInit` -/
  | init (c : κ)
  /-- act on its view of the heap -/
  | act (c : κ) (op : HeapOp)

variable {κ : Type} [DecidableEq κ]

/-- One call of one core: `SCCInit` once, then anything. -/
inductive SharedStep (loc size : ℕ) : Shared κ → SharedOp κ → Shared κ → Prop where
  | init {s : Shared κ} (c : κ) : s.started c = false →
      SharedStep loc size s (.init c) (s.init loc size c)
  | act {s : Shared κ} {op : HeapOp} {v : HeapState} (c : κ) : s.started c = true →
      HeapStep (s.view c) op v → SharedStep loc size s (.act c op) (s.update c v)

/-- The variable points to the start of a maximal stretch of the heap that no
block in use touches, or is `NULL` and there is none. -/
def Heading (L : ℕ → ℕ → Prop) (loc size f : ℕ) : Prop :=
  (∃ k, IsGap L (heapBase loc) (heapBase loc + heapUnits size) f k) ∨
    (f = 0 ∧ ∀ u, heapBase loc ≤ u → u < heapBase loc + heapUnits size → Covered L u)

/-- `SCCInit` runs only while no block is in use; the allocator is called only by
a core whose `freeList` heads the list, and not to free a block that ends where
the only free block begins. -/
def SharedOk (loc size : ℕ) (s : Shared κ) : SharedOp κ → Prop
  | .init _ => ∀ c, s.live c = []
  | .act c op => (op.isCall → Heading s.Live loc size (s.freeList c)) ∧ FreeOk (s.view c) op

/-! ## The invariant -/

section Invariant

variable {lo hi loc size : ℕ} {a : Arena lo hi} {s : Shared κ} {c : κ}

/-- The shared memory represents `a`, in which just the blocks of the cores are live. -/
structure SharedHolds (a : Arena lo hi) (s : Shared κ) : Prop where
  mem : s.mem.Reps a
  live : ∀ i n, a.Live i n ↔ s.Live i n
  apart : ∀ c d, c ≠ d → ∀ b ∈ s.live c, ∀ b' ∈ s.live d, b.block ≠ b'.block
  distinct : ∀ c, ((s.live c).map Held.block).Nodup

/-- The blocks of the cores other than `c`. -/
def Shared.others (s : Shared κ) (c : κ) (i n : ℕ) : Prop :=
  ∃ d, d ≠ c ∧ ∃ b ∈ s.live d, b.block = i ∧ b.units = n

theorem Shared.live_iff (s : Shared κ) (c : κ) (i n : ℕ) :
    s.Live i n ↔ (∃ b ∈ s.live c, b.block = i ∧ b.units = n) ∨ s.others c i n := by
  refine ⟨?_, ?_⟩
  · rintro ⟨d, b, hb, heq⟩
    by_cases hdc : d = c
    · rw [hdc] at hb
      exact Or.inl ⟨b, hb, heq⟩
    · exact Or.inr ⟨d, hdc, b, hb, heq⟩
  · rintro (⟨b, hb, heq⟩ | ⟨d, -, b, hb, heq⟩)
    · exact ⟨c, b, hb, heq⟩
    · exact ⟨d, b, hb, heq⟩

theorem SharedHolds.owns (hI : SharedHolds a s) (c : κ) : Owns a (s.view c) (s.others c) := by
  refine ⟨hI.mem, fun i n => ?_, ?_, hI.distinct c⟩
  · rw [hI.live, s.live_iff c]
    rfl
  · rintro b hb n ⟨d, hdc, b', hb', heq, -⟩
    exact hI.apart d c hdc b' hb' b hb heq

@[simp] theorem Shared.live_update_self (v : HeapState) : (s.update c v).live c = v.live :=
  Function.update_self ..

theorem Shared.freeList_update_self (v : HeapState) :
    (s.update c v).freeList c = v.heap.freeList :=
  Function.update_self ..

theorem Shared.live_update_of_ne {d : κ} (hd : d ≠ c) (v : HeapState) :
    (s.update c v).live d = s.live d :=
  Function.update_of_ne hd ..

/-- What a core does to its view it does to the shared heap. -/
theorem SharedHolds.update {b : Arena lo hi} {v : HeapState} (hI : SharedHolds a s)
    (hv : Owns b v (s.others c)) : SharedHolds b (s.update c v) := by
  have hothers : ∀ i n, (s.update c v).others c i n ↔ s.others c i n := fun i n =>
    exists_congr fun d => and_congr_right fun hd => by rw [Shared.live_update_of_ne hd]
  refine ⟨hv.mem, fun i n => ?_, fun d e hde x hx y hy => ?_, fun d => ?_⟩
  · rw [hv.live, (s.update c v).live_iff c, hothers, Shared.live_update_self]
  · by_cases hd : d = c
    · subst hd
      rw [Shared.live_update_self] at hx
      rw [Shared.live_update_of_ne (Ne.symm hde)] at hy
      intro heq
      exact hv.apart x hx y.units ⟨e, Ne.symm hde, y, hy, heq.symm, rfl⟩
    · rw [Shared.live_update_of_ne hd] at hx
      by_cases he : e = c
      · subst he
        rw [Shared.live_update_self] at hy
        intro heq
        exact hv.apart y hy x.units ⟨d, hd, x, hx, heq, rfl⟩
      · rw [Shared.live_update_of_ne he] at hy
        exact hI.apart d e hde x hx y hy
  · by_cases hd : d = c
    · subst hd
      rw [Shared.live_update_self]
      exact hv.distinct
    · rw [Shared.live_update_of_ne hd]
      exact hI.distinct d

theorem Heading.heads {L : ℕ → ℕ → Prop} {f : ℕ}
    {a : Arena (heapBase loc) (heapBase loc + heapUnits size)} (hL : a.Live = L)
    (h : Heading L loc size f) : Heads f a.starts := by
  subst hL
  rcases h with ⟨k, hk⟩ | ⟨h0, hcov⟩
  · exact Or.inl (Arena.mem_starts.mpr ⟨k, Arena.free_iff_gap.mpr hk⟩)
  · refine Or.inr ⟨Finset.eq_empty_of_forall_notMem fun i hi => ?_, h0⟩
    obtain ⟨k, hk⟩ := Arena.mem_starts.mp hi
    have hgap := hk.isGap
    have := hk.bounds
    exact hgap.empty i (le_refl _) (by omega) (hcov i (by omega) (by omega))

theorem Heads.heading {L : ℕ → ℕ → Prop} {f : ℕ}
    {a : Arena (heapBase loc) (heapBase loc + heapUnits size)} (hL : a.Live = L)
    (h : Heads f a.starts) : Heading L loc size f := by
  subst hL
  rcases h with hf | ⟨hempty, h0⟩
  · obtain ⟨k, hk⟩ := Arena.mem_starts.mp hf
    exact Or.inl ⟨k, hk.isGap⟩
  · refine Or.inr ⟨h0, fun u hlo hhi => ?_⟩
    obtain ⟨p, hp, hu⟩ := a.tiles.cover hlo hhi
    cases hpf : p.free with
    | false => exact Arena.covered_iff.mpr ⟨p, hp, hpf, hu⟩
    | true =>
      have hmem := Arena.start_mem_starts hp hpf
      rw [hempty] at hmem
      simp at hmem

omit [DecidableEq κ] in
theorem SharedHolds.live_eq (hI : SharedHolds a s) : a.Live = s.Live :=
  funext fun i => funext fun n => propext (hI.live i n)

/-- An action keeps the shared heap in order, and the `freeList` of a core that
has called the allocator heads the list again. -/
theorem SharedHolds.act {a : Arena (heapBase loc) (heapBase loc + heapUnits size)}
    (hI : SharedHolds a s) {op : HeapOp} {v : HeapState}
    (hok : SharedOk loc size s (.act c op)) (hs : HeapStep (s.view c) op v) :
    (∃ a' : Arena (heapBase loc) (heapBase loc + heapUnits size),
      SharedHolds a' (s.update c v)) ∧
    (op.isCall → Heading (s.update c v).Live loc size v.heap.freeList) := by
  by_cases hcall : op.isCall
  · have hv : Holds a (s.view c) (s.others c) := ⟨hI.owns c, (hok.1 hcall).heads hI.live_eq⟩
    obtain ⟨⟨a', hv'⟩, -⟩ := hv.step (heapBase_pos loc) hok.2 hs
    have hI' := hI.update hv'.toOwns
    exact ⟨⟨a', hI'⟩, fun _ => hv'.head.heading hI'.live_eq⟩
  · -- a client's store; the variable `freeList` plays no part
    cases hs with
    | write b u w hb hlt hu =>
      exact ⟨⟨a, hI.update ((hI.owns c).write hb hlt hu w)⟩, fun h => absurd h hcall⟩
    | malloc => exact absurd trivial hcall
    | mallocNull => exact absurd trivial hcall
    | free => exact absurd trivial hcall

omit [DecidableEq κ] in
/-- While no block is in use, the first header heads the list. -/
theorem heading_of_none (hpos : 0 < size) (hsize : size < 256) (h : ∀ c, s.live c = []) :
    Heading s.Live loc size (heapBase loc) := by
  have hnone : ∀ u, ¬ Covered s.Live u := by
    rintro u ⟨i, k, ⟨c, b, hb, -⟩, -⟩
    simp [h] at hb
  have := heapBase_lt loc hpos hsize
  exact Or.inl ⟨heapUnits size, by omega, le_refl _, le_refl _, fun u _ _ => hnone u,
    Or.inl rfl, Or.inl rfl⟩

theorem sharedHolds_init (hpos : 0 < size) (hsize : size < 256) (h : ∀ c, s.live c = [])
    (c : κ) : SharedHolds (Arena.whole (heapBase_lt loc hpos hsize)) (s.init loc size c) := by
  have hl : ∀ d, (s.init loc size c).live d = [] := h
  refine ⟨(sccInitHeap_reps loc hpos hsize s.mem).mem, fun i n => ?_, fun d e _ b hb => ?_,
    fun d => ?_⟩
  · simp [Shared.Live, hl]
  · simp [hl] at hb
  · simp [hl]

/-- Nothing has happened yet, or the shared memory represents an arena. -/
def SharedInv (loc size : ℕ) (s : Shared κ) : Prop :=
  (∀ c, s.started c = false ∧ s.live c = []) ∨
    ∃ a : Arena (heapBase loc) (heapBase loc + heapUnits size), SharedHolds a s

theorem SharedInv.step (hpos : 0 < size) (hsize : size < 256) {op : SharedOp κ}
    {s' : Shared κ} (hI : SharedInv loc size s) (hok : SharedOk loc size s op)
    (hs : SharedStep loc size s op s') : SharedInv loc size s' := by
  cases hs with
  | init c _ => exact Or.inr ⟨_, sharedHolds_init hpos hsize hok c⟩
  | act c hstarted hstep =>
    rcases hI with hI | ⟨a, hI⟩
    · rw [(hI c).1] at hstarted
      cases hstarted
    · exact Or.inr (hI.act hok hstep).1

end Invariant

/-! ## Runs -/

/-- Blocks in use on different cores have no unit in common. -/
def CoresApart (s : Shared κ) : Prop :=
  ∀ c d, c ≠ d → ∀ b ∈ s.live c, ∀ b' ∈ s.live d, Apart b.block b.units b'.block b'.units

theorem sharedInv_of_reach {loc size : ℕ} (hpos : 0 < size) (hsize : size < 256)
    {cell : ℕ → Block} {s : Shared κ}
    (h : Reach (Guarded (SharedStep loc size) (SharedOk loc size)) (Shared.initial κ cell) s) :
    SharedInv loc size s :=
  h.invariant (I := SharedInv loc size) (Or.inl fun _ => ⟨rfl, rfl⟩)
    fun _ _ _ hI hs => hI.step hpos hsize hs.1 hs.2

/-- A core whose `freeList` heads the list may call the allocator, and once more
after that. -/
theorem call_then_heading {loc size : ℕ} (hpos : 0 < size) (hsize : size < 256)
    {cell : ℕ → Block} {s : Shared κ} {c : κ} {op : HeapOp} {v : HeapState}
    (h : Reach (Guarded (SharedStep loc size) (SharedOk loc size)) (Shared.initial κ cell) s)
    (hstarted : s.started c = true) (hhead : Heading s.Live loc size (s.freeList c))
    (hfree : FreeOk (s.view c) op) (hs : HeapStep (s.view c) op v) (hcall : op.isCall) :
    Reach (Guarded (SharedStep loc size) (SharedOk loc size)) (Shared.initial κ cell)
        (s.update c v) ∧
      Heading (s.update c v).Live loc size ((s.update c v).freeList c) := by
  have hok : SharedOk loc size s (.act c op) := ⟨fun _ => hhead, hfree⟩
  refine ⟨h.next ⟨hok, SharedStep.act c hstarted hs⟩, ?_⟩
  rcases sharedInv_of_reach hpos hsize h with hI | ⟨a, hI⟩
  · rw [(hI c).1] at hstarted
    cases hstarted
  · rw [Shared.freeList_update_self]
    exact (hI.act hok hs).2 hcall

/-- **Cores do not share blocks**, in every run in which `SCCInit` runs only
while no block is in use and the allocator is called only by a core whose
`freeList` heads the list. -/
theorem shared_apart {loc size : ℕ} (hpos : 0 < size) (hsize : size < 256)
    (cell : ℕ → Block) {s : Shared κ}
    (h : Reach (Guarded (SharedStep loc size) (SharedOk loc size)) (Shared.initial κ cell) s) :
    CoresApart s := by
  have hinv := sharedInv_of_reach hpos hsize h
  intro c d hcd b hb b' hb'
  rcases hinv with hI | ⟨a, hI⟩
  · rw [(hI c).2] at hb
    cases hb
  · have hl : a.Live b.block b.units := (hI.live _ _).mpr ⟨c, b, hb, rfl, rfl⟩
    have hl' : a.Live b'.block b'.units := (hI.live _ _).mpr ⟨d, b', hb', rfl, rfl⟩
    rcases hl.apart hl' with heq | hle
    · exact absurd heq.1 (hI.apart c d hcd b hb b' hb')
    · exact apart_of_le hle

/-- Core 0 has two blocks and frees the first of them, to which core 1's `freeList` still
points. -/
theorem exists_freed : ∃ (s : Shared (Fin 2)) (h' : Heap),
    Reach (Guarded (SharedStep 2572472320 30) (SharedOk 2572472320 30))
      (Shared.initial (Fin 2) fun _ => ⟨5, 7⟩) s ∧
    s.started 1 = true ∧ s.live 0 = [⟨321559044, 8⟩] ∧ s.live 1 = [] ∧
    s.mem.cell 321559045 = ⟨5, 7⟩ ∧ Heading s.Live 2572472320 30 (s.freeList 1) ∧
    Returns (fun fuel => sccMallocPtr fuel 8 (s.view 1).heap) (321559047, h') := by
  have r₀ : Reach (Guarded (SharedStep 2572472320 30) (SharedOk 2572472320 30))
    (Shared.initial (Fin 2) fun _ => ⟨5, 7⟩) _ := Reach.init
  have r₁ := r₀.next (a := SharedOp.init 0) ⟨fun _ => rfl, .init 0 rfl⟩
  have r₂ := r₁.next (a := SharedOp.init 1) ⟨fun _ => rfl, .init 1 rfl⟩
  obtain ⟨r₃, h₃⟩ := call_then_heading (by decide) (by decide) (c := 0) r₂ rfl
    (heading_of_none (by decide) (by decide) fun _ => rfl)
    (freeOk_malloc _ 8) (HeapStep.malloc 8 (by decide) ⟨1, rfl⟩ (by decide)) trivial
  obtain ⟨r₄, h₄⟩ := call_then_heading (by decide) (by decide) (c := 0) r₃ rfl h₃
    (freeOk_malloc _ 8) (HeapStep.malloc 8 (by decide) ⟨1, rfl⟩ (by decide)) trivial
  obtain ⟨r₅, -⟩ := call_then_heading (by decide) (by decide) (c := 0) r₄ rfl h₄
    (freeOk_of_ne (b := ⟨321559042, 8⟩) (by decide))
    (HeapStep.free ⟨321559042, 8⟩ (by decide) ⟨2, rfl⟩) trivial
  refine ⟨_, _, r₅, rfl, rfl, rfl, rfl, Or.inl ⟨2, ?_⟩, ⟨2, rfl⟩⟩
  -- the freed block lies before the one core 0 still has
  refine ⟨by decide, by decide, by decide, ?_, Or.inl rfl, Or.inr ?_⟩
  · rintro u hle hlt ⟨i, k, ⟨c, b, hb, rfl, rfl⟩, hi, -⟩
    obtain rfl : b = ⟨321559044, 8⟩ := by
      match c, hb with
      | 0, hb => exact List.mem_singleton.mp hb
      | 1, hb => exact absurd hb List.not_mem_nil
    change 321559044 ≤ u at hi
    change u < 321559042 + 2 at hlt
    omega
  · exact ⟨321559044, 2, ⟨0, ⟨321559044, 8⟩, List.mem_singleton.mpr rfl, rfl, rfl⟩,
      by decide, by decide⟩

/-- Two cores, the second of which allocates behind the block that the first still has. -/
theorem shared_apart_two :
    ∃ s : Shared (Fin 2), s.live 0 ≠ [] ∧ s.live 1 ≠ [] ∧ CoresApart s := by
  obtain ⟨s, h', r, hstarted, h₀, h₁, -, hhead, hret⟩ := exists_freed
  have r' := (call_then_heading (by decide) (by decide) r hstarted hhead (freeOk_malloc _ 8)
    (HeapStep.malloc 8 (by decide) hret (by decide)) trivial).1
  refine ⟨_, ?_, ?_, shared_apart (by decide) (by decide) _ r'⟩
  · rw [Shared.live_update_of_ne Fin.zero_ne_one, h₀]
    exact List.cons_ne_nil _ _
  · rw [Shared.live_update_self]
    exact List.cons_ne_nil _ _

/-- Two cores that run `SCCInit` and then allocate eight bytes each: they get the
same block. -/
theorem shared_overlap :
    ∃ s, Reach (SharedStep 2572472320 30) (Shared.initial (Fin 2) fun _ => ⟨0, 0⟩) s ∧
      ¬ CoresApart s := by
  have r₀ : Reach (SharedStep 2572472320 30) (Shared.initial (Fin 2) fun _ => ⟨0, 0⟩) _ :=
    Reach.init
  have r₁ := r₀.next (SharedStep.init 0 rfl)
  have r₂ := r₁.next (SharedStep.init 1 rfl)
  have r₃ := r₂.next (SharedStep.act 0 rfl (HeapStep.malloc 8 (by decide) ⟨1, rfl⟩ (by decide)))
  have r₄ := r₃.next (SharedStep.act 1 rfl (HeapStep.malloc 8 (by decide) ⟨1, rfl⟩ (by decide)))
  refine ⟨_, r₄, fun hapart => ?_⟩
  have := hapart 0 1 (by decide) ⟨321559042, 8⟩ List.mem_cons_self ⟨321559042, 8⟩
    List.mem_cons_self 321559042
  revert this
  decide

/-! ## What a block contains -/

section Contents

variable {lo hi loc size : ℕ} {a : Arena lo hi} {s s' : Shared κ} {d : κ} {b : Held}

omit [DecidableEq κ] in
/-- A call of the allocator leaves what is live alone, whoever has it, except for the block
that it frees. -/
theorem Holds.frame (hlo : 0 < lo) {v v' : HeapState} {others : ℕ → ℕ → Prop}
    (hI : Holds a v others) {op : HeapOp} (hok : FreeOk v op) (hs : HeapStep v op v')
    (hcall : op.isCall) {i n u : ℕ} (hl : a.Live i n) (hkeep : ∀ b, op = .free b → b.block ≠ i)
    (hle : i ≤ u) (hlt : u < i + n) : v'.heap.mem.cell u = v.heap.mem.cell u := by
  have hfree : ∀ q ∈ a.pieces, q.free = true → u ∉ q := by
    intro q hq hqf huq
    rw [← a.tiles.eq_of_mem hl hq ⟨hle, hlt⟩ huq] at hqf
    cases hqf
  cases hs with
  | malloc _ _ hret hp =>
    rcases hI.malloc hlo hret with ⟨hp0, -⟩ | ⟨j, a', ws, rfl, -, -, hw, hws, -⟩
    · exact absurd hp0 hp
    · refine hw.frame u fun hu => ?_
      obtain ⟨q, hq, hqf, huq⟩ := hws u hu
      exact hfree q hq hqf huq
  | mallocNull _ _ hret =>
    rcases hI.malloc hlo hret with ⟨-, rfl⟩ | ⟨j, _, _, hp, -⟩
    · rfl
    · exact absurd hp.symm (Nat.succ_ne_zero j)
  | free c hc hret =>
    obtain ⟨a', ws, -, -, hw, hws⟩ := hI.free hlo hc hok hret
    refine hw.frame u fun hu => ?_
    rcases hws u hu with rfl | hu
    · have := c.units_pos
      rcases hl.apart (hI.liveAt hc) with heq | hle' | hle'
      · exact hkeep c rfl heq.1.symm
      · omega
      · omega
    · obtain ⟨q, hq, hqf, huq⟩ := a.exists_free hu
      exact hfree q hq hqf huq
  | write => exact hcall.elim

/-- The step neither frees the block `b` of core `d` nor stores into it. -/
def Spares (d : κ) (b : Held) (_ : Shared κ) (op : SharedOp κ) : Prop :=
  op ≠ .act d (.free b) ∧ ∀ u v, op ≠ .act d (.write b u v)

/-- A block that is spared stays in use. -/
theorem mem_live_step (hb : b ∈ s.live d) {op : SharedOp κ} (hspares : Spares d b s op)
    (hs : SharedStep loc size s op s') : b ∈ s'.live d := by
  cases hs with
  | init => exact hb
  | @act op v c _ hstep =>
    by_cases hdc : d = c
    · subst hdc
      rw [Shared.live_update_self]
      cases hstep with
      | malloc => exact List.mem_cons_of_mem _ hb
      | mallocNull | write => exact hb
      | free b' _ _ =>
        refine (List.mem_erase_of_ne ?_).mpr hb
        rintro rfl
        exact hspares.1 rfl
    · rw [Shared.live_update_of_ne hdc]
      exact hb

/-- And its contents do not change. -/
theorem SharedInv.untouched (hI : SharedInv loc size s) (hb : b ∈ s.live d) {op : SharedOp κ}
    (hok : SharedOk loc size s op) (hspares : Spares d b s op)
    (hs : SharedStep loc size s op s') {u : ℕ} (hle : b.block ≤ u)
    (hlt : u < b.block + b.units) : s'.mem.cell u = s.mem.cell u := by
  cases hs with
  | init c _ =>
    rw [hok d] at hb
    cases hb
  | @act op v c hstarted hstep =>
    rcases hI with hI | ⟨a, hI⟩
    · rw [(hI c).1] at hstarted
      cases hstarted
    have hl : a.Live b.block b.units := (hI.live _ _).mpr ⟨d, b, hb, rfl, rfl⟩
    -- another block in use begins elsewhere
    have hother : ∀ b' ∈ s.live c, (c = d → b' ≠ b) → b'.block ≠ b.block := by
      intro b' hb' hne heq
      by_cases hcd : c = d
      · subst hcd
        exact hne rfl (List.inj_on_of_nodup_map (hI.distinct c) hb' hb heq)
      · exact hI.apart c d hcd b' hb' b hb heq
    by_cases hcall : op.isCall
    · have hv : Holds a (s.view c) (s.others c) := ⟨hI.owns c, (hok.1 hcall).heads hI.live_eq⟩
      refine hv.frame (heapBase_pos loc) hok.2 hstep hcall hl ?_ hle hlt
      rintro b' rfl
      have hb' : b' ∈ s.live c := by
        cases hstep with
        | free _ hb' _ => exact hb'
      refine hother b' hb' ?_
      rintro rfl rfl
      exact hspares.1 rfl
    · cases hstep with
      | @write b' w x hb' hlo hhi =>
        apply Mem.cell_poke_of_ne
        rintro rfl
        have hne : b'.block ≠ b.block := by
          refine hother b' hb' ?_
          rintro rfl rfl
          exact hspares.2 _ _ rfl
        have hl' : a.Live b'.block b'.units := (hI.live _ _).mpr ⟨c, b', hb', rfl, rfl⟩
        rcases hl.apart hl' with heq | hapart | hapart
        · exact hne heq.1.symm
        · omega
        · omega
      | malloc | mallocNull | free => exact absurd trivial hcall

/-- **What a core stores in its block stays there**, whatever the other cores do: in a run as
in `shared_apart`, a block in use stays in use and keeps its contents until its core frees
it or stores into it. -/
theorem shared_kept (hpos : 0 < size) (hsize : size < 256) (cell : ℕ → Block)
    (h : Reach (Guarded (SharedStep loc size) (SharedOk loc size)) (Shared.initial κ cell) s)
    (hb : b ∈ s.live d)
    (h' : Reach (Guarded (Guarded (SharedStep loc size) (SharedOk loc size)) (Spares d b)) s s') :
    b ∈ s'.live d ∧ ∀ u, b.block ≤ u → u < b.block + b.units →
      s'.mem.cell u = s.mem.cell u := by
  have hI := h'.invariant (I := fun s' => SharedInv loc size s' ∧ b ∈ s'.live d ∧
      ∀ u, b.block ≤ u → u < b.block + b.units → s'.mem.cell u = s.mem.cell u)
    ⟨sharedInv_of_reach hpos hsize h, hb, fun _ _ _ => rfl⟩ ?_
  · exact hI.2
  · rintro t op t' ⟨hI, hbt, hkept⟩ ⟨hspares, hok, hs⟩
    refine ⟨hI.step hpos hsize hok hs, mem_live_step hbt hspares hs, fun u hle hlt => ?_⟩
    rw [hI.untouched hbt hok hspares hs hle hlt, hkept u hle hlt]

/-- The payload of the block of core 0, while core 1 allocates one and stores into it. -/
theorem shared_kept_demo :
    ∃ s : Shared (Fin 2), ⟨321559044, 8⟩ ∈ s.live 0 ∧ s.live 1 = [⟨321559046, 8⟩] ∧
      s.mem.cell 321559047 = ⟨1, 1⟩ ∧ s.mem.cell 321559045 = ⟨5, 7⟩ := by
  obtain ⟨s, h', r, hstarted, h₀, h₁, hcell, hhead, hret⟩ := exists_freed
  have r₀ : Reach (Guarded (Guarded (SharedStep 2572472320 30) (SharedOk 2572472320 30))
      (Spares (0 : Fin 2) ⟨321559044, 8⟩)) s s := Reach.init
  have r₁ := r₀.next (a := SharedOp.act 1 (.malloc 8)) ⟨⟨by simp, by simp⟩,
    ⟨fun _ => hhead, freeOk_malloc _ 8⟩,
    .act 1 hstarted (HeapStep.malloc 8 (by decide) hret (by decide))⟩
  have r₂ := r₁.next (a := SharedOp.act 1 (.write ⟨321559046, 8⟩ 321559047 ⟨1, 1⟩))
    ⟨⟨by simp, by simp⟩, ⟨fun hcall => hcall.elim, trivial⟩,
    .act 1 hstarted (HeapStep.write _ _ _ (by simp [Shared.view]) (by decide) (by decide))⟩
  obtain ⟨hlive, hkept⟩ := shared_kept (by decide) (by decide) _ r (d := 0)
    (b := ⟨321559044, 8⟩) (h₀ ▸ List.mem_cons_self) r₂
  refine ⟨_, hlive, ?_, ?_, (hkept _ (by decide) (by decide)).trans hcell⟩
  · simp [Shared.view, h₁]
  · simp [Shared.update, Mem.poke]

end Contents

end SccShm
