import SccShm.HeapRuns
import SccShm.LutSpec

/-!
# Runs of the page table

Clients take runs of pages with `SCCMallocLut` and return them with `SCCFreeLut`.

* `Walk` is what `SCCMallocLut` does to find its way: from one head to the next.
* `LutOk`: the walk from entry `0` ends exactly at `remote_pages`; the runs it
  meets are the live ones and the gaps between them, and both tags of a run agree.
* `lut_ok`: this holds in every state, every call returns, and the runs depend on
  nothing but the live ones — where `SCCFreeLut` recovers the page it was given.
  With pointer differences of 32 bits it does so only below page 128
  (`spans_word32`), and `lut_fault` is a run in which it has to beyond.
-/

namespace SccShm

/-! ## Walking the table -/

/-- Going from head to head leads from entry `i` to entry `j` and meets the runs `ps`. -/
inductive Walk (t : LutTable) (j : ℕ) : ℕ → List Piece → Prop where
  | done : Walk t j j []
  | run {i : ℕ} {ps : List Piece} : i < j → 0 < (t.entry i).size →
      Walk t j (i + (t.entry i).size) ps →
      Walk t j i (⟨i, (t.entry i).size, (t.entry i).free⟩ :: ps)

/-- The walk is determined by its ends. -/
theorem Walk.unique {t : LutTable} {i j : ℕ} {ps qs : List Piece} (h : Walk t j i ps)
    (h' : Walk t j i qs) : ps = qs := by
  induction h generalizing qs with
  | done =>
    cases h' with
    | done => rfl
    | run hlt _ _ => exact absurd hlt (lt_irrefl _)
  | run hlt _ _ ih =>
    cases h' with
    | done => exact absurd hlt (lt_irrefl _)
    | run _ _ h' => rw [ih h']

theorem Walk.of_tiles {t : LutTable} {lo hi : ℕ} {ps : List Piece} (h : Tiles lo ps hi)
    (hhead : ∀ p ∈ ps, t.entry p.start = ⟨p.free, p.len⟩) : Walk t hi lo ps := by
  induction ps generalizing lo with
  | nil =>
    rw [tiles_nil] at h
    rw [h]
    exact Walk.done
  | cons p ps ih =>
    have hbounds := h.bounds List.mem_cons_self
    obtain ⟨rfl, hpos, ht⟩ := h
    have hp := hhead p List.mem_cons_self
    have hrest := ih ht fun q hq => hhead q (List.mem_cons_of_mem _ hq)
    have hrun : p.start < hi → 0 < (t.entry p.start).size →
        Walk t hi (p.start + (t.entry p.start).size) ps →
        Walk t hi p.start (⟨p.start, (t.entry p.start).size, (t.entry p.start).free⟩ :: ps) :=
      Walk.run
    rw [hp] at hrun
    refine hrun ?_ hpos hrest
    have := ht.le
    rw [Piece.stop] at this
    omega

/-! ## Clients -/

/-- The table together with the runs in use: first page and length. -/
structure LutRun : Type where
  table : LutTable
  live : List (ℕ × ℕ)

/-- What can happen to the table. -/
inductive LutOp : Type where
  /-- `SCCMallocLut(size)` -/
  | malloc (size : ℕ)
  /-- `SCCFreeLut` on the first page of a live run -/
  | free (r : ℕ × ℕ)

/-- One call that stays in the table; a call of `SCCFreeLut` that does not is a step of
`LutMemStep`. -/
inductive LutStep (A : PtrArith) (P : Placement) : LutRun → LutOp → LutRun → Prop where
  | malloc {s : LutRun} {lut : ℕ} {t' : LutTable} (size : ℕ) : 0 < size → size < wordSize →
      Returns (fun fuel => sccMallocLut P.remoteLut fuel size s.table) (lut, t') → lut ≠ 0 →
      LutStep A P s (.malloc size) ⟨t', (lut - P.remoteLut, size) :: s.live⟩
  | mallocFail {s : LutRun} {t' : LutTable} (size : ℕ) : 0 < size → size < wordSize →
      Returns (fun fuel => sccMallocLut P.remoteLut fuel size s.table) (0, t') →
      LutStep A P s (.malloc size) ⟨t', s.live⟩
  | free {s : LutRun} {t' : LutTable} (r : ℕ × ℕ) : r ∈ s.live →
      sccFreeLut A P (P.page r.1) s.table = .ok t' →
      LutStep A P s (.free r) ⟨t', s.live.erase r⟩

/-- The difference of the pointers to page `i` and to page `0` is what it should be. -/
def PtrArith.Spans (A : PtrArith) (i : ℕ) : Prop := A.diff (i * pageSize : ℕ) = (i * pageSize : ℕ)

/-- `SCCFreeLut` is given a run whose distance from `remote` a pointer difference can hold. -/
def LutFreeOk (A : PtrArith) (_ : LutRun) : LutOp → Prop
  | .free r => A.Spans r.1
  | .malloc _ => True

theorem spans_exact (i : ℕ) : PtrArith.exact.Spans i := rfl

/-- On the 32-bit cores these are the runs that begin below page 128. -/
theorem spans_word32 {i : ℕ} (hi : i < charSize) : PtrArith.word32.Spans i ↔ i < 128 := by
  have hw : (wordSize : ℤ) = 4294967296 := rfl
  have hp : pageSize = 16777216 := rfl
  rw [charSize] at hi
  rw [PtrArith.Spans, PtrArith.word32_diff, Int.bmod_def, hw, hp]
  split <;> omega

/-! ## The state of the table -/

/-- The walk over the table meets `ps`: the runs in use and the gaps between them. -/
structure LutOk (s : LutRun) (ps : List Piece) : Prop where
  /-- from entry `0` to exactly `remote_pages` -/
  walk : Walk s.table s.table.pages 0 ps
  live : ∀ i n, ⟨i, n, false⟩ ∈ ps ↔ (i, n) ∈ s.live
  free : ∀ i n, ⟨i, n, true⟩ ∈ ps ↔ IsGap (fun i n => (i, n) ∈ s.live) 0 s.table.pages i n
  /-- the last entry of a run repeats the first -/
  foot : ∀ p ∈ ps, s.table.entry (p.start + p.len - 1) = s.table.entry p.start
  /-- runs in use are disjoint and lie inside -/
  apart : s.live.Pairwise fun r r' => Apart r.1 r.2 r'.1 r'.2
  inside : ∀ r ∈ s.live, 0 < r.2 ∧ r.1 + r.2 ≤ s.table.pages
  /-- every page is in some run, and free runs are not neighbours -/
  tiles : Tiles 0 ps s.table.pages
  coalesced : Coalesced ps

/-- The invariant: the table shows an arena in which the runs in use are live. -/
structure LutHolds {n : ℕ} (a : Arena 0 n) (s : LutRun) : Prop where
  tagged : Tagged s.table a
  live : ∀ i k, a.Live i k ↔ (i, k) ∈ s.live
  distinct : (s.live.map Prod.fst).Nodup

section Steps

variable {n : ℕ} {a : Arena 0 n} {s s' : LutRun} {A : PtrArith} {P : Placement} {op : LutOp}

theorem LutHolds.ok (hI : LutHolds a s) : LutOk s a.pieces := by
  have hL : (fun i n => (i, n) ∈ s.live) = a.Live :=
    funext fun i => funext fun k => propext (hI.live i k).symm
  have hpages := hI.tagged.pages
  refine ⟨?_, hI.live, fun i k => ?_, fun p hp => ?_, ?_, fun r hr => ?_, ?_, a.coalesced⟩
  · rw [hpages]
    exact Walk.of_tiles a.tiles hI.tagged.head
  · rw [hL, hpages]
    exact Arena.free_iff_gap
  · have hfoot := hI.tagged.foot p hp
    rw [Piece.stop] at hfoot
    rw [hfoot, hI.tagged.head p hp]
  · have hd : s.live.Pairwise fun r r' => r.1 ≠ r'.1 := List.pairwise_map.mp hI.distinct
    refine hd.imp_of_mem fun {r r'} hr hr' hne => ?_
    rcases ((hI.live _ _).mpr hr).apart ((hI.live _ _).mpr hr') with heq | hle
    · exact absurd heq.1 hne
    · exact apart_of_le hle
  · have := ((hI.live r.1 r.2).mpr hr).bounds
    rw [hpages]
    omega
  · rw [hpages]
    exact a.tiles

/-- The invariant after an allocation. -/
theorem LutHolds.allocate (hI : LutHolds a s) {b : Arena 0 n} {i k : ℕ} {t' : LutTable}
    (hal : a.Allocates i k b) (ht' : Tagged t' b) : LutHolds b ⟨t', (i, k) :: s.live⟩ := by
  refine ⟨ht', fun j x => ?_, ?_⟩
  · rw [hal.2.2, hI.live, List.mem_cons, Prod.mk.injEq]
    exact or_comm
  · rw [List.map_cons, List.nodup_cons]
    refine ⟨fun hmem => ?_, hI.distinct⟩
    obtain ⟨⟨j, x⟩, hj, rfl⟩ := List.mem_map.mp hmem
    exact hal.fresh ((hI.live _ _).mpr hj)

/-- `SCCMallocLut` keeps the invariant. -/
theorem LutHolds.malloc (hn : n < charSize) (hpos : 0 < n) (hlut : P.remoteLut + n ≤ charSize)
    (hI : LutHolds a s) {size lut : ℕ} {t' : LutTable} (hsize : 0 < size)
    (hret : Returns (fun fuel => sccMallocLut P.remoteLut fuel size s.table) (lut, t')) :
    (lut = 0 ∧ t' = s.table) ∨ ∃ (i : ℕ) (b : Arena 0 n), lut = P.remoteLut + i ∧
      LutHolds b ⟨t', (i, size) :: s.live⟩ := by
  obtain ⟨r, t₁, hret₁, hcase⟩ := sccMallocLut_spec hpos hn hI.tagged hsize P.remoteLut
  have heq := hret.unique (loop_fuel_mono _ _) hret₁
  simp only [Prod.mk.injEq] at heq
  obtain ⟨rfl, rfl⟩ := heq
  rcases hcase with ⟨hr, ht, -⟩ | ⟨i, b, hr, hal, ht', -⟩
  · exact Or.inl ⟨hr, ht⟩
  · obtain ⟨m, hm, -⟩ := hal.2.1
    have := hm.bounds
    rw [Nat.mod_eq_of_lt (by omega)] at hr
    exact Or.inr ⟨i, b, hr, hI.allocate hal ht'⟩

/-- `SCCFreeLut` returns, and keeps the invariant. -/
theorem LutHolds.free (hn : n < charSize) (hI : LutHolds a s) {r : ℕ × ℕ} (hr : r ∈ s.live)
    (hspan : A.Spans r.1) :
    ∃ (t' : LutTable) (b : Arena 0 n), sccFreeLut A P (P.page r.1) s.table = .ok t' ∧
      LutHolds b ⟨t', s.live.erase r⟩ := by
  obtain ⟨i, k⟩ := r
  have hidx : P.pageIndex A (P.page i) = i := by
    have hdiff : P.page i - P.remote = ((i * pageSize : ℕ) : ℤ) := by
      simp only [Placement.page]
      omega
    rw [Placement.pageIndex, hdiff, hspan]
    push_cast
    exact Int.mul_tdiv_cancel _ (by decide)
  obtain ⟨t', b, hfree, hrel, ht'⟩ := sccFreeLut_spec hn hI.tagged ((hI.live _ _).mpr hr) A P hidx
  refine ⟨t', b, hfree, ht', fun j m => ?_, hI.distinct.sublist (List.erase_sublist.map _)⟩
  rw [hrel.2, hI.live, (hI.distinct.of_map _).mem_erase_iff, ne_eq, Prod.mk.injEq]
  exact and_comm

theorem LutHolds.step (hn : n < charSize) (hpos : 0 < n) (hlut : P.remoteLut + n ≤ charSize)
    (hI : LutHolds a s) (hok : LutFreeOk A s op) (hs : LutStep A P s op s') :
    ∃ b : Arena 0 n, LutHolds b s' := by
  cases hs with
  | malloc size hsize _ hret hne =>
    rcases hI.malloc hn hpos hlut hsize hret with ⟨h0, -⟩ | ⟨i, b, rfl, hI'⟩
    · exact absurd h0 hne
    · rw [Nat.add_sub_cancel_left]
      exact ⟨b, hI'⟩
  | mallocFail size hsize _ hret =>
    rcases hI.malloc hn hpos hlut hsize hret with ⟨-, rfl⟩ | ⟨i, b, h0, -⟩
    · exact ⟨a, hI⟩
    · rw [Placement.remoteLut, localLut] at h0
      omega
  | free r hr hret =>
    obtain ⟨t₁, b, hfree, hI'⟩ := hI.free (P := P) hn hr hok
    rw [hfree] at hret
    obtain rfl := Except.ok.inj hret
    exact ⟨b, hI'⟩

end Steps

/-! ## Runs -/

section Runs

variable {A : PtrArith} {P : Placement}

/-- The states that calls allowed by `LutFreeOk` lead to from the table of `SCCInit`. -/
def LutReached (A : PtrArith) (P : Placement) (s : LutRun) : Prop :=
  ∃ entry t, sccInitLut P.remotePages entry = .ok t ∧
    Reach (Guarded (LutStep A P) (LutFreeOk A)) ⟨t, []⟩ s

theorem Placement.Remapped.bounds (hP : P.Remapped) :
    0 < P.remotePages ∧ P.remotePages < charSize ∧ P.remoteLut + P.remotePages ≤ charSize := by
  have hpos := hP.pos
  have hlt := hP.lt
  rw [Placement.remoteLut, hP.remote]
  simp only [maxPages, localLut, charSize] at *
  omega

theorem LutReached.holds (hP : P.Remapped) {s : LutRun} (h : LutReached A P s) :
    ∃ a : Arena 0 P.remotePages, LutHolds a s := by
  obtain ⟨entry, t, ht, hreach⟩ := h
  obtain ⟨hpos, hn, hlut⟩ := hP.bounds
  obtain ⟨t', ht', htag⟩ := sccInitLut_tagged hpos entry
  rw [ht] at ht'
  obtain rfl := Except.ok.inj ht'
  exact hreach.invariant (I := fun s => ∃ a : Arena 0 P.remotePages, LutHolds a s)
    ⟨_, htag, by simp, by simp⟩ fun s op s' ⟨a, hI⟩ hs => hI.step hn hpos hlut hs.1 hs.2

/-- **The page table is in order** in every state reached by requests of at least
one page and frees of live runs, as long as a pointer difference can hold the
distance of a freed run from `remote`. Every such call returns, and what the walk
over the table meets depends only on which runs are live. -/
theorem lut_ok (hP : P.Remapped) {s : LutRun} (h : LutReached A P s) :
    (∃ ps, LutOk s ps) ∧
    (∀ size, 0 < size → ∃ r, Returns (fun fuel => sccMallocLut P.remoteLut fuel size s.table) r) ∧
    (∀ r ∈ s.live, LutFreeOk A s (.free r) →
      ∃ t', sccFreeLut A P (P.page r.1) s.table = .ok t') ∧
    ∀ s', LutReached A P s' → (∀ r, r ∈ s.live ↔ r ∈ s'.live) →
      ∀ ps, LutOk s ps → LutOk s' ps := by
  obtain ⟨a, hI⟩ := h.holds hP
  obtain ⟨hpos, hn, -⟩ := hP.bounds
  refine ⟨⟨_, hI.ok⟩, fun size hsize => ?_, fun r hr hspan => ?_, fun s' h' hlive ps hps => ?_⟩
  · obtain ⟨r, t', hret, -⟩ := sccMallocLut_spec hpos hn hI.tagged hsize P.remoteLut
    exact ⟨_, hret⟩
  · obtain ⟨t', -, hfree, -⟩ := hI.free (P := P) hn hr hspan
    exact ⟨t', hfree⟩
  · obtain ⟨a', hI'⟩ := h'.holds hP
    have hpieces : ps = a.pieces := hps.walk.unique hI.ok.walk
    have haa : a = a' := Arena.ext_live fun i k => by rw [hI.live, hI'.live, hlive]
    rw [hpieces, haa]
    exact hI'.ok

end Runs

/-- `SCCInit(30)` on a 32-bit core, with the remote window below the local one. -/
def demoPlacement : Placement := ⟨2572472320, 184549376, 30, 142⟩

/-- A run taken and given back. -/
theorem lut_ok_demo :
    ∃ s, s.live = [(3, 1)] ∧ ∃ ps, LutOk s ps := by
  have hP : demoPlacement.Remapped := ⟨by decide, by decide, rfl⟩
  have r₀ : Reach (Guarded (LutStep PtrArith.word32 demoPlacement) (LutFreeOk .word32))
    (⟨(LutTable.tag ⟨fun _ => ⟨false, 0⟩, 142⟩ 0 142 true), []⟩ : LutRun) _ := Reach.init
  have r₁ := r₀.next (a := LutOp.malloc 3)
    ⟨trivial, .malloc 3 (by decide) (by decide) ⟨1, rfl⟩ (by decide)⟩
  have r₂ := r₁.next (a := LutOp.malloc 1)
    ⟨trivial, .malloc 1 (by decide) (by decide) ⟨2, rfl⟩ (by decide)⟩
  have r₃ := r₂.next (a := LutOp.free (0, 3))
    ⟨rfl, .free (0, 3) (by decide) rfl⟩
  exact ⟨_, rfl, (lut_ok hP ⟨_, _, rfl, r₃⟩).1⟩

/-- With 32-bit pointer differences, page 128 is taken for entry `-128`. -/
theorem lut_fault :
    ∃ t s, sccInitLut demoPlacement.remotePages (fun _ => ⟨false, 0⟩) = .ok t ∧
      Reach (LutStep .word32 demoPlacement) ⟨t, []⟩ s ∧ (128, 1) ∈ s.live ∧
      sccFreeLut .word32 demoPlacement (demoPlacement.page 128) s.table = .error .fault := by
  have r₀ : Reach (LutStep PtrArith.word32 demoPlacement)
    (⟨(LutTable.tag ⟨fun _ => ⟨false, 0⟩, 142⟩ 0 142 true), []⟩ : LutRun) _ := Reach.init
  have r₁ := r₀.next (LutStep.malloc 128 (by decide) (by decide) ⟨1, rfl⟩ (by decide))
  have r₂ := r₁.next (LutStep.malloc 1 (by decide) (by decide) ⟨2, rfl⟩ (by decide))
  exact ⟨_, _, rfl, r₂, by decide, rfl⟩

end SccShm
