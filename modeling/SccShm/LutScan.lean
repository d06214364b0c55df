import SccShm.Filling
import SccShm.LutMemory

/-!
# What the scan of `SCCMallocLut` finds

* `lut_first_fit`: in every state that requests of at least one page and frees of
  live runs lead to, `SCCMallocLut` takes the low end of the first gap that is long
  enough, and fails exactly if there is no stretch of free pages of that length, as
  long as a pointer difference can hold the distance of a freed run from `remote`
  (`lut_run_lost` is a run in which it cannot).
* `lut_scan_ends`: with requests for no pages as well, the walk from head to head
  comes to its end in every state as long as such requests are made only while no
  page is free. Otherwise they leave a run without pages or write in front of the
  table (`lut_scan_stuck`).
-/

namespace SccShm

namespace LutRun

/-- Some run in use is `n` pages from page `i`. -/
def InUse (s : LutRun) (i n : ℕ) : Prop := (i, n) ∈ s.live

/-- Page `u` exists and belongs to no run in use. -/
def PageFree (s : LutRun) (u : ℕ) : Prop := u < s.table.pages ∧ ¬ Covered s.InUse u

/-- `n` consecutive pages are free. -/
def HasFree (s : LutRun) (n : ℕ) : Prop := ∃ i, ∀ u, i ≤ u → u < i + n → s.PageFree u

end LutRun

/-- `SCCInit` with `remap` on, for a size that leaves remote pages. -/
structure Placement.Split (P : Placement) : Prop where
  pos : 0 < P.remotePages
  pages : P.localPages + P.remotePages = maxPages

theorem Placement.Split.bounds {P : Placement} (hP : P.Split) :
    P.remotePages < charSize ∧ P.remoteLut + P.remotePages ≤ charSize := by
  have hpages := hP.pages
  simp only [Placement.remoteLut, maxPages, localLut, charSize] at *
  omega

/-! ## First fit -/

/-- The states that calls lead to from the table of `SCCInit`, in any memory, if a freed run
has a distance from `remote` that a pointer difference can hold. -/
def LutCalled (A : PtrArith) (P : Placement) (s : LutRun) : Prop :=
  ∃ (m : LutMem) (v : LutImage), s = v.run P ∧
    Reach (Guarded (LutMemStep A P) fun v => LutFreeOk A (v.run P))
      ⟨m.sccInit P.remotePages, []⟩ v

/-- `SCCMallocLut` has taken `n` pages at `i` from a gap of `m` pages. -/
structure LutTaken (s : LutRun) (n i m : ℕ) (t' : LutTable) : Prop where
  gap : IsGap s.InUse 0 s.table.pages i m
  fits : n ≤ m
  /-- no gap before it is long enough -/
  least : ∀ j k, IsGap s.InUse 0 s.table.pages j k → n ≤ k → i ≤ j
  /-- the pages taken, and no others, are free no longer -/
  pages : ∀ u, LutRun.PageFree ⟨t', (i, n) :: s.live⟩ u ↔
    s.PageFree u ∧ ¬ (i ≤ u ∧ u < i + n)
  /-- the walk meets the run taken, a run of what is left of the gap, and the others -/
  walk : ∃ ps ps', LutOk s ps ∧ LutOk ⟨t', (i, n) :: s.live⟩ ps' ∧ ∀ p, p ∈ ps' ↔
    (p ∈ ps ∧ p.start ≠ i) ∨ p = ⟨i, n, false⟩ ∨ (n < m ∧ p = ⟨i + n, m - n, true⟩)
  /-- both tags of the other runs are what they were -/
  others : ∀ ps, LutOk s ps → ∀ p ∈ ps, p.start ≠ i →
    t'.entry p.start = s.table.entry p.start ∧
      t'.entry (p.start + p.len - 1) = s.table.entry (p.start + p.len - 1)

section FirstFit

variable {n : ℕ} {a b : Arena 0 n} {s : LutRun} {A : PtrArith} {P : Placement}

theorem LutHolds.inUse (hI : LutHolds a s) : s.InUse = a.Live :=
  funext fun i => funext fun k => propext (hI.live i k).symm

theorem LutHolds.gap_iff (hI : LutHolds a s) {i k : ℕ} :
    IsGap s.InUse 0 s.table.pages i k ↔ a.Free i k := by
  rw [hI.inUse, hI.tagged.pages, Arena.free_iff_gap]

/-- A page is free if it lies in a free run. -/
theorem LutHolds.pageFree_iff (hI : LutHolds a s) {u : ℕ} : s.PageFree u ↔ u ∈ a.freeUnits := by
  rw [Arena.mem_freeUnits, LutRun.PageFree, hI.inUse, hI.tagged.pages,
    and_iff_right (Nat.zero_le u)]

/-- There are `k` free pages in a row if and only if some free run is long enough. -/
theorem LutHolds.hasFree_iff (hI : LutHolds a s) {k : ℕ} (hk : 0 < k) :
    s.HasFree k ↔ ∃ j m, a.Free j m ∧ k ≤ m := by
  refine ⟨?_, ?_⟩
  · rintro ⟨i, hi⟩
    have hlast := (hi (i + k - 1) (by omega) (by omega)).1
    rw [hI.tagged.pages] at hlast
    obtain ⟨j, m, hf, hj, hm⟩ := Arena.exists_free_of_uncovered (a := a) hk (Nat.zero_le i)
      (by omega) fun u hu hu' => hI.inUse ▸ (hi u hu hu').2
    exact ⟨j, m, hf, by omega⟩
  · rintro ⟨j, m, hf, hkm⟩
    have hgap := hI.gap_iff.mpr hf
    exact ⟨j, fun u hu hu' => ⟨by have := hgap.le_hi; omega, hgap.empty u hu (by omega)⟩⟩

/-- What `sccMallocLut_spec` says about the table, seen from outside. -/
theorem LutHolds.taken (hI : LutHolds a s) {k i m : ℕ} {t' : LutTable}
    (hI' : LutHolds b ⟨t', (i, k) :: s.live⟩) (hal : a.Allocates i k b) (hm : a.Free i m)
    (hle : k ≤ m) (hfirst : ∀ j x, a.Free j x → j < i → x < k) : LutTaken s k i m t' := by
  have hmem := fun p => hal.mem_pieces hm hle (p := p)
  refine ⟨hI.gap_iff.mpr hm, hle, fun j x hgap hx => ?_, fun u => ?_,
    ⟨_, _, hI.ok, hI'.ok, hmem⟩, fun ps hps p hp hne => ?_⟩
  · by_contra hlt
    have := hfirst j x (hI.gap_iff.mp hgap) (by omega)
    omega
  · rw [hI'.pageFree_iff, hI.pageFree_iff, hal.freeUnits, Set.mem_sdiff, Set.mem_Ico]
  · obtain rfl : ps = a.pieces := hps.walk.unique hI.ok.walk
    have hp' : p ∈ b.pieces := (hmem p).mpr (Or.inl ⟨hp, hne⟩)
    exact ⟨by rw [hI.tagged.head p hp, hI'.tagged.head p hp'],
      (hI'.tagged.foot p hp').trans (hI.tagged.foot p hp).symm⟩

/-- `SCCMallocLut` comes back, with the first gap that is long enough or, if there is
none, with nothing changed. -/
theorem LutHolds.scan (hn : n < charSize) (hpos : 0 < n) (hlut : P.remoteLut + n ≤ charSize)
    (hI : LutHolds a s) {k : ℕ} (hk : 0 < k) :
    ∃ r t', Returns (fun fuel => sccMallocLut P.remoteLut fuel k s.table) (r, t') ∧
      ((r = 0 ∧ t' = s.table ∧ ¬ s.HasFree k) ∨
        s.HasFree k ∧ ∃ i m, r = P.remoteLut + i ∧ LutTaken s k i m t') := by
  obtain ⟨r, t', hret, hcase⟩ := sccMallocLut_spec hpos hn hI.tagged hk P.remoteLut
  refine ⟨r, t', hret, ?_⟩
  rcases hcase with ⟨hr, ht, hnone⟩ | ⟨i, b, hr, hal, ht', hfirst⟩
  · refine Or.inl ⟨hr, ht, fun hfree => ?_⟩
    obtain ⟨j, m, hf, hm⟩ := (hI.hasFree_iff hk).mp hfree
    have := hnone j m hf
    omega
  · obtain ⟨m, hm, hle⟩ := hal.2.1
    have := hm.bounds
    rw [Nat.mod_eq_of_lt (by omega)] at hr
    exact Or.inr ⟨(hI.hasFree_iff hk).mpr ⟨i, m, hm, hle⟩, i, m, hr,
      hI.taken (hI.allocate hal ht') hal hm hle hfirst⟩

/-- **`SCCMallocLut` is exact first fit.** In every state that requests of at least
one page and frees of live runs lead to, as long as a pointer difference can hold the
distance of a freed run from `remote`, a request for `n` pages comes back; with `0`
and the table unchanged if and only if there are no `n` free pages in a row, and
otherwise with the number of the first page of the first gap that is long enough. -/
theorem lut_first_fit (hP : P.Split) (h : LutCalled A P s) {n : ℕ} (hn : 0 < n) :
    ∃ r t', Returns (fun fuel => sccMallocLut P.remoteLut fuel n s.table) (r, t') ∧
      ((r = 0 ∧ t' = s.table) ↔ ¬ s.HasFree n) ∧
      (s.HasFree n → ∃ i m, r = P.remoteLut + i ∧ LutTaken s n i m t') := by
  obtain ⟨m, v, rfl, hreach⟩ := h
  obtain ⟨hpages, hlut⟩ := hP.bounds
  obtain ⟨a, hI⟩ := LutImage.holds hP.pos hpages hlut hreach
  obtain ⟨r, t', hret, hcase⟩ := hI.scan hpages hP.pos hlut hn
  refine ⟨r, t', hret, ?_⟩
  rcases hcase with ⟨hr, ht, hnone⟩ | ⟨hfree, i, m, hr, htaken⟩
  · exact ⟨iff_of_true ⟨hr, ht⟩ hnone, fun hfree => absurd hfree hnone⟩
  · refine ⟨iff_of_false ?_ (not_not.mpr hfree), fun _ => ⟨i, m, hr, htaken⟩⟩
    rintro ⟨h₀, -⟩
    rw [hr, Placement.remoteLut, localLut] at h₀
    omega

end FirstFit

/-- Pages 0 to 2 are free again, page 3 is in use: four pages are taken behind it. -/
theorem lut_first_fit_demo :
    ∃ (s : LutRun) (r : ℕ) (t' : LutTable), s.live = [(3, 1)] ∧
      Returns (fun fuel => sccMallocLut demoPlacement.remoteLut fuel 4 s.table) (r, t') ∧
      ((r = 0 ∧ t' = s.table) ↔ ¬ s.HasFree 4) := by
  have hP : demoPlacement.Split := ⟨by decide, rfl⟩
  have r₀ : Reach (Guarded (LutMemStep PtrArith.word32 demoPlacement)
    fun v => LutFreeOk .word32 (v.run demoPlacement))
    ⟨LutMem.sccInit (fun _ => ⟨false, 0⟩) 142, []⟩ _ := Reach.init
  have r₁ := r₀.next (a := LutOp.malloc 3)
    ⟨trivial, .malloc 3 (by decide) (by decide) ⟨1, rfl⟩ (by decide)⟩
  have r₂ := r₁.next (a := LutOp.malloc 1)
    ⟨trivial, .malloc 1 (by decide) (by decide) ⟨2, rfl⟩ (by decide)⟩
  have r₃ := r₂.next (a := LutOp.free (0, 3)) ⟨rfl, .free (0, 3) (by decide)⟩
  obtain ⟨r, t', hret, hzero, -⟩ := lut_first_fit hP ⟨_, _, rfl, r₃⟩ (n := 4) (by decide)
  exact ⟨_, r, t', rfl, hret, hzero⟩

/-- On a 32-bit core with nothing but zeros in front of the table, the free of page 128 comes
back and leaves the page allocated: then there is no room for 14 pages, although pages 128 to
141 belong to no run in use. -/
theorem lut_run_lost :
    ∃ s : LutImage, Reach (LutMemStep .word32 demoPlacement)
        ⟨LutMem.sccInit (fun _ => ⟨false, 0⟩) 142, []⟩ s ∧
      (s.run demoPlacement).live = [(0, 128)] ∧ (s.run demoPlacement).HasFree 14 ∧
      Returns (fun fuel => LutMem.mallocLutAt demoPlacement.remoteLut 142 fuel 14 s.mem)
        (0, s.mem) ∧
      Returns (fun fuel => sccMallocLut demoPlacement.remoteLut fuel 14
        (s.run demoPlacement).table) (0, (s.run demoPlacement).table) := by
  have r₀ : Reach (LutMemStep PtrArith.word32 demoPlacement)
    ⟨LutMem.sccInit (fun _ => ⟨false, 0⟩) 142, []⟩ _ := Reach.init
  have r₁ := r₀.next (LutMemStep.malloc 128 (by decide) (by decide) ⟨1, rfl⟩ (by decide))
  have r₂ := r₁.next (LutMemStep.malloc 1 (by decide) (by decide) ⟨2, rfl⟩ (by decide))
  have r₃ := r₂.next (LutMemStep.free (128, 1) (by decide))
  refine ⟨_, r₃, rfl, ⟨128, fun u hu hu' => ⟨hu', ?_⟩⟩, ⟨3, rfl⟩, ⟨3, rfl⟩⟩
  rintro ⟨i, k, hmem, hle, hlt⟩
  change (i, k) ∈ [(0, 128)] at hmem
  obtain ⟨rfl, rfl⟩ := Prod.mk.inj (List.mem_singleton.mp hmem)
  omega

/-! ## Requests for no pages -/

/-- One call, with requests for no pages among them. -/
inductive LutAnyStep (A : PtrArith) (P : Placement) : LutRun → LutOp → LutRun → Prop where
  | step {s s' : LutRun} {op : LutOp} : LutStep A P s op s' → LutAnyStep A P s op s'
  | zero {s : LutRun} {lut : ℕ} {t' : LutTable} :
      Returns (fun fuel => sccMallocLut P.remoteLut fuel 0 s.table) (lut, t') → lut ≠ 0 →
      LutAnyStep A P s (.malloc 0) ⟨t', (lut - P.remoteLut, 0) :: s.live⟩
  | zeroFail {s : LutRun} {t' : LutTable} :
      Returns (fun fuel => sccMallocLut P.remoteLut fuel 0 s.table) (0, t') →
      LutAnyStep A P s (.malloc 0) ⟨t', s.live⟩

/-- No pages are requested while a page is free, and a freed run has a distance from
`remote` that a pointer difference can hold. -/
def LutScanOk (A : PtrArith) (s : LutRun) : LutOp → Prop
  | .malloc size => size = 0 → ¬ s.HasFree 1
  | .free r => A.Spans r.1

/-- The states that calls allowed by `LutScanOk` lead to from the table of `SCCInit`. -/
def LutScanned (A : PtrArith) (P : Placement) (s : LutRun) : Prop :=
  ∃ entry t, sccInitLut P.remotePages entry = .ok t ∧
    Reach (Guarded (LutAnyStep A P) (LutScanOk A)) ⟨t, []⟩ s

section Zero

variable {n : ℕ} {a : Arena 0 n} {s s' : LutRun} {A : PtrArith} {P : Placement} {op : LutOp}

/-- While no page is free, a request for no pages fails and changes nothing. -/
theorem LutHolds.zero (hpos : 0 < n) (hI : LutHolds a s) (hfull : ¬ s.HasFree 1) (lut : ℕ) :
    Returns (fun fuel => sccMallocLut lut fuel 0 s.table) (0, s.table) := by
  have hno : ∀ p ∈ a.pieces, ¬ (p.free = true ∧ 0 ≤ p.len) := by
    rintro p hp ⟨hfree, -⟩
    have hf : a.Free p.start p.len := by rwa [Arena.Free, ← hfree]
    exact hfull ((hI.hasFree_iff one_pos).mpr ⟨_, _, hf, hf.bounds.2.1⟩)
  have hloop := loop_total (mallocLutBody lut 0 s.table)
    (I := fun curr => ∃ l p r, a.pieces = l ++ p :: r ∧ p.start = curr)
    (Q := fun out => out = (0, s.table)) (fun curr => n - curr) ?_ (n + 1) 0 ?_ (by omega)
  · obtain ⟨_, hret, rfl⟩ := hloop
    exact ⟨n + 1, hret⟩
  · rintro _ ⟨l, p, r, ha, rfl⟩
    have hp : p ∈ a.pieces := by rw [ha]; simp
    rcases mallocLutBody_pass hI.tagged ha (hno p hp) lut with
      ⟨rfl, hbody⟩ | ⟨q, r', rfl, hlt, hqn, hbody⟩
    · exact Or.inl ⟨_, hbody, rfl⟩
    · exact Or.inr ⟨q.start, hbody, ⟨l ++ [p], q, r', by rw [ha]; simp, rfl⟩, by omega⟩
  · obtain ⟨p, r, hps, hp⟩ := exists_first hpos a
    exact ⟨[], p, r, hps, hp⟩

/-- No walk gets past a run without pages. -/
theorem not_walk_of_size_eq_zero {t : LutTable} {l ps : List Piece} {i j k : ℕ}
    (hl : Tiles i l j) (hjk : j < k) (hj : (t.entry j).size = 0)
    (hhead : ∀ q ∈ l, (t.entry q.start).size = q.len ∨ (t.entry q.start).size = 0) :
    ¬ Walk t k i ps := by
  induction l generalizing i ps with
  | nil =>
    obtain rfl : i = j := hl
    intro hw
    cases hw with
    | done => exact lt_irrefl _ hjk
    | run _ hpos _ => omega
  | cons q l ih =>
    obtain ⟨rfl, hqpos, hl⟩ := hl
    intro hw
    cases hw with
    | done =>
      have := hl.le
      rw [Piece.stop] at this
      omega
    | run _ hpos hw =>
      rcases hhead q List.mem_cons_self with hq | hq
      · rw [hq] at hw
        exact ih hl (fun x hx => hhead x (List.mem_cons_of_mem _ hx)) hw
      · omega

/-- Splitting nothing off a free run: its head and the entry before it get size `0`. -/
theorem splitRun_zero {t t' : LutTable} (ht : Tagged t a) {l r : List Piece} {p : Piece}
    (ha : a.pieces = l ++ p :: r) (hn : n < charSize)
    (h : splitRun t p.start 0 = .ok t') :
    t'.pages = n ∧ (t'.entry p.start).size = 0 ∧
      ∀ u < p.start, t'.entry u = t.entry u ∨ (t'.entry u).size = 0 := by
  obtain ⟨-, hlen, hle, -⟩ := tiles_around ha
  rw [Piece.stop] at hle
  have hstart : p.start < t.pages := by rw [ht.pages]; omega
  have hmod : p.len % charSize = p.len := Nat.mod_eq_of_lt (by omega)
  have hlast : (p.start : ℤ) + p.len - 1 = ((p.start + p.len - 1 : ℕ) : ℤ) := by omega
  have hfoot : p.start + p.len - 1 < t.pages := by rw [ht.pages]; omega
  simp only [splitRun, LutTable.load_natCast, LutTable.store_natCast, LutTable.pages_set,
    LutTable.entry_set_self, if_true, Exec.ok_bind, hstart, ht.head p (by rw [ha]; simp),
    Nat.add_zero, Nat.sub_zero, hmod, hlast, hfoot, Nat.zero_mod] at h
  -- the last store is to the entry before the head
  have hback : (p.start : ℤ) + (0 : ℕ) - 1 = ((p.start - 1 : ℕ) : ℤ) ∧ 0 < p.start := by
    by_contra hne
    rw [LutTable.store, if_neg (by omega)] at h
    cases h
  rw [hback.1, LutTable.store_natCast, if_pos (by simp only [LutTable.pages_set]; omega)] at h
  obtain rfl := Except.ok.inj h
  refine ⟨ht.pages, ?_, fun u hu => ?_⟩
  · rw [LutTable.entry_set_of_ne (by omega), LutTable.entry_set_self]
  · rcases eq_or_ne u (p.start - 1) with rfl | hne
    · exact Or.inr (by rw [LutTable.entry_set_self])
    · apply Or.inl
      rw [LutTable.entry_set_of_ne hne, LutTable.entry_set_of_ne hu.ne,
        LutTable.entry_set_of_ne (by omega), LutTable.entry_set_of_ne hu.ne]

/-- And no walk gets through the table any more. -/
theorem splitRun_zero_broken {t t' : LutTable} (ht : Tagged t a) {l r : List Piece} {p : Piece}
    (ha : a.pieces = l ++ p :: r) (hn : n < charSize) (h : splitRun t p.start 0 = .ok t') :
    ¬ ∃ ps, Walk t' t'.pages 0 ps := by
  obtain ⟨hpages, hsize, hbefore⟩ := splitRun_zero ht ha hn h
  obtain ⟨htl, hlen, hle, -⟩ := tiles_around ha
  rw [Piece.stop] at hle
  rintro ⟨ps, hw⟩
  refine not_walk_of_size_eq_zero htl (by rw [hpages]; omega) hsize (fun q hq => ?_) hw
  have hlt := htl.bounds hq
  rw [Piece.stop] at hlt
  have hqlen : (t.entry q.start).size = q.len := by rw [ht.head q (by rw [ha]; simp [hq])]
  exact (hbefore q.start (by omega)).imp_left fun h => by rw [h, hqlen]

/-- A request for no pages stops at the first free run. -/
theorem mallocLutBody_zero {t : LutTable} (ht : Tagged t a) {l r : List Piece} {p : Piece}
    (ha : a.pieces = l ++ p :: r) (hp : p.free = true) (lut : ℕ) :
    mallocLutBody lut 0 t p.start
      = splitRun t p.start 0 >>= fun t => .ok (.inr ((lut + p.start) % charSize, t)) := by
  obtain ⟨-, hlen, -, -⟩ := tiles_around ha
  rw [mallocLutBody, load_head ht ha, Exec.ok_bind, if_pos ⟨hp, Nat.zero_le _⟩,
    if_neg hlen.ne']

/-- A request for no pages while a page is free leaves a table that no walk gets
through, if it comes back at all. -/
theorem LutHolds.zero_broken (hpos : 0 < n) (hn : n < charSize) (hI : LutHolds a s)
    (hfree : s.HasFree 1) {lut r : ℕ} {t' : LutTable}
    (hret : Returns (fun fuel => sccMallocLut lut fuel 0 s.table) (r, t')) :
    ¬ ∃ ps, Walk t' t'.pages 0 ps := by
  obtain ⟨fuel, hret⟩ := hret
  have hpass : ∀ {l : List Piece} {p : Piece}, p.free ≠ true → (∀ q ∈ l, q.free = false) →
      ∀ q ∈ l ++ [p], q.free = false := by
    intro l p hp hl q hq
    rcases List.mem_append.mp hq with hq | hq
    · exact hl q hq
    · rw [List.mem_singleton.mp hq]
      simpa using hp
  change loop (mallocLutBody lut 0 s.table) fuel 0 = _ at hret
  refine loop_partial
    (I := fun curr => ∃ l p r, a.pieces = l ++ p :: r ∧ p.start = curr ∧
      ∀ q ∈ l, q.free = false)
    (Q := fun out => ¬ ∃ ps, Walk out.2 out.2.pages 0 ps) ?_ ?_ ?_ hret
  · rintro _ curr' ⟨l, p, r, ha, rfl, hl⟩ hbody
    by_cases hp : p.free = true
    · rw [mallocLutBody_zero hI.tagged ha hp] at hbody
      obtain ⟨t₁, -, hout⟩ := Exec.bind_eq_ok.mp hbody
      cases hout
    · rcases mallocLutBody_pass hI.tagged ha (fun h => hp h.1) lut with
        ⟨-, hbody'⟩ | ⟨q, r', rfl, -, -, hbody'⟩
      · cases hbody'.symm.trans hbody
      · obtain rfl := Sum.inl.inj (Except.ok.inj (hbody'.symm.trans hbody))
        exact ⟨l ++ [p], q, r', by rw [ha]; simp, rfl, hpass hp hl⟩
  · rintro _ out ⟨l, p, r, ha, rfl, hl⟩ hbody
    by_cases hp : p.free = true
    · rw [mallocLutBody_zero hI.tagged ha hp] at hbody
      obtain ⟨t₁, hsplit, hout⟩ := Exec.bind_eq_ok.mp hbody
      obtain rfl := Sum.inr.inj (Except.ok.inj hout)
      exact splitRun_zero_broken hI.tagged ha hn hsplit
    · -- the scan ends here, so no run is free
      rcases mallocLutBody_pass hI.tagged ha (fun h => hp h.1) lut with
        ⟨rfl, -⟩ | ⟨q, r', rfl, -, -, hbody'⟩
      · obtain ⟨j, m, hf, -⟩ := (hI.hasFree_iff one_pos).mp hfree
        rw [Arena.Free, ha] at hf
        cases hpass hp hl _ hf
      · cases hbody'.symm.trans hbody
  · obtain ⟨p, r, hps, hp⟩ := exists_first hpos a
    exact ⟨[], p, r, hps, hp, by simp⟩

theorem LutHolds.anyStep (hn : n < charSize) (hpos : 0 < n) (hlut : P.remoteLut + n ≤ charSize)
    (hI : LutHolds a s) (hok : LutScanOk A s op) (hs : LutAnyStep A P s op s') :
    ∃ b : Arena 0 n, LutHolds b s' := by
  have hzero : ∀ {lut : ℕ} {t' : LutTable}, LutScanOk A s (.malloc 0) →
      Returns (fun fuel => sccMallocLut P.remoteLut fuel 0 s.table) (lut, t') →
      lut = 0 ∧ t' = s.table := by
    intro lut t' hok hret
    have heq := hret.unique (loop_fuel_mono _ _) (hI.zero hpos (hok rfl) P.remoteLut)
    exact Prod.mk.inj heq
  cases hs with
  | step hs =>
    have hfree : LutFreeOk A s op := by
      cases op with
      | malloc size => trivial
      | free r => exact hok
    exact hI.step hn hpos hlut hfree hs
  | zero hret hne => exact absurd (hzero hok hret).1 hne
  | zeroFail hret =>
    obtain rfl := (hzero hok hret).2
    exact ⟨a, hI⟩

/-- **The scan of `SCCMallocLut` always ends** where no pages are requested only while
no page is free: every walk from head to head meets runs of at least one page up to
`remote_pages`, and every allowed call comes back, so it has written inside the table.
A request for no pages made otherwise does not come back or breaks the walk. -/
theorem lut_scan_ends (hP : P.Split) (h : LutScanned A P s) :
    (∃ ps, Walk s.table s.table.pages 0 ps) ∧
    (∀ size, LutScanOk A s (.malloc size) →
      ∃ r, Returns (fun fuel => sccMallocLut P.remoteLut fuel size s.table) r) ∧
    (∀ r ∈ s.live, LutScanOk A s (.free r) →
      ∃ t', sccFreeLut A P (P.page r.1) s.table = .ok t') ∧
    (s.HasFree 1 → ∀ r t', Returns (fun fuel => sccMallocLut P.remoteLut fuel 0 s.table) (r, t') →
      ¬ ∃ ps, Walk t' t'.pages 0 ps) := by
  obtain ⟨entry, t, ht, hreach⟩ := h
  obtain ⟨hn, hlut⟩ := hP.bounds
  obtain ⟨t', ht', htag⟩ := sccInitLut_tagged hP.pos entry
  rw [ht] at ht'
  obtain rfl := Except.ok.inj ht'
  obtain ⟨a, hI⟩ := hreach.invariant (I := fun s => ∃ a : Arena 0 P.remotePages, LutHolds a s)
    ⟨_, htag, by simp, by simp⟩ fun s op s' ⟨a, hI⟩ hs => hI.anyStep hn hP.pos hlut hs.1 hs.2
  refine ⟨⟨_, hI.ok.walk⟩, fun size hok => ?_, fun r hr hspan => ?_,
    fun hfree r t' hret => hI.zero_broken hP.pos hn hfree hret⟩
  · rcases Nat.eq_zero_or_pos size with rfl | hsize
    · exact ⟨_, hI.zero hP.pos (hok rfl) P.remoteLut⟩
    · obtain ⟨r, t', hret, -⟩ := hI.scan hn hP.pos hlut hsize
      exact ⟨_, hret⟩
  · obtain ⟨t', -, hfree, -⟩ := hI.free (P := P) hn hr hspan
    exact ⟨t', hfree⟩

/-- A run without pages at the start of the table holds up every scan. -/
theorem stuck_of_zero {t : LutTable} (h : t.entry 0 = ⟨false, 0⟩) (hpos : 0 < t.pages)
    (lut size : ℕ) (out : ℕ × LutTable) :
    ¬ Returns (fun fuel => sccMallocLut lut fuel size t) out := by
  have hbody : mallocLutBody lut size t 0 = .ok (.inl 0) := by
    rw [mallocLutBody, LutTable.load_natCast, if_pos hpos, h]
    simp [hpos]
  rintro ⟨fuel, hret⟩
  induction fuel with
  | zero => cases hret
  | succ fuel ih =>
    change loop (mallocLutBody lut size t) (fuel + 1) 0 = _ at hret
    rw [loop_next hbody] at hret
    exact ih hret

end Zero

/-- After `SCCMallocLut(1)` and `SCCMallocLut(0)` no scan ends. The request for no pages
right after `SCCInit` writes in front of the table. -/
theorem lut_scan_stuck :
    ∃ t s, sccInitLut demoPlacement.remotePages (fun _ => ⟨false, 0⟩) = .ok t ∧
      Reach (LutAnyStep .word32 demoPlacement) ⟨t, []⟩ s ∧
      (¬ ∃ ps, Walk s.table s.table.pages 0 ps) ∧
      (∀ size r, ¬ Returns
        (fun fuel => sccMallocLut demoPlacement.remoteLut fuel size s.table) r) ∧
      ∀ fuel, sccMallocLut demoPlacement.remoteLut (fuel + 1) 0 t = .error .fault := by
  have r₀ : Reach (LutAnyStep PtrArith.word32 demoPlacement)
    (⟨(LutTable.tag ⟨fun _ => ⟨false, 0⟩, 142⟩ 0 142 true), []⟩ : LutRun) _ := Reach.init
  have r₁ := r₀.next (.step (.malloc 1 (by decide) (by decide) ⟨1, rfl⟩ (by decide)))
  have r₂ := r₁.next (.zero ⟨2, rfl⟩ (by decide))
  refine ⟨_, _, rfl, r₂, ?_, fun size r => stuck_of_zero rfl (by decide) _ _ _, fun _ => rfl⟩
  rintro ⟨ps, hw⟩
  exact not_walk_of_size_eq_zero (l := []) rfl (by decide) rfl (by simp) hw

/-- All pages are taken, so a request for no pages does no harm; then they are given back. -/
theorem lut_scan_ends_demo :
    ∃ s : LutRun, s.live = [] ∧ ∃ ps, Walk s.table s.table.pages 0 ps := by
  have hP : demoPlacement.Split := ⟨by decide, rfl⟩
  have r₀ : Reach (Guarded (LutAnyStep PtrArith.word32 demoPlacement) (LutScanOk .word32))
    (⟨(LutTable.tag ⟨fun _ => ⟨false, 0⟩, 142⟩ 0 142 true), []⟩ : LutRun) _ := Reach.init
  have r₁ := r₀.next (a := LutOp.malloc 142)
    ⟨by simp [LutScanOk], .step (.malloc 142 (by decide) (by decide) ⟨1, rfl⟩ (by decide))⟩
  have r₂ := r₁.next (a := LutOp.malloc 0) ⟨fun _ => ?_, .zeroFail ⟨1, rfl⟩⟩
  · have r₃ := r₂.next (a := LutOp.free (0, 142)) ⟨rfl, .step (.free (0, 142) (by decide) rfl)⟩
    exact ⟨_, rfl, (lut_scan_ends hP ⟨_, _, rfl, r₃⟩).1⟩
  · rintro ⟨i, hi⟩
    have hfree := hi i (le_refl i) (Nat.lt_succ_self i)
    exact hfree.2 ⟨0, 142, List.mem_singleton.mpr rfl, Nat.zero_le i, hfree.1⟩

end SccShm
