import SccShm.LutRuns

/-!
# The page table in memory

`SCCMallocLut` and `SCCFreeLut` check no index. Given a run whose distance from
`remote` no pointer difference can hold, `SCCFreeLut` works on what lies in front of
`lutState`, and comes back. Here `lutState` is the part from index `0` on of a memory
that reaches as far as any index.

* `mallocLutAt`, `freeLutAt` — the two functions on that memory.
* `sccMallocLut_table`, `sccFreeLut_table` — they do the same as `sccMallocLut` and
  `sccFreeLut` wherever these do not leave the table.
* `LutImage.holds` — so calls on the memory keep the invariant of the table as long as
  freed runs have a distance that a pointer difference can hold.
-/

namespace SccShm

/-- The memory around `lutState`, by index. -/
abbrev LutMem : Type := ℤ → LutState

namespace LutMem

/-- `lutState[i] = e`. -/
def set (m : LutMem) (i : ℤ) (e : LutState) : LutMem := Function.update m i e

/-- The first `pages` entries. -/
def table (m : LutMem) (pages : ℕ) : LutTable := ⟨fun i => m i, pages⟩

/-- What `SCCInit` stores. -/
def sccInit (m : LutMem) (pages : ℕ) : LutMem :=
  let m := m.set 0 ⟨true, pages⟩
  m.set (pages - 1) (m 0)

/-! ## `SCCMallocLut` -/

/-- The whole run at `curr` is taken. -/
def takeRunAt (m : LutMem) (curr size : ℕ) : LutMem :=
  let m := m.set curr { m curr with free := false }
  m.set (curr + size - 1) { m (curr + size - 1) with free := false }

/-- The first `size` pages of the run at `curr` are taken. -/
def splitRunAt (m : LutMem) (curr size : ℕ) : LutMem :=
  let next : ℕ := curr + size
  let m := m.set next ⟨true, ((m curr).size - size) % charSize⟩
  let m := m.set (next + (m next).size - 1) (m next)
  let m := m.set curr ⟨false, size % charSize⟩
  m.set (curr + (m curr).size - 1) (m curr)

/-- One pass through the loop of `SCCMallocLut` at the run `curr`. -/
def mallocLutBodyAt (lut size pages : ℕ) (m : LutMem) (curr : ℕ) : ℕ ⊕ (ℕ × LutMem) :=
  if (m curr).free = true ∧ size ≤ (m curr).size then
    .inr ((lut + curr) % charSize,
      if (m curr).size = size then m.takeRunAt curr size else m.splitRunAt curr size)
  else if curr + (m curr).size < pages then
    .inl (curr + (m curr).size)
  else
    .inr (0, m)

/-- `SCCMallocLut(size)`: the entry of the first page, `0` for none, and the memory. -/
def mallocLutAt (lut pages fuel size : ℕ) (m : LutMem) : Exec (ℕ × LutMem) :=
  loop (fun curr => .ok (mallocLutBodyAt lut size pages m curr)) fuel 0

/-! ## `SCCFreeLut` -/

/-- Let the run at `i` swallow a free run behind it. -/
def joinNextAt (pages : ℕ) (m : LutMem) (i : ℤ) : LutMem :=
  let n := i + (m i).size
  if n < pages ∧ (m n).free = true then
    m.set i { m i with size := ((m i).size + (m n).size) % charSize }
  else
    m

/-- Let a free run before `i` swallow the run at `i`; the result is the run that is left. -/
def joinPrevAt (m : LutMem) (i : ℤ) : ℤ × LutMem :=
  if 0 < i ∧ (m (i - 1)).free = true then
    let i := i - (m (i - 1)).size
    (i, m.set i { m i with size := ((m i).size + (m (i + (m i).size)).size) % charSize })
  else
    (i, m)

/-- Mark the run at `i` as free. -/
def markFreeAt (m : LutMem) (i : ℤ) : LutMem :=
  let m := m.set i { m i with free := true }
  m.set (i + (m i).size - 1) (m i)

/-- `SCCFreeLut` on the run at `i`. -/
def freeLutAt (pages : ℕ) (m : LutMem) (i : ℤ) : LutMem :=
  let (i, m) := (joinNextAt pages m i).joinPrevAt i
  m.markFreeAt i

/-! ## Inside the table -/

section Table

variable {m : LutMem} {n lut size curr : ℕ} {i : ℤ} {e : LutState} {t : LutTable}

theorem load_table (h : (m.table n).load i = .ok e) : e = m i := by
  rw [LutTable.load] at h
  split at h
  · next hi =>
    obtain rfl := Except.ok.inj h
    exact congrArg m (Int.toNat_of_nonneg hi.1)
  · cases h

theorem store_table (h : (m.table n).store i e = .ok t) : t = (m.set i e).table n := by
  rw [LutTable.store] at h
  split at h
  · next hi =>
    obtain rfl := Except.ok.inj h
    rw [LutTable.set, table, table, LutTable.mk.injEq]
    refine ⟨funext fun j => ?_, rfl⟩
    by_cases hj : (j : ℤ) = i
    · obtain rfl : j = i.toNat := by omega
      rw [hj, Function.update_self, set, Function.update_self]
    · rw [Function.update_of_ne (by omega), set, Function.update_of_ne hj]
  · cases h

theorem sccInitLut_table (h : sccInitLut n (fun i => m i) = .ok t) :
    t = (m.sccInit n).table n := by
  obtain ⟨t₁, h₁, h⟩ := Exec.bind_eq_ok.mp h
  obtain rfl := store_table (m := m) h₁
  obtain ⟨e, he, h⟩ := Exec.bind_eq_ok.mp h
  obtain rfl := load_table he
  exact store_table h

theorem takeRun_table (h : takeRun (m.table n) curr size = .ok t) :
    t = (m.takeRunAt curr size).table n := by
  obtain ⟨c, hc, h⟩ := Exec.bind_eq_ok.mp h
  obtain rfl := load_table hc
  obtain ⟨t₁, h₁, h⟩ := Exec.bind_eq_ok.mp h
  obtain rfl := store_table h₁
  obtain ⟨f, hf, h⟩ := Exec.bind_eq_ok.mp h
  obtain rfl := load_table hf
  exact store_table h

theorem splitRun_table (h : splitRun (m.table n) curr size = .ok t) :
    t = (m.splitRunAt curr size).table n := by
  obtain ⟨c, hc, h⟩ := Exec.bind_eq_ok.mp h
  obtain rfl := load_table hc
  obtain ⟨t₁, h₁, h⟩ := Exec.bind_eq_ok.mp h
  obtain rfl := store_table h₁
  obtain ⟨x, hx, h⟩ := Exec.bind_eq_ok.mp h
  obtain rfl := load_table hx
  obtain ⟨t₂, h₂, h⟩ := Exec.bind_eq_ok.mp h
  obtain rfl := store_table h₂
  obtain ⟨t₃, h₃, h⟩ := Exec.bind_eq_ok.mp h
  obtain rfl := store_table h₃
  obtain ⟨d, hd, h⟩ := Exec.bind_eq_ok.mp h
  obtain rfl := load_table hd
  exact store_table h

/-- `SCCMallocLut` inside the table. -/
theorem sccMallocLut_table {fuel r : ℕ} (h : sccMallocLut lut fuel size (m.table n) = .ok (r, t)) :
    ∃ m', mallocLutAt lut n fuel size m = .ok (r, m') ∧ t = m'.table n := by
  suffices hsim : ∃ out, mallocLutAt lut n fuel size m = .ok out ∧ r = out.1 ∧
      t = out.2.table n by
    obtain ⟨⟨r', m'⟩, hret, rfl, ht⟩ := hsim
    exact ⟨m', hret, ht⟩
  refine loop_sim (I := fun _ => True)
    (R := fun (out : ℕ × LutTable) (out' : ℕ × LutMem) => out.1 = out'.1 ∧ out.2 = out'.2.table n)
    ?_ ?_ trivial h
  · intro curr curr' _ hbody
    obtain ⟨c, hc, hbody⟩ := Exec.bind_eq_ok.mp hbody
    obtain rfl := load_table hc
    split at hbody
    · dsimp only at hbody
      split at hbody <;> obtain ⟨t', -, hout⟩ := Exec.bind_eq_ok.mp hbody <;> cases hout
    · next hfit =>
      split at hbody
      · next hlt =>
        obtain rfl := Sum.inl.inj (Except.ok.inj hbody)
        exact ⟨congrArg _ ((if_neg hfit).trans (if_pos hlt)), trivial⟩
      · cases hbody
  · rintro curr out _ hbody
    obtain ⟨c, hc, hbody⟩ := Exec.bind_eq_ok.mp hbody
    obtain rfl := load_table hc
    split at hbody
    · next hfit =>
      refine ⟨_, congrArg _ (if_pos hfit), ?_⟩
      dsimp only at hbody
      split at hbody
      · next hsize =>
        obtain ⟨t', ht', hout⟩ := Exec.bind_eq_ok.mp hbody
        obtain rfl := Sum.inr.inj (Except.ok.inj hout)
        rw [if_pos hsize]
        exact ⟨rfl, takeRun_table ht'⟩
      · next hsize =>
        obtain ⟨t', ht', hout⟩ := Exec.bind_eq_ok.mp hbody
        obtain rfl := Sum.inr.inj (Except.ok.inj hout)
        rw [if_neg hsize]
        exact ⟨rfl, splitRun_table ht'⟩
    · next hfit =>
      split at hbody
      · cases hbody
      · next hlt =>
        obtain rfl := Sum.inr.inj (Except.ok.inj hbody)
        exact ⟨_, congrArg _ ((if_neg hfit).trans (if_neg hlt)), rfl, rfl⟩

theorem joinNext_table (h : joinNext (m.table n) i = .ok t) :
    t = (joinNextAt n m i).table n := by
  obtain ⟨c, hc, h⟩ := Exec.bind_eq_ok.mp h
  obtain rfl := load_table hc
  split at h
  · next hlt =>
    obtain ⟨e, he, h⟩ := Exec.bind_eq_ok.mp h
    obtain rfl := load_table he
    split at h
    · next hfree => rw [store_table h, joinNextAt, if_pos ⟨hlt, hfree⟩]
    · next hfree => rw [← Except.ok.inj h, joinNextAt, if_neg fun hc => hfree hc.2]
  · next hlt => rw [← Except.ok.inj h, joinNextAt, if_neg fun hc => hlt hc.1]

theorem joinPrev_table {j : ℤ} (h : joinPrev (m.table n) i = .ok (j, t)) :
    (j, t) = ((m.joinPrevAt i).1, (m.joinPrevAt i).2.table n) := by
  rw [joinPrev] at h
  split at h
  · next hpos =>
    obtain ⟨f, hf, h⟩ := Exec.bind_eq_ok.mp h
    obtain rfl := load_table hf
    split at h
    · next hfree =>
      obtain ⟨c, hc, h⟩ := Exec.bind_eq_ok.mp h
      obtain rfl := load_table hc
      obtain ⟨e, he, h⟩ := Exec.bind_eq_ok.mp h
      obtain rfl := load_table he
      obtain ⟨t', ht', h⟩ := Exec.bind_eq_ok.mp h
      obtain rfl := store_table ht'
      rw [← Except.ok.inj h, joinPrevAt, if_pos ⟨hpos, hfree⟩]
    · next hfree => rw [← Except.ok.inj h, joinPrevAt, if_neg fun hc => hfree hc.2]
  · next hpos => rw [← Except.ok.inj h, joinPrevAt, if_neg fun hc => hpos hc.1]

theorem markFree_table (h : markFree (m.table n) i = .ok t) : t = (m.markFreeAt i).table n := by
  obtain ⟨c, hc, h⟩ := Exec.bind_eq_ok.mp h
  obtain rfl := load_table hc
  obtain ⟨t', ht', h⟩ := Exec.bind_eq_ok.mp h
  obtain rfl := store_table ht'
  obtain ⟨e, he, h⟩ := Exec.bind_eq_ok.mp h
  obtain rfl := load_table he
  exact store_table h

/-- `SCCFreeLut` inside the table. -/
theorem sccFreeLut_table {A : PtrArith} {P : Placement} {p : ℤ}
    (h : sccFreeLut A P p (m.table n) = .ok t) :
    t = (freeLutAt n m (P.pageIndex A p)).table n := by
  obtain ⟨t₁, h₁, h⟩ := Exec.bind_eq_ok.mp h
  obtain rfl := joinNext_table h₁
  obtain ⟨⟨j, t₂⟩, h₂, h⟩ := Exec.bind_eq_ok.mp h
  obtain ⟨rfl, rfl⟩ := Prod.mk.inj (joinPrev_table h₂)
  exact markFree_table h

end Table

end LutMem

/-! ## Runs -/

/-- The memory and the runs in use. -/
structure LutImage : Type where
  mem : LutMem
  live : List (ℕ × ℕ)

/-- The table in the memory, with the runs in use. -/
def LutImage.run (s : LutImage) (P : Placement) : LutRun := ⟨s.mem.table P.remotePages, s.live⟩

/-- One call on the memory. `SCCFreeLut` always comes back. -/
inductive LutMemStep (A : PtrArith) (P : Placement) : LutImage → LutOp → LutImage → Prop where
  | malloc {s : LutImage} {lut : ℕ} {m' : LutMem} (size : ℕ) : 0 < size → size < wordSize →
      Returns (fun fuel => LutMem.mallocLutAt P.remoteLut P.remotePages fuel size s.mem)
        (lut, m') → lut ≠ 0 →
      LutMemStep A P s (.malloc size) ⟨m', (lut - P.remoteLut, size) :: s.live⟩
  | mallocFail {s : LutImage} {m' : LutMem} (size : ℕ) : 0 < size → size < wordSize →
      Returns (fun fuel => LutMem.mallocLutAt P.remoteLut P.remotePages fuel size s.mem)
        (0, m') →
      LutMemStep A P s (.malloc size) ⟨m', s.live⟩
  | free {s : LutImage} (r : ℕ × ℕ) : r ∈ s.live →
      LutMemStep A P s (.free r)
        ⟨LutMem.freeLutAt P.remotePages s.mem (P.pageIndex A (P.page r.1)), s.live.erase r⟩

section Image

variable {n : ℕ} {A : PtrArith} {P : Placement} {s s' : LutImage} {op : LutOp}

/-- A call on the memory is one on the table, as long as a freed run has a distance from
`remote` that a pointer difference can hold. -/
theorem LutHolds.lutStep {a : Arena 0 P.remotePages} (hn : P.remotePages < charSize)
    (hpos : 0 < P.remotePages) (hI : LutHolds a (s.run P)) (hok : LutFreeOk A (s.run P) op)
    (hs : LutMemStep A P s op s') : LutStep A P (s.run P) op (s'.run P) := by
  -- `SCCMallocLut` stays inside the table
  have hmalloc : ∀ {size r : ℕ} {m' : LutMem}, 0 < size →
      Returns (fun fuel => LutMem.mallocLutAt P.remoteLut P.remotePages fuel size s.mem)
        (r, m') →
      Returns (fun fuel => sccMallocLut P.remoteLut fuel size (s.run P).table)
        (r, m'.table P.remotePages) := by
    intro size r m' hsize hret
    obtain ⟨r', t, ⟨fuel, hfuel⟩, -⟩ := sccMallocLut_spec hpos hn hI.tagged hsize P.remoteLut
    obtain ⟨m'', hret', rfl⟩ := LutMem.sccMallocLut_table hfuel
    obtain ⟨rfl, rfl⟩ := Prod.mk.inj (hret.unique (loop_fuel_mono _ _) ⟨fuel, hret'⟩)
    exact ⟨fuel, hfuel⟩
  cases hs with
  | malloc size hsize hlt hret hne => exact .malloc size hsize hlt (hmalloc hsize hret) hne
  | mallocFail size hsize hlt hret => exact .mallocFail size hsize hlt (hmalloc hsize hret)
  | free r hr =>
    obtain ⟨t', -, hfree, -⟩ := hI.free (P := P) hn hr hok
    obtain rfl := LutMem.sccFreeLut_table hfree
    exact .free r hr hfree

/-- The invariant holds in every run all of whose frees are of such runs. -/
theorem LutImage.holds (hpos : 0 < P.remotePages) (hn : P.remotePages < charSize)
    (hlut : P.remoteLut + P.remotePages ≤ charSize) {m : LutMem}
    (h : Reach (Guarded (LutMemStep A P) fun s => LutFreeOk A (s.run P))
      ⟨m.sccInit P.remotePages, []⟩ s) : ∃ a : Arena 0 P.remotePages, LutHolds a (s.run P) := by
  obtain ⟨t, ht, htag⟩ := sccInitLut_tagged hpos fun i => m i
  obtain rfl := LutMem.sccInitLut_table ht
  exact h.invariant (I := fun s => ∃ a : Arena 0 P.remotePages, LutHolds a (s.run P))
    ⟨_, htag, by simp [LutImage.run], by simp [LutImage.run]⟩ fun s op s' ⟨a, hI⟩ hs =>
      hI.step hn hpos hlut hs.1 (hI.lutStep hn hpos hs.1 hs.2)

end Image

end SccShm
