import SccShm.Lut
import SccShm.Tiling

/-!
# What the page table operations do

`Tagged t a` says that the table `t` shows the arena `a`: the first and the last
entry of every run carry its state and length. `sccMallocLut_spec` and
`sccFreeLut_spec` describe the two operations as an allocation and a release in
that arena.

Both replace some neighbouring runs by others and touch no entry elsewhere
(`Tagged.splice`); what they write are the tags of whole runs (`LutTable.tag`).
-/

namespace SccShm

/-- Both tags of the run of `k` pages at `s`. -/
def LutTable.tag (t : LutTable) (s k : ℕ) (f : Bool) : LutTable :=
  (t.set s ⟨f, k⟩).set (s + k - 1) ⟨f, k⟩

namespace LutTable

variable {t : LutTable} {s k u : ℕ} {f : Bool}

@[simp] theorem pages_tag : (t.tag s k f).pages = t.pages := rfl

@[simp] theorem entry_tag_foot : (t.tag s k f).entry (s + k - 1) = ⟨f, k⟩ := by
  rw [tag, entry_set_self]

@[simp] theorem entry_tag_head : (t.tag s k f).entry s = ⟨f, k⟩ := by
  by_cases h : s = s + k - 1
  · rw [tag, ← h, entry_set_self]
  · rw [tag, entry_set_of_ne h, entry_set_self]

theorem entry_tag_of_notMem (hpos : 0 < k) (h : ¬ (s ≤ u ∧ u < s + k)) :
    (t.tag s k f).entry u = t.entry u := by
  rw [tag, entry_set_of_ne (by omega), entry_set_of_ne (by omega)]

end LutTable

variable {n : ℕ} {a b : Arena 0 n} {t t' : LutTable} {l m r : List Piece} {p q : Piece}

/-- The table shows the runs of `a`. -/
structure Tagged (t : LutTable) (a : Arena 0 n) : Prop where
  pages : t.pages = n
  head : ∀ p ∈ a.pieces, t.entry p.start = ⟨p.free, p.len⟩
  foot : ∀ p ∈ a.pieces, t.entry (p.stop - 1) = ⟨p.free, p.len⟩

/-- Only entries of `[s, e)` were changed, and the new runs there are tagged. -/
theorem Tagged.splice {w : List Piece} {s e : ℕ} (ht : Tagged t a)
    (ha : a.pieces = l ++ m ++ r) (hb : b.pieces = l ++ w ++ r) (hl : Tiles 0 l s)
    (hr : Tiles e r n) (hpages : t'.pages = t.pages)
    (hout : ∀ u, ¬ (s ≤ u ∧ u < e) → t'.entry u = t.entry u)
    (hin : ∀ p ∈ w, t'.entry p.start = ⟨p.free, p.len⟩ ∧
      t'.entry (p.stop - 1) = ⟨p.free, p.len⟩) :
    Tagged t' b := by
  -- the runs to the left and to the right lie outside
  have hside : ∀ p, p ∈ l ∨ p ∈ r → t'.entry p.start = ⟨p.free, p.len⟩ ∧
      t'.entry (p.stop - 1) = ⟨p.free, p.len⟩ := by
    intro p hp
    have hpa : p ∈ a.pieces := by
      rw [ha]
      rcases hp with hp | hp <;> simp [hp]
    have hbounds : p.start < p.stop ∧ (p.stop ≤ s ∨ e ≤ p.start) := by
      rcases hp with hp | hp
      · have := hl.bounds hp
        simp only [Piece.stop] at *
        omega
      · have := hr.bounds hp
        simp only [Piece.stop] at *
        omega
    rw [hout _ (by omega), hout _ (by omega)]
    exact ⟨ht.head p hpa, ht.foot p hpa⟩
  have hall : ∀ p ∈ b.pieces, t'.entry p.start = ⟨p.free, p.len⟩ ∧
      t'.entry (p.stop - 1) = ⟨p.free, p.len⟩ := by
    intro p hp
    rw [hb, List.mem_append, List.mem_append] at hp
    rcases hp with (hp | hp) | hp
    · exact hside p (Or.inl hp)
    · exact hin p hp
    · exact hside p (Or.inr hp)
  exact ⟨by rw [hpages, ht.pages], fun p hp => (hall p hp).1, fun p hp => (hall p hp).2⟩

/-! ## `SCCInit` -/

theorem sccInitLut_tagged (hn : 0 < n) (entry : ℕ → LutState) :
    ∃ t, sccInitLut n entry = .ok t ∧ Tagged t (Arena.whole hn) := by
  have hlast : (n : ℤ) - 1 = ((n - 1 : ℕ) : ℤ) := by omega
  refine ⟨LutTable.tag ⟨entry, n⟩ 0 n true, ?_, rfl, ?_, ?_⟩
  · have hn' : n - 1 < n := by omega
    rw [sccInitLut, hlast, ← Int.natCast_zero]
    simp only [LutTable.load_natCast, LutTable.store_natCast, LutTable.pages_set,
      LutTable.entry_set_self, if_true, Exec.ok_bind, hn, hn', LutTable.tag, Nat.zero_add]
  · intro p hp
    obtain rfl : p = _ := List.mem_singleton.mp hp
    exact LutTable.entry_tag_head
  · intro p hp
    obtain rfl : p = _ := List.mem_singleton.mp hp
    exact LutTable.entry_tag_foot

/-! ## `SCCMallocLut` -/

section Malloc

variable {size : ℕ}

/-- The tiles around a piece. -/
theorem tiles_around (ha : a.pieces = l ++ p :: r) :
    Tiles 0 l p.start ∧ 0 < p.len ∧ p.stop ≤ n ∧ Tiles p.stop r n := by
  have ht := a.tiles
  rw [ha] at ht
  obtain ⟨s, hl, hs, hpos, hr⟩ := tiles_append.mp ht
  subst hs
  exact ⟨hl, hpos, hr.le, hr⟩

theorem takeRun_spec (ht : Tagged t a) (ha : a.pieces = l ++ p :: r) (hp : p.free = true)
    (hpos : 0 < p.len) :
    ∃ t', takeRun t p.start p.len = .ok t' ∧
      Tagged t' (a.carve ha hp p.len hpos (le_refl _)) := by
  have hpa : p ∈ a.pieces := by rw [ha]; simp
  obtain ⟨hl, -, hle, hr⟩ := tiles_around ha
  rw [Piece.stop] at hle
  have hlast : (p.start : ℤ) + p.len - 1 = ((p.start + p.len - 1 : ℕ) : ℤ) := by omega
  have hstart : p.start < t.pages := by rw [ht.pages]; omega
  have hstop : p.start + p.len - 1 < t.pages := by rw [ht.pages]; omega
  have hfoot : ((t.set p.start ⟨false, p.len⟩).entry (p.start + p.len - 1)).size = p.len := by
    by_cases h : p.start + p.len - 1 = p.start
    · rw [h, LutTable.entry_set_self]
    · have := ht.foot p hpa
      rw [Piece.stop] at this
      rw [LutTable.entry_set_of_ne h, this]
  refine ⟨t.tag p.start p.len false, ?_, ?_⟩
  · simp only [takeRun, LutTable.load_natCast, LutTable.store_natCast, LutTable.pages_set,
      if_true, Exec.ok_bind, hstart, hstop, ht.head p hpa, hlast, hfoot]
    rfl
  · refine ht.splice (m := [p]) (w := [⟨p.start, p.len, false⟩]) (by rw [ha]; simp) ?_ hl hr
      rfl (fun u hu => LutTable.entry_tag_of_notMem hpos hu) ?_
    · simp [Arena.carve, Arena.cut_self]
    · intro q hq
      obtain rfl := List.mem_singleton.mp hq
      exact ⟨LutTable.entry_tag_head, LutTable.entry_tag_foot⟩

theorem splitRun_spec (hn : n < charSize) (ht : Tagged t a) (ha : a.pieces = l ++ p :: r)
    (hp : p.free = true) (hsize : 0 < size) (hlt : size < p.len) :
    ∃ t', splitRun t p.start size = .ok t' ∧
      Tagged t' (a.carve ha hp size hsize hlt.le) := by
  have hpa : p ∈ a.pieces := by rw [ha]; simp
  obtain ⟨hl, -, hle, hr⟩ := tiles_around ha
  rw [Piece.stop] at hle
  have hk : (p.len - size) % charSize = p.len - size := Nat.mod_eq_of_lt (by omega)
  have hk' : size % charSize = size := Nat.mod_eq_of_lt (by omega)
  have hlast : ((p.start + size : ℕ) : ℤ) + ((p.len - size : ℕ) : ℤ) - 1
      = ((p.start + size + (p.len - size) - 1 : ℕ) : ℤ) := by omega
  have hlast' : (p.start : ℤ) + size - 1 = ((p.start + size - 1 : ℕ) : ℤ) := by omega
  have h₁ : p.start < t.pages := by rw [ht.pages]; omega
  have h₂ : p.start + size < t.pages := by rw [ht.pages]; omega
  have h₃ : p.start + size + (p.len - size) - 1 < t.pages := by rw [ht.pages]; omega
  have h₄ : p.start + size - 1 < t.pages := by rw [ht.pages]; omega
  have hcut := Arena.cut_of_lt hlt
  refine ⟨(t.tag (p.start + size) (p.len - size) true).tag p.start size false, ?_, ?_⟩
  · simp only [splitRun, LutTable.load_natCast, LutTable.store_natCast, LutTable.pages_set,
      LutTable.entry_set_self, if_true, Exec.ok_bind, h₁, h₂, h₃, h₄, ht.head p hpa, hk, hk',
      hlast, hlast']
    rfl
  · refine ht.splice (m := [p])
      (w := [⟨p.start, size, false⟩, ⟨p.start + size, p.len - size, true⟩])
      (by rw [ha]; simp) ?_ hl hr rfl ?_ ?_
    · simp [Arena.carve, hcut]
    · intro u hu
      rw [Piece.stop] at hu
      rw [LutTable.entry_tag_of_notMem hsize (by omega),
        LutTable.entry_tag_of_notMem (by omega) (by omega)]
    · intro q hq
      simp only [List.mem_cons, List.not_mem_nil, or_false] at hq
      rcases hq with rfl | rfl
      · exact ⟨LutTable.entry_tag_head, LutTable.entry_tag_foot⟩
      · simp only [Piece.stop]
        rw [LutTable.entry_tag_of_notMem hsize (by omega),
          LutTable.entry_tag_of_notMem hsize (by omega)]
        exact ⟨LutTable.entry_tag_head, LutTable.entry_tag_foot⟩

theorem load_head (ht : Tagged t a) (ha : a.pieces = l ++ p :: r) :
    t.load p.start = .ok ⟨p.free, p.len⟩ := by
  have hpa : p ∈ a.pieces := by rw [ha]; simp
  obtain ⟨-, hlen, hle, -⟩ := tiles_around ha
  rw [Piece.stop] at hle
  rw [LutTable.load_natCast, if_pos (by rw [ht.pages]; omega), ht.head p hpa]

/-- A pass that stops at a free run which is long enough. -/
theorem mallocLutBody_take (hn : n < charSize) (ht : Tagged t a) (ha : a.pieces = l ++ p :: r)
    (hp : p.free = true) (hsize : 0 < size) (hle : size ≤ p.len) (lut : ℕ) :
    ∃ t', mallocLutBody lut size t p.start = .ok (.inr ((lut + p.start) % charSize, t')) ∧
      Tagged t' (a.carve ha hp size hsize hle) := by
  have hload := load_head ht ha
  rcases Nat.lt_or_eq_of_le hle with hlt | rfl
  · obtain ⟨t', hsplit, ht'⟩ := splitRun_spec hn ht ha hp hsize hlt
    exact ⟨t', by simp [mallocLutBody, hload, hp, hlt.ne', hle, hsplit], ht'⟩
  · obtain ⟨t', htake, ht'⟩ := takeRun_spec ht ha hp hsize
    exact ⟨t', by simp [mallocLutBody, hload, hp, htake], ht'⟩

/-- A pass that finds the run at `p` of no use: it ends the scan there or goes on to the
next run. -/
theorem mallocLutBody_pass (ht : Tagged t a) (ha : a.pieces = l ++ p :: r)
    (hno : ¬ (p.free = true ∧ size ≤ p.len)) (lut : ℕ) :
    (r = [] ∧ mallocLutBody lut size t p.start = .ok (.inr (0, t))) ∨
      ∃ q r', r = q :: r' ∧ p.start < q.start ∧ q.start < n ∧
        mallocLutBody lut size t p.start = .ok (.inl q.start) := by
  have hload := load_head ht ha
  obtain ⟨-, hlen, hle, hr⟩ := tiles_around ha
  rw [Piece.stop] at hle
  cases r with
  | nil =>
    rw [tiles_nil, Piece.stop] at hr
    have hend : ¬ p.start + p.len < t.pages := by rw [ht.pages]; omega
    exact Or.inl ⟨rfl, by rw [mallocLutBody, hload, Exec.ok_bind, if_neg hno, if_neg hend]⟩
  | cons q r' =>
    obtain ⟨hqs, hqpos, hr⟩ := hr
    have hqn := hr.le
    rw [Piece.stop] at hqs hqn
    have hend : p.start + p.len < t.pages := by rw [ht.pages]; omega
    refine Or.inr ⟨q, r', rfl, by omega, by omega, ?_⟩
    rw [mallocLutBody, hload, Exec.ok_bind, if_neg hno, if_pos hend, hqs]

/-- The first piece starts at the first entry. -/
theorem exists_first (hpos : 0 < n) (a : Arena 0 n) : ∃ p r, a.pieces = p :: r ∧ p.start = 0 := by
  have ht := a.tiles
  cases hps : a.pieces with
  | nil =>
    rw [hps, tiles_nil] at ht
    omega
  | cons p r =>
    rw [hps] at ht
    exact ⟨p, r, rfl, ht.1⟩

/-- The scan of `SCCMallocLut` stands at `curr`; no run before it will do. -/
def ScanningLut (a : Arena 0 n) (size curr : ℕ) : Prop :=
  ∃ l p r, a.pieces = l ++ p :: r ∧ p.start = curr ∧
    ∀ q ∈ l, q.free = true → q.len < size

/-- **`SCCMallocLut`.** For a request of at least one page the call ends. It
returns `0`, changing nothing, when no free run is long enough; otherwise it takes
the low pages of the first one that is. -/
theorem sccMallocLut_spec (hpos : 0 < n) (hn : n < charSize) (ht : Tagged t a)
    (hsize : 0 < size) (lut : ℕ) :
    ∃ r t', Returns (fun fuel => sccMallocLut lut fuel size t) (r, t') ∧
      ((r = 0 ∧ t' = t ∧ ∀ i k, a.Free i k → k < size) ∨
        ∃ (i : ℕ) (b : Arena 0 n), r = (lut + i) % charSize ∧ a.Allocates i size b ∧
          Tagged t' b ∧ ∀ j k, a.Free j k → j < i → k < size) := by
  have hloop := loop_total (mallocLutBody lut size t) (I := ScanningLut a size)
    (Q := fun out => (out.1 = 0 ∧ out.2 = t ∧ ∀ i k, a.Free i k → k < size) ∨
      ∃ (i : ℕ) (b : Arena 0 n), out.1 = (lut + i) % charSize ∧ a.Allocates i size b ∧
        Tagged out.2 b ∧ ∀ j k, a.Free j k → j < i → k < size)
    (fun curr => n - curr) ?_ (n + 1) 0 ?_ (by omega)
  · obtain ⟨⟨r, t'⟩, hret, hQ⟩ := hloop
    exact ⟨r, t', ⟨n + 1, hret⟩, hQ⟩
  · rintro _ ⟨l, p, r, ha, rfl, hl⟩
    obtain ⟨-, -, -, htr⟩ := tiles_around ha
    -- the free runs before `p` are the ones seen so far
    have hseen : ∀ j k, a.Free j k → j < p.start → k < size := by
      intro j k hf hj
      have hmem : (⟨j, k, true⟩ : Piece) ∈ l ++ p :: r := by rw [← ha]; exact hf
      rcases List.mem_append.mp hmem with hjl | hjr
      · exact hl _ hjl rfl
      · rcases List.mem_cons.mp hjr with rfl | hjr
        · exact absurd hj (lt_irrefl _)
        · have := (htr.bounds hjr).1
          simp only [Piece.stop] at this
          omega
    by_cases hfit : p.free = true ∧ size ≤ p.len
    · obtain ⟨hp, hle'⟩ := hfit
      obtain ⟨t', hbody, ht'⟩ := mallocLutBody_take hn ht ha hp hsize hle' lut
      exact Or.inl ⟨_, hbody,
        Or.inr ⟨p.start, _, rfl, a.carve_allocates ha hp hsize hle', ht', hseen⟩⟩
    · have hsmall : ∀ q ∈ l ++ [p], q.free = true → q.len < size := by
        intro q hq hqf
        rcases List.mem_append.mp hq with hq | hq
        · exact hl q hq hqf
        · rw [List.mem_singleton] at hq
          subst hq
          by_contra hge
          exact hfit ⟨hqf, by omega⟩
      rcases mallocLutBody_pass ht ha hfit lut with
        ⟨rfl, hbody⟩ | ⟨q, r', rfl, hlt, hqn, hbody⟩
      · refine Or.inl ⟨(0, t), hbody, Or.inl ⟨rfl, rfl, fun i k hf => ?_⟩⟩
        rw [Arena.Free, ha] at hf
        exact hsmall _ hf rfl
      · exact Or.inr ⟨q.start, hbody, ⟨l ++ [p], q, r', by rw [ha]; simp, rfl, hsmall⟩, by omega⟩
  · obtain ⟨p, r, hps, hp⟩ := exists_first hpos a
    exact ⟨[], p, r, hps, hp, by simp⟩

end Malloc

/-! ## `SCCFreeLut` -/

section Free

/-- `joinNext` with nothing free behind the run. -/
theorem joinNext_live (ht : Tagged t a) (ha : a.pieces = l ++ p :: r) (hlive : StartsLive r) :
    joinNext t p.start = .ok t := by
  have hpa : p ∈ a.pieces := by rw [ha]; simp
  obtain ⟨-, hpos, hle, hr⟩ := tiles_around ha
  rw [Piece.stop] at hle
  have hpages := ht.pages
  have hstart : p.start < t.pages := by omega
  have hcast : (p.start : ℤ) + p.len = ((p.start + p.len : ℕ) : ℤ) := by omega
  rw [joinNext, LutTable.load_natCast, if_pos hstart, Exec.ok_bind, ht.head p hpa]
  simp only [hcast]
  split
  · next hlt =>
    have hlt' : p.start + p.len < t.pages := by omega
    cases r with
    | nil =>
      rw [tiles_nil, Piece.stop] at hr
      omega
    | cons x r =>
      have hxa : x ∈ a.pieces := by rw [ha]; simp
      have hhead := ht.head x hxa
      rw [hr.1, Piece.stop, startsLive_cons.mp hlive] at hhead
      rw [LutTable.load_natCast, if_pos hlt', Exec.ok_bind, hhead]
      rfl
  · rfl

/-- `joinNext` with a free run behind the run. -/
theorem joinNext_free (hn : n < charSize) (ht : Tagged t a) (ha : a.pieces = l ++ p :: q :: r)
    (hq : q.free = true) :
    joinNext t p.start = .ok (t.set p.start ⟨p.free, p.len + q.len⟩) := by
  have hpa : p ∈ a.pieces := by rw [ha]; simp
  have hqa : q ∈ a.pieces := by rw [ha]; simp
  obtain ⟨-, hpos, hle, hqs, hqpos, htr⟩ := tiles_around ha
  have hqn := htr.le
  rw [Piece.stop] at hle hqs hqn
  have hpages := ht.pages
  have hstart : p.start < t.pages := by omega
  have hcast : (p.start : ℤ) + p.len = ((p.start + p.len : ℕ) : ℤ) := by omega
  have hhead := ht.head q hqa
  rw [hqs, hq] at hhead
  have hlt : p.start + p.len < t.pages := by omega
  have hsum : (p.len + q.len) % charSize = p.len + q.len := Nat.mod_eq_of_lt (by omega)
  rw [joinNext, LutTable.load_natCast, if_pos hstart, Exec.ok_bind, ht.head p hpa]
  simp only [hcast]
  rw [if_pos (by omega), LutTable.load_natCast, if_pos hlt, Exec.ok_bind, hhead, if_pos rfl,
    hsum, LutTable.store_natCast, if_pos hstart]

/-- `joinNext` adds up the run and a free run behind it. -/
theorem joinNext_spec (hn : n < charSize) (ht : Tagged t a) (ha : a.pieces = l ++ p :: r) :
    ∃ m r', r = m ++ r' ∧ StartsLive r' ∧ (∀ q ∈ m, q.free = true) ∧
      joinNext t p.start
        = .ok (t.set p.start ⟨p.free, p.len + (m.map Piece.len).sum⟩) := by
  rcases startsLive_or r with hlive | ⟨q, r', rfl, hq⟩
  · refine ⟨[], r, rfl, hlive, by simp, ?_⟩
    have hself := LutTable.set_entry_self t p.start
    rw [ht.head p (by rw [ha]; simp)] at hself
    rw [List.map_nil, List.sum_nil, Nat.add_zero, hself]
    exact joinNext_live ht ha hlive
  · have hc := a.coalesced
    rw [ha, ← List.singleton_append, ← List.append_assoc] at hc
    refine ⟨[q], r', rfl, hc.startsLive hq, by simpa using hq, ?_⟩
    rw [List.map_singleton, List.sum_singleton]
    exact joinNext_free hn ht ha hq

/-- `joinPrev` with nothing free before the run, whose entry may have been changed. -/
theorem joinPrev_live (ht : Tagged t a) (ha : a.pieces = l ++ p :: r) (hlive : EndsLive l)
    (e : LutState) : joinPrev (t.set p.start e) p.start = .ok (p.start, t.set p.start e) := by
  obtain ⟨hl, hpos, hle, -⟩ := tiles_around ha
  rw [Piece.stop] at hle
  have hpages := ht.pages
  rw [joinPrev]
  split
  · next hlt =>
    have hlt' : 0 < p.start := by omega
    have hprev : (p.start : ℤ) - 1 = ((p.start - 1 : ℕ) : ℤ) := by omega
    rcases List.eq_nil_or_concat' l with rfl | ⟨l', x, rfl⟩
    · rw [tiles_nil] at hl
      omega
    · obtain ⟨y, -, hxs, hxpos, hxe⟩ := tiles_append.mp hl
      rw [tiles_nil] at hxe
      have hfoot := ht.foot x (by rw [ha]; simp)
      rw [hxe, endsLive_append_singleton.mp hlive] at hfoot
      rw [hprev, LutTable.load_natCast, if_pos (by rw [LutTable.pages_set]; omega),
        Exec.ok_bind, LutTable.entry_set_of_ne (by omega), hfoot]
      rfl
  · rfl

/-- `joinPrev` with a free run before the run. -/
theorem joinPrev_free (hn : n < charSize) (ht : Tagged t a) (ha : a.pieces = l ++ [q] ++ p :: r)
    (hq : q.free = true) {k : ℕ} (hk : p.start + k ≤ n) {f : Bool} :
    q.stop = p.start ∧ joinPrev (t.set p.start ⟨f, k⟩) p.start
      = .ok (q.start, (t.set p.start ⟨f, k⟩).set q.start ⟨true, q.len + k⟩) := by
  have hqa : q ∈ a.pieces := by rw [ha]; simp
  obtain ⟨hl, hpos, hle, -⟩ := tiles_around ha
  obtain ⟨y, -, hqs, hqpos, hqe⟩ := tiles_append.mp hl
  rw [tiles_nil] at hqe
  refine ⟨hqe, ?_⟩
  have hfoot := ht.foot q hqa
  have hhead := ht.head q hqa
  rw [hqe, hq] at hfoot
  rw [hq] at hhead
  rw [Piece.stop] at hle hqe
  have hpages := ht.pages
  have hstart : p.start < t.pages := by omega
  have hqlt : q.start < t.pages := by omega
  have hset : ∀ u, u ≠ p.start → (t.set p.start ⟨f, k⟩).entry u = t.entry u :=
    fun u hu => LutTable.entry_set_of_ne hu
  have hprev : (p.start : ℤ) - 1 = ((p.start - 1 : ℕ) : ℤ) := by omega
  have hback : (p.start : ℤ) - q.len = (q.start : ℤ) := by omega
  have hcast : (q.start : ℤ) + q.len = (p.start : ℤ) := by omega
  have hsum : (q.len + k) % charSize = q.len + k := Nat.mod_eq_of_lt (by omega)
  rw [joinPrev, if_pos (by omega), hprev, LutTable.load_natCast,
    if_pos (by rw [LutTable.pages_set]; omega), Exec.ok_bind, hset _ (by omega), hfoot]
  simp only [if_true, hback, hcast, LutTable.load_natCast, LutTable.store_natCast,
    LutTable.pages_set, hqlt, hstart, Exec.ok_bind, hset q.start (by omega), hhead,
    LutTable.entry_set_self, hsum]

/-- `joinPrev` moves to a free run before the run and adds up the two. -/
theorem joinPrev_spec (hn : n < charSize) (ht : Tagged t a) (ha : a.pieces = l ++ p :: r)
    {k : ℕ} (hk : p.start + k ≤ n) {f : Bool} :
    ∃ (l' m : List Piece) (s : ℕ) (t₂ : LutTable), l = l' ++ m ∧ EndsLive l' ∧
      (∀ q ∈ m, q.free = true) ∧ s + (m.map Piece.len).sum = p.start ∧
      joinPrev (t.set p.start ⟨f, k⟩) p.start = .ok (s, t₂) ∧ t₂.pages = n ∧
      (t₂.entry s).size = (m.map Piece.len).sum + k ∧
      ∀ u, u ≠ s → u ≠ p.start → t₂.entry u = t.entry u := by
  rcases endsLive_or l with hlive | ⟨l', q, rfl, hq⟩
  · exact ⟨l, [], p.start, t.set p.start ⟨f, k⟩, by simp, hlive, by simp, by simp,
      joinPrev_live ht ha hlive _, ht.pages, by simp, fun u hu _ => LutTable.entry_set_of_ne hu⟩
  · obtain ⟨hqe, hjoin⟩ := joinPrev_free hn ht ha hq hk (f := f)
    have hc := a.coalesced
    rw [ha, List.append_assoc] at hc
    refine ⟨l', [q], q.start, (t.set p.start ⟨f, k⟩).set q.start ⟨true, q.len + k⟩, rfl,
      hc.endsLive hq, by simpa using hq, by simpa [Piece.stop] using hqe, hjoin, ht.pages, by simp,
      fun u hu hu' => ?_⟩
    rw [LutTable.entry_set_of_ne hu, LutTable.entry_set_of_ne hu']

theorem markFree_spec {s k : ℕ} (hk : (t.entry s).size = k) (hpos : 0 < k)
    (hle : s + k ≤ t.pages) : markFree t s = .ok (t.tag s k true) := by
  have hs : s < t.pages := by omega
  have hlast : (s : ℤ) + k - 1 = ((s + k - 1 : ℕ) : ℤ) := by omega
  have hlt : s + k - 1 < t.pages := by omega
  simp only [markFree, LutTable.load_natCast, LutTable.store_natCast, LutTable.pages_set,
    LutTable.entry_set_self, if_true, Exec.ok_bind, hs, hk, hlast, hlt]
  rfl

/-- **`SCCFreeLut`.** If the page index of `p` comes out as the first page of a live
run, the call gives the run back. -/
theorem sccFreeLut_spec (hn : n < charSize) (ht : Tagged t a) {i k : ℕ} (hlive : a.Live i k)
    (A : PtrArith) (P : Placement) {ptr : ℤ} (hidx : P.pageIndex A ptr = i) :
    ∃ (t' : LutTable) (b : Arena 0 n), sccFreeLut A P ptr t = .ok t' ∧ a.Releases i k b ∧
      Tagged t' b := by
  obtain ⟨l, r, ha⟩ := List.append_of_mem hlive
  obtain ⟨mr, r', rfl, hr, hmr, hnext⟩ := joinNext_spec hn ht ha
  have ht' := a.tiles
  rw [ha, ← List.cons_append] at ht'
  obtain ⟨i', htl, htr⟩ := tiles_append.mp ht'
  obtain ⟨e, htm, htr'⟩ := tiles_append.mp htr
  obtain rfl : i = i' := htm.1
  have hsum := Arena.sum_len_of_tiles htm
  rw [List.map_cons, List.sum_cons] at hsum
  change i + (k + (mr.map Piece.len).sum) = e at hsum
  have hen := htr'.le
  obtain ⟨l', ml, s, t₂, rfl, hl, hml, hs, hprev, hpages, hsize, hkeep⟩ :=
    joinPrev_spec hn ht ha (k := k + (mr.map Piece.len).sum) (f := false)
      (by change i + _ ≤ n; omega)
  change s + (ml.map Piece.len).sum = i at hs
  change joinPrev _ (i : ℤ) = _ at hprev
  obtain ⟨s', htl', html⟩ := tiles_append.mp htl
  have hsum' := Arena.sum_len_of_tiles html
  obtain rfl : s = s' := by omega
  have hpos : 0 < k := htm.2.1
  -- the runs `ml`, the freed one and `mr` become one
  have hsplit : a.pieces = l' ++ (ml ++ ⟨i, k, false⟩ :: mr) ++ r' := by
    rw [ha]
    simp
  have hmid : Tiles s (ml ++ ⟨i, k, false⟩ :: mr) e := tiles_append.mpr ⟨i, html, htm⟩
  have hfused : Arena.fused (ml ++ ⟨i, k, false⟩ :: mr)
      = ⟨s, (ml.map Piece.len).sum + (k + (mr.map Piece.len).sum), true⟩ := by
    rw [Arena.fused_eq hmid (by simp)]
    simp
  refine ⟨t₂.tag s ((ml.map Piece.len).sum + (k + (mr.map Piece.len).sum)) true,
    a.fuse hsplit (by simp) hl hr, ?_, ?_, ?_⟩
  · simp only [sccFreeLut, hidx]
    change joinNext t (i : ℤ) = _ at hnext
    rw [hnext, Exec.ok_bind, hprev, Exec.ok_bind]
    exact markFree_spec hsize (by omega) (by change s + _ ≤ t₂.pages; omega)
  · apply a.fuse_releases hsplit (by simp) hl hr (p := ⟨i, k, false⟩) rfl (by simp)
    intro q hq hqf
    exact Arena.eq_of_live hml hmr hq hqf
  · refine ht.splice hsplit (w := [Arena.fused (ml ++ ⟨i, k, false⟩ :: mr)]) ?_ htl' htr'
      (by rw [LutTable.pages_tag, hpages, ht.pages]) (fun u hu => ?_) (fun q hq => ?_)
    · simp [Arena.fuse]
    · rw [LutTable.entry_tag_of_notMem (by omega) (by omega),
        hkeep u (by omega) (by change u ≠ i; omega)]
    · rw [List.mem_singleton, hfused] at hq
      subst hq
      exact ⟨LutTable.entry_tag_head, LutTable.entry_tag_foot⟩

end Free

end SccShm
