import SccShm.LpelSpec

/-!
# Runs of the LPEL allocator

Clients call `LPEL_shmalloc` with any size and `LPEL_shfree` with any address, in any
order; what has been allocated and not freed is kept beside the allocator.

* `Laid base live l` — the blocks `l` of the list, from the head up to the tail, tile the
  memory at `base` and are in use exactly where `live` says.
* `LpelHolds a s` — the list of `s` represents the arena `a`, in which the allocations of
  `s` are live. Each call keeps it for some arena.
* `lpel_laid` — the list is laid out so in every state, and depends on what is live only.
-/

namespace SccShm

/-! ## Clients -/

/-- The allocator together with what is in use. -/
structure LpelState : Type where
  lpel : Lpel
  /-- addresses returned and not freed, with the sizes requested -/
  live : List (ℕ × ℕ)

/-- The calls. -/
inductive LpelOp : Type where
  /-- `LPEL_shmalloc(size)`, with `new` the node that `malloc` yields -/
  | malloc (new size : ℕ)
  /-- `LPEL_shfree(ptr)` -/
  | free (ptr : ℕ)

/-- One call. -/
inductive LpelStep : LpelState → LpelOp → LpelState → Prop where
  | malloc {s : LpelState} {i : ℕ} {s' : Lpel} (new size : ℕ) : s.lpel.store new = none →
      Returns (fun fuel => lpelShmalloc fuel new size s.lpel) (some i, s') →
      LpelStep s (.malloc new size) ⟨s', (i, size) :: s.live⟩
  | mallocNull {s : LpelState} {s' : Lpel} (new size : ℕ) : s.lpel.store new = none →
      Returns (fun fuel => lpelShmalloc fuel new size s.lpel) (none, s') →
      LpelStep s (.malloc new size) ⟨s', s.live⟩
  | free {s : LpelState} {s' : Lpel} (ptr : ℕ) :
      Returns (fun fuel => lpelShfree fuel ptr s.lpel) s' →
      LpelStep s (.free ptr) ⟨s', s.live.filter fun b => b.1 ≠ ptr⟩

/-- `malloc` yields a node that does not exist yet. -/
def LpelOp.Fresh (s : LpelState) : LpelOp → Prop
  | .malloc new _ => s.lpel.store new = none
  | .free _ => True

/-- The state after `LPEL_shmalloc_init`. -/
def lpelInit (node base : ℕ) : LpelState := ⟨lpelShmallocInit node base, []⟩

/-! ## The list -/

/-- What a node says of its block. -/
structure Entry : Type where
  space : ℕ
  freeSize : ℕ
  deriving DecidableEq

/-- From node `n`, the links lead through the blocks `l` to the tail, which is the last
of them. -/
inductive Lpel.Reads (s : Lpel) : ℕ → List Entry → Prop where
  | tail {b : LpelBlock} : s.store s.tail = some b → Reads s s.tail [⟨b.space, b.freeSize⟩]
  | next {n : ℕ} {b : LpelBlock} {l : List Entry} : n ≠ s.tail → s.store n = some b →
      Reads s b.next l → Reads s n (⟨b.space, b.freeSize⟩ :: l)

/-- The list, read from `tail->next` up to `tail`. -/
def Lpel.Blocks (s : Lpel) (l : List Entry) : Prop :=
  ∃ b, s.store s.tail = some b ∧ s.Reads b.next l

/-- All blocks but the last, each with its extent, `next->space - space`. -/
def extents : List Entry → List (Entry × ℕ)
  | d :: e :: l => (d, e.space - d.space) :: extents (e :: l)
  | _ => []

/-- The blocks `l` tile the memory at `base`, where `live` is in use. -/
structure Laid (base : ℕ) (live : List (ℕ × ℕ)) (l : List Entry) : Prop where
  first : ∃ e, l.head? = some e ∧ e.space = base
  increasing : l.Pairwise fun d e => d.space < e.space
  tail : ∃ e, l.getLast? = some e ∧ e.space + e.freeSize = base + lpelSize
  /-- what is in use is one block, with `free_size` zero -/
  used : ∀ i n, (i, n) ∈ live ↔ (⟨i, 0⟩, n) ∈ extents l
  free : ∀ d ∈ extents l, d.1.freeSize ≠ 0 → d.1.freeSize = d.2
  coalesced : (extents l).IsChain fun d e => ¬ (d.1.freeSize ≠ 0 ∧ e.1.freeSize ≠ 0)
  beforeTail : ∀ d ∈ (extents l).getLast?, d.1.freeSize = 0
  distinct : (live.map Prod.fst).Nodup
  apart : live.Pairwise fun b c => Apart b.1 b.2 c.1 c.2
  inside : ∀ b ∈ live, base ≤ b.1 ∧ b.1 + b.2 ≤ base + lpelSize

theorem Lpel.Reads.unique {s : Lpel} {n : ℕ} {l l' : List Entry} (h : s.Reads n l)
    (h' : s.Reads n l') : l = l' := by
  induction h generalizing l' with
  | tail hb =>
    cases h' with
    | tail hb' => rw [Option.some.inj (hb.symm.trans hb')]
    | next hne _ _ => exact absurd rfl hne
  | next hne hb _ ih =>
    cases h' with
    | tail _ => exact absurd rfl hne
    | next _ hb' hl' =>
      obtain rfl := Option.some.inj (hb.symm.trans hb')
      rw [ih hl']

theorem Lpel.Blocks.unique {s : Lpel} {l l' : List Entry} (h : s.Blocks l)
    (h' : s.Blocks l') : l = l' := by
  obtain ⟨b, hb, hl⟩ := h
  obtain ⟨b', hb', hl'⟩ := h'
  obtain rfl := Option.some.inj (hb.symm.trans hb')
  exact hl.unique hl'

/-- What a node says of a piece. -/
def Piece.entry (p : Piece) : Entry := ⟨p.start, p.room⟩

/-- A list of nodes is read as the pieces it shows. -/
theorem Lpel.Lists.reads {s : Lpel} {l : List (ℕ × Piece)} {x y : ℕ}
    (hseg : lpelLayout.Seg s.store x l y) (hnd : (nodes l).Nodup)
    (htail : (nodes l).getLast? = some s.tail) : s.Reads x (l.map fun e => e.2.entry) := by
  induction l generalizing x with
  | nil => cases htail
  | cons e l ih =>
    obtain ⟨n, p⟩ := e
    obtain ⟨rfl, b, hb, ⟨hspace, hroom⟩, hl⟩ := hseg
    have hentry : p.entry = ⟨b.space, b.freeSize⟩ := by rw [Piece.entry, hspace, hroom]
    rw [List.map_cons]
    simp only [hentry]
    cases l with
    | nil =>
      obtain rfl : x = s.tail := by simpa using htail
      exact Reads.tail hb
    | cons e' l =>
      rw [nodes_cons] at hnd htail
      have htail' : (nodes (e' :: l)).getLast? = some s.tail := by
        rwa [List.getLast?_cons_of_ne_nil (by simp)] at htail
      refine Reads.next ?_ hb (ih hl (List.nodup_cons.mp hnd).2 htail')
      rintro rfl
      exact (List.nodup_cons.mp hnd).1 (List.mem_of_getLast? htail')

variable {lo hi : ℕ}

theorem Lpel.Reps.blocks {s : Lpel} {l : List (ℕ × Piece)} {a : Arena lo hi} (h : s.Reps l a) :
    s.Blocks (a.table.map Piece.entry) := by
  obtain ⟨x, hx⟩ := h.cycle.closed
  have hreads := Lpel.Lists.reads hx h.cycle.nodup h.tail
  rw [← h.table, List.map_map]
  cases l with
  | nil => cases h.tail
  | cons e l =>
    obtain ⟨b, hb, hnext⟩ := h.before (u := []) (n := e.1) (p := e.2) (v := l)
    obtain ⟨rfl, -⟩ := id hx
    exact ⟨b, hb, by rw [hnext]; exact hreads⟩

/-! ## The layout -/

/-- In a tiling, the extent of a block is the length of its piece. -/
theorem extents_of_tiles {ps : List Piece} {e : Entry} (h : Tiles lo ps e.space) :
    extents (ps.map Piece.entry ++ [e]) = ps.map fun p => (p.entry, p.len) := by
  induction ps generalizing lo with
  | nil => rfl
  | cons p ps ih =>
    obtain ⟨-, -, ht⟩ := h
    have hnext : ∃ d l, ps.map Piece.entry ++ [e] = d :: l ∧ d.space = p.stop := by
      cases ps with
      | nil => exact ⟨e, [], rfl, ht.symm⟩
      | cons q ps => exact ⟨q.entry, _, rfl, ht.1⟩
    obtain ⟨d, l, hdl, hd⟩ := hnext
    have hlen : d.space - p.entry.space = p.len := by
      rw [hd, Piece.stop]
      exact Nat.add_sub_cancel_left ..
    rw [List.map_cons, List.cons_append, hdl, extents, hlen, ← hdl, ih ht, List.map_cons]

/-- The table of an arena is laid out as it should be. -/
theorem Arena.laid {base : ℕ} (a : Arena base (base + lpelSize)) {live : List (ℕ × ℕ)}
    (hlive : ∀ i n, a.Live i n ↔ (i, n) ∈ live) (hnd : (live.map Prod.fst).Nodup) :
    Laid base live (a.table.map Piece.entry) := by
  obtain ⟨ps, t, htable, ht, htiles, hstop, hc, hends, hiff⟩ := a.table_eq
  have hext : extents (a.table.map Piece.entry) = ps.map fun p => (p.entry, p.len) := by
    rw [htable, List.map_append]
    exact extents_of_tiles htiles
  have hfree : ∀ p : Piece, p ∈ ps → (p.entry.freeSize ≠ 0 ↔ p.free = true) := by
    intro p hp
    have := (htiles.bounds hp).2.1
    change p.room ≠ 0 ↔ _
    rw [Piece.room]
    split
    · next hpf => exact ⟨fun _ => hpf, fun _ => by omega⟩
    · next hpf => exact ⟨fun h => absurd rfl h, fun h => absurd h hpf⟩
  refine ⟨?_, ?_, ?_, fun i n => ?_, ?_, ?_, ?_, hnd, ?_, fun b hb => ?_⟩
  · rw [htable]
    cases ps with
    | nil => exact ⟨_, rfl, htiles.symm⟩
    | cons p ps => exact ⟨_, rfl, htiles.1⟩
  · exact List.pairwise_map.mpr a.table_pairwise
  · refine ⟨t.entry, by rw [htable]; simp, ?_⟩
    rw [← hstop]
    exact congrArg _ (Piece.room_of_free ht)
  · rw [← hlive, hiff, hext, List.mem_map]
    refine ⟨?_, ?_⟩
    · exact fun h => ⟨_, h, rfl⟩
    · rintro ⟨⟨j, k, f⟩, hp, heq⟩
      simp only [Prod.mk.injEq, Piece.entry, Entry.mk.injEq] at heq
      obtain ⟨⟨rfl, hroom⟩, rfl⟩ := heq
      cases f with
      | false => exact hp
      | true => exact absurd hroom ((hfree _ hp).mpr rfl)
  · rw [hext]
    rintro d hd hne
    obtain ⟨p, hp, rfl⟩ := List.mem_map.mp hd
    exact Piece.room_of_free ((hfree p hp).mp hne)
  · rw [hext, List.isChain_map]
    apply hc.imp_of_mem_imp
    intro p q hp hq hpq
    rw [hfree p hp, hfree q hq]
    exact hpq
  · rw [hext]
    intro d hd
    rw [List.getLast?_map, Option.mem_def, Option.map_eq_some_iff] at hd
    obtain ⟨p, hp, rfl⟩ := hd
    exact Piece.room_of_live (hends p hp)
  · have hd : live.Pairwise fun b c => b.1 ≠ c.1 := List.pairwise_map.mp hnd
    refine hd.imp_of_mem fun {b c} hb hc hne => ?_
    rcases ((hlive _ _).mpr hb).apart ((hlive _ _).mpr hc) with heq | hle
    · exact absurd heq.1 hne
    · exact apart_of_le hle
  · obtain ⟨hlo, -, hhi⟩ := ((hlive _ _).mpr hb).bounds
    exact ⟨hlo, hhi⟩

/-! ## The invariant -/

/-- The list represents `a`, where the allocations of `s` are live. -/
structure LpelHolds (a : Arena lo hi) (s : LpelState) : Prop where
  reps : ∃ l, s.lpel.Reps l a
  live : ∀ i n, a.Live i n ↔ (i, n) ∈ s.live
  distinct : (s.live.map Prod.fst).Nodup

section Holds

variable {a : Arena lo hi} {s s' : LpelState} {op : LpelOp}

/-- `LPEL_shmalloc` changes nothing or allocates from the piece that is picked. -/
theorem LpelHolds.malloc (hI : LpelHolds a s) {new size : ℕ} (hnew : s.lpel.store new = none)
    {r : Option ℕ} {t : Lpel}
    (hret : Returns (fun fuel => lpelShmalloc fuel new size s.lpel) (r, t)) :
    (r = none ∧ t = s.lpel ∧ (size = 0 ∨ ∀ p ∈ a.table, p.free = true → p.len < size)) ∨
      ∃ i, r = some i ∧ Picked a.table size i ∧
        ∃ a' : Arena lo hi, a.Allocates i size a' ∧ LpelHolds a' ⟨t, (i, size) :: s.live⟩ := by
  obtain ⟨l, hl⟩ := hI.reps
  obtain ⟨out, hout, hcase⟩ := lpelShmalloc_spec hl hnew size
  obtain rfl := hret.unique (lpelShmalloc_fuelStable ..).mono ⟨_, hout _ (le_refl _)⟩
  rcases hcase with ⟨heq, hnone⟩ | ⟨i, s', l', a', heq, -, hpicked, hall, hreps⟩
  · obtain ⟨rfl, rfl⟩ := Prod.mk.inj heq
    exact Or.inl ⟨rfl, rfl, hnone⟩
  · obtain ⟨rfl, rfl⟩ := Prod.mk.inj heq
    refine Or.inr ⟨i, rfl, hpicked, a', hall, ⟨l', hreps⟩, fun j n => ?_, ?_⟩
    · rw [hall.2.2, hI.live, List.mem_cons, Prod.mk.injEq, or_comm]
    · rw [List.map_cons, List.nodup_cons]
      refine ⟨fun hmem => ?_, hI.distinct⟩
      obtain ⟨⟨j, n⟩, hb, rfl⟩ := List.mem_map.mp hmem
      exact hall.fresh ((hI.live _ _).mpr hb)

/-- `LPEL_shfree` frees what begins at the address. -/
theorem LpelHolds.free (hI : LpelHolds a s) {ptr : ℕ} {t : Lpel}
    (hret : Returns (fun fuel => lpelShfree fuel ptr s.lpel) t) :
    ∃ a' : Arena lo hi, LpelHolds a' ⟨t, s.live.filter fun b => b.1 ≠ ptr⟩ := by
  obtain ⟨l, hl⟩ := hI.reps
  obtain ⟨s', hs', hcase⟩ := lpelShfree_spec hl ptr
  obtain rfl := hret.unique (lpelShfree_fuelStable ..).mono ⟨_, hs' _ (le_refl _)⟩
  have hmem : ∀ j n, (j, n) ∈ (s.live.filter fun b => b.1 ≠ ptr) ↔ (j, n) ∈ s.live ∧ j ≠ ptr := by
    simp
  have hnd := hI.distinct.sublist ((List.filter_sublist (p := fun b => b.1 ≠ ptr)).map Prod.fst)
  rcases hcase with ⟨hnone, rfl⟩ | ⟨k, l', a', hrel, hreps⟩
  · refine ⟨a, ⟨l, hl⟩, fun j n => ?_, hnd⟩
    rw [hmem, hI.live]
    refine ⟨fun h => ⟨h, ?_⟩, And.left⟩
    rintro rfl
    exact hnone n ((hI.live _ _).mpr h)
  · refine ⟨a', ⟨l', hreps⟩, fun j n => ?_, hnd⟩
    rw [hmem, hrel.2, hI.live]
    refine and_congr_right fun h => not_congr ⟨And.left, ?_⟩
    rintro rfl
    rcases ((hI.live _ _).mpr h).apart hrel.1 with heq | hle
    · exact heq
    · have := ((hI.live _ _).mpr h).bounds
      have := hrel.1.bounds
      omega

theorem LpelHolds.step (hI : LpelHolds a s) (hs : LpelStep s op s') :
    ∃ a' : Arena lo hi, LpelHolds a' s' := by
  cases hs with
  | malloc new size hnew hret =>
    rcases hI.malloc hnew hret with ⟨h, -⟩ | ⟨i, h, -, a', -, hI'⟩
    · cases h
    · rw [Option.some.inj h]
      exact ⟨a', hI'⟩
  | mallocNull new size hnew hret =>
    rcases hI.malloc hnew hret with ⟨-, rfl, -⟩ | ⟨i, h, -⟩
    · exact ⟨a, hI⟩
    · cases h
  | free ptr hret => exact hI.free hret

/-- Every call returns. -/
theorem LpelHolds.progress (hI : LpelHolds a s) (hfresh : op.Fresh s) :
    ∃ s', LpelStep s op s' := by
  obtain ⟨l, hl⟩ := hI.reps
  cases op with
  | malloc new size =>
    obtain ⟨⟨r, t⟩, hout, -⟩ := lpelShmalloc_spec hl hfresh size
    cases r with
    | none => exact ⟨_, .mallocNull new size hfresh ⟨_, hout _ (le_refl _)⟩⟩
    | some i => exact ⟨_, .malloc new size hfresh ⟨_, hout _ (le_refl _)⟩⟩
  | free ptr =>
    obtain ⟨t, ht, -⟩ := lpelShfree_spec hl ptr
    exact ⟨_, .free ptr ⟨_, ht _ (le_refl _)⟩⟩

theorem lpelHolds_init (node base : ℕ) :
    LpelHolds (Arena.whole (Nat.lt_add_of_pos_right (by decide) : base < base + lpelSize))
      (lpelInit node base) := by
  have hstore : (lpelInit node base).lpel.store node = some ⟨base, lpelSize, node⟩ := by
    change Store.put (fun _ => none) node _ node = _
    exact Store.put_self
  have hcycle : lpelLayout.Cycle (lpelInit node base).lpel.store
      [(node, ⟨base, lpelSize, true⟩)] := by
    refine ⟨⟨node, rfl, _, hstore, ⟨rfl, rfl⟩, rfl⟩, by simp, fun n b hb => ?_⟩
    by_cases hn : n = node
    · simp [hn]
    · change Store.put (fun _ => none) node _ n = some b at hb
      rw [Store.put_of_ne hn] at hb
      cases hb
  refine ⟨⟨_, ⟨hcycle, rfl⟩, ?_⟩, by simp [lpelInit], List.nodup_nil⟩
  rw [Arena.table_whole]
  simp

end Holds

/-! ## Runs -/

/-- The list of every state reached represents an arena. -/
theorem lpelHolds_of_reach {node base : ℕ} {s : LpelState}
    (h : Reach LpelStep (lpelInit node base) s) :
    ∃ a : Arena base (base + lpelSize), LpelHolds a s :=
  h.invariant (I := fun s => ∃ a : Arena base (base + lpelSize), LpelHolds a s)
    ⟨_, lpelHolds_init _ base⟩ fun _ _ _ ⟨_, hI⟩ hs => hI.step hs

/-- **The list of the LPEL allocator.** After any sequence of calls it tiles the memory,
in use exactly where something is live; it depends on what is live only; and every further
call returns. -/
theorem lpel_laid {node base : ℕ} {s : LpelState} (h : Reach LpelStep (lpelInit node base) s) :
    (∃ l, s.lpel.Blocks l ∧ Laid base s.live l) ∧
      (∀ node' s', Reach LpelStep (lpelInit node' base) s' → (∀ b, b ∈ s.live ↔ b ∈ s'.live) →
        ∀ l l', s.lpel.Blocks l → s'.lpel.Blocks l' → l = l') ∧
      ∀ op : LpelOp, op.Fresh s → ∃ s', LpelStep s op s' := by
  obtain ⟨a, hI⟩ := lpelHolds_of_reach h
  obtain ⟨l, hl⟩ := hI.reps
  refine ⟨⟨_, hl.blocks, a.laid hI.live hI.distinct⟩, fun node' s' h' hsame l₁ l₂ h₁ h₂ => ?_,
    fun op hfresh => hI.progress hfresh⟩
  obtain ⟨a', hI'⟩ := lpelHolds_of_reach h'
  obtain ⟨l', hl'⟩ := hI'.reps
  -- the arenas are the same
  obtain rfl : a = a' := Arena.ext_live fun i n => by rw [hI.live, hI'.live, hsame]
  rw [h₁.unique hl.blocks, h₂.unique hl'.blocks]

/-- Three blocks, the one in the middle freed. -/
theorem lpel_laid_demo :
    ∃ s : LpelState, s.live = [(1030, 30), (1000, 10)] ∧
      ∃ l, s.lpel.Blocks l ∧ Laid 1000 s.live l := by
  have r₀ : Reach LpelStep (lpelInit 0 1000) _ := Reach.init
  have r₁ := r₀.next (.malloc 1 10 rfl ⟨1, rfl⟩)
  have r₂ := r₁.next (.malloc 2 20 rfl ⟨1, rfl⟩)
  have r₃ := r₂.next (.malloc 3 30 rfl ⟨1, rfl⟩)
  have r₄ := r₃.next (.free 1010 ⟨4, rfl⟩)
  exact ⟨_, rfl, (lpel_laid r₄).1⟩

end SccShm
