import SccShm.Lpel
import SccShm.Topped

/-!
# What `LPEL_shmalloc` and `LPEL_shfree` do

`Lpel.Reps s l a` says that the nodes of `s` form the circular list `l`, which ends at
the tail and shows the table of the arena `a`: the tail stands for the room at the top,
and an allocated block does not know its size.

* `lpelShmalloc_spec` — a call ends; it allocates, or returns `NULL` with nothing
  changed.
* `lpelShfree_spec` — a call ends; it gives back what begins at the given address, or
  changes nothing.
-/

namespace SccShm

variable {lo hi : ℕ}

/-- What `free_size` says of a piece. -/
def Piece.room (p : Piece) : ℕ := if p.free then p.len else 0

@[simp] theorem Piece.room_free (s k : ℕ) : (Piece.mk s k true).room = k := rfl

theorem Piece.room_of_free {p : Piece} (h : p.free = true) : p.room = p.len := if_pos h

/-- A node shows where a piece begins, and its length if it is free. -/
def lpelLayout : Layout ℕ LpelBlock Piece where
  link := LpelBlock.next
  shows p b := b.space = p.start ∧ b.freeSize = p.room

/-- The nodes of `s` form the circular list `l`, up to the tail. -/
structure Lpel.Lists (s : Lpel) (l : List (ℕ × Piece)) : Prop where
  cycle : lpelLayout.Cycle s.store l
  tail : (nodes l).getLast? = some s.tail

/-- Moreover it shows the table of `a`. -/
structure Lpel.Reps (s : Lpel) (l : List (ℕ × Piece)) (a : Arena lo hi) : Prop
    extends Lpel.Lists s l where
  table : l.map Prod.snd = a.table

section Store

variable {st : Store ℕ LpelBlock} {l r : List (ℕ × Piece)} {b b' new size k : ℕ}
  {p q : Piece} {c d : LpelBlock}

/-! ### Changing the list -/

theorem cutBlock_eq (hb : st b = some c) (hnew : st new = none) (size : ℕ) :
    cutBlock new size b st = .ok
      ((st.put new ⟨c.space + size, c.freeSize - size, c.next⟩).put b ⟨c.space, 0, new⟩) := by
  have hne : b ≠ new := fun heq => by rw [heq, hnew] at hb; cases hb
  simp only [cutBlock, Store.modify, Store.get, Store.put, Function.update_self,
    Function.update_idem, Function.update_of_ne hne, Function.update_of_ne hne.symm, hb,
    Exec.ok_bind, Except.ok.injEq]
  rw [Function.update_comm hne, Function.update_idem, Function.update_idem]

/-- Splitting the block of node `b` puts a new node behind it. -/
theorem cycle_cut (h : lpelLayout.Cycle st (l ++ [(b, p)] ++ r)) (hp : p.free = true)
    (hb : st b = some c) (hnew : st new = none) (size : ℕ) :
    lpelLayout.Cycle
      ((st.put new ⟨c.space + size, c.freeSize - size, c.next⟩).put b ⟨c.space, 0, new⟩)
      (l ++ [(b, ⟨p.start, size, false⟩), (new, ⟨p.start + size, p.len - size, true⟩)] ++ r) := by
  have hne : new ≠ b := fun heq => by rw [← heq, hnew] at hb; cases hb
  refine h.splice (fun n hn => ?_) (fun x y hxy => ?_) ?_ (fun n hn => ?_) fun n x hn hx => ?_
  · have hnb : n ≠ b := h.ne_of_mem hn (by simp)
    have hnn : n ≠ new := fun heq => h.ne_none_of_mem hn (by rw [heq, hnew])
    rw [Store.put_of_ne hnb, Store.put_of_ne hnn]
  · obtain ⟨rfl, c', hc', ⟨hspace, hsize⟩, hy⟩ := hxy
    obtain rfl : c = c' := Option.some.inj (hb.symm.trans hc')
    rw [Piece.room_of_free hp] at hsize
    refine ⟨rfl, _, Store.put_self, ⟨hspace, rfl⟩, rfl,
      ⟨c.space + size, c.freeSize - size, c.next⟩, ?_, ⟨?_, ?_⟩, hy⟩
    · rw [Store.put_of_ne hne, Store.put_self]
    · rw [hspace]
    · rw [Piece.room_free, hsize]
  · simpa using hne.symm
  · rcases List.mem_cons.mp hn with rfl | hn
    · exact Or.inl (by simp)
    · rw [List.mem_singleton.mp hn]
      exact Or.inr hnew
  · by_cases hnb : n = b
    · simp [hnb]
    by_cases hnn : n = new
    · simp [hnn]
    rw [Store.put_of_ne hnb, Store.put_of_ne hnn] at hx
    exact absurd (List.mem_singleton.mp (h.mem_middle hn hx)) hnb

/-- Another piece at the same place. -/
theorem cycle_relabel (h : lpelLayout.Cycle st (l ++ [(b, p)] ++ r)) (hb : st b = some c)
    (hq : lpelLayout.shows q ⟨c.space, k, c.next⟩) :
    lpelLayout.Cycle (st.put b ⟨c.space, k, c.next⟩) (l ++ [(b, q)] ++ r) := by
  refine h.splice (fun n hn => ?_) (fun x y hxy => ?_) (by simp) (fun n hn => Or.inl hn)
    fun n x hn hx => ?_
  · exact Store.put_of_ne (h.ne_of_mem hn (by simp))
  · obtain ⟨rfl, c', hc', -, hy⟩ := hxy
    obtain rfl : c = c' := Option.some.inj (hb.symm.trans hc')
    exact ⟨rfl, _, Store.put_self, hq, hy⟩
  · by_cases hnb : n = b
    · simp [hnb]
    rw [Store.put_of_ne hnb] at hx
    exact absurd (List.mem_singleton.mp (h.mem_middle hn hx)) hnb

/-- Merging two free neighbours drops the node of the second one. -/
theorem cycle_merge (h : lpelLayout.Cycle st (l ++ [(b, p), (b', q)] ++ r)) (hp : p.free = true)
    (hq : q.free = true) (hb : st b = some c) (hb' : st b' = some d) :
    lpelLayout.Cycle ((st.put b ⟨c.space, c.freeSize + d.freeSize, d.next⟩).drop b')
      (l ++ [(b, ⟨p.start, p.len + q.len, true⟩)] ++ r) := by
  have hne : b ≠ b' := by
    rw [List.append_assoc] at h
    exact h.next.1
  refine h.splice (fun n hn => ?_) (fun x y hxy => ?_) (by simp) (fun n hn => Or.inl ?_)
    fun n x hn hx => ?_
  · have hnb : n ≠ b := h.ne_of_mem hn (by simp)
    have hnb' : n ≠ b' := h.ne_of_mem hn (by simp)
    rw [Store.drop_of_ne hnb', Store.put_of_ne hnb]
  · obtain ⟨rfl, c', hc', ⟨hspace, hsize⟩, hlink, d', hd', ⟨-, hsize'⟩, hy⟩ := hxy
    obtain rfl : c = c' := Option.some.inj (hb.symm.trans hc')
    obtain rfl : d = d' := Option.some.inj (hb'.symm.trans hd')
    rw [Piece.room_of_free hp] at hsize
    rw [Piece.room_of_free hq] at hsize'
    refine ⟨rfl, ⟨c.space, c.freeSize + d.freeSize, d.next⟩, ?_, ⟨hspace, ?_⟩, hy⟩
    · rw [Store.drop_of_ne hne, Store.put_self]
    · rw [Piece.room_free, hsize, hsize']
  · rw [List.mem_singleton.mp hn]
    simp
  · by_cases hnb' : n = b'
    · rw [hnb', Store.drop_self] at hx
      cases hx
    by_cases hnb : n = b
    · simp [hnb]
    rw [Store.drop_of_ne hnb', Store.put_of_ne hnb] at hx
    rcases List.mem_cons.mp (h.mem_middle hn hx) with heq | hmem
    · exact absurd heq hnb
    · exact absurd (List.mem_singleton.mp hmem) hnb'

end Store

namespace Lpel

variable {s : Lpel} {l u v w : List (ℕ × Piece)} {a : Arena lo hi} {n m : ℕ} {p q : Piece}

/-- Behind the tail there is nothing. -/
theorem Lists.tail_iff (h : s.Lists (u ++ (n, p) :: v)) : n = s.tail ↔ v = [] := by
  have htail := h.tail
  have hnd := h.cycle.nodup
  rw [nodes_append, nodes_cons] at htail hnd
  refine ⟨?_, ?_⟩
  · rintro rfl
    by_contra hv
    obtain ⟨v, e, rfl⟩ := (List.eq_nil_or_concat' v).resolve_left hv
    rw [nodes_append, nodes_cons, nodes_nil, ← List.cons_append, ← List.append_assoc,
      List.getLast?_concat] at htail
    have hmem := (List.nodup_cons.mp (List.nodup_append.mp hnd).2.1).1
    rw [← Option.some.inj htail] at hmem
    exact hmem (by simp)
  · rintro rfl
    rw [nodes_nil, List.getLast?_concat] at htail
    exact Option.some.inj htail

/-- The node in front of another one. -/
theorem Lists.before (h : s.Lists (u ++ (n, p) :: v)) :
    ∃ b, s.store (lastNode s.tail u) = some b ∧ b.next = n :=
  h.cycle.before h.tail

/-- The contents of a node. -/
theorem Lists.entry (h : s.Lists (u ++ (n, p) :: v)) :
    ∃ x, s.store n = some ⟨p.start, p.room, x⟩ := by
  obtain ⟨⟨_, _, x⟩, hb, rfl, rfl⟩ := h.cycle.entry
  exact ⟨x, hb⟩

/-- The contents of a node with another one behind it. -/
theorem Lists.next (h : s.Lists (u ++ (n, p) :: (m, q) :: v)) :
    n ≠ m ∧ s.store n = some ⟨p.start, p.room, m⟩ := by
  obtain ⟨hne, ⟨_, _, x⟩, hb, ⟨rfl, rfl⟩, rfl⟩ := h.cycle.next
  exact ⟨hne, hb⟩

/-- The tail when the nodes before `v` change. -/
theorem Lists.tail_append (h : s.Lists (u ++ (n, p) :: v)) (hv : v ≠ []) :
    (nodes (w ++ v)).getLast? = some s.tail := by
  have hv' : nodes v ≠ [] := by simpa [nodes] using hv
  have htail := h.tail
  rw [nodes_append, nodes_cons, List.getLast?_append_cons, List.getLast?_cons_of_ne_nil hv']
    at htail
  rwa [nodes_append, List.getLast?_append_of_ne_nil _ hv']

/-- The tail when the node before `v` is merged into another one. -/
theorem Lists.tail_merge (h : s.Lists (u ++ (n, p) :: v)) :
    (nodes (w ++ [(m, q)] ++ v)).getLast? = some (if n = s.tail then m else s.tail) := by
  by_cases hv : v = []
  · rw [if_pos (h.tail_iff.mpr hv), hv]
    simp
  · rw [if_neg (mt h.tail_iff.mp hv)]
    exact h.tail_append hv

/-- The list ends with the tail, which stands for the room at the top. -/
theorem Reps.last (h : s.Reps l a) : ∃ u p, l = u ++ [(s.tail, p)] ∧ p.free = true := by
  obtain ⟨ps, q, htable, hq, -⟩ := a.table_eq
  have hl : l ≠ [] := fun heq => by have := h.tail; rw [heq] at this; cases this
  obtain ⟨u, ⟨n, p⟩, rfl⟩ := (List.eq_nil_or_concat' l).resolve_left hl
  have htab := h.table
  rw [htable, List.map_append, List.map_singleton] at htab
  obtain ⟨-, hpq⟩ := List.append_inj' htab rfl
  obtain rfl : p = q := List.singleton_inj.mp hpq
  exact ⟨u, p, by rw [h.tail_iff.mpr rfl], hq⟩

theorem Reps.table_eq (h : s.Reps (u ++ (n, p) :: v) a) :
    a.table = u.map Prod.snd ++ p :: v.map Prod.snd := by
  rw [← h.table, List.map_append, List.map_cons]

end Lpel

/-! ## `LPEL_shmalloc` -/

/-- The piece of the table `ps` that a request of `n` bytes is served from, which begins
at `i`: the last one if it is large enough, otherwise the first one that is. -/
def Picked (ps : List Piece) (n i : ℕ) : Prop :=
  ∃ u p v, ps = u ++ p :: v ∧ p.start = i ∧ p.free = true ∧ n ≤ p.len ∧
    (v = [] ∨ (∀ q ∈ u, q.free = true → q.len < n) ∧ ∀ q ∈ v.getLast?, q.len < n)

theorem Piece.free_of_room {p : Piece} {n : ℕ} (hn : 0 < n) (h : n ≤ p.room) :
    p.free = true ∧ n ≤ p.len := by
  rw [Piece.room] at h
  split at h
  · next hp => exact ⟨hp, h⟩
  · omega

section Malloc

variable {s : Lpel} {l u v : List (ℕ × Piece)} {a : Arena lo hi} {n new size : ℕ} {p : Piece}

/-- What a test of the loop finds. -/
theorem shmallocBody_eq {m : ℕ} {b c : LpelBlock} (hb : s.store m = some b)
    (hc : s.store b.next = some c) (size : ℕ) : shmallocBody size s m =
      if c.freeSize < size then
        if b.next = s.tail then .ok (.inr none) else .ok (.inl b.next)
      else .ok (.inr (some m)) := by
  rw [shmallocBody, Store.get_eq hb, Exec.ok_bind, Store.get_eq hc, Exec.ok_bind]

/-- Allocating from the block behind `b1`. -/
theorem takeNext_spec (h : s.Reps (u ++ (n, p) :: v) a) (hv : v ≠ []) (hp : p.free = true)
    (hsize : 0 < size) (hle : size ≤ p.len) (hnew : s.store new = none) :
    ∃ s' l' a', takeNext new size (lastNode s.tail u) s = .ok (some p.start, s') ∧
      a.Allocates p.start size a' ∧ s'.Reps l' a' := by
  obtain ⟨c₁, hc₁, rfl⟩ := h.before
  obtain ⟨x, hc₂⟩ := h.entry
  rw [Piece.room_of_free hp] at hc₂
  have hcycle := h.cycle
  rw [List.append_cons] at hcycle
  obtain ⟨a', hall, htable⟩ := Arena.exists_carve h.table_eq (by simpa using hv) hp hsize hle
  rw [takeNext, Store.get_eq hc₁, Exec.ok_bind]
  simp only [Store.get_eq hc₂, Exec.ok_bind]
  rcases Nat.lt_or_eq_of_le hle with hlt | rfl
  · rw [if_pos hlt, cutBlock_eq hc₂ hnew, Exec.ok_bind]
    refine ⟨_, _, a', rfl, hall, ⟨cycle_cut hcycle hp hc₂ hnew size, h.tail_append hv⟩, ?_⟩
    rw [htable, Arena.cut_of_lt hlt]
    simp
  · rw [if_neg (by omega), Store.modify_eq hc₂, Exec.ok_bind]
    refine ⟨_, _, a', rfl, hall, ⟨cycle_relabel hcycle hc₂ (q := ⟨p.start, p.len, false⟩)
      ⟨rfl, rfl⟩, h.tail_append hv⟩, ?_⟩
    rw [htable, Arena.cut_self]
    simp

/-- Allocating from the tail, which gets a new node. -/
theorem cutTail_spec (h : s.Reps (u ++ [(s.tail, p)]) a) (hp : p.free = true)
    (hsize : 0 < size) (hle : size ≤ p.len) (hnew : s.store new = none) :
    ∃ st l' a', cutBlock new size s.tail s.store = .ok st ∧ a.Allocates p.start size a' ∧
      (⟨st, new⟩ : Lpel).Reps l' a' := by
  obtain ⟨x, hc⟩ := h.entry
  obtain ⟨a', hall, htable⟩ := Arena.exists_cut_last h.table_eq hsize hle
  have hcycle := h.cycle
  rw [← List.append_nil (u ++ _)] at hcycle
  have hcut := cycle_cut hcycle hp hc hnew size
  rw [List.append_nil] at hcut
  refine ⟨_, _, a', cutBlock_eq hc hnew size, hall, ⟨hcut, by simp⟩, ?_⟩
  rw [htable]
  simp

/-- The loop of `LPEL_shmalloc` ends in front of the first free block that is large
enough, or at the tail. -/
theorem shmalloc_loop (h : s.Reps l a) (hsize : 0 < size)
    (htail : ∀ p ∈ a.table.getLast?, p.len < size) :
    (∃ u n p v, l = u ++ (n, p) :: v ∧ v ≠ [] ∧ p.free = true ∧ size ≤ p.len ∧
      (∀ q ∈ u.map Prod.snd, q.free = true → q.len < size) ∧
      ∀ fuel, l.length ≤ fuel →
        loop (shmallocBody size s) fuel s.tail = .ok (some (lastNode s.tail u))) ∨
    ((∀ q ∈ a.table, q.free = true → q.len < size) ∧
      ∀ fuel, l.length ≤ fuel → loop (shmallocBody size s) fuel s.tail = .ok none) := by
  have hscan := h.cycle.scan h.tail (shmallocBody size s)
    (fun e => size ≤ e.2.room ∨ e.1 = s.tail)
    (fun m e => if size ≤ e.2.room then some m else none) ?_ ?_ fun e _ he => Or.inr he
  · obtain ⟨u, ⟨n, p⟩, v, rfl, hu, hstop, hloop⟩ := hscan
    have hu' : ∀ q ∈ u.map Prod.snd, q.free = true → q.len < size := by
      intro q hq hqf
      obtain ⟨e, he, rfl⟩ := List.mem_map.mp hq
      have := hu e he
      rw [not_or, Piece.room_of_free hqf] at this
      omega
    by_cases hfit : size ≤ p.room
    · obtain ⟨hp, hplen⟩ := Piece.free_of_room hsize hfit
      refine Or.inl ⟨u, n, p, v, rfl, ?_, hp, hplen, hu', fun fuel hfuel => ?_⟩
      · rintro rfl
        have := htail p (by rw [h.table_eq]; simp)
        omega
      · rw [hloop fuel hfuel, if_pos hfit]
    · obtain rfl := h.tail_iff.mp (hstop.resolve_left hfit)
      refine Or.inr ⟨fun q hq hqf => ?_, fun fuel hfuel => by rw [hloop fuel hfuel, if_neg hfit]⟩
      rw [h.table_eq, List.mem_append] at hq
      rcases hq with hq | hq
      · exact hu' q hq hqf
      · rw [List.mem_singleton.mp hq] at hqf ⊢
        rw [Piece.room_of_free hqf] at hfit
        omega
  · intro m n p b c hb hn hc hshows hstop
    obtain rfl : b.next = n := hn
    rw [not_or, not_le] at hstop
    rw [shmallocBody_eq hb hc, hshows.2, if_pos hstop.1, if_neg hstop.2]
  · intro m n p b c hb hn hc hshows hstop
    obtain rfl : b.next = n := hn
    rw [shmallocBody_eq hb hc, hshows.2]
    by_cases hfit : size ≤ p.room
    · rw [if_neg (not_lt.mpr hfit), if_pos hfit]
    · rw [if_pos (not_le.mp hfit), if_neg hfit, if_pos (hstop.resolve_left hfit)]

/-- A call that the tail serves. -/
theorem lpelShmalloc_tail {c : LpelBlock} {st : Store ℕ LpelBlock} (hsize : 0 < size)
    (hc : s.store s.tail = some c) (hfit : size ≤ c.freeSize)
    (hcut : cutBlock new size s.tail s.store = .ok st) (fuel : ℕ) :
    lpelShmalloc fuel new size s = .ok (some c.space, ⟨st, new⟩) := by
  rw [lpelShmalloc, if_neg hsize.ne']
  simp only [Store.get_eq hc, Exec.ok_bind, if_pos hfit, hcut]

/-- A call that the tail cannot serve and the loop ends with `NULL`. -/
theorem lpelShmalloc_null {c : LpelBlock} {fuel : ℕ} (hsize : 0 < size)
    (hc : s.store s.tail = some c) (hfit : ¬ size ≤ c.freeSize)
    (hloop : loop (shmallocBody size s) fuel s.tail = .ok none) :
    lpelShmalloc fuel new size s = .ok (none, s) := by
  rw [lpelShmalloc, if_neg hsize.ne']
  simp only [Store.get_eq hc, Exec.ok_bind, if_neg hfit, hloop]

/-- A call that the tail cannot serve and the loop ends in front of a piece. -/
theorem lpelShmalloc_found {c : LpelBlock} {b1 fuel : ℕ} (hsize : 0 < size)
    (hc : s.store s.tail = some c) (hfit : ¬ size ≤ c.freeSize)
    (hloop : loop (shmallocBody size s) fuel s.tail = .ok (some b1)) :
    lpelShmalloc fuel new size s = takeNext new size b1 s := by
  rw [lpelShmalloc, if_neg hsize.ne']
  simp only [Store.get_eq hc, Exec.ok_bind, if_neg hfit, hloop]

/-- **`LPEL_shmalloc` ends**: with `NULL` and nothing changed if there is no room, and
otherwise with a block from the tail or from the first free piece that is large enough. -/
theorem lpelShmalloc_spec (h : s.Reps l a) (hnew : s.store new = none) (size : ℕ) :
    ∃ out, (∀ fuel, l.length ≤ fuel → lpelShmalloc fuel new size s = .ok out) ∧
      ((out = (none, s) ∧ (size = 0 ∨ ∀ p ∈ a.table, p.free = true → p.len < size)) ∨
        ∃ i s' l' a', out = (some i, s') ∧ 0 < size ∧ Picked a.table size i ∧
          a.Allocates i size a' ∧ s'.Reps l' a') := by
  rcases Nat.eq_zero_or_pos size with rfl | hsize
  · exact ⟨_, fun fuel _ => if_pos rfl, Or.inl ⟨rfl, Or.inl rfl⟩⟩
  obtain ⟨w, t, hw, ht⟩ := h.last
  have hlast := h
  rw [hw] at hlast
  obtain ⟨x, hc⟩ := hlast.entry
  rw [Piece.room_of_free ht] at hc
  have htail : a.table.getLast? = some t := by rw [hlast.table_eq]; simp
  by_cases hle : size ≤ t.len
  · -- the room at the top is large enough
    obtain ⟨st, l', a', hcut, hall, hreps⟩ := cutTail_spec hlast ht hsize hle hnew
    refine ⟨(some t.start, ⟨st, new⟩), fun fuel _ => ?_, Or.inr ⟨t.start, ⟨st, new⟩, l', a', rfl,
      hsize, ⟨_, t, [], hlast.table_eq, rfl, ht, hle, Or.inl rfl⟩, hall, hreps⟩⟩
    exact lpelShmalloc_tail hsize hc hle hcut _
  · have hsmall : ∀ p ∈ a.table.getLast?, p.len < size := by
      intro p hp
      rw [htail] at hp
      rw [← Option.some.inj hp]
      exact not_le.mp hle
    rcases shmalloc_loop h hsize hsmall with
      ⟨u, n, p, v, hl, hv, hp, hplen, hu, hloop⟩ | ⟨hnone, hloop⟩
    · have hcut := h
      rw [hl] at hcut
      have htable := hcut.table_eq
      obtain ⟨s', l', a', htake, hall, hreps⟩ := takeNext_spec hcut hv hp hsize hplen hnew
      refine ⟨(some p.start, s'), fun fuel hfuel => ?_, Or.inr ⟨p.start, s', l', a', rfl, hsize,
        ⟨_, p, _, htable, rfl, hp, hplen, Or.inr ⟨hu, fun q hq => hsmall q ?_⟩⟩, hall, hreps⟩⟩
      · exact (lpelShmalloc_found hsize hc hle (hloop fuel hfuel)).trans htake
      · rw [htable, List.getLast?_append_cons, List.getLast?_cons_of_ne_nil (by simpa using hv)]
        exact hq
    · refine ⟨(none, s), fun fuel hfuel => ?_, Or.inl ⟨rfl, Or.inr hnone⟩⟩
      exact lpelShmalloc_null hsize hc hle (hloop fuel hfuel)

end Malloc

/-! ## `LPEL_shfree` -/

section Free

variable {s : Lpel} {l u v : List (ℕ × Piece)} {a : Arena lo hi} {n m ptr : ℕ} {p q : Piece}

/-- What a test of the loop finds. -/
theorem shfreeBody_eq {m : ℕ} {b c : LpelBlock} (hb : s.store m = some b)
    (hc : s.store b.next = some c) (ptr : ℕ) : shfreeBody ptr s m =
      if c.space ≠ ptr ∧ b.next ≠ s.tail then .ok (.inl b.next) else .ok (.inr m) := by
  rw [shfreeBody, Store.get_eq hb, Exec.ok_bind, Store.get_eq hc, Exec.ok_bind]

/-- The loop of `LPEL_shfree` ends in front of the block that begins at `ptr`, or of the
tail. -/
theorem shfree_loop (h : s.Lists l) (ptr : ℕ) :
    ∃ u n p v, l = u ++ (n, p) :: v ∧ (∀ q ∈ u.map Prod.snd, q.start ≠ ptr) ∧
      (p.start = ptr ∨ n = s.tail) ∧ ∀ fuel, l.length ≤ fuel →
        loop (shfreeBody ptr s) fuel s.tail = .ok (lastNode s.tail u) := by
  have hscan := h.cycle.scan h.tail (shfreeBody ptr s)
    (fun e => e.2.start = ptr ∨ e.1 = s.tail) (fun m _ => m) ?_ ?_ fun e _ he => Or.inr he
  · obtain ⟨u, ⟨n, p⟩, v, hl, hu, hstop, hloop⟩ := hscan
    refine ⟨u, n, p, v, hl, fun q hq => ?_, hstop, hloop⟩
    obtain ⟨e, he, rfl⟩ := List.mem_map.mp hq
    exact fun heq => hu e he (Or.inl heq)
  · intro m n p b c hb hn hc hshows hstop
    obtain rfl : b.next = n := hn
    rw [not_or] at hstop
    rw [shfreeBody_eq hb hc, hshows.1, if_pos hstop]
  · intro m n p b c hb hn hc hshows hstop
    obtain rfl : b.next = n := hn
    rw [shfreeBody_eq hb hc, hshows.1, if_neg]
    rintro ⟨hne, htail⟩
    exact hstop.elim hne htail

theorem Piece.room_of_live {p : Piece} (h : p.free = false) : p.room = 0 := by
  rw [Piece.room, h]
  rfl

/-- The four outcomes of `mergeBlocks`. -/
theorem mergeBlocks_eq {b₁ b₂ b₃ : ℕ} {c₁ c₂ c₃ : LpelBlock} (h₁ : s.store b₁ = some c₁)
    (h₂ : s.store b₂ = some c₂) (h₃ : s.store b₃ = some c₃) (hne : b₂ ≠ b₃) :
    mergeBlocks b₁ b₂ b₃ s =
      if 0 < c₁.freeSize ∧ b₁ ≠ s.tail then
        if 0 < c₃.freeSize ∨ b₃ = s.tail then
          .ok ⟨((s.store.put b₁ ⟨c₁.space, c₁.freeSize + (c₃.freeSize + c₂.freeSize),
            c₃.next⟩).drop b₃).drop b₂, if b₃ = s.tail then b₁ else s.tail⟩
        else
          .ok ⟨(s.store.put b₁ ⟨c₁.space, c₁.freeSize + c₂.freeSize, b₃⟩).drop b₂, s.tail⟩
      else
        if 0 < c₃.freeSize ∨ b₃ = s.tail then
          .ok ⟨(s.store.put b₂ ⟨c₂.space, c₂.freeSize + c₃.freeSize, c₃.next⟩).drop b₃,
            if b₃ = s.tail then b₂ else s.tail⟩
        else .ok s := by
  have hput : ∀ {b b' x}, s.store b = some x → ∀ y, s.store.put b' y b ≠ none := fun hb y =>
    Store.put_ne_none (by rw [hb]; exact Option.some_ne_none _)
  rw [mergeBlocks, Store.get_eq h₁, Exec.ok_bind, Store.get_eq h₂, Exec.ok_bind,
    Store.get_eq h₃, Exec.ok_bind]
  simp only [Store.modify_eq h₁, Store.modify_eq h₂, Exec.ok_bind,
    Store.modify_eq Store.put_self, Store.put_put, Store.free_eq (hput h₂ _),
    Store.free_eq (hput h₃ _)]
  rw [Store.free_eq (by rw [Store.drop_of_ne hne]; exact hput h₂ _), Exec.ok_bind]

/-- The node in front does not count as free if its piece is not, or if it is the tail. -/
theorem Lpel.Lists.front_live (h : s.Lists (u ++ (n, q) :: v)) (hlive : EndsLive (u.map Prod.snd))
    {c : LpelBlock} (hc : s.store (lastNode s.tail u) = some c) :
    ¬ (0 < c.freeSize ∧ lastNode s.tail u ≠ s.tail) := by
  rintro ⟨hpos, hne⟩
  rcases List.eq_nil_or_concat' u with rfl | ⟨u, ⟨b₁, p⟩, rfl⟩
  · exact hne rfl
  · rw [List.append_assoc, List.singleton_append] at h
    obtain ⟨x, hc'⟩ := h.entry
    rw [List.map_append, List.map_singleton, endsLive_append_singleton] at hlive
    rw [lastNode_concat, hc'] at hc
    rw [← Option.some.inj hc, Piece.room_of_live hlive] at hpos
    exact lt_irrefl 0 hpos

section Merge

variable {q₃ : Piece} {b₁ : ℕ}

/-- `mergeBlocks` with nothing free on the left. -/
theorem mergeBlocks_live (h : s.Lists (u ++ (n, q) :: (m, q₃) :: v)) (hq : q.free = true)
    (hlive : EndsLive (u.map Prod.snd)) (hright : q₃.free = true ↔ 0 < q₃.room ∨ v = []) :
    ∃ s' l' z w, mergeBlocks (lastNode s.tail u) n m s = .ok s' ∧ s'.Lists l' ∧
      q₃ :: v.map Prod.snd = z ++ w ∧
      l'.map Prod.snd = u.map Prod.snd ++ Arena.fused (q :: z) :: w ∧
      (z = [] ∧ q₃.free = false ∧ s' = s ∨ z = [q₃] ∧ q₃.free = true) := by
  have h' := h
  rw [List.append_cons] at h'
  obtain ⟨c₁, hc₁, -⟩ := h.before
  obtain ⟨hne, hc₂⟩ := h.next
  obtain ⟨x₃, hc₃⟩ := h'.entry
  have hj : (0 < q₃.room ∨ m = s.tail) ↔ q₃.free = true := by rw [h'.tail_iff, hright]
  rw [mergeBlocks_eq hc₁ hc₂ hc₃ hne, if_neg (h.front_live hlive hc₁)]
  by_cases hq₃ : q₃.free = true
  · rw [if_pos (hj.mpr hq₃)]
    have hmerge := h.cycle
    rw [List.append_cons, List.append_cons, List.append_assoc u] at hmerge
    refine ⟨_, _, [q₃], v.map Prod.snd, rfl, ⟨cycle_merge hmerge hq hq₃ hc₂ hc₃, h'.tail_merge⟩,
      rfl, ?_, Or.inr ⟨rfl, hq₃⟩⟩
    simp [Arena.fused]
  · rw [if_neg (mt hj.mp hq₃)]
    refine ⟨s, _, [], q₃ :: v.map Prod.snd, rfl, h, rfl, ?_,
      Or.inl ⟨rfl, Bool.eq_false_iff.mpr hq₃, rfl⟩⟩
    simp [Arena.fused, ← hq]

/-- `mergeBlocks` with a free piece on the left. -/
theorem mergeBlocks_free (h : s.Lists (u ++ (b₁, p) :: (n, q) :: (m, q₃) :: v))
    (hp : p.free = true) (hpos : 0 < p.len) (hq : q.free = true)
    (hright : q₃.free = true ↔ 0 < q₃.room ∨ v = []) :
    ∃ s' l' z w, mergeBlocks b₁ n m s = .ok s' ∧ s'.Lists l' ∧ q₃ :: v.map Prod.snd = z ++ w ∧
      l'.map Prod.snd = u.map Prod.snd ++ Arena.fused (p :: q :: z) :: w ∧
      (z = [] ∧ q₃.free = false ∨ z = [q₃] ∧ q₃.free = true) := by
  have h₂ := h
  rw [List.append_cons] at h₂
  have h₃ := h₂
  rw [List.append_cons] at h₃
  obtain ⟨hne₁, hc₁⟩ := h.next
  obtain ⟨hne, hc₂⟩ := h₂.next
  obtain ⟨x₃, hc₃⟩ := h₃.entry
  have hj : (0 < q₃.room ∨ m = s.tail) ↔ q₃.free = true := by rw [h₃.tail_iff, hright]
  have hb₁ : b₁ ≠ s.tail := mt h.tail_iff.mp (List.cons_ne_nil _ _)
  rw [← Piece.room_of_free hp] at hpos
  rw [mergeBlocks_eq hc₁ hc₂ hc₃ hne, if_pos ⟨hpos, hb₁⟩]
  have hcycle := h₃.cycle
  rw [List.append_assoc u] at hcycle
  have hmerge := cycle_merge hcycle hp hq hc₁ hc₂
  by_cases hq₃ : q₃.free = true
  · rw [if_pos (hj.mpr hq₃)]
    have hne₂ : m ≠ b₁ := hmerge.ne_of_mem (x := m) (y := b₁) (by simp) (by simp)
    rw [List.append_cons, List.append_assoc u] at hmerge
    have hmerge₂ := cycle_merge hmerge rfl hq₃
      (by rw [Store.drop_of_ne hne₁, Store.put_self])
      (by rw [Store.drop_of_ne hne.symm, Store.put_of_ne hne₂, hc₃])
    rw [← Store.drop_put_comm hne₁, Store.put_put, Store.drop_comm hne, Nat.add_assoc,
      Nat.add_comm q.room] at hmerge₂
    refine ⟨_, _, [q₃], v.map Prod.snd, rfl, ⟨hmerge₂, h₃.tail_merge⟩, rfl, ?_,
      Or.inr ⟨rfl, hq₃⟩⟩
    simp [Arena.fused, Nat.add_assoc]
  · rw [if_neg (mt hj.mp hq₃)]
    refine ⟨_, _, [], q₃ :: v.map Prod.snd, rfl,
      ⟨hmerge, h₂.tail_append (List.cons_ne_nil _ _)⟩, rfl, ?_,
      Or.inl ⟨rfl, Bool.eq_false_iff.mpr hq₃⟩⟩
    simp [Arena.fused]

/-- `mergeBlocks` fuses a free block with those of its neighbours that are free, where the
tail counts as free. -/
theorem mergeBlocks_spec (h : s.Lists (u ++ (n, q) :: (m, q₃) :: v)) (hq : q.free = true)
    (hleft : ∀ p ∈ (u.map Prod.snd).getLast?, p.free = true → 0 < p.len)
    (hright : q₃.free = true ↔ 0 < q₃.room ∨ v = []) :
    ∃ s' l' x y z w, mergeBlocks (lastNode s.tail u) n m s = .ok s' ∧ s'.Lists l' ∧
      u.map Prod.snd = x ++ y ∧ q₃ :: v.map Prod.snd = z ++ w ∧
      l'.map Prod.snd = x ++ Arena.fused (y ++ q :: z) :: w ∧
      (y = [] ∧ EndsLive x ∨ ∃ p₁, y = [p₁] ∧ p₁.free = true) ∧
      (z = [] ∧ q₃.free = false ∨ z = [q₃] ∧ q₃.free = true) ∧
      (y = [] → z = [] → s' = s) := by
  rcases endsLive_or (u.map Prod.snd) with hlive | ⟨x, p, hu, hp⟩
  · obtain ⟨s', l', z, w, hmerge, hl', hz, hmap, hz'⟩ := mergeBlocks_live h hq hlive hright
    refine ⟨s', l', u.map Prod.snd, [], z, w, hmerge, hl', (List.append_nil _).symm, hz, hmap,
      Or.inl ⟨rfl, hlive⟩, ?_, ?_⟩
    · exact hz'.imp_left fun hz => ⟨hz.1, hz.2.1⟩
    · rintro - rfl
      rcases hz' with ⟨-, -, hsame⟩ | ⟨hnil, -⟩
      · exact hsame
      · exact absurd hnil.symm (List.cons_ne_nil _ _)
  · obtain ⟨u, ⟨b₁, p₁⟩, rfl⟩ := (List.eq_nil_or_concat' u).resolve_left fun hnil => by
      rw [hnil] at hu
      exact List.append_ne_nil_of_right_ne_nil x (List.cons_ne_nil _ _) hu.symm
    rw [List.map_append, List.map_singleton] at hu hleft
    obtain ⟨rfl, heq⟩ := List.append_inj' hu rfl
    obtain rfl : p₁ = p := List.singleton_inj.mp heq
    rw [List.append_assoc, List.singleton_append] at h
    obtain ⟨s', l', z, w, hmerge, hl', hz, hmap, hz'⟩ :=
      mergeBlocks_free h hp (hleft _ (List.getLast?_concat ..) hp) hq hright
    refine ⟨s', l', u.map Prod.snd, [p₁], z, w, ?_, hl', ?_, hz, hmap, Or.inr ⟨p₁, rfl, hp⟩, hz',
      fun hnil => absurd hnil (List.cons_ne_nil _ _)⟩
    · rw [lastNode_concat]
      exact hmerge
    · rw [List.map_append, List.map_singleton]

end Merge

/-- A block is free if it has free space, or is the tail. -/
theorem Lpel.Reps.free_iff (h : s.Reps (u ++ (n, p) :: v) a) :
    p.free = true ↔ 0 < p.room ∨ v = [] := by
  refine ⟨fun hp => ?_, ?_⟩
  · rw [Piece.room_of_free hp]
    cases v with
    | nil => exact Or.inr rfl
    | cons e v =>
      have htable := h.table_eq
      rw [List.map_cons] at htable
      exact Or.inl (Arena.table_next htable).1
  · rintro (hpos | rfl)
    · exact (Piece.free_of_room hpos (le_refl _)).1
    · obtain ⟨w, t, hw, ht⟩ := h.last
      obtain ⟨-, heq⟩ := List.append_inj' hw rfl
      obtain rfl : p = t := congrArg Prod.snd (List.singleton_inj.mp heq)
      exact ht

/-- Once its free space is set, a block merges with its free neighbours. -/
theorem shfree_merge {q₃ : Piece} (h : s.Reps (u ++ (n, p) :: (m, q₃) :: v) a) :
    ∃ s' l' x y z w, mergeBlocks (lastNode s.tail u) n m
        ⟨s.store.put n ⟨p.start, p.len, m⟩, s.tail⟩ = .ok s' ∧ s'.Lists l' ∧
      a.table = x ++ (y ++ p :: z) ++ w ∧ l'.map Prod.snd = x ++ Arena.fused (y ++ p :: z) :: w ∧
      (y = [] ∧ EndsLive x ∨ ∃ q, y = [q] ∧ q.free = true) ∧
      (z = [] ∧ w ≠ [] ∧ StartsLive w ∨ ∃ q, z = [q] ∧ q.free = true) ∧
      (y = [] → z = [] → s' = ⟨s.store.put n ⟨p.start, p.len, m⟩, s.tail⟩) := by
  have htable := h.table_eq
  rw [List.map_cons] at htable
  obtain ⟨-, hc₂⟩ := h.next
  have hlists : (⟨s.store.put n ⟨p.start, p.len, m⟩, s.tail⟩ : Lpel).Lists
      (u ++ (n, ⟨p.start, p.len, true⟩) :: (m, q₃) :: v) := by
    have hcycle := h.cycle
    have htail := h.tail
    rw [List.append_cons] at hcycle ⊢
    refine ⟨cycle_relabel hcycle hc₂ ⟨rfl, rfl⟩, ?_⟩
    rw [nodes_append, nodes_cons] at htail
    simpa using htail
  have hleft : ∀ p₁ ∈ (u.map Prod.snd).getLast?, p₁.free = true → 0 < p₁.len := by
    intro p₁ hp₁ _
    obtain ⟨x, hx⟩ := List.getLast?_eq_some_iff.mp hp₁
    rw [hx, List.append_assoc] at htable
    exact (Arena.table_next htable).1
  have h₃ := h
  rw [List.append_cons] at h₃
  obtain ⟨s', l', x, y, z, w, hmerge, hl', hx, hz, hmap, hy, hz', hsame⟩ :=
    mergeBlocks_spec hlists rfl hleft h₃.free_iff
  refine ⟨s', l', x, y, z, w, hmerge, hl', ?_, ?_, hy, ?_, hsame⟩
  · rw [htable, hx, hz]
    simp
  · rw [hmap]
    rcases hy with ⟨rfl, -⟩ | ⟨p₁, rfl, -⟩ <;> simp [Arena.fused]
  · rcases hz' with ⟨rfl, hq₃⟩ | ⟨rfl, hq₃⟩
    · rw [List.nil_append] at hz
      rw [← hz]
      exact Or.inl ⟨rfl, List.cons_ne_nil _ _, startsLive_cons.mpr hq₃⟩
    · exact Or.inr ⟨q₃, rfl, hq₃⟩

/-- **`LPEL_shfree` ends**: it gives back the allocated block that begins at `ptr`, or
changes nothing if there is none. -/
theorem lpelShfree_spec (h : s.Reps l a) (ptr : ℕ) :
    ∃ s', (∀ fuel, l.length ≤ fuel → lpelShfree fuel ptr s = .ok s') ∧
      (((∀ k, ¬ a.Live ptr k) ∧ s' = s) ∨
        ∃ k l' a', a.Releases ptr k a' ∧ s'.Reps l' a') := by
  obtain ⟨u, n, p, v, rfl, hu, hstop, hloop⟩ := shfree_loop h.toLists ptr
  obtain ⟨c₁, hc₁, rfl⟩ := h.before
  by_cases hn : c₁.next = s.tail
  · -- no block begins at `ptr`
    obtain rfl := h.tail_iff.mp hn
    refine ⟨s, fun fuel hfuel => ?_, Or.inl ⟨fun k hk => ?_, rfl⟩⟩
    · rw [lpelShfree, hloop fuel hfuel, Exec.ok_bind, Store.get_eq hc₁, Exec.ok_bind]
      exact if_pos hn
    · obtain ⟨ps, t, htable, -, -, -, -, -, hlive⟩ := a.table_eq
      rw [h.table_eq] at htable
      obtain ⟨rfl, -⟩ := List.append_inj' htable rfl
      exact hu _ ((hlive _ _).mp hk) rfl
  · obtain rfl := hstop.resolve_right hn
    obtain ⟨⟨m, q₃⟩, v, rfl⟩ := List.exists_cons_of_ne_nil (mt h.tail_iff.mpr hn)
    have htable := h.table_eq
    rw [List.map_cons] at htable
    have h₃ := h
    rw [List.append_cons] at h₃
    obtain ⟨-, hc₂⟩ := h.next
    obtain ⟨x₃, hc₃⟩ := h₃.entry
    obtain ⟨s', l', x, y, z, w, hmerge, hl', hxyzw, hmap, hy, hz, hsame⟩ := shfree_merge h
    refine ⟨s', fun fuel hfuel => ?_, ?_⟩
    · -- the free space of the block is set, whether it was free or not
      have hsize : q₃.start - p.start = p.len := by
        rw [(Arena.table_next htable).2, Piece.stop]
        omega
      rw [lpelShfree, hloop fuel hfuel, Exec.ok_bind, Store.get_eq hc₁, Exec.ok_bind]
      simp only [if_neg hn, Store.get_eq hc₂, Exec.ok_bind, Store.get_eq hc₃,
        Store.modify_eq hc₂, hsize]
      exact hmerge
    cases hp : p.free with
    | true =>
      obtain ⟨hy0, hz0, hnone⟩ := Arena.alone_of_free hxyzw hp hy hz
      refine Or.inl ⟨hnone, ?_⟩
      rw [Piece.room_of_free hp] at hc₂
      rw [hsame hy0 hz0, Store.put_eq_self hc₂]
    | false =>
      obtain ⟨a', hrel, ha'⟩ := Arena.exists_release hxyzw hp hy hz
      exact Or.inr ⟨p.len, l', a', hrel, hl', hmap.trans ha'.symm⟩

end Free

end SccShm
