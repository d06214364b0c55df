import Mathlib.Data.Finset.Sort
import Mathlib.Order.Interval.Set.Defs
import SccShm.Tiling

/-!
# Free positions, and filling the gaps between them

* `Arena.freeUnits` are the positions of the free pieces; allocating takes a range away
  from them, releasing adds one.
* Free blocks alone, in address order and no two touching, are the free pieces of an
  arena: what lies between them counts as live. Blocks that are to be live can be put
  among them (`exists_arena`).
-/

namespace SccShm

/-! ## Free positions -/

namespace Arena

variable {lo hi : ℕ} {a b : Arena lo hi} {i j k n m u : ℕ}

/-- The positions of the free pieces. -/
def freeUnits (a : Arena lo hi) : Set ℕ := {u | ∃ i k, a.Free i k ∧ u ∈ Set.Ico i (i + k)}

/-- They are the positions that no live range covers. -/
theorem mem_freeUnits : u ∈ a.freeUnits ↔ (lo ≤ u ∧ u < hi) ∧ ¬ Covered a.Live u := by
  refine ⟨?_, ?_⟩
  · rintro ⟨i, k, hf, hle, hlt⟩
    obtain ⟨hlo, -, hhi⟩ := hf.bounds
    exact ⟨by omega, hf.isGap.empty u hle hlt⟩
  · rintro ⟨⟨hlo, hhi⟩, hu⟩
    obtain ⟨⟨i, k, f⟩, hp, hup⟩ := a.tiles.cover hlo hhi
    cases f with
    | false => exact absurd ⟨i, k, hp, hup⟩ hu
    | true => exact ⟨i, k, hp, hup⟩

/-- No free piece ends where another begins. -/
theorem Free.stop_ne (h : a.Free i k) (h' : a.Free j m) : i + k ≠ j := by
  rintro rfl
  have hpos := h'.bounds
  rcases h.isGap.right with heq | hcov
  · omega
  · exact h'.isGap.empty _ (le_refl _) (by omega) hcov

/-- So there is room between them. -/
theorem Free.stop_lt (h : a.Free i k) (h' : a.Free j m) (hlt : i < j) : i + k < j := by
  refine lt_of_le_of_ne ?_ (h.stop_ne h')
  have hpos := h'.bounds
  rcases a.tiles.apart h h' with heq | hle | hle
  · cases heq
    omega
  · exact hle
  · rw [Piece.stop_mk] at hle
    change j + m ≤ i at hle
    omega

theorem covered_or_iff {L L' : ℕ → ℕ → Prop} (h : ∀ j k, L' j k ↔ L j k ∨ (j = i ∧ k = n)) :
    Covered L' u ↔ Covered L u ∨ u ∈ Set.Ico i (i + n) := by
  refine ⟨?_, ?_⟩
  · rintro ⟨j, k, hL, hu⟩
    rcases (h j k).mp hL with hL | ⟨rfl, rfl⟩
    · exact Or.inl ⟨j, k, hL, hu⟩
    · exact Or.inr hu
  · rintro (⟨j, k, hL, hu⟩ | hu)
    · exact ⟨j, k, (h j k).mpr (Or.inl hL), hu⟩
    · exact ⟨i, n, (h i n).mpr (Or.inr ⟨rfl, rfl⟩), hu⟩

/-- Allocating takes the range from the free positions. -/
theorem Allocates.freeUnits (h : a.Allocates i n b) :
    b.freeUnits = a.freeUnits \ Set.Ico i (i + n) := by
  ext u
  rw [Set.mem_sdiff, mem_freeUnits, mem_freeUnits, covered_or_iff h.2.2]
  tauto

/-- Releasing is allocating backwards. -/
theorem Releases.live (h : a.Releases i n b) (j k : ℕ) :
    a.Live j k ↔ b.Live j k ∨ (j = i ∧ k = n) := by
  rw [h.2]
  refine ⟨?_, ?_⟩
  · intro hl
    by_cases heq : j = i ∧ k = n
    · exact Or.inr heq
    · exact Or.inl ⟨hl, heq⟩
  · rintro (⟨hl, -⟩ | ⟨rfl, rfl⟩)
    · exact hl
    · exact h.1

/-- Releasing adds the range to the free positions. -/
theorem Releases.freeUnits (h : a.Releases i n b) :
    b.freeUnits = a.freeUnits ∪ Set.Ico i (i + n) := by
  have hb := h.1.bounds
  ext u
  rw [Set.mem_union, mem_freeUnits, mem_freeUnits, covered_or_iff h.live]
  refine ⟨?_, ?_⟩
  · tauto
  · rintro (hu | hu)
    · tauto
    · refine ⟨⟨by have := hu.1; omega, by have := hu.2; omega⟩, ?_⟩
      rintro ⟨j, k, hL, hjk⟩
      obtain ⟨hl, hne⟩ := (h.2 j k).mp hL
      rcases hl.apart h.1 with heq | hle | hle
      · exact hne heq
      · have := hu.1
        omega
      · have := hu.2
        omega

/-- A free piece begins where one did before, or is the range given back. -/
theorem Releases.free_start (h : a.Releases i n b) (hf : b.Free j k) :
    (∃ m, a.Free j m) ∨ j = i := by
  obtain ⟨hlo, hpos, hhi⟩ := hf.bounds
  obtain ⟨⟨s, m, f⟩, hp, hs⟩ := a.tiles.cover hlo (by omega)
  change s ≤ j ∧ j < s + m at hs
  by_cases hsj : s = j
  · subst hsj
    cases f with
    | true => exact Or.inl ⟨m, hp⟩
    | false =>
      -- it is live no longer
      apply Or.inr
      by_contra hne
      exact hf.isGap.empty s (le_refl _) (by omega)
        ⟨s, m, (h.2 s m).mpr ⟨hp, fun heq => hne heq.1⟩, hs⟩
  · -- the position before `j` lies in the same piece
    have hslo : lo ≤ s := (a.tiles.bounds hp).1
    rcases hf.isGap.left with heq | ⟨x, y, hxy, hx⟩
    · omega
    · have hin : s ≤ j - 1 ∧ j - 1 < s + m := by omega
      cases a.tiles.eq_of_mem ((h.2 x y).mp hxy).1 hp hx hin
      exact absurd ⟨s, m, hxy, hs⟩ (hf.isGap.empty j (le_refl _) (by omega))

/-- The lengths of the pieces, as a function of where they start. -/
theorem exists_len (a : Arena lo hi) : ∃ len : ℕ → ℕ, ∀ p ∈ a.pieces, len p.start = p.len := by
  have hlen : ∀ u, ∃ k, ∀ p ∈ a.pieces, p.start = u → k = p.len := by
    intro u
    by_cases hu : ∃ p ∈ a.pieces, p.start = u
    · obtain ⟨p, hp, hpu⟩ := hu
      exact ⟨p.len, fun q hq hqu => by rw [a.tiles.eq_of_start hq hp (hqu.trans hpu.symm)]⟩
    · exact ⟨0, fun p hp hpu => absurd ⟨p, hp, hpu⟩ hu⟩
  choose len hlen using hlen
  exact ⟨len, fun p hp => hlen _ p hp rfl⟩

end Arena

/-! ## Lists of pieces -/

/-- The live piece from `lo` to `hi`, if there is any room. -/
def gap (lo hi : ℕ) : List Piece := if lo < hi then [⟨lo, hi - lo, false⟩] else []

/-- `ps` with live pieces in between, from `lo` to `hi`. -/
def fill (lo : ℕ) : List Piece → ℕ → List Piece
  | [], hi => gap lo hi
  | p :: ps, hi => gap lo p.start ++ p :: fill p.stop ps hi

section Fill

variable {lo hi : ℕ} {ps : List Piece} {p : Piece}

theorem tiles_gap (h : lo ≤ hi) : Tiles lo (gap lo hi) hi := by
  rw [gap]
  split
  · exact ⟨rfl, by simp only; omega, by simp only [tiles_nil, Piece.stop_mk]; omega⟩
  · rw [tiles_nil]
    omega

theorem live_of_mem_gap (h : p ∈ gap lo hi) : p.free = false := by
  rw [gap] at h
  split at h
  · rw [List.mem_singleton.mp h]
  · cases h

/-- `ps` are proper pieces in address order between `lo` and `hi`. -/
def Sorted (lo : ℕ) : List Piece → ℕ → Prop
  | [], hi => lo ≤ hi
  | p :: ps, hi => lo ≤ p.start ∧ 0 < p.len ∧ Sorted p.stop ps hi

theorem Sorted.tiles (h : Sorted lo ps hi) : Tiles lo (fill lo ps hi) hi := by
  induction ps generalizing lo with
  | nil => exact tiles_gap h
  | cons p ps ih =>
    obtain ⟨hlo, hlen, h⟩ := h
    exact tiles_append.mpr ⟨p.start, tiles_gap hlo, rfl, hlen, ih h⟩

theorem mem_fill_of_mem (h : p ∈ ps) : p ∈ fill lo ps hi := by
  induction ps generalizing lo with
  | nil => cases h
  | cons q ps ih =>
    rw [fill, List.mem_append, List.mem_cons]
    exact Or.inr ((List.mem_cons.mp h).imp_right ih)

/-- The free pieces are those of `ps`. -/
theorem mem_of_mem_fill (h : p ∈ fill lo ps hi) (hp : p.free = true) : p ∈ ps := by
  induction ps generalizing lo with
  | nil =>
    rw [live_of_mem_gap h] at hp
    cases hp
  | cons q ps ih =>
    rw [fill, List.mem_append, List.mem_cons] at h
    rcases h with h | rfl | h
    · rw [live_of_mem_gap h] at hp
      cases hp
    · exact List.mem_cons_self
    · exact List.mem_cons_of_mem _ (ih h)

/-- No free piece of `ps` ends where another one begins. -/
def Separate (ps : List Piece) : Prop :=
  ∀ p ∈ ps, ∀ q ∈ ps, p.free = true → q.free = true → p.stop ≠ q.start

/-- What comes first is live, or the first piece of `ps` without a gap. -/
theorem head_fill (hp : p ∈ (fill lo ps hi).head?) (hf : p.free = true) :
    p ∈ ps ∧ (Sorted lo ps hi → p.start = lo) := by
  have hmem := mem_of_mem_fill (List.mem_of_mem_head? hp) hf
  refine ⟨hmem, fun hs => ?_⟩
  have ht := hs.tiles
  cases hfill : fill lo ps hi with
  | nil =>
    rw [hfill] at hp
    cases hp
  | cons q qs =>
    rw [hfill] at hp ht
    obtain rfl : q = p := Option.some.inj hp
    exact ht.1

theorem Sorted.coalesced (h : Sorted lo ps hi) (hsep : Separate ps) :
    Coalesced (fill lo ps hi) := by
  induction ps generalizing lo with
  | nil =>
    rw [fill, gap]
    split
    · exact List.IsChain.singleton _
    · exact List.IsChain.nil
  | cons p ps ih =>
    obtain ⟨-, -, h⟩ := h
    have hrest := ih h fun x hx y hy => hsep x (List.mem_cons_of_mem _ hx) y
      (List.mem_cons_of_mem _ hy)
    refine Coalesced.append_cons ?_ hrest (fun _ q hq => ?_) fun hpf q hq => ?_
    · rw [gap]
      split
      · exact List.IsChain.singleton _
      · exact List.IsChain.nil
    · exact live_of_mem_gap (List.mem_of_mem_getLast? hq)
    · by_contra hqf
      have hqf' : q.free = true := by simpa using hqf
      obtain ⟨hmem, hstart⟩ := head_fill hq hqf'
      exact hsep p List.mem_cons_self q (List.mem_cons_of_mem _ hmem) hpf hqf' (hstart h).symm

end Fill

/-! ## Sets of blocks -/

section Blocks

variable {lo hi : ℕ} {F G : Finset ℕ} {size : ℕ → ℕ}

/-- The blocks that begin at `bs`, those of `F` free. -/
def blocks (F : Finset ℕ) (size : ℕ → ℕ) (bs : List ℕ) : List Piece :=
  bs.map fun b => ⟨b, size b, decide (b ∈ F)⟩

theorem mem_blocks {bs : List ℕ} {p : Piece} :
    p ∈ blocks F size bs ↔ p.start ∈ bs ∧ p.len = size p.start ∧ p.free = decide (p.start ∈ F) := by
  rw [blocks, List.mem_map]
  refine ⟨?_, ?_⟩
  · rintro ⟨b, hb, rfl⟩
    exact ⟨hb, rfl, rfl⟩
  · rintro ⟨hb, hlen, hfree⟩
    exact ⟨p.start, hb, by rw [← hlen, ← hfree]⟩

theorem sorted_blocks {bs : List ℕ} (hbs : bs.Pairwise fun b c => b + size b ≤ c)
    (hpos : ∀ b ∈ bs, 0 < size b) (hbounds : ∀ b ∈ bs, lo ≤ b ∧ b + size b ≤ hi)
    (hle : lo ≤ hi) : Sorted lo (blocks F size bs) hi := by
  induction bs generalizing lo with
  | nil => exact hle
  | cons b bs ih =>
    obtain ⟨hb, hbs⟩ := List.pairwise_cons.mp hbs
    obtain ⟨hlo, hhi⟩ := hbounds b List.mem_cons_self
    exact ⟨hlo, hpos b List.mem_cons_self, ih hbs (fun c hc => hpos c (List.mem_cons_of_mem _ hc))
      (fun c hc => ⟨hb c hc, (hbounds c (List.mem_cons_of_mem _ hc)).2⟩) hhi⟩

/-- **Free blocks are the free pieces of an arena.** The blocks that begin at `G` do not
overlap; those of `F` do not even touch, and become the free pieces; the others are
live. -/
theorem exists_arena (hFG : F ⊆ G) (hpos : ∀ b ∈ G, 0 < size b)
    (hbounds : ∀ b ∈ G, lo ≤ b ∧ b + size b ≤ hi) (hle : lo ≤ hi)
    (happart : ∀ b ∈ G, ∀ c ∈ G, b < c → b + size b ≤ c)
    (hsep : ∀ b ∈ F, ∀ c ∈ F, b + size b ≠ c) :
    ∃ a : Arena lo hi, (∀ i k, a.Free i k ↔ i ∈ F ∧ k = size i) ∧
      ∀ b ∈ G, b ∉ F → a.Live b (size b) := by
  have hmem : ∀ {b}, b ∈ G.sort (· ≤ ·) ↔ b ∈ G := Finset.mem_sort _
  have hsorted : Sorted lo (blocks F size (G.sort (· ≤ ·))) hi := by
    refine sorted_blocks ?_ (fun b hb => hpos b (hmem.mp hb)) (fun b hb => hbounds b (hmem.mp hb))
      hle
    have hlt : (G.sort (· ≤ ·)).Pairwise (· < ·) := G.sortedLT_sort.pairwise
    exact hlt.imp_of_mem fun {b c} hb hc => happart b (hmem.mp hb) c (hmem.mp hc)
  have hseparate : Separate (blocks F size (G.sort (· ≤ ·))) := by
    intro p hp q hq hpf hqf
    obtain ⟨-, hlen, hfree⟩ := mem_blocks.mp hp
    obtain ⟨-, -, hfree'⟩ := mem_blocks.mp hq
    rw [hpf, eq_comm, decide_eq_true_eq] at hfree
    rw [hqf, eq_comm, decide_eq_true_eq] at hfree'
    rw [Piece.stop, hlen]
    exact hsep _ hfree _ hfree'
  refine ⟨⟨_, hsorted.tiles, hsorted.coalesced hseparate⟩, fun i k => ?_, fun b hb hbF => ?_⟩
  · refine ⟨?_, ?_⟩
    · intro hf
      obtain ⟨-, hlen, hfree⟩ := mem_blocks.mp (mem_of_mem_fill hf rfl)
      exact ⟨decide_eq_true_eq.mp hfree.symm, hlen⟩
    · rintro ⟨hi, rfl⟩
      exact mem_fill_of_mem (mem_blocks.mpr ⟨hmem.mpr (hFG hi), rfl, (decide_eq_true hi).symm⟩)
  · exact mem_fill_of_mem (mem_blocks.mpr ⟨hmem.mpr hb, rfl, (decide_eq_false hbF).symm⟩)

end Blocks

end SccShm
