import SccShm.Topped
import Mathlib.Algebra.Order.BigOperators.Group.List
import Mathlib.Algebra.Order.Ring.Nat

/-!
# How much room an arena has

Counting the pieces of a coalesced tiling.

* `Tiles.extent_free_add` — nothing is lost: free and live lengths add up to the interval.
* `Coalesced.card_free_le` — there is at most one more free piece than live ones, since two
  free ones never meet.
* `Arena.exists_free_of_lt` — so, with `k` live ranges, once more than `(n - 1) * (k + 1)`
  positions are free, some free piece has `n` of them. External fragmentation goes no
  further.
-/

namespace SccShm

/-! ## Lists of pieces -/

/-- The free ones. -/
def frees (ps : List Piece) : List Piece := ps.filter Piece.free

/-- The live ones. -/
def lives (ps : List Piece) : List Piece := ps.filter fun p => !p.free

/-- The positions in all of them. -/
def extent (ps : List Piece) : ℕ := (ps.map Piece.len).sum

section Lists

variable {ps : List Piece} {p : Piece} {lo hi : ℕ}

@[simp] theorem frees_nil : frees [] = [] := rfl

@[simp] theorem lives_nil : lives [] = [] := rfl

@[simp] theorem extent_nil : extent [] = 0 := rfl

@[simp] theorem extent_cons : extent (p :: ps) = p.len + extent ps := List.sum_cons

theorem frees_cons_free (h : p.free = true) : frees (p :: ps) = p :: frees ps :=
  List.filter_cons_of_pos h

theorem frees_cons_live (h : p.free = false) : frees (p :: ps) = frees ps :=
  List.filter_cons_of_neg (by simp [h])

theorem lives_cons_free (h : p.free = true) : lives (p :: ps) = lives ps :=
  List.filter_cons_of_neg (by simp [h])

theorem lives_cons_live (h : p.free = false) : lives (p :: ps) = p :: lives ps :=
  List.filter_cons_of_pos (by simp [h])

theorem mem_frees : p ∈ frees ps ↔ p ∈ ps ∧ p.free = true := List.mem_filter

theorem mem_lives : p ∈ lives ps ↔ p ∈ ps ∧ p.free = false := by
  rw [lives, List.mem_filter, Bool.not_eq_eq_eq_not, Bool.not_true]

/-- Every piece is free or live. -/
theorem length_frees_add (ps : List Piece) : (frees ps).length + (lives ps).length = ps.length := by
  induction ps with
  | nil => rfl
  | cons p ps ih =>
    cases hp : p.free with
    | true =>
      rw [frees_cons_free hp, lives_cons_free hp, List.length_cons, List.length_cons]
      omega
    | false =>
      rw [frees_cons_live hp, lives_cons_live hp, List.length_cons, List.length_cons]
      omega

theorem extent_frees_add : extent (frees ps) + extent (lives ps) = extent ps := by
  induction ps with
  | nil => rfl
  | cons p ps ih =>
    cases hp : p.free with
    | true =>
      rw [frees_cons_free hp, lives_cons_free hp, extent_cons, extent_cons]
      omega
    | false =>
      rw [frees_cons_live hp, lives_cons_live hp, extent_cons, extent_cons]
      omega

/-- **Nothing is lost.** -/
theorem Tiles.extent_free_add (h : Tiles lo ps hi) :
    extent (frees ps) + extent (lives ps) = hi - lo := by
  have hsum : lo + extent ps = hi := Arena.sum_len_of_tiles h
  rw [extent_frees_add]
  omega

/-- Free pieces alternate with live ones; a live one at the front saves one. -/
theorem Coalesced.card_free_le (h : Coalesced ps) :
    (frees ps).length ≤ (lives ps).length + 1 ∧
      (StartsLive ps → (frees ps).length ≤ (lives ps).length) := by
  induction ps with
  | nil => exact ⟨Nat.zero_le _, fun _ => le_refl _⟩
  | cons p ps ih =>
    obtain ⟨hle, hlive⟩ := ih (List.IsChain.tail h)
    cases hp : p.free with
    | true =>
      -- what follows a free piece starts with a live one
      have hrest := hlive (Coalesced.startsLive (l := []) h hp)
      rw [frees_cons_free hp, lives_cons_free hp, List.length_cons]
      exact ⟨Nat.succ_le_succ hrest, fun hs => absurd (startsLive_cons.mp hs) (by simp [hp])⟩
    | false =>
      rw [frees_cons_live hp, lives_cons_live hp, List.length_cons]
      exact ⟨by omega, fun _ => hle⟩

/-- So does a live one at the end. -/
theorem Coalesced.card_free_le_of_endsLive (h : Coalesced ps) (he : EndsLive ps) :
    (frees ps).length ≤ (lives ps).length := by
  rcases List.eq_nil_or_concat' ps with rfl | ⟨qs, q, rfl⟩
  · exact le_refl _
  · have hq : q.free = false := endsLive_append_singleton.mp he
    have hle := h.left.card_free_le.1
    have hf : frees (qs ++ [q]) = frees qs := by simp [frees, hq]
    have hl : lives (qs ++ [q]) = lives qs ++ [q] := by simp [lives, hq]
    rw [hf, hl, List.length_append, List.length_singleton]
    exact hle

end Lists

/-! ## Arenas -/

namespace Arena

variable {lo hi : ℕ} {a : Arena lo hi} {bs : List (ℕ × ℕ)} {n : ℕ}

/-- `bs` are the live ranges, each by where it begins and its length. -/
structure Lists (a : Arena lo hi) (bs : List (ℕ × ℕ)) : Prop where
  live : ∀ i n, a.Live i n ↔ (i, n) ∈ bs
  distinct : (bs.map Prod.fst).Nodup

theorem pieces_nodup (a : Arena lo hi) : a.pieces.Nodup :=
  a.tiles.pairwise_start_lt.imp fun hlt heq => by rw [heq] at hlt; omega

/-- The live pieces are the ranges listed. -/
theorem Lists.perm (h : a.Lists bs) :
    ((lives a.pieces).map fun p => (p.start, p.len)).Perm bs := by
  have hinj : ((lives a.pieces).map fun p => (p.start, p.len)).Nodup := by
    refine (a.pieces_nodup.filter _).map_on ?_
    rintro ⟨i, k, f⟩ hp ⟨j, m, g⟩ hq heq
    obtain ⟨-, rfl⟩ := mem_lives.mp hp
    obtain ⟨-, rfl⟩ := mem_lives.mp hq
    cases heq
    rfl
  refine (List.perm_ext_iff_of_nodup hinj (h.distinct.of_map _)).mpr ?_
  rintro ⟨i, k⟩
  rw [← h.live, List.mem_map]
  refine ⟨?_, fun hl => ⟨_, mem_lives.mpr ⟨hl, rfl⟩, rfl⟩⟩
  rintro ⟨⟨j, m, f⟩, hp, heq⟩
  cases heq
  obtain ⟨hp, rfl⟩ := mem_lives.mp hp
  exact hp

theorem Lists.length_lives (h : a.Lists bs) : (lives a.pieces).length = bs.length := by
  rw [← h.perm.length_eq, List.length_map]

theorem Lists.extent_lives (h : a.Lists bs) :
    extent (lives a.pieces) = (bs.map Prod.snd).sum := by
  rw [← (h.perm.map Prod.snd).sum_eq, List.map_map]
  rfl

/-- What is free and what is live make up the arena. -/
theorem Lists.extent_frees (h : a.Lists bs) :
    extent (frees a.pieces) + (bs.map Prod.snd).sum = hi - lo := by
  rw [← h.extent_lives]
  exact a.tiles.extent_free_add

/-- At most one more free piece than live ranges. -/
theorem Lists.length_frees (h : a.Lists bs) : (frees a.pieces).length ≤ bs.length + 1 := by
  rw [← h.length_lives]
  exact a.coalesced.card_free_le.1

/-- So many pieces can there be, with the room at the top apart or not. -/
theorem Lists.length_table (h : a.Lists bs) : a.table.length ≤ 2 * bs.length + 1 := by
  have hsplit := length_frees_add a.pieces
  rcases a.table_cases with ⟨hends, htable⟩ | ⟨ps, p, hps, -, htable⟩
  · have := a.coalesced.card_free_le_of_endsLive hends
    rw [htable, List.length_append, List.length_singleton, ← h.length_lives]
    omega
  · have := h.length_frees
    rw [htable, ← hps, ← hsplit, h.length_lives]
    omega

/-- **A bound on fragmentation.** If all free pieces were shorter than `n`, they could not
add up to more than `n - 1` for each of them. -/
theorem Lists.exists_free_of_lt (h : a.Lists bs)
    (hroom : (n - 1) * (bs.length + 1) + (bs.map Prod.snd).sum < hi - lo) :
    ∃ i k, a.Free i k ∧ n ≤ k := by
  by_contra hnone
  have hshort : ∀ k ∈ (frees a.pieces).map Piece.len, k ≤ n - 1 := by
    intro k hk
    obtain ⟨⟨i, m, f⟩, hp, rfl⟩ := List.mem_map.mp hk
    obtain ⟨hp, rfl⟩ := mem_frees.mp hp
    change m ≤ n - 1
    by_contra hlt
    exact hnone ⟨i, m, hp, by omega⟩
  have hsum : extent (frees a.pieces) ≤ (n - 1) * (bs.length + 1) :=
    calc extent (frees a.pieces)
        ≤ ((frees a.pieces).map Piece.len).length • (n - 1) := List.sum_le_card_nsmul _ _ hshort
      _ = (n - 1) * (frees a.pieces).length := by
          rw [List.length_map, nsmul_eq_mul, Nat.cast_id, Nat.mul_comm]
      _ ≤ (n - 1) * (bs.length + 1) := Nat.mul_le_mul_left _ h.length_frees
  have := h.extent_frees
  omega

end Arena

end SccShm
