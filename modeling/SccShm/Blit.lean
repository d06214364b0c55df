import Mathlib.Data.BitVec
import Mathlib.Tactic.Common

/-!
# Copying in a memory

A memory is a function on the addresses `BitVec w`; an address that is counted up past
the last one starts again at the first.

* `paste m' m d s n` — the memory `m` with the `n` bytes that `m'` has at `s` put at `d`.
  What is pasted in pieces is pasted at once (`paste_add`).
* `blit m d s n` — the memory with its own bytes put there. In pieces, the bytes of a later
  one may have been overwritten by an earlier one; `blit_add` is for ranges where this
  does not happen (`Clear`).
* `word`, `putWord` — four bytes as a word, the lowest first.
-/

namespace SccShm

universe u

variable {w : ℕ} {β : Type u}

/-! ## Ranges of addresses -/

/-- `x` is one of the `n` addresses from `a` on. -/
def Span (a : BitVec w) (n : ℕ) (x : BitVec w) : Prop := (x - a).toNat < n

instance (a : BitVec w) (n : ℕ) (x : BitVec w) : Decidable (Span a n x) :=
  inferInstanceAs (Decidable (_ < _))

/-- The `n` addresses from `a` on can all be accessed. -/
def Maps (mapped : BitVec w → Bool) (a : BitVec w) (n : ℕ) : Prop :=
  ∀ i < n, mapped (a + BitVec.ofNat w i) = true

instance (mapped : BitVec w → Bool) (a : BitVec w) (n : ℕ) : Decidable (Maps mapped a n) :=
  inferInstanceAs (Decidable (∀ i < n, _))

section Ranges

variable {a x : BitVec w} {j k n : ℕ} {m : BitVec w → Bool}

theorem add_ofNat_add (a : BitVec w) (j k : ℕ) :
    a + BitVec.ofNat w (j + k) = a + BitVec.ofNat w j + BitVec.ofNat w k := by
  rw [BitVec.ofNat_add, BitVec.add_assoc]

theorem add_ofNat_zero (a : BitVec w) : a + BitVec.ofNat w 0 = a := BitVec.add_zero a

/-- How far `x` is from an address further on. -/
theorem toNat_sub_add (hk : k < 2 ^ w) : (x - (a + BitVec.ofNat w k)).toNat =
    if k ≤ (x - a).toNat then (x - a).toNat - k else (x - a).toNat + 2 ^ w - k := by
  have hlt := (x - a).isLt
  rw [← BitVec.sub_sub, BitVec.toNat_sub, BitVec.toNat_ofNat, Nat.mod_eq_of_lt hk]
  split
  · rw [show 2 ^ w - k + (x - a).toNat = (x - a).toNat - k + 2 ^ w by omega, Nat.add_mod_right,
      Nat.mod_eq_of_lt (by omega)]
  · rw [Nat.mod_eq_of_lt (by omega)]
    omega

theorem span_add (hlt : j + k ≤ 2 ^ w) :
    Span a (j + k) x ↔ Span a j x ∨ Span (a + BitVec.ofNat w j) k x := by
  have hx := (x - a).isLt
  rcases Nat.eq_zero_or_pos k with rfl | hk
  · simp [Span]
  · rw [Span, Span, Span, toNat_sub_add (by omega)]
    split <;> omega

theorem Span.not_add (h : Span a j x) (hlt : j + k ≤ 2 ^ w) :
    ¬ Span (a + BitVec.ofNat w j) k x := by
  rw [Span] at h
  rcases Nat.eq_zero_or_pos k with rfl | hk
  · exact Nat.not_lt_zero _
  · rw [Span, toNat_sub_add (by omega)]
    split <;> omega

theorem maps_add : Maps m a (j + k) ↔
    Maps m a j ∧ Maps m (a + BitVec.ofNat w j) k := by
  refine ⟨fun h => ⟨fun i hi => h i (by omega), fun i hi => ?_⟩, fun ⟨h₁, h₂⟩ i hi => ?_⟩
  · rw [← add_ofNat_add]
    exact h (j + i) (by omega)
  · rcases Nat.lt_or_ge i j with hlt | hge
    · exact h₁ i hlt
    · have := h₂ (i - j) (by omega)
      rwa [← add_ofNat_add, Nat.add_sub_cancel' hge] at this

end Ranges

/-! ## Pasting and copying -/

/-- `m`, with the `n` bytes that `m'` has at `s` put at `d`. -/
def paste (m' m : BitVec w → β) (d s : BitVec w) (n : ℕ) : BitVec w → β :=
  fun x => if Span d n x then m' (s + (x - d)) else m x

/-- `m`, with the `n` bytes at `s` copied to `d`. -/
def blit (m : BitVec w → β) (d s : BitVec w) (n : ℕ) : BitVec w → β := paste m m d s n

/-- Copied one after the other from the first on, no byte of the `n` at `s` is overwritten
before it is copied to `d`. -/
def Clear (d s : BitVec w) (n : ℕ) : Prop := d = s ∨ n ≤ (d - s).toNat

instance (d s : BitVec w) (n : ℕ) : Decidable (Clear d s n) :=
  inferInstanceAs (Decidable (_ ∨ _))

section Paste

variable {m m' : BitVec w → β} {d s x : BitVec w} {j k n : ℕ}

@[simp] theorem paste_zero : paste m' m d s 0 = m := by
  funext x
  exact if_neg (Nat.not_lt_zero _)

theorem paste_of_span (h : Span d n x) : paste m' m d s n x = m' (s + (x - d)) := if_pos h

theorem paste_of_not_span (h : ¬ Span d n x) : paste m' m d s n x = m x := if_neg h

/-- Pasting in two pieces. -/
theorem paste_add (hlt : j + k ≤ 2 ^ w) :
    paste m' (paste m' m d s j) (d + BitVec.ofNat w j) (s + BitVec.ofNat w j) k
      = paste m' m d s (j + k) := by
  funext x
  by_cases hk : Span (d + BitVec.ofNat w j) k x
  · rw [paste_of_span hk, paste_of_span ((span_add hlt).mpr (Or.inr hk)), ← BitVec.sub_sub]
    congr 1
    rw [BitVec.add_assoc, BitVec.add_comm (BitVec.ofNat w j), BitVec.sub_add_cancel]
  · rw [paste_of_not_span hk]
    by_cases hj : Span d j x
    · rw [paste_of_span hj, paste_of_span ((span_add hlt).mpr (Or.inl hj))]
    · rw [paste_of_not_span hj,
        paste_of_not_span (fun h => ((span_add hlt).mp h).elim hj hk)]

theorem Clear.of_le (h : Clear d s n) (hk : k ≤ n) : Clear d s k := h.imp_right hk.trans

/-- The two ranges move on together. -/
theorem Clear.add (h : Clear d s n) (v : BitVec w) : Clear (d + v) (s + v) n := by
  refine h.imp (fun hds => by rw [hds]) fun hn => ?_
  rwa [BitVec.add_comm s, ← BitVec.sub_sub, BitVec.add_sub_cancel]

theorem blit_self : blit m d d n = m := by
  funext x
  rw [blit, paste]
  split
  · rw [BitVec.add_comm, BitVec.sub_add_cancel]
  · rfl

/-- What a first piece overwrites, no later one copies. -/
theorem not_span_source (hclear : n ≤ (d - s).toNat) (hj : j ≤ (x - d).toNat)
    (hn : (x - d).toNat < n) : ¬ Span d j (s + (x - d)) := by
  have hd := (d - s).isLt
  have hsub : s + (x - d) - d = x - d - (d - s) := by
    rw [BitVec.sub_eq_add_neg (x - d) (d - s), BitVec.neg_sub, BitVec.add_comm s,
      BitVec.sub_eq_add_neg _ d, BitVec.add_assoc, BitVec.add_comm s]
  rw [Span, hsub, BitVec.toNat_sub, Nat.mod_eq_of_lt (by omega)]
  omega

/-- Copying in two pieces. -/
theorem blit_add (hclear : Clear d s (j + k)) (hlt : j + k ≤ 2 ^ w) :
    blit (blit m d s j) (d + BitVec.ofNat w j) (s + BitVec.ofNat w j) k = blit m d s (j + k) := by
  rcases hclear with rfl | hclear
  · rw [blit_self, blit_self, blit_self]
  · rw [blit, blit, blit, ← paste_add hlt]
    funext x
    by_cases hk : Span (d + BitVec.ofNat w j) k x
    · rw [paste_of_span hk, paste_of_span hk]
      have hx := (span_add hlt).mpr (Or.inr hk)
      have hj : ¬ Span d j x := fun hj => hj.not_add hlt hk
      have hsub : s + BitVec.ofNat w j + (x - (d + BitVec.ofNat w j)) = s + (x - d) := by
        rw [← BitVec.sub_sub, BitVec.add_assoc, BitVec.add_comm (BitVec.ofNat w j),
          BitVec.sub_add_cancel]
      rw [hsub, paste_of_not_span (not_span_source hclear (Nat.le_of_not_lt hj) hx)]
    · rw [paste_of_not_span hk, paste_of_not_span hk]

end Paste

/-! ## Words -/

/-- The word whose bytes are at `a`, the lowest first. -/
def word (m : BitVec w → BitVec 8) (a : BitVec w) : BitVec 32 :=
  m (a + BitVec.ofNat w 3) ++ m (a + BitVec.ofNat w 2) ++ m (a + BitVec.ofNat w 1) ++ m a

/-- `m` with the bytes of `v` at `a`, the lowest first. -/
def putWord (m : BitVec w → BitVec 8) (a : BitVec w) (v : BitVec 32) : BitVec w → BitVec 8 :=
  fun x => if Span a 4 x then v.extractLsb' (8 * (x - a).toNat) 8 else m x

theorem getLsbD_append_octet {n : ℕ} (v : BitVec n) (b : BitVec 8) (i : ℕ) :
    (v ++ b).getLsbD i = if i < 8 then b.getLsbD i else v.getLsbD (i - 8) :=
  BitVec.getLsbD_append

/-- The bits of a byte of a word. -/
theorem getLsbD_word (m : BitVec w → BitVec 8) (a : BitVec w) {i b : ℕ} (hi : i < 4)
    (hb : b < 8) : (word m a).getLsbD (8 * i + b) = (m (a + BitVec.ofNat w i)).getLsbD b := by
  refine (getLsbD_append_octet _ _ _).trans ?_
  rw [getLsbD_append_octet, getLsbD_append_octet]
  obtain rfl | rfl | rfl | rfl : i = 0 ∨ i = 1 ∨ i = 2 ∨ i = 3 := by omega
  · rw [if_pos (by omega), add_ofNat_zero, Nat.mul_zero, Nat.zero_add]
  · rw [if_neg (by omega), if_pos (by omega), Nat.add_sub_cancel_left]
  · rw [if_neg (by omega), if_neg (by omega), if_pos (by omega), Nat.sub_sub,
      Nat.add_sub_cancel_left]
  · rw [if_neg (by omega), if_neg (by omega), if_neg (by omega), Nat.sub_sub, Nat.sub_sub,
      Nat.add_sub_cancel_left]

/-- Loading a word and storing it is pasting four bytes. -/
theorem putWord_word (m' m : BitVec w → BitVec 8) (d s : BitVec w) :
    putWord m d (word m' s) = paste m' m d s 4 := by
  funext x
  rw [putWord, paste]
  by_cases hx : Span d 4 x
  · rw [if_pos hx, if_pos hx]
    ext b hb
    rw [BitVec.getElem_extractLsb', getLsbD_word m' s hx hb, BitVec.ofNat_toNat,
      BitVec.setWidth_eq, BitVec.getLsbD_eq_getElem hb]
  · rw [if_neg hx, if_neg hx]

end SccShm
