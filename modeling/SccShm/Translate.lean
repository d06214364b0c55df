import SccShm.SccFree

/-!
# Pointers and LUT addresses

`SCCPtr2Addr` turns a pointer into a LUT number and an offset, `SCCAddr2Ptr` goes
back.

* `translate_iff`: with exact arithmetic the two are inverse on the pointers inside
  a window whose LUT number an `unsigned char` can hold. The range tests also accept
  the end of a window, which is not inside (`translate_end`).
* `page_exact_iff`: on the 32-bit cores the pages of the remote window are numbered
  as they should be up to a distance of `2 ^ 31` from `remote`, unless the window
  ends at the top of the address space, where the range test accepts nothing.
-/

namespace SccShm

/-- `lut_addr_t`. -/
structure NodeAddr : Type extends LutAddr where
  node : ℕ

deriving instance DecidableEq for LutAddr, NodeAddr

/-- Offset and LUT number of `p` in the window at `base`, with the number `lut` for
its first page. -/
def windowAddr (A : PtrArith) (base lut : ℕ) (p : ℤ) : LutAddr where
  offset := ((A.diff (p - base)).tmod pageSize % wordSize).toNat
  lut := ((lut + (A.diff (p - base)).tdiv pageSize) % charSize).toNat

/-- `SCCPtr2Addr(p)`; an invalid pointer is reported, and the result is not defined. -/
def sccPtr2Addr (A : PtrArith) (P : Placement) (node : ℕ) (p : ℤ) : Option NodeAddr :=
  if P.hitsLocal A p then
    some ⟨windowAddr A P.loc localLut p, node⟩
  else if P.hitsRemote A p then
    some ⟨windowAddr A P.remote P.remoteLut p, node⟩
  else
    none

namespace Placement

variable (P : Placement)

/-- The LUT numbers of the window whose range test accepts `p`. -/
def OwnLut (p : ℤ) (lut : ℕ) : Prop :=
  if P.hitsLocal .exact p then localLut ≤ lut ∧ lut < localLut + P.localPages
  else P.remoteLut ≤ lut ∧ lut < P.remoteLut + P.remotePages

/-- `p` is before the end of the window of `pages` pages at `base`, and the number of
its page, counted from `lut`, is a value of an `unsigned char`. -/
def Within (base pages lut : ℕ) (p : ℤ) : Prop :=
  p < base + pages * pageSize ∧ lut + (p - base) / pageSize < charSize

/-- `Within`, for the window whose range test accepts `p`. -/
def Inside (p : ℤ) : Prop :=
  if P.hitsLocal .exact p then Within P.loc P.localPages localLut p
  else Within P.remote P.remotePages P.remoteLut p

instance (base pages lut : ℕ) (p : ℤ) : Decidable (Within base pages lut p) :=
  inferInstanceAs (Decidable (_ ∧ _))

instance (p : ℤ) : Decidable (P.Inside p) := inferInstanceAs (Decidable (ite _ _ _))

end Placement

variable {A : PtrArith} {P : Placement}

/-! ## One window -/

/-- The offset and the LUT number at distance `d` from the start of the window. -/
theorem windowAddr_of_diff {base lut d : ℕ} {p : ℤ} (hd : A.diff (p - base) = d) :
    windowAddr A base lut p = ⟨(lut + d / pageSize) % charSize, d % pageSize⟩ := by
  have hoff : d % pageSize % wordSize = d % pageSize :=
    Nat.mod_eq_of_lt ((Nat.mod_lt d (by decide)).trans (by decide))
  rw [windowAddr, hd, ← Int.ofNat_tdiv, ← Int.ofNat_tmod, ← Int.natCast_add, ← Int.natCast_emod,
    ← Int.natCast_emod, Int.toNat_natCast, Int.toNat_natCast, hoff]

theorem windowAddr_exact (base lut d : ℕ) :
    windowAddr .exact base lut (base + d) = ⟨(lut + d / pageSize) % charSize, d % pageSize⟩ :=
  windowAddr_of_diff (by simp only [PtrArith.exact, id_eq]; omega)

/-- `SCCAddr2Ptr` on the LUT numbers of the local window. -/
theorem sccAddr2Ptr_local (P : Placement) {i : ℕ} (hi : i < P.localPages) (o : ℕ) :
    sccAddr2Ptr .exact P ⟨localLut + i, o⟩ = P.loc + (i * pageSize + o : ℕ) := by
  have hidx : ((localLut + i : ℕ) : ℤ) - localLut = i := by omega
  rw [sccAddr2Ptr, if_pos (by simp only; omega)]
  simp only [hidx, PtrArith.exact, id_eq]
  push_cast
  exact Int.add_comm _ _

/-- `SCCAddr2Ptr` on the LUT numbers of the remote window. -/
theorem sccAddr2Ptr_remote (P : Placement) {i : ℕ} (hi : i < P.remotePages) (o : ℕ) :
    sccAddr2Ptr .exact P ⟨P.remoteLut + i, o⟩ = P.remote + (i * pageSize + o : ℕ) := by
  have hidx : ((P.remoteLut + i : ℕ) : ℤ) - P.remoteLut = i := by omega
  have hlocal : ¬ (localLut ≤ P.remoteLut + i ∧ P.remoteLut + i < localLut + P.localPages) := by
    rw [Placement.remoteLut]
    omega
  rw [sccAddr2Ptr, if_neg hlocal, if_pos (by simp only; omega)]
  simp only [hidx, PtrArith.exact, id_eq]
  push_cast
  exact Int.add_comm _ _

/-- There and back for one window: `back` is what `SCCAddr2Ptr` does with the LUT
numbers of that window. -/
theorem window_roundTrip_iff {base pages lut d : ℕ} {back : LutAddr → ℤ}
    (hback : ∀ i < pages, ∀ o, back ⟨lut + i, o⟩ = base + (i * pageSize + o : ℕ)) :
    (back (windowAddr .exact base lut (base + d)) = base + d ∧
      (windowAddr .exact base lut (base + d)).offset < pageSize ∧
      lut ≤ (windowAddr .exact base lut (base + d)).lut ∧
      (windowAddr .exact base lut (base + d)).lut < lut + pages) ↔
    Placement.Within base pages lut (base + d) := by
  have hdiv : d / pageSize * pageSize + d % pageSize = d := Nat.div_add_mod' d pageSize
  have hquot : ((base + d : ℤ) - base) / pageSize = (d / pageSize : ℕ) := by
    rw [show ((base + d : ℤ) - base) = (d : ℕ) by omega]
    rfl
  rw [windowAddr_exact, Placement.Within, hquot]
  simp only
  refine ⟨?_, ?_⟩
  · rintro ⟨htrip, -, hlo, hhi⟩
    -- the number in its range, and the page it leads back to
    obtain ⟨i, hi⟩ := Nat.exists_eq_add_of_le hlo
    have hip : i < pages := by omega
    rw [hi, hback i hip] at htrip
    have hieq : i = d / pageSize :=
      Nat.eq_of_mul_eq_mul_right (show 0 < pageSize by decide) (by omega)
    have hpage : (i + 1) * pageSize ≤ pages * pageSize := Nat.mul_le_mul_right _ hip
    have hrem : d % pageSize < pageSize := Nat.mod_lt _ (by decide)
    have hlut : lut + i < charSize := hi ▸ Nat.mod_lt _ (by decide)
    rw [Nat.add_mul, hieq] at hpage
    exact ⟨by omega, by omega⟩
  · rintro ⟨hend, hlut⟩
    have hi : d / pageSize < pages := (Nat.div_lt_iff_lt_mul (by decide)).mpr (by omega)
    have hnum : (lut + d / pageSize) % charSize = lut + d / pageSize := Nat.mod_eq_of_lt (by omega)
    rw [hnum, hback _ hi, hdiv]
    exact ⟨rfl, Nat.mod_lt _ (by decide), Nat.le_add_right _ _, Nat.add_lt_add_left hi _⟩

/-- The pointer to an offset in page `i` of the window, back to its LUT address. -/
theorem windowAddr_page (base : ℕ) {lut i o : ℕ} (hlut : lut + i < charSize) (ho : o < pageSize) :
    windowAddr .exact base lut (base + (i * pageSize + o : ℕ)) = ⟨lut + i, o⟩ := by
  have hdiv : (i * pageSize + o) / pageSize = i := by
    rw [Nat.add_comm, Nat.add_mul_div_right _ _ (by decide), Nat.div_eq_of_lt ho, Nat.zero_add]
  have hmod : (i * pageSize + o) % pageSize = o := by
    rw [Nat.add_comm, Nat.add_mul_mod_self_right, Nat.mod_eq_of_lt ho]
  rw [windowAddr_exact, hdiv, hmod, Nat.mod_eq_of_lt hlut]

/-! ## Exact arithmetic -/

theorem hitsLocal_exact (P : Placement) (d : ℕ) :
    P.hitsLocal .exact (P.loc + d) ↔ d ≤ P.localPages * pageSize := by
  simp only [Placement.hitsLocal, PtrArith.exact, id_eq]
  omega

theorem hitsRemote_exact (P : Placement) (d : ℕ) :
    P.hitsRemote .exact (P.remote + d) ↔ d ≤ P.remotePages * pageSize := by
  simp only [Placement.hitsRemote, PtrArith.exact, id_eq]
  omega

theorem page_end_le {i n : ℕ} (hi : i < n) : i * pageSize + pageSize ≤ n * pageSize := by
  rw [← Nat.succ_mul]
  exact Nat.mul_le_mul_right _ hi

/-- The address of an offset in page `i` of the local window. -/
theorem sccPtr2Addr_local (P : Placement) {i o : ℕ} (hi : i < P.localPages) (ho : o < pageSize)
    (hlut : localLut + i < charSize) (node : ℕ) :
    sccPtr2Addr .exact P node (P.loc + (i * pageSize + o : ℕ))
      = some ⟨⟨localLut + i, o⟩, node⟩ := by
  have hle := page_end_le hi
  rw [sccPtr2Addr, if_pos ((hitsLocal_exact P _).mpr (by omega)), windowAddr_page _ hlut ho]

/-- The address of an offset in page `i` of the remote window, also where it begins at the
end of the local one. -/
theorem sccPtr2Addr_remote (hdis : P.Disjoint) {i o : ℕ} (hi : i < P.remotePages)
    (ho : o < pageSize) (hlut : P.remoteLut + i < charSize) (node : ℕ) :
    sccPtr2Addr .exact P node (P.remote + (i * pageSize + o : ℕ))
      = some ⟨⟨P.remoteLut + i, o⟩, node⟩ := by
  have hle := page_end_le hi
  rw [sccPtr2Addr]
  split
  next hl =>
    -- only the end of the local window, where the remote one begins
    have hl₁ := hl.1
    have hl₂ := hl.2
    simp only [PtrArith.exact, id_eq] at hl₁ hl₂
    have hedge : P.remote = P.loc + P.localPages * pageSize ∧ i * pageSize + o = 0 := by
      rcases hdis with hle' | hle' <;> omega
    obtain ⟨hip, rfl⟩ := Nat.add_eq_zero_iff.mp hedge.2
    obtain rfl := (Nat.mul_eq_zero.mp hip).resolve_right (by decide)
    have hp : (P.remote + (0 * pageSize + 0 : ℕ) : ℤ)
        = P.loc + (P.localPages * pageSize + 0 : ℕ) := by omega
    have hnum : localLut + P.localPages < charSize := hlut
    rw [hp, windowAddr_page _ hnum ho]
    rfl
  next =>
    rw [if_pos ((hitsRemote_exact P _).mpr (by omega)), windowAddr_page _ hlut ho]

/-- `SCCPtr2Addr` and `SCCAddr2Ptr` are inverse on a pointer that one of the range
tests accepts exactly if it is before the end of the window and its LUT number is a
value of an `unsigned char`; LUT addresses lead to pointers and back without exception. -/
theorem translate_iff (hdis : P.Disjoint) (node : ℕ) :
    (∀ p a, sccPtr2Addr .exact P node p = some a →
      ((sccAddr2Ptr .exact P a.toLutAddr = p ∧ a.offset < pageSize ∧ P.OwnLut p a.lut) ↔
        P.Inside p)) ∧
    ∀ a : NodeAddr, a.node = node → a.lut < charSize → a.offset < pageSize →
      (localLut ≤ a.lut ∧ a.lut < localLut + P.localPages) ∨
        (P.remoteLut ≤ a.lut ∧ a.lut < P.remoteLut + P.remotePages) →
      sccPtr2Addr .exact P node (sccAddr2Ptr .exact P a.toLutAddr) = some a := by
  refine ⟨?_, ?_⟩
  · intro p a ha
    rw [sccPtr2Addr] at ha
    rw [Placement.OwnLut, Placement.Inside]
    by_cases hl : P.hitsLocal .exact p
    · rw [if_pos hl, Option.some.injEq] at ha
      obtain ⟨d, rfl⟩ := Int.exists_add_of_le hl.1
      rw [if_pos hl, if_pos hl, ← ha]
      exact window_roundTrip_iff fun i hi o => sccAddr2Ptr_local P hi o
    · rw [if_neg hl] at ha
      obtain ⟨hr, ha⟩ := Option.ite_none_right_eq_some.mp ha
      obtain ⟨d, rfl⟩ := Int.exists_add_of_le hr.1
      rw [if_neg hl, if_neg hl, ← Option.some.inj ha]
      exact window_roundTrip_iff fun i hi o => sccAddr2Ptr_remote P hi o
  · rintro ⟨⟨lut, o⟩, _⟩ rfl hlut ho hrange
    simp only at hlut ho hrange ⊢
    rcases hrange with ⟨hlo, hhi⟩ | ⟨hlo, hhi⟩
    · obtain ⟨i, rfl⟩ := Nat.exists_eq_add_of_le hlo
      have hi : i < P.localPages := by omega
      rw [sccAddr2Ptr_local P hi, sccPtr2Addr_local P hi ho hlut]
    · obtain ⟨i, rfl⟩ := Nat.exists_eq_add_of_le hlo
      have hi : i < P.remotePages := by omega
      rw [sccAddr2Ptr_remote P hi, sccPtr2Addr_remote hdis hi ho hlut]

/-- The ends of the windows of `SCCInit(30)`: `SCCPtr2Addr` accepts the end of the local
window, and with the number it gives `SCCAddr2Ptr` goes to the start of the remote one. -/
theorem translate_end :
    ¬ ∀ (P : Placement) (_ : P.Disjoint) (node : ℕ) (p : ℤ) (a : NodeAddr),
      sccPtr2Addr .exact P node p = some a →
        sccAddr2Ptr .exact P a.toLutAddr = p ∧ a.offset < pageSize ∧ P.OwnLut p a.lut := by
  intro h
  have hend := h demoPlacement (Or.inr (by decide)) 0 3075788800
    ⟨⟨50, 0⟩, 0⟩ (by decide +kernel)
  exact absurd hend.1 (by decide +kernel)

/-- A byte of the first local page, and a pointer into the remote window that comes back. -/
theorem translate_iff_demo :
    demoPlacement.Disjoint ∧
      sccAddr2Ptr .exact demoPlacement ⟨20, 16⟩ = 2572472336 ∧
      ∀ a, sccPtr2Addr .exact demoPlacement 0 184549380 = some a →
        sccAddr2Ptr .exact demoPlacement a.toLutAddr = 184549380 := by
  have hdis : demoPlacement.Disjoint := Or.inr (by decide)
  refine ⟨hdis, by decide +kernel, fun a ha => ?_⟩
  exact (((translate_iff hdis 0).1 _ a ha).mpr (by decide +kernel)).1

/-! ## The remote window on the 32-bit cores -/

theorem word32_diff_of_lt {d : ℕ} (hd : 2 * d < wordSize) : PtrArith.word32.diff d = d := by
  rw [PtrArith.word32_diff]
  exact Int.bmod_eq_of_le_mul_two (by omega) (by omega)

/-- A distance of `2 ^ 31` or more comes out negative. -/
theorem word32_diff_of_le {d f : ℕ} (hdf : d + f = wordSize) (hle : wordSize ≤ 2 * d) :
    PtrArith.word32.diff d = -f := by
  have hw : wordSize = 4294967296 := rfl
  rw [hw] at hdf hle
  rw [PtrArith.word32_diff, Int.bmod_def, hw]
  split <;> omega

/-- The local window takes `p`, and not as its end where the remote window begins. -/
def Placement.Shadowed (P : Placement) (p : ℤ) : Prop :=
  P.hitsLocal .word32 p ∧ ¬ (p = P.remote ∧ p = P.loc + P.localPages * pageSize)

instance (P : Placement) (p : ℤ) : Decidable (P.Shadowed p) := inferInstanceAs (Decidable (_ ∧ _))

section Remote

variable {d : ℕ}

/-- The range test of the local window accepts nothing behind its end. -/
theorem hitsLocal_word32 (hpages : P.localPages ≤ maxPages) {p : ℤ} (hp : p < wordSize)
    (hl : P.hitsLocal .word32 p) :
    P.loc ≤ p ∧ p ≤ P.loc + P.localPages * pageSize := by
  have hw : wordSize = 4294967296 := rfl
  have hps : pageSize = 16777216 := rfl
  have hm : maxPages = 172 := rfl
  obtain ⟨h₁, h₂⟩ := hl
  rw [PtrArith.word32_addr_add_int] at h₂
  rw [hw] at hp h₂
  rw [hps] at h₂ ⊢
  omega

/-- Disjoint windows do not take each other's pointers. -/
theorem not_shadowed_of_disjoint (hdis : P.Disjoint) (hpages : P.localPages ≤ maxPages)
    (hfit : P.remote + P.remotePages * pageSize ≤ wordSize) (hd : d < P.remotePages * pageSize) :
    ¬ P.Shadowed (P.remote + d) := by
  rintro ⟨hl, hne⟩
  have hbounds := hitsLocal_word32 hpages (by omega) hl
  rcases hdis with hle | hle
  · exact hne (by omega)
  · omega

/-- The range test of the remote window, unless that ends at the top of the address
space. -/
theorem hitsRemote_word32_iff (hfit : P.remote + P.remotePages * pageSize ≤ wordSize)
    (hpages : P.remotePages ≤ maxPages) (hd : d < P.remotePages * pageSize) :
    P.hitsRemote .word32 (P.remote + d) ↔ P.remote + P.remotePages * pageSize ≠ wordSize := by
  have hw : wordSize = 4294967296 := rfl
  have hps : pageSize = 16777216 := rfl
  have hm : maxPages = 172 := rfl
  rw [Placement.hitsRemote, PtrArith.word32_addr_add_int]
  rw [hps] at hfit hd ⊢
  rw [hw] at hfit ⊢
  refine ⟨?_, ?_⟩
  · rintro ⟨-, h⟩
    omega
  · intro h
    constructor <;> omega

/-- `(p - remote) / PAGE_SIZE` is the page of `p` as long as the difference is not
negative. -/
theorem pageIndex_word32_iff (hd : d < wordSize) :
    P.pageIndex .word32 (P.remote + d) = (d / pageSize : ℕ) ↔ 2 * d < wordSize := by
  have hdiff : (P.remote + d : ℤ) - P.remote = d := by omega
  rw [Placement.pageIndex, hdiff]
  refine ⟨?_, ?_⟩
  · intro h
    by_contra hge
    obtain ⟨f, hf⟩ := Nat.exists_eq_add_of_le hd.le
    rw [word32_diff_of_le hf.symm (by omega), Int.neg_tdiv, ← Int.ofNat_tdiv] at h
    have hge' : pageSize ≤ d := by
      have hw : wordSize = 4294967296 := rfl
      have hps : pageSize = 16777216 := rfl
      omega
    have hpos : 0 < d / pageSize := Nat.div_pos hge' (by decide)
    have hnonneg : 0 ≤ f / pageSize := Nat.zero_le _
    omega
  · intro h
    rw [word32_diff_of_lt h, Int.ofNat_tdiv]

/-- Where the local window takes the pointer first, the result is right only for the
pointer where the one window ends and the other begins. -/
theorem windowAddr_local_iff (hpages : P.localPages + P.remotePages = maxPages)
    (hd : P.remote + d < wordSize) (hl : P.hitsLocal .word32 (P.remote + d))
    (hdpages : d < P.remotePages * pageSize) :
    windowAddr .word32 P.loc localLut (P.remote + d)
        = ⟨P.remoteLut + d / pageSize, d % pageSize⟩ ↔
      d = 0 ∧ P.remote = P.loc + P.localPages * pageSize := by
  have hw : wordSize = 4294967296 := rfl
  have hps : pageSize = 16777216 := rfl
  have hm : maxPages = 172 := rfl
  have hc : charSize = 256 := rfl
  have hb := hitsLocal_word32 (by omega) (by omega) hl
  obtain ⟨e, he⟩ := Int.exists_add_of_le hb.1
  have hdiff : (P.remote + d : ℤ) - P.loc = e := by omega
  rw [Placement.remoteLut, localLut]
  rw [hps] at hb hdpages ⊢
  rcases Nat.lt_or_ge (2 * e) wordSize with hlt | hge
  · rw [windowAddr_of_diff (d := e) (by rw [hdiff, word32_diff_of_lt hlt]), LutAddr.mk.injEq, hps,
      hc]
    omega
  · -- the quotient is rounded towards zero, and adding 256 to it changes nothing
    obtain ⟨f, hf⟩ := Nat.exists_eq_add_of_le (show e ≤ wordSize by omega)
    rw [windowAddr, hdiff, word32_diff_of_le hf.symm hge, Int.neg_tdiv, Int.neg_tmod,
      ← Int.ofNat_tdiv, ← Int.ofNat_tmod, LutAddr.mk.injEq, hps, hc]
    rw [hw] at hf ⊢
    omega

/-- On the 32-bit cores the range test accepts the pointer at distance `d` in the remote
window, and page number, offset and table index are exact, if and only if a pointer
difference can hold `d`, the window does not end at the top of the address space, and
the local window does not take the pointer. -/
theorem page_exact_iff (hpages : P.localPages + P.remotePages = maxPages)
    (hfit : P.remote + P.remotePages * pageSize ≤ wordSize) (node : ℕ)
    (hd : d < P.remotePages * pageSize) :
    (P.hitsRemote .word32 (P.remote + d) ∧
      sccPtr2Addr .word32 P node (P.remote + d)
        = some ⟨⟨P.remoteLut + d / pageSize, d % pageSize⟩, node⟩ ∧
      P.pageIndex .word32 (P.remote + d) = (d / pageSize : ℕ)) ↔
    2 * d < wordSize ∧ P.remote + P.remotePages * pageSize ≠ wordSize ∧
      ¬ P.Shadowed (P.remote + d) := by
  rw [hitsRemote_word32_iff hfit (by omega) hd, pageIndex_word32_iff (by omega)]
  by_cases hl : P.hitsLocal .word32 (P.remote + d)
  · have hshadow : P.Shadowed (P.remote + d) ↔
        ¬ (d = 0 ∧ P.remote = P.loc + P.localPages * pageSize) := by
      rw [Placement.Shadowed, and_iff_right hl]
      omega
    rw [sccPtr2Addr, if_pos hl, Option.some.injEq, NodeAddr.mk.injEq, and_iff_left rfl,
      windowAddr_local_iff hpages (by omega) hl hd, hshadow, not_not]
    tauto
  · have hshadow : ¬ P.Shadowed (P.remote + d) := fun h => hl h.1
    refine ⟨?_, ?_⟩
    · rintro ⟨hne, -, hlt⟩
      exact ⟨hlt, hne, hshadow⟩
    · rintro ⟨hlt, hne, -⟩
      have hdiff : PtrArith.word32.diff ((P.remote + d : ℤ) - P.remote) = d := by
        rw [show (P.remote + d : ℤ) - P.remote = d by omega, word32_diff_of_lt hlt]
      have hpage : d / pageSize < P.remotePages := (Nat.div_lt_iff_lt_mul (by decide)).mpr hd
      have hlut : P.remoteLut + d / pageSize < charSize := by
        simp only [Placement.remoteLut, localLut, charSize, maxPages] at *
        omega
      refine ⟨hne, ?_, hlt⟩
      rw [sccPtr2Addr, if_neg hl, if_pos ((hitsRemote_word32_iff hfit (by omega) hd).mpr hne),
        windowAddr_of_diff hdiff, Nat.mod_eq_of_lt hlut]

/-- Page 128 of the windows of `SCCInit(30)`: the table index comes out as `-128`. -/
theorem page_wrapped :
    ¬ ∀ (P : Placement) (_ : P.localPages + P.remotePages = maxPages)
      (_ : P.remote + P.remotePages * pageSize ≤ wordSize) (node d : ℕ)
      (_ : d < P.remotePages * pageSize),
      P.hitsRemote .word32 (P.remote + d) ∧
      sccPtr2Addr .word32 P node (P.remote + d)
        = some ⟨⟨P.remoteLut + d / pageSize, d % pageSize⟩, node⟩ ∧
      P.pageIndex .word32 (P.remote + d) = (d / pageSize : ℕ) := by
  intro h
  have hidx := (h demoPlacement rfl (by decide) 0 (128 * pageSize) (by decide)).2.2
  exact absurd hidx (by decide +kernel)

/-- Five bytes into page 1. -/
theorem page_exact_demo :
    demoPlacement.remote + demoPlacement.remotePages * pageSize ≤ wordSize ∧
      demoPlacement.pageIndex .word32 (demoPlacement.remote + (16777221 : ℕ)) = (1 : ℕ) ∧
      ¬ demoPlacement.Shadowed (demoPlacement.remote + (16777221 : ℕ)) := by
  have hfit : demoPlacement.remote + demoPlacement.remotePages * pageSize ≤ wordSize := by decide
  have hexact := (page_exact_iff rfl hfit 0 (d := 16777221) (by decide)).mpr
    ⟨by decide, by decide, by decide +kernel⟩
  exact ⟨hfit, hexact.2.2, by decide +kernel⟩

end Remote

end SccShm
