import SccShm.Machine

/-!
# `memcpy_get` and `memcpy_put`

The two copy routines for the message passing buffers are written in assembly: from a
buffer in passes of 32 bytes, eight of them in two registers at a time, to a buffer by
string instructions; in both, the rest follows byte by byte.

* `memcpyPut_spec` — `memcpy_put` copies, and accesses nothing but the two ranges.
* `memcpyGet_spec` — `memcpy_get` copies too, but reads a word at the end of what its passes
  have written, which may lie behind the destination.
-/

namespace SccShm

open X86

/-- Where things are in memory. -/
abbrev Pointer : Type := BitVec 32

/-! ## `memcpy_put` -/

/-- The assembly of `memcpy_put`; `%4` is in `eax`. -/
def memcpyPutOps : List Op :=
  [.cld, .repMovs 4, .movl .eax .ecx, .andl 3 .ecx, .repMovs 1]

/-- `memcpy_put(dest, src, count)`, with the other registers, the flags and the memory of
`s`: the result and memory. -/
def memcpyPut (mapped : Pointer → Bool) (fuel : ℕ) (dest src count : Pointer) (s : State) :
    Exec (Pointer × (Pointer → BitVec 8)) := do
  let s' ← run mapped (memcpyPutOps.map .op) fuel 0
    ((((s.set .eax count).set .ecx (count / 4)).set .edi dest).set .esi src)
  .ok (dest, s'.mem)

/-! ## `memcpy_get` -/

/-- The assembly of `memcpy_get`. -/
def memcpyGetCode : List Line :=
  [.op .cld,
    .label 1, .op (.cmpl 0 .eax), .je 2,
    .op (.load 0 .edi .edx),
    .op (.load 0 .esi .ecx),
    .op (.load 4 .esi .edx),
    .op (.store .ecx 0 .edi),
    .op (.store .edx 4 .edi),
    .op (.load 8 .esi .ecx),
    .op (.load 12 .esi .edx),
    .op (.store .ecx 8 .edi),
    .op (.store .edx 12 .edi),
    .op (.load 16 .esi .ecx),
    .op (.load 20 .esi .edx),
    .op (.store .ecx 16 .edi),
    .op (.store .edx 20 .edi),
    .op (.load 24 .esi .ecx),
    .op (.load 28 .esi .edx),
    .op (.store .ecx 24 .edi),
    .op (.store .edx 28 .edi),
    .op (.addl 32 .esi),
    .op (.addl 32 .edi),
    .op (.dec .eax), .jmp 1,
    .label 2, .op (.movl .ebx .ecx),
    .op (.load 0 .edi .edx),
    .op (.andl 31 .ecx),
    .op (.repMovs 1)]

/-- `memcpy_get(dest, src, count)`, with the other registers, the flags and the memory of
`s`: the result and memory. -/
def memcpyGet (mapped : Pointer → Bool) (fuel : ℕ) (dest src count : Pointer) (s : State) :
    Exec (Pointer × (Pointer → BitVec 8)) := do
  let s' ← run mapped memcpyGetCode fuel 0
    ((((s.set .eax (count / 32)).set .edi dest).set .esi src).set .ebx count)
  .ok (dest, s'.mem)

section Proofs

variable {m : Pointer → Bool} {s s' : State} {dest src count : Pointer} {k n r : ℕ}

/-! ## Correctness of `memcpy_put` -/

/-- The low bits of a count. -/
theorem toNat_and_mask {e : ℕ} (v : BitVec 32) (hm : e < 32) :
    (v &&& BitVec.ofNat 32 (2 ^ e - 1)).toNat = v.toNat % 2 ^ e := by
  have hlt : 2 ^ e - 1 < 2 ^ 32 :=
    lt_of_le_of_lt (Nat.sub_le _ _) (Nat.pow_lt_pow_right (by decide) hm)
  rw [BitVec.toNat_and, BitVec.toNat_ofNat, Nat.mod_eq_of_lt hlt, Nat.and_two_pow_sub_one_eq_mod]

/-- What is left behind the last whole piece is copied byte by byte. -/
theorem exact_rest {e : ℕ} (hm : e < 32) (hdf : s.df = false)
    (hr : r = (s.reg .ecx).toNat % 2 ^ e) (hclear : Clear (s.reg .edi) (s.reg .esi) r) :
    Exact (execs m [.andl (BitVec.ofNat 32 (2 ^ e - 1)) .ecx, .repMovs 1] s)
      (Maps m (s.reg .esi) r ∧ Maps m (s.reg .edi) r) (Moves s r) := by
  obtain ⟨s₁, hs₁⟩ : ∃ s₁, s₁ = s.result .ecx (s.reg .ecx &&& BitVec.ofNat 32 (2 ^ e - 1)) :=
    ⟨_, rfl⟩
  have hmoves : Moves s 0 s₁ := by
    have := moves_set (s := s) (r := .ecx) (by decide) (by decide)
      (s.reg .ecx &&& BitVec.ofNat 32 (2 ^ e - 1))
    rw [hs₁]
    exact ⟨this.mem, this.esi, this.edi, this.df⟩
  have hsi : s₁.reg .esi = s.reg .esi := by rw [hmoves.esi, add_ofNat_zero]
  have hdi : s₁.reg .edi = s.reg .edi := by rw [hmoves.edi, add_ofNat_zero]
  have hcx : (s₁.reg .ecx).toNat = r := by
    rw [hs₁, hr, ← toNat_and_mask _ hm]
    exact congrArg BitVec.toNat (s.reg_set_self .ecx _)
  have hlt : r ≤ 2 ^ 32 := hcx ▸ (s₁.reg .ecx).isLt.le
  have hexec : execs m [.andl (BitVec.ofNat 32 (2 ^ e - 1)) .ecx, .repMovs 1] s
      = repMovs m 1 r s₁ >>= execs m [] := by
    rw [← hcx, hs₁]
    rfl
  rw [hexec]
  have hrep := exact_repMovs (m := m) (s := s₁) (k := 1) (n := r)
    (hmoves.df.trans hdf) (by rwa [Nat.one_mul]) (by rwa [Nat.one_mul, hsi, hdi])
  rw [Nat.one_mul, hsi, hdi] at hrep
  refine (hrep.bind (C := True) (R := Moves s r) fun s' hs' => Exact.pure ?_).congr
    (and_iff_left trivial).symm fun _ => id
  have := hmoves.trans hs'.1 (by rwa [Nat.zero_add]) (by rwa [Nat.zero_add])
  rwa [Nat.zero_add] at this

/-- `memcpy_put` from its first instruction on. -/
theorem exact_put (hcx : (s.reg .ecx).toNat = (s.reg .eax).toNat / 4)
    (hn : n = (s.reg .eax).toNat) (hclear : Clear (s.reg .edi) (s.reg .esi) n) :
    Exact (execs m memcpyPutOps s) (Maps m (s.reg .esi) n ∧ Maps m (s.reg .edi) n)
      fun s' => s'.mem = blit s.mem (s.reg .edi) (s.reg .esi) n := by
  have hlt := (s.reg .eax).isLt
  have hsum : 4 * (n / 4) + n % 4 = n := Nat.div_add_mod n 4
  obtain ⟨s₁, hs₁⟩ : ∃ s₁, s₁ = ({ s with df := false } : State) := ⟨_, rfl⟩
  have hexec : execs m memcpyPutOps s
      = repMovs m 4 (n / 4) s₁ >>=
        execs m [.movl .eax .ecx, .andl 3 .ecx, .repMovs 1] := by
    rw [hn, ← hcx, hs₁]
    rfl
  have hsi : s₁.reg .esi = s.reg .esi := by rw [hs₁]
  have hdi : s₁.reg .edi = s.reg .edi := by rw [hs₁]
  have hrep := exact_repMovs (m := m) (s := s₁) (k := 4) (n := n / 4) (by rw [hs₁])
    (by omega) (by rw [hsi, hdi]; exact hclear.of_le (by omega))
  rw [hexec]
  refine (hrep.bind (C := Maps m (s.reg .esi + BitVec.ofNat 32 (4 * (n / 4))) (n % 4) ∧
    Maps m (s.reg .edi + BitVec.ofNat 32 (4 * (n / 4))) (n % 4))
    (R := Moves s₁ n) fun s₂ hs₂ => ?_).congr ?_ fun s' hs' => ?_
  · -- the rest
    obtain ⟨hmoves, hkeeps⟩ := hs₂
    have hmoves₃ := hmoves.trans (n := 0) (moves_set (s := s₂) (r := .ecx) (by decide) (by decide)
      (s₂.reg .eax)) (by rw [Nat.add_zero, hsi, hdi]; exact hclear.of_le (by omega)) (by omega)
    rw [Nat.add_zero] at hmoves₃
    have hax : s₂.reg .eax = s.reg .eax := by
      rw [hkeeps .eax (by decide), hs₁]
    have hrest := exact_rest (m := m) (s := s₂.set .ecx (s₂.reg .eax)) (e := 2)
      (r := n % 4) (by decide) (by rw [hmoves₃.df, hs₁])
      (by rw [State.reg_set_self, hax, hn]; rfl)
      (by rw [hmoves₃.esi, hmoves₃.edi, hsi, hdi]
          exact (hclear.of_le (by omega)).add _)
    rw [hmoves₃.esi, hmoves₃.edi, hsi, hdi] at hrest
    refine hrest.congr Iff.rfl fun s' hs' => ?_
    have := hmoves₃.trans hs' (by rw [hsum, hsi, hdi]; exact hclear) (by omega)
    rwa [hsum] at this
  · rw [hsi, hdi, ← hsum, maps_add, maps_add, hsum]
    tauto
  · rw [hs'.mem, hsi, hdi, hs₁]

/-- **`memcpy_put` copies.** Unless the destination begins inside the source, it returns
exactly if both ranges can be accessed, and changes nothing but the destination. -/
theorem memcpyPut_spec (m : Pointer → Bool) (s : State) (hclear : Clear dest src count.toNat) :
    ((∃ out, Returns (fun fuel => memcpyPut m fuel dest src count s) out) ↔
      Maps m src count.toNat ∧ Maps m dest count.toNat) ∧
    ∀ out, Returns (fun fuel => memcpyPut m fuel dest src count s) out →
      out = (dest, blit s.mem dest src count.toNat) := by
  obtain ⟨s₀, h₀⟩ : ∃ s₀, s₀ = (((s.set .eax count).set .ecx (count / 4)).set .edi dest).set
    .esi src := ⟨_, rfl⟩
  have hdi : s₀.reg .edi = dest := by rw [h₀]; rfl
  have hsi : s₀.reg .esi = src := by rw [h₀]; rfl
  have hax : s₀.reg .eax = count := by rw [h₀]; rfl
  have hcx : (s₀.reg .ecx).toNat = (s₀.reg .eax).toNat / 4 := by
    rw [hax, h₀]
    exact BitVec.toNat_udiv
  have hput := exact_put (m := m) hcx (congrArg _ hax.symm) (by rwa [hdi, hsi])
  rw [hdi, hsi] at hput
  have hends : Ends (fun fuel => run m (memcpyPutOps.map .op) fuel 0 s₀)
      (Maps m src count.toNat ∧ Maps m dest count.toNat)
      fun s' => s'.mem = blit s.mem dest src count.toNat := by
    refine (ends_ops (l := memcpyPutOps) (t := []) rfl hput fun s' hs' =>
      ends_exit (a := memcpyPutOps.map .op) (p := 5)
        (Q := fun s' => s'.mem = blit s₀.mem dest src count.toNat) rfl hs').congr
      (and_iff_left trivial).symm fun s' hs' => ?_
    rw [hs', h₀]
    rfl
  have hmap := hends.map (h := fun s' : State => (dest, s'.mem))
    (R := (· = (dest, blit s.mem dest src count.toNat))) fun s' hs' => by rw [hs']
  rw [h₀] at hmap
  exact hmap.returns ((loop_fuelStable _ _).bind fun _ => .const _)

/-- A state in which every address holds its own lowest byte. -/
def demoState : State := ⟨fun _ => 0, false, true, fun x => x.setWidth 8⟩

/-- Five bytes: a word, and the last one by itself. -/
theorem memcpyPut_spec_demo :
    ∃ out, Returns (fun fuel => memcpyPut (fun _ => true) fuel 100 200 5 demoState) out ∧
      out.1 = 100 ∧ out.2 103 = 203 ∧ out.2 104 = 204 ∧ out.2 105 = 105 := by
  have hclear : Clear (100 : Pointer) 200 (5 : Pointer).toNat := Or.inr (by decide)
  obtain ⟨hends, hout⟩ := memcpyPut_spec (fun _ => true) demoState hclear
  obtain ⟨out, hret⟩ := hends.mpr ⟨fun _ _ => rfl, fun _ _ => rfl⟩
  refine ⟨out, hret, ?_⟩
  rw [hout out hret]
  decide

/-! ## Correctness of `memcpy_get` -/

/-- The eight bytes at offset `d` that `memcpy_get` has in its two registers. -/
def quad (d : ℕ) : List Op :=
  [.load (BitVec.ofNat 32 d) .esi .ecx, .load (BitVec.ofNat 32 (d + 4)) .esi .edx,
    .store .ecx (BitVec.ofNat 32 d) .edi, .store .edx (BitVec.ofNat 32 (d + 4)) .edi]

/-- The first `n` of them. -/
def quads (n : ℕ) : List Op := (List.range n).flatMap fun j => quad (8 * j)

/-- A pass of `memcpy_get`. -/
def passOps : List Op :=
  .load 0 .edi .edx :: quads 4 ++ [.addl 32 .esi, .addl 32 .edi, .dec .eax]

theorem maps_eight (a : Pointer) :
    Maps m a 8 ↔ Maps m a 4 ∧ Maps m (a + BitVec.ofNat 32 4) 4 :=
  maps_add (j := 4) (k := 4)

/-- Eight bytes are loaded. -/
theorem exact_loads {a : Pointer} (ha : a = s.reg .esi + BitVec.ofNat 32 k) :
    Exact (execs m [.load (BitVec.ofNat 32 k) .esi .ecx,
        .load (BitVec.ofNat 32 (k + 4)) .esi .edx] s)
      (Maps m a 8)
      fun s' => s'.reg .ecx = word s.mem a ∧ s'.reg .edx = word s.mem (a + BitVec.ofNat 32 4) ∧
        Keeps [.ecx, .edx] s s' ∧ s'.mem = s.mem ∧ s'.df = s.df := by
  have ha4 : a + BitVec.ofNat 32 4 = s.reg .esi + BitVec.ofNat 32 (k + 4) := by
    rw [ha, add_ofNat_add]
  obtain ⟨s₁, h₁⟩ : ∃ s₁, s₁ = s.set .ecx (word s.mem a) := ⟨_, rfl⟩
  have hsi : s₁.reg .esi = s.reg .esi := by rw [h₁, s.reg_set_of_ne (by decide)]
  have e₁ : Exact ((Op.load (BitVec.ofNat 32 k) .esi .ecx).exec m s) (Maps m a 4)
      (· = s₁) := by
    rw [h₁, ha]
    exact exact_load
  have e₂ := exact_load (m := m) (s := s₁) (d := BitVec.ofNat 32 (k + 4)) (b := .esi)
    (r := .edx)
  rw [hsi, ← ha4, show s₁.mem = s.mem by rw [h₁]; rfl] at e₂
  refine (exact_cons e₁ (exact_cons e₂ (exact_nil ?_))).congr ?_ fun _ => id
  · refine ⟨?_, State.reg_set_self .., fun r hr => ?_, by rw [h₁]; rfl, by rw [h₁]; rfl⟩
    · rw [State.reg_set_of_ne _ (by decide), h₁, State.reg_set_self]
    · simp only [List.mem_cons, List.not_mem_nil, or_false, not_or] at hr
      rw [State.reg_set_of_ne _ hr.2, h₁, State.reg_set_of_ne _ hr.1]
  · rw [maps_eight]
    tauto

/-- Eight bytes are stored. -/
theorem exact_stores {f : Pointer → BitVec 8} {a b : Pointer}
    (hcx : s.reg .ecx = word f a) (hdx : s.reg .edx = word f (a + BitVec.ofNat 32 4))
    (hb : b = s.reg .edi + BitVec.ofNat 32 k) :
    Exact (execs m [.store .ecx (BitVec.ofNat 32 k) .edi,
        .store .edx (BitVec.ofNat 32 (k + 4)) .edi] s)
      (Maps m b 8) (· = { s with mem := paste f s.mem b a 8 }) := by
  have hb4 : s.reg .edi + BitVec.ofNat 32 (k + 4) = b + BitVec.ofNat 32 4 := by
    rw [hb, add_ofNat_add]
  have e₁ := exact_store (m := m) (s := s) (d := BitVec.ofNat 32 k) (b := .edi)
    (r := .ecx)
  rw [← hb, hcx, putWord_word] at e₁
  have e₂ := exact_store (m := m) (s := { s with mem := paste f s.mem b a 4 })
    (d := BitVec.ofNat 32 (k + 4)) (b := .edi) (r := .edx)
  simp only [hb4, hdx, putWord_word] at e₂
  refine (exact_cons e₁ (exact_cons e₂ (exact_nil ?_))).congr ?_ fun _ => id
  · rw [paste_add (by decide)]
  · rw [maps_eight]
    tauto

/-- The eight bytes at offset `k` are copied. -/
theorem exact_quad :
    Exact (execs m (quad k) s)
      (Maps m (s.reg .esi + BitVec.ofNat 32 k) 8 ∧
        Maps m (s.reg .edi + BitVec.ofNat 32 k) 8)
      fun s' => s'.mem = blit s.mem (s.reg .edi + BitVec.ofNat 32 k)
        (s.reg .esi + BitVec.ofNat 32 k) 8 ∧ Keeps [.ecx, .edx] s s' ∧ s'.df = s.df := by
  have hsplit : execs m (quad k) s = _ := execs_append
    [.load (BitVec.ofNat 32 k) .esi .ecx, .load (BitVec.ofNat 32 (k + 4)) .esi .edx]
    [.store .ecx (BitVec.ofNat 32 k) .edi, .store .edx (BitVec.ofNat 32 (k + 4)) .edi] s
  rw [hsplit]
  refine (exact_loads rfl).bind fun s₁ ⟨hcx, hdx, hkeeps, hmem, hdf⟩ => ?_
  have hdi : s.reg .edi + BitVec.ofNat 32 k = s₁.reg .edi + BitVec.ofNat 32 k := by
    rw [hkeeps .edi (by decide)]
  refine (exact_stores hcx hdx hdi).congr Iff.rfl fun s' hs' => ?_
  rw [hs']
  exact ⟨by rw [hmem]; rfl, hkeeps, hdf⟩

/-- The first `8 * n` bytes are copied. -/
theorem exact_quads (hclear : Clear (s.reg .edi) (s.reg .esi) (8 * n)) (hlt : 8 * n ≤ 2 ^ 32) :
    Exact (execs m (quads n) s)
      (Maps m (s.reg .esi) (8 * n) ∧ Maps m (s.reg .edi) (8 * n))
      fun s' => s'.mem = blit s.mem (s.reg .edi) (s.reg .esi) (8 * n) ∧
        Keeps [.ecx, .edx] s s' ∧ s'.df = s.df := by
  induction n with
  | zero =>
    refine (exact_nil ⟨paste_zero.symm, fun _ _ => rfl, rfl⟩).congr
      ⟨fun _ => trivial, fun _ => ⟨?_, ?_⟩⟩ fun _ => id
    · exact fun i hi => absurd hi (Nat.not_lt_zero i)
    · exact fun i hi => absurd hi (Nat.not_lt_zero i)
  | succ n ih =>
    have hquads : quads (n + 1) = quads n ++ quad (8 * n) := by
      simp [quads, List.range_succ]
    rw [Nat.mul_succ] at hclear hlt ⊢
    rw [hquads, execs_append]
    refine ((ih (hclear.of_le (by omega)) (by omega)).bind
      (C := Maps m (s.reg .esi + BitVec.ofNat 32 (8 * n)) 8 ∧
        Maps m (s.reg .edi + BitVec.ofNat 32 (8 * n)) 8)
      fun s₁ ⟨hmem, hkeeps, hdf⟩ => ?_).congr ?_ fun _ => id
    · have hquad := exact_quad (m := m) (s := s₁) (k := 8 * n)
      rw [hkeeps .esi (by decide), hkeeps .edi (by decide), hmem, blit_add hclear hlt] at hquad
      exact hquad.congr Iff.rfl fun s' ⟨hmem', hkeeps', hdf'⟩ =>
        ⟨hmem', hkeeps.trans hkeeps', hdf'.trans hdf⟩
    · rw [maps_add, maps_add]
      tauto

/-- The word at the destination is read, and not used. -/
theorem exact_loadDest : Exact ((Op.load 0 .edi .edx).exec m s) (Maps m (s.reg .edi) 4)
    (· = s.set .edx (word s.mem (s.reg .edi))) := by
  have h0 : s.reg .edi + 0 = s.reg .edi := BitVec.add_zero _
  have h := exact_load (m := m) (s := s) (d := 0) (b := .edi) (r := .edx)
  rwa [h0] at h

theorem exact_pass (hclear : Clear (s.reg .edi) (s.reg .esi) 32) :
    Exact (execs m passOps s) (Maps m (s.reg .esi) 32 ∧ Maps m (s.reg .edi) 32)
      fun s' => Moves s 32 s' ∧ s'.reg .eax = s.reg .eax - 1 ∧ s'.reg .ebx = s.reg .ebx := by
  have e₁ := exact_loadDest (m := m) (s := s)
  obtain ⟨s₁, h₁⟩ : ∃ s₁, s₁ = s.set .edx (word s.mem (s.reg .edi)) := ⟨_, rfl⟩
  rw [← h₁] at e₁
  have hreg : ∀ r, r ≠ .edx → s₁.reg r = s.reg r := fun r hr => by rw [h₁, s.reg_set_of_ne hr]
  have hquads := exact_quads (m := m) (s := s₁) (n := 4)
    (by rw [hreg _ (by decide), hreg _ (by decide)]; exact hclear) (by decide)
  rw [hreg .esi (by decide), hreg .edi (by decide)] at hquads
  refine (exact_cons e₁ (C := Maps m (s.reg .esi) 32 ∧ Maps m (s.reg .edi) 32)
    ?_).congr ?_ fun _ => id
  · have hsplit := execs_append (m := m) (quads 4)
      [.addl 32 .esi, .addl 32 .edi, .dec .eax] s₁
    change Exact (execs m (quads 4 ++ _) s₁) _ _
    rw [hsplit]
    refine (hquads.bind (C := True) fun s₂ ⟨hmem, hkeeps, hdf⟩ => ?_).congr
      (and_iff_left trivial).symm fun _ => id
    have hreg₂ : ∀ r, r ∉ [Reg.ecx, .edx] → s₂.reg r = s.reg r := fun r hr => by
      rw [hkeeps r hr, hreg r fun h => hr (by rw [h]; decide)]
    refine Exact.pure ⟨⟨?_, ?_, ?_, ?_⟩, ?_, ?_⟩
    · change s₂.mem = _
      rw [hmem, h₁]
      rfl
    · change s₂.reg .esi + 32 = _
      rw [hreg₂ _ (by decide)]
      rfl
    · change s₂.reg .edi + 32 = _
      rw [hreg₂ _ (by decide)]
      rfl
    · change s₂.df = _
      rw [hdf, h₁]
      rfl
    · change s₂.reg .eax - 1 = _
      rw [hreg₂ _ (by decide)]
    · exact hreg₂ .ebx (by decide)
  · have h4 := maps_add (m := m) (a := s.reg .edi) (j := 4) (k := 28)
    have : Maps m (s.reg .edi) (4 + 28) ↔ Maps m (s.reg .edi) 32 := Iff.rfl
    tauto

/-- Behind the passes of `memcpy_get`. -/
def tailOps : List Op := [.movl .ebx .ecx, .load 0 .edi .edx, .andl 31 .ecx, .repMovs 1]

theorem exact_tail (hdf : s.df = false) (hr : r = (s.reg .ebx).toNat % 32)
    (hclear : Clear (s.reg .edi) (s.reg .esi) r) :
    Exact (execs m tailOps s)
      (Maps m (s.reg .edi) 4 ∧ Maps m (s.reg .esi) r ∧ Maps m (s.reg .edi) r)
      (Moves s r) := by
  obtain ⟨s₁, h₁⟩ : ∃ s₁, s₁ = s.set .ecx (s.reg .ebx) := ⟨_, rfl⟩
  have hm₁ : Moves s 0 s₁ := by
    rw [h₁]
    exact moves_set (by decide) (by decide) _
  have e₂ := exact_loadDest (m := m) (s := s₁)
  rw [hm₁.edi, add_ofNat_zero] at e₂
  obtain ⟨s₂, h₂⟩ : ∃ s₂, s₂ = s₁.set .edx (word s₁.mem (s.reg .edi)) := ⟨_, rfl⟩
  rw [← h₂] at e₂
  have hm₂ : Moves s 0 s₂ := by
    rw [h₂]
    exact hm₁.trans (moves_set (by decide) (by decide) _) (Or.inr (Nat.zero_le _)) (by decide)
  have hcx : s₂.reg .ecx = s.reg .ebx := by
    rw [h₂, s₁.reg_set_of_ne (by decide), h₁, s.reg_set_self]
  have hrest := exact_rest (m := m) (s := s₂) (e := 5) (r := r) (by decide)
    (hm₂.df.trans hdf) (by rw [hcx, hr]; rfl)
    (by rwa [hm₂.edi, hm₂.esi, add_ofNat_zero, add_ofNat_zero])
  rw [hm₂.edi, hm₂.esi, add_ofNat_zero, add_ofNat_zero] at hrest
  have e₁ : Exact ((Op.movl .ebx .ecx).exec m s) True (· = s₁) := Exact.pure h₁.symm
  refine (exact_cons e₁ (exact_cons e₂ hrest)).congr (and_iff_right trivial).symm fun s' hs' => ?_
  have hlt : r ≤ 2 ^ 32 := by
    have := (s.reg .ebx).isLt
    omega
  have := hm₂.trans hs' (by rwa [Nat.zero_add]) (by rwa [Nat.zero_add])
  rwa [Nat.zero_add] at this

theorem maps_max {a : Pointer} :
    Maps m a (max k n) ↔ Maps m a k ∧ Maps m a n := by
  refine ⟨fun h => ⟨fun i hi => h i (lt_max_of_lt_left hi), fun i hi =>
    h i (lt_max_of_lt_right hi)⟩, fun ⟨h₁, h₂⟩ i hi => ?_⟩
  exact (lt_max_iff.mp hi).elim (h₁ i) (h₂ i)

/-- The test in front of a pass. -/
theorem ends_test {P : Prop} {Q : State → Prop}
    (h : ∀ s', s'.reg = s.reg → s'.mem = s.mem → s'.df = s.df →
      Ends (fun n => run m memcpyGetCode n (if s.reg .eax = 0 then 25 else 4) s') P Q) :
    Ends (fun n => run m memcpyGetCode n 1 s) P Q := by
  refine ends_line ?_ (q := 2) rfl
  refine (ends_ops (l := [.cmpl 0 .eax]) (P := True)
    (Q := (· = { s with zf := s.reg .eax == 0 })) rfl (Exact.pure rfl)
    fun s₁ h₁ => ?_).congr (and_iff_right trivial).symm fun _ => id
  subst h₁
  refine ends_line (h _ rfl rfl rfl) ?_
  by_cases h0 : s.reg .eax = 0
  · simp only [h0, if_true]
    rfl
  · rw [if_neg h0, beq_false_of_ne h0]
    rfl

/-- `memcpy_get` from its first label on, with `k` passes to go. -/
theorem ends_passes (hk : (s.reg .eax).toNat = k) (hr : r = (s.reg .ebx).toNat % 32)
    (hdf : s.df = false) (hclear : Clear (s.reg .edi) (s.reg .esi) (32 * k + r))
    (hlt : 32 * k + r ≤ 2 ^ 32) :
    Ends (fun n => run m memcpyGetCode n 1 s)
      (Maps m (s.reg .esi) (32 * k + r) ∧ Maps m (s.reg .edi) (max (32 * k + r) (32 * k + 4)))
      fun s' => s'.mem = blit s.mem (s.reg .edi) (s.reg .esi) (32 * k + r) := by
  induction k generalizing s with
  | zero =>
    rw [Nat.mul_zero, Nat.zero_add] at hclear
    refine ends_test fun s₁ hreg hmem hdf₁ => ?_
    rw [if_pos (BitVec.eq_of_toNat_eq hk), Nat.mul_zero, Nat.zero_add, Nat.zero_add, maps_max,
      ← hmem, ← hreg]
    rw [← hreg] at hr hclear
    refine ends_line ?_ (q := 26) rfl
    refine (ends_ops (l := tailOps) (t := []) rfl (exact_tail (hdf₁.trans hdf) hr hclear)
      fun s' hs' => ends_exit (a := memcpyGetCode) (p := 30)
        (Q := fun s' => s'.mem = blit s₁.mem (s₁.reg .edi) (s₁.reg .esi) r)
        rfl hs'.mem).congr ?_ fun _ => id
    tauto
  | succ k ih =>
    have h0 : s.reg .eax ≠ 0 := fun h => by
      rw [h] at hk
      cases hk
    have hsum : 32 * (k + 1) + r = 32 + (32 * k + r) := by omega
    have hmax : max (32 * (k + 1) + r) (32 * (k + 1) + 4)
        = 32 + max (32 * k + r) (32 * k + 4) := by omega
    rw [hsum] at hclear hlt
    refine ends_test fun s₁ hreg hmem hdf₁ => ?_
    rw [if_neg h0, hmax, hsum, maps_add, maps_add (j := 32) (k := max _ _), ← hmem, ← hreg]
    rw [← hreg] at hk hr hclear
    refine (ends_ops (a := memcpyGetCode) (p := 4) (l := passOps) rfl
      (exact_pass (hclear.of_le (Nat.le_add_right _ _)))
      (C := Maps m (s₁.reg .esi + BitVec.ofNat 32 32) (32 * k + r) ∧
        Maps m (s₁.reg .edi + BitVec.ofNat 32 32) (max (32 * k + r) (32 * k + 4)))
      fun s₂ ⟨hmoves, hax, hbx⟩ => ?_).congr ?_ fun _ => id
    · refine ends_line ?_ (q := 1) rfl
      have hk₂ : (s₂.reg .eax).toNat = k := by
        rw [hax]
        rw [BitVec.toNat_sub_of_le (by rw [BitVec.le_def, hk]; exact Nat.le_add_left 1 k), hk]
        rfl
      have h := ih hk₂ (by rw [hbx]; exact hr) (hmoves.df.trans (hdf₁.trans hdf))
        (by rw [hmoves.edi, hmoves.esi]; exact (hclear.of_le (Nat.le_add_left _ _)).add _)
        (by omega)
      rw [hmoves.edi, hmoves.esi, hmoves.mem] at h
      refine h.congr Iff.rfl fun s' hs' => ?_
      rw [hs']
      exact blit_add hclear hlt
    · tauto

/-- **`memcpy_get` copies.** Unless the destination begins inside the source, it returns
exactly if both ranges can be accessed, and with them the four bytes behind the last whole
pass, even where the destination ends before them; it changes nothing but the
destination. -/
theorem memcpyGet_spec (m : Pointer → Bool) (s : State) (hclear : Clear dest src count.toNat) :
    ((∃ out, Returns (fun fuel => memcpyGet m fuel dest src count s) out) ↔
      Maps m src count.toNat ∧
        Maps m dest (max count.toNat (32 * (count.toNat / 32) + 4))) ∧
    ∀ out, Returns (fun fuel => memcpyGet m fuel dest src count s) out →
      out = (dest, blit s.mem dest src count.toNat) := by
  obtain ⟨s₀, h₀⟩ : ∃ s₀, s₀ = (((s.set .eax (count / 32)).set .edi dest).set .esi src).set
    .ebx count := ⟨_, rfl⟩
  have hdi : s₀.reg .edi = dest := by rw [h₀]; rfl
  have hsi : s₀.reg .esi = src := by rw [h₀]; rfl
  have hbx : s₀.reg .ebx = count := by rw [h₀]; rfl
  have hax : (s₀.reg .eax).toNat = count.toNat / 32 := by
    rw [h₀]
    exact BitVec.toNat_udiv
  have hsum : 32 * (count.toNat / 32) + count.toNat % 32 = count.toNat := Nat.div_add_mod _ 32
  have hends : Ends (fun fuel => run m memcpyGetCode fuel 0 s₀)
      (Maps m src count.toNat ∧ Maps m dest (max count.toNat (32 * (count.toNat / 32) + 4)))
      fun s' => s'.mem = blit s.mem dest src count.toNat := by
    refine (ends_ops (a := memcpyGetCode) (p := 0) (l := [.cld])
      (Q := (· = { s₀ with df := false })) rfl (exact_cons (Exact.pure rfl) (exact_nil rfl))
      fun s₁ h₁ => ?_).congr (and_iff_right ⟨trivial, trivial⟩).symm fun _ => id
    have hpasses := ends_passes (m := m) (s := s₁) (k := count.toNat / 32)
      (r := count.toNat % 32) (by rw [h₁]; exact hax) (by rw [h₁, ← hbx]) (by rw [h₁])
      (by rw [hsum, h₁]; exact (hdi.symm ▸ hsi.symm ▸ hclear))
      (by rw [hsum]; exact count.isLt.le)
    rw [hsum, h₁] at hpasses
    change Ends _ (Maps m (s₀.reg .esi) _ ∧ Maps m (s₀.reg .edi) _)
      (fun s' : State => s'.mem = blit s₀.mem (s₀.reg .edi) (s₀.reg .esi) _) at hpasses
    rw [hdi, hsi] at hpasses
    rw [h₁]
    exact hpasses.congr Iff.rfl fun s' hs' => by rw [hs', h₀]; rfl
  have hmap := hends.map (h := fun s' : State => (dest, s'.mem))
    (R := (· = (dest, blit s.mem dest src count.toNat))) fun s' hs' => by rw [hs']
  rw [h₀] at hmap
  exact hmap.returns ((loop_fuelStable _ _).bind fun _ => .const _)

/-- Thirty-five bytes, a pass and three more. Where nothing behind the destination can be
accessed, the word read behind the pass faults; with one more byte the copy is made. -/
theorem memcpyGet_spec_demo :
    (¬ ∃ out, Returns (fun fuel =>
      memcpyGet (fun x => x.toNat < 135) fuel 100 0 35 demoState) out) ∧
    ∃ out, Returns (fun fuel =>
        memcpyGet (fun x => x.toNat < 136) fuel 100 0 35 demoState) out ∧
      out.1 = 100 ∧ out.2 100 = 0 ∧ out.2 134 = 34 ∧ out.2 135 = 135 := by
  have hclear : Clear (100 : Pointer) 0 (35 : Pointer).toNat := Or.inr (by decide)
  have hspec := fun m => memcpyGet_spec m demoState hclear
  refine ⟨fun hret => ?_, ?_⟩
  · exact absurd (((hspec _).1.mp hret).2 35 (by decide)) (by decide)
  · obtain ⟨out, hret⟩ := (hspec fun x => x.toNat < 136).1.mpr ⟨by decide, by decide⟩
    refine ⟨out, hret, ?_⟩
    rw [(hspec _).2 out hret]
    decide

end Proofs

end SccShm
