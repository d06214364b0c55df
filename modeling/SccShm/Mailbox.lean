import SccShm.SharedWindow
import SccShm.Requests
import SccShm.MpbCalls
import Mathlib.Data.Nat.Digits.Defs

/-!
# Mailboxes

What the program in `mailbox.c` puts together: every core runs `SccInit`, allocates a mailbox
in the shared heap, and hands its address over through the buffer of a node, as the four
bytes of the offset that `get_ptr` gives; whoever reads them makes an address of them again
with `get_addr`.

* `mail_delivered` — the addresses read are those handed in, in order, and the others are in
  the buffer; bytes in the pages that `SccInit` shares are the same on every core.
* `message_read` — what a core leaves in a block that it hands over is what the other one finds.
* `mailboxes_same` — but as every core sets up the heap anew, all of them create their
  mailbox in the same place.
-/

namespace SccShm

/-! ## A word as bytes -/

/-- The `n` low bytes of `v`, the lowest first. -/
def bytes : ℕ → ℕ → List Byte
  | 0, _ => []
  | n + 1, v => ⟨v % 256, Nat.mod_lt v (by decide)⟩ :: bytes n (v / 256)

/-- The number that has these bytes. -/
def value (l : List Byte) : ℕ := Nat.ofDigits 256 (l.map Fin.val)

@[simp] theorem length_bytes (n v : ℕ) : (bytes n v).length = n := by
  induction n generalizing v with
  | zero => rfl
  | succ n ih => rw [bytes, List.length_cons, ih]

theorem value_bytes (n v : ℕ) : value (bytes n v) = v % 256 ^ n := by
  induction n generalizing v with
  | zero => rw [Nat.pow_zero, Nat.mod_one]; rfl
  | succ n ih =>
    have hcons : value (bytes (n + 1) v) = v % 256 + 256 * value (bytes n (v / 256)) := by
      rw [value, bytes, List.map_cons, Nat.ofDigits_cons]
      rfl
    rw [hcons, ih, Nat.pow_succ', Nat.mod_mul]

/-! ## Handing over addresses -/

/-- The chip, the buffer of a node, and what is handed over through it. -/
structure Mail : Type where
  chip : Chip
  mpb : Mpb
  /-- the addresses handed in -/
  posted : List ℤ
  /-- the addresses that were read -/
  fetched : List ℤ

/-- A value that a pointer can have. -/
def IsPtr (x : ℤ) : Prop := 0 ≤ x ∧ x < wordSize

/-- What a core does. -/
inductive MailOp : Type where
  /-- run `SccInit`, or use the heap -/
  | chip (op : SharedOp ℕ)
  /-- `addr = get_ptr(x); cpy_mem_to_mpb(node, &addr, sizeof(uintptr_t))` -/
  | post (c : ℕ) (x : ℤ)
  /-- `cpy_mpb_to_mem(node, &addr, sizeof(uintptr_t)); get_addr(addr)` -/
  | fetch (c : ℕ)

/-- The bytes of the offset of `x`. -/
def offset (x : ℤ) : List Byte := bytes 4 (getPtr x).toNat

/-- One call of one core. `SccInit` on `node` empties its buffer. -/
inductive MailStep (node : ℕ) : Mail → MailOp → Mail → Prop where
  | init {s : Mail} {v : Chip} (c : ℕ) : ChipStep s.chip (.init c) v →
      MailStep node s (.chip (.init c))
        { s with chip := v, mpb := if c = node then Mpb.init s.mpb.buf else s.mpb }
  | act {s : Mail} {v : Chip} (c : ℕ) (op : HeapOp) : ChipStep s.chip (.act c op) v →
      MailStep node s (.chip (.act c op)) { s with chip := v }
  | post {s : Mail} {m' : Mpb} (c : ℕ) (x : ℤ) : s.chip.shared.started c = true → IsPtr x →
      Returns (fun fuel => cpyMemToMpb fuel (offset x) s.mpb) m' →
      MailStep node s (.post c x) { s with mpb := m', posted := s.posted ++ [x] }
  | fetch {s : Mail} {dst : List Byte} {m' : Mpb} (c : ℕ) : s.chip.shared.started c = true →
      Returns (fun fuel => cpyMpbToMem fuel 4 s.mpb) (dst, m') →
      MailStep node s (.fetch c) { s with mpb := m', fetched := s.fetched ++ [getAddr (value dst)] }

/-- Nothing has happened yet; memory, tables and buffer are arbitrary. -/
def Mail.initial (cell : ℕ → Block) (l₀ : Luts) (m : Mpb) : Mail :=
  ⟨⟨Shared.initial ℕ cell, l₀⟩, m, [], []⟩

/-- The buffer is used once `node` has run `SccInit`, and read only when an address is stored. -/
def MailOk (node : ℕ) (s : Mail) : MailOp → Prop
  | .chip _ => True
  | .post _ _ => s.chip.shared.started node = true
  | .fetch _ => s.chip.shared.started node = true ∧ 4 ≤ s.mpb.stored

section Offsets

variable {x : ℤ}

@[simp] theorem length_offset (x : ℤ) : (offset x).length = 4 := length_bytes 4 _

/-- `get_addr` undoes `get_ptr`, also by way of the bytes. -/
theorem getAddr_offset (hx : IsPtr x) : getAddr (value (offset x)) = x := by
  obtain ⟨hlo, hhi⟩ := hx
  have hw : (wordSize : ℤ) = 4294967296 := rfl
  rw [offset, value_bytes]
  simp only [getAddr, getPtr, nkAddr, hw] at *
  omega

end Offsets

/-- The bytes of the addresses handed in and not yet read are stored. -/
def Underway (s : Mail) : Prop :=
  ∃ rest, s.posted = s.fetched ++ rest ∧ (∀ x ∈ s.posted, IsPtr x) ∧
    s.mpb.Holds (rest.flatMap offset)

/-- The invariant. -/
structure MailHolds (node : ℕ) (l₀ : Luts) (s : Mail) : Prop where
  copied : Copied l₀ s.chip
  none : s.chip.shared.started node = false → s.posted = [] ∧ s.fetched = []
  underway : s.chip.shared.started node = true → Underway s

section Runs

variable {node : ℕ} {l₀ : Luts} {s s' : Mail} {op : MailOp} {x : ℤ} {rest : List ℤ}

theorem length_flatMap_offset (rest : List ℤ) :
    (rest.flatMap offset).length = 4 * rest.length := by
  induction rest with
  | nil => rfl
  | cons x rest ih =>
    rw [List.flatMap_cons, List.length_append, length_offset, ih, List.length_cons]
    omega

/-- `SccInit` is run once, and then the core has started. -/
theorem ChipStep.started_init {v w : Chip} {c : ℕ} (hs : ChipStep v (.init c) w) :
    v.shared.started c = false ∧ w.shared.started = Function.update v.shared.started c true := by
  cases hs with
  | init _ hstep =>
    cases hstep with
    | init _ hnot => exact ⟨hnot, rfl⟩

/-- Using the heap starts nobody. -/
theorem ChipStep.started_act {v w : Chip} {c : ℕ} {op : HeapOp} (hs : ChipStep v (.act c op) w) :
    w.shared.started = v.shared.started := by
  cases hs with
  | act _ _ hstep =>
    cases hstep with
    | act _ _ _ => rfl

/-- Handing in an address appends its bytes. -/
theorem Underway.post (hI : Underway s) (hx : IsPtr x) {m' : Mpb}
    (hret : Returns (fun fuel => cpyMemToMpb fuel (offset x) s.mpb) m') :
    Underway { s with mpb := m', posted := s.posted ++ [x] } := by
  obtain ⟨rest, hposted, hin, hq⟩ := hI
  refine ⟨rest ++ [x], ?_, fun y hy => ?_, ?_⟩
  · rw [hposted, List.append_assoc]
  · rcases List.mem_append.mp hy with hy | hy
    · exact hin y hy
    · rw [List.mem_singleton.mp hy]
      exact hx
  · rw [List.flatMap_append, List.flatMap_singleton]
    exact cpyMemToMpb_holds hq hret

/-- Reading four bytes takes the first address. -/
theorem Underway.fetch (hI : Underway s) (hstored : 4 ≤ s.mpb.stored) {dst : List Byte} {m' : Mpb}
    (hret : Returns (fun fuel => cpyMpbToMem fuel 4 s.mpb) (dst, m')) :
    Underway { s with mpb := m', fetched := s.fetched ++ [getAddr (value dst)] } := by
  obtain ⟨rest, hposted, hin, hq⟩ := hI
  rw [← hq.length_eq, length_flatMap_offset] at hstored
  obtain ⟨x, rest, rfl⟩ : ∃ x rest', rest = x :: rest' :=
    List.exists_cons_of_length_pos (by omega)
  obtain ⟨m₁, hret₁, hm₁⟩ := cpyMpbToMem_spec hq (show 4 ≤ _ by
    rw [length_flatMap_offset]
    omega)
  obtain ⟨rfl, rfl⟩ := Prod.mk.inj (hret.unique (loop_fuel_mono _ _) hret₁)
  have htake : ((x :: rest).flatMap offset).take 4 = offset x := by
    rw [List.flatMap_cons, List.take_left' (length_offset x)]
  have hdrop : ((x :: rest).flatMap offset).drop 4 = rest.flatMap offset := by
    rw [List.flatMap_cons, List.drop_left' (length_offset x)]
  rw [hdrop] at hm₁
  have hx : IsPtr x := hin x (by simp [hposted])
  refine ⟨rest, ?_, hin, hm₁⟩
  change s.posted = s.fetched ++ [_] ++ rest
  rw [htake, getAddr_offset hx, hposted, List.append_assoc]
  rfl

theorem MailHolds.step (hI : MailHolds node l₀ s) (hok : MailOk node s op)
    (hs : MailStep node s op s') : MailHolds node l₀ s' := by
  cases hs with
  | init c hchip =>
    obtain ⟨hnot, hstarted⟩ := hchip.started_init
    refine ⟨hI.copied.step hchip, fun h => ?_, fun h => ?_⟩
    · refine hI.none ?_
      by_contra htrue
      simp only [hstarted] at h
      by_cases hc : node = c
      · rw [hc, Function.update_self] at h
        cases h
      · rw [Function.update_of_ne hc] at h
        exact htrue h
    · simp only [hstarted] at h
      by_cases hc : c = node
      · -- the buffer is emptied; nothing was handed in before
        obtain ⟨hposted, hfetched⟩ := hI.none (hc ▸ hnot)
        refine ⟨[], by simp [hposted, hfetched], by simp [hposted], ?_⟩
        simp only [if_pos hc]
        exact Mpb.holds_init _
      · rw [Function.update_of_ne (Ne.symm hc)] at h
        simp only [if_neg hc]
        exact hI.underway h
  | act c op hchip =>
    have hstarted := hchip.started_act
    refine ⟨hI.copied.step hchip, fun h => hI.none ?_, fun h => hI.underway ?_⟩
    · rwa [← hstarted]
    · rwa [← hstarted]
  | post c x _ hx hret =>
    exact ⟨hI.copied, fun h => absurd (hok.symm.trans h) (by simp),
      fun h => (hI.underway h).post hx hret⟩
  | fetch c _ hret =>
    exact ⟨hI.copied, fun h => absurd (hok.1.symm.trans h) (by simp),
      fun h => (hI.underway h).fetch hok.2 hret⟩

/-- The heap is used as in `shared_apart` as well. -/
def MessageOk (node : ℕ) (s : Mail) (op : MailOp) : Prop :=
  MailOk node s op ∧ ∀ o, op = .chip o → SharedOk nkAddr 30 s.chip.shared o

/-- The step neither frees the block `b` of core `d` nor stores into it. -/
def MailSpares (d : ℕ) (b : Held) (s : Mail) (op : MailOp) : Prop :=
  ∀ o, op = .chip o → Spares d b s.chip.shared o

/-- A step is one of the shared heap, or leaves the chip as it is. -/
theorem MailStep.shared (hs : MailStep node s op s') :
    (∃ o, op = .chip o ∧ SharedStep nkAddr 30 s.chip.shared o s'.chip.shared) ∨
      s'.chip = s.chip := by
  cases hs with
  | init c hchip =>
    cases hchip with
    | init _ hstep => exact Or.inl ⟨_, rfl, hstep⟩
  | act c op hchip =>
    cases hchip with
    | act _ _ hstep => exact Or.inl ⟨_, rfl, hstep⟩
  | post | fetch => exact Or.inr rfl

/-- What was handed in is not forgotten. -/
theorem MailStep.posted (hs : MailStep node s op s') : s.posted <+: s'.posted := by
  cases hs with
  | post => exact List.prefix_append ..
  | init | act | fetch => exact List.prefix_refl _

/-- A block in use since `s₀`, with its contents from then. -/
structure MessageHolds (d : ℕ) (b : Held) (s₀ s : Mail) : Prop where
  inv : SharedInv nkAddr 30 s.chip.shared
  live : b ∈ s.chip.shared.live d
  cells : ∀ u, b.block ≤ u → u < b.block + b.units →
    s.chip.shared.mem.cell u = s₀.chip.shared.mem.cell u
  posted : s₀.posted <+: s.posted

theorem MessageHolds.step {d : ℕ} {b : Held} {s₀ : Mail} (hI : MessageHolds d b s₀ s)
    (hok : MessageOk node s op) (hspares : MailSpares d b s op) (hs : MailStep node s op s') :
    MessageHolds d b s₀ s' := by
  have hposted := hI.posted.trans hs.posted
  rcases hs.shared with ⟨o, rfl, hstep⟩ | hchip
  · have hok := hok.2 o rfl
    have hspares := hspares o rfl
    refine ⟨hI.inv.step (by decide) (by decide) hok hstep, mem_live_step hI.live hspares hstep,
      fun u hle hlt => ?_, hposted⟩
    rw [hI.inv.untouched hI.live hok hspares hstep hle hlt, hI.cells u hle hlt]
  · refine ⟨?_, ?_, ?_, hposted⟩
    · rw [hchip]
      exact hI.inv
    · rw [hchip]
      exact hI.live
    · rw [hchip]
      exact hI.cells

end Runs

/-! ## `main` -/

/-- `sizeof(mailbox_t)`: an `int` and a pointer. -/
def mailboxSize : ℕ := 8

/-- The length that `main` asks for, of the string in a mailbox. -/
def textSize : ℕ := 10

/-- How far a core is in `main`. -/
inductive Progress : Type where
  /-- before `SccInit` -/
  | boot
  /-- `SccInit` has returned -/
  | ready
  /-- `LpelMailboxCreate` has returned `mbox` -/
  | created (mbox : ℕ)
  /-- `mbox->testString` is set -/
  | filled (mbox text : ℕ)
  /-- it could not be: `SCCMallocPtr` read through `NULL` -/
  | crashed (mbox : ℕ)

/-- The cores that run `main`, and the pages that their windows show. -/
structure Program (κ : Type) : Type where
  mem : Mem
  freeList : κ → ℕ
  progress : κ → Progress

/-- What a core does next. -/
inductive MainOp (κ : Type) : Type where
  /-- `SccInit` -/
  | init (c : κ)
  /-- `LpelMailboxCreate` -/
  | create (c : κ)
  /-- `mbox->testString = SCCMallocPtr(10*sizeof(char))` -/
  | fill (c : κ)
  /-- a store through a pointer to a mailbox or its string -/
  | store (u : ℕ) (v : Block)

namespace Program

variable {κ : Type}

/-- The mailbox that core `c` has created. -/
def Mailbox (s : Program κ) (c : κ) (p : ℕ) : Prop :=
  s.progress c = .created p ∨ (∃ q, s.progress c = .filled p q) ∨ s.progress c = .crashed p

/-- The string in it. -/
def Text (s : Program κ) (c : κ) (q : ℕ) : Prop := ∃ p, s.progress c = .filled p q

/-- The heap as core `c` sees it. -/
def heap (s : Program κ) (c : κ) : Heap := ⟨s.mem, s.freeList c⟩

/-- Before the first step, over any contents of memory. -/
def initial (κ : Type) (cell : ℕ → Block) : Program κ := ⟨⟨cell, []⟩, fun _ => 0, fun _ => .boot⟩

variable [DecidableEq κ]

/-- Core `c` leaves the heap it sees as `h` and goes on to `p`. -/
def go (s : Program κ) (c : κ) (h : Heap) (p : Progress) : Program κ where
  mem := h.mem
  freeList := Function.update s.freeList c h.freeList
  progress := Function.update s.progress c p

end Program

/-- One step of one core. Stores go through pointers that the program has made: an address that
`cpy_mpb_to_mem` delivers before any was sent may be anything, and stores through it are not
among the steps. -/
inductive MainStep {κ : Type} [DecidableEq κ] : Program κ → MainOp κ → Program κ → Prop where
  | init {s : Program κ} (c : κ) : s.progress c = .boot →
      MainStep s (.init c) (s.go c (sccInitHeap nkAddr 30 s.mem) .ready)
  | create {s : Program κ} {p : ℕ} {h : Heap} (c : κ) : s.progress c = .ready →
      Returns (fun fuel => sccMallocPtr fuel mailboxSize (s.heap c)) (p, h) →
      MainStep s (.create c) (s.go c h (.created p))
  | fill {s : Program κ} {p q : ℕ} {h : Heap} (c : κ) : s.progress c = .created p →
      Returns (fun fuel => sccMallocPtr fuel textSize (s.heap c)) (q, h) →
      MainStep s (.fill c) (s.go c h (.filled p q))
  | crash {s : Program κ} {p : ℕ} (c : κ) : s.progress c = .created p →
      (∀ fuel, sccMallocPtr fuel textSize (s.heap c) = .error .fault) →
      MainStep s (.fill c) (s.go c (s.heap c) (.crashed p))
  | store {s : Program κ} (u : ℕ) (v : Block) :
      (∃ c, s.Mailbox c u) ∨ (∃ c q, s.Text c q ∧ q ≤ u ∧ u < q + 2) →
      MainStep s (.store u v) { s with mem := s.mem.poke u v }

/-! ### A block that is alone on its list -/

section Alone

variable {m : Mem} {f k n size : ℕ}

/-- What is left when `n` units are taken from a block that is linked to itself. -/
def takeAlone (m : Mem) (f k n : ℕ) : Heap := if k = n then ⟨m, 0⟩ else splitBlock m n f f

theorem sccMallocPtr_alone (hf : f ≠ 0) (hcell : m.cell f = ⟨f, k⟩) (hfit : nunits size ≤ k) :
    Returns (fun fuel => sccMallocPtr fuel size ⟨m, f⟩) (f + 1, takeAlone m f k (nunits size)) := by
  have hload : m.load f = .ok ⟨f, k⟩ := by rw [Mem.load_of_ne hf, hcell]
  refine ⟨1, ?_⟩
  change sccMallocPtr 1 size ⟨m, f⟩ = _
  rw [sccMallocPtr, hload, Exec.ok_bind]
  refine loop_done (r := (f + 1, takeAlone m f k (nunits size))) ?_ 0
  rw [mallocBody, hload, Exec.ok_bind, if_pos hfit, if_pos rfl, takeAlone]
  split <;> rfl

/-- The part taken and the rest are both linked to themselves. -/
theorem splitBlock_alone (hn : 0 < n) (hcell : m.cell f = ⟨f, k⟩) :
    (splitBlock m n f f).freeList = f + n ∧ (splitBlock m n f f).mem.cell f = ⟨f, n⟩ ∧
      (splitBlock m n f f).mem.cell (f + n) = ⟨f + n, k - n⟩ ∧
      ∀ u, u ≠ f → u ≠ f + n → (splitBlock m n f f).mem.cell u = m.cell u := by
  have hne : f + n ≠ f := by omega
  refine ⟨if_pos rfl, ?_, ?_, fun u hu hu' => ?_⟩
  · simp [splitBlock, Mem.setNext, Mem.setSize, Mem.store, hcell, hn.ne']
  · simp [splitBlock, Mem.setNext, Mem.setSize, Mem.store, hcell, hn.ne']
  · simp [splitBlock, Mem.setNext, Mem.setSize, Mem.store, hu, hu']

end Alone

/-! ### All mailboxes are in one place -/

/-- The first unit of the heap. -/
def bottom : ℕ := heapBase nkAddr

/-- Where a core's `freeList` is, and what it has got. -/
def CoreOk (f : ℕ) : Progress → Prop
  | .boot => f = 0
  | .ready => f = bottom
  | .created p => p = bottom + 1 ∧ (f = bottom + 2 ∨ f = 0)
  | .filled p q => p = bottom + 1 ∧ q = bottom + 3 ∧ (f = bottom + 5 ∨ f = 0)
  | .crashed p => p = bottom + 1 ∧ f = 0

/-- The invariant: the header at the bottom is as `SCCInit` left it or as the first mailbox
did, and the one behind the mailbox is as that left it or as the first string did. -/
structure ProgramHolds {κ : Type} (s : Program κ) : Prop where
  first : (∃ c, s.progress c ≠ .boot) →
    ∃ k, s.mem.cell bottom = ⟨bottom, k⟩ ∧ (k = heapUnits 30 ∨ k = 2)
  second : (∃ c, s.freeList c = bottom + 2) →
    ∃ k, s.mem.cell (bottom + 2) = ⟨bottom + 2, k⟩ ∧ (k = heapUnits 30 - 2 ∨ k = 3)
  core : ∀ c, CoreOk (s.freeList c) (s.progress c)

section Main

variable {κ : Type} [DecidableEq κ] {s s' : Program κ} {c : κ} {op : MainOp κ} {h : Heap}
  {p q : ℕ}

/-- A step of core `c`. -/
theorem ProgramHolds.go {p : Progress} (hI : ProgramHolds s) (hcore : CoreOk h.freeList p)
    (hfirst : ∃ k, h.mem.cell bottom = ⟨bottom, k⟩ ∧ (k = heapUnits 30 ∨ k = 2))
    (hsecond : (h.freeList = bottom + 2 ∨ ∃ d, s.freeList d = bottom + 2) →
      ∃ k, h.mem.cell (bottom + 2) = ⟨bottom + 2, k⟩ ∧ (k = heapUnits 30 - 2 ∨ k = 3)) :
    ProgramHolds (s.go c h p) := by
  refine ⟨fun _ => hfirst, fun ⟨d, hd⟩ => hsecond ?_, fun d => ?_⟩
  · change Function.update s.freeList c h.freeList d = _ at hd
    by_cases hdc : d = c
    · rw [hdc, Function.update_self] at hd
      exact Or.inl hd
    · rw [Function.update_of_ne hdc] at hd
      exact Or.inr ⟨d, hd⟩
  · change CoreOk (Function.update s.freeList c h.freeList d) (Function.update s.progress c p d)
    by_cases hdc : d = c
    · rw [hdc, Function.update_self, Function.update_self]
      exact hcore
    · rw [Function.update_of_ne hdc, Function.update_of_ne hdc]
      exact hI.core d

omit [DecidableEq κ] in
theorem ProgramHolds.mailbox (hI : ProgramHolds s) (hp : s.Mailbox c p) : p = bottom + 1 := by
  have hcore := hI.core c
  rcases hp with hp | ⟨q, hp⟩ | hp <;> rw [hp] at hcore <;> exact hcore.1

omit [DecidableEq κ] in
theorem ProgramHolds.text (hI : ProgramHolds s) (hq : s.Text c q) : q = bottom + 3 := by
  obtain ⟨p, hp⟩ := hq
  have hcore := hI.core c
  rw [hp] at hcore
  exact hcore.2.1

omit [DecidableEq κ] in
/-- `LpelMailboxCreate` returns; it takes the block at the bottom, whoever has it. -/
theorem ProgramHolds.create (hI : ProgramHolds s) (hc : s.progress c = .ready) :
    ∃ k, s.mem.cell bottom = ⟨bottom, k⟩ ∧ (k = heapUnits 30 ∨ k = 2) ∧
      Returns (fun fuel => sccMallocPtr fuel mailboxSize (s.heap c))
        (bottom + 1, takeAlone s.mem bottom k 2) := by
  have hf := hI.core c
  rw [hc] at hf
  obtain ⟨k, hcell, hk⟩ := hI.first ⟨c, by rw [hc]; simp⟩
  refine ⟨k, hcell, hk, ?_⟩
  have hret := sccMallocPtr_alone (heapBase_pos nkAddr).ne' hcell (show nunits mailboxSize ≤ k by
    have hunits : heapUnits 30 = 62914560 := rfl
    have hn : nunits mailboxSize = 2 := rfl
    omega)
  rwa [Program.heap, show s.freeList c = bottom from hf]

omit [DecidableEq κ] in
/-- The allocation of the string returns if `freeList` is not `NULL`. -/
theorem ProgramHolds.fill (hI : ProgramHolds s) (hc : s.progress c = .created p)
    (hne : s.freeList c ≠ 0) :
    s.freeList c = bottom + 2 ∧
    ∃ k, s.mem.cell (bottom + 2) = ⟨bottom + 2, k⟩ ∧ (k = heapUnits 30 - 2 ∨ k = 3) ∧
      Returns (fun fuel => sccMallocPtr fuel textSize (s.heap c))
        (bottom + 3, takeAlone s.mem (bottom + 2) k 3) := by
  have hcore := hI.core c
  rw [hc] at hcore
  have hf : s.freeList c = bottom + 2 := hcore.2.resolve_right hne
  obtain ⟨k, hcell, hk⟩ := hI.second ⟨c, hf⟩
  refine ⟨hf, k, hcell, hk, ?_⟩
  have hret := sccMallocPtr_alone (Nat.succ_ne_zero _) hcell (show nunits textSize ≤ k by
    have hunits : heapUnits 30 = 62914560 := rfl
    have hn : nunits textSize = 3 := rfl
    omega)
  rwa [Program.heap, hf]

/-- `SccInit` writes the header at the bottom. -/
theorem ProgramHolds.init (hI : ProgramHolds s) :
    ProgramHolds (s.go c (sccInitHeap nkAddr 30 s.mem) .ready) := by
  have hbottom : (sccInitHeap nkAddr 30 s.mem).mem.cell bottom = ⟨bottom, heapUnits 30⟩ := by
    simp [sccInitHeap, Mem.setNext, Mem.setSize, bottom]
  have hkeep : (sccInitHeap nkAddr 30 s.mem).mem.cell (bottom + 2) = s.mem.cell (bottom + 2) := by
    rw [sccInitHeap, Mem.cell_setSize_of_ne (by rw [bottom]; omega),
      Mem.cell_setNext_of_ne (by rw [bottom]; omega)]
  refine hI.go rfl ⟨_, hbottom, Or.inl rfl⟩ fun hsecond => ?_
  rw [hkeep]
  exact hI.second (hsecond.resolve_left fun heq => by
    change bottom = bottom + 2 at heq
    omega)

omit [DecidableEq κ] in
/-- A store to a mailbox or a string is beside the headers. -/
theorem ProgramHolds.store {u : ℕ} {v : Block} (hI : ProgramHolds s)
    (hu : (∃ c, s.Mailbox c u) ∨ ∃ c q, s.Text c q ∧ q ≤ u ∧ u < q + 2) :
    ProgramHolds { s with mem := s.mem.poke u v } := by
  have hne : u ≠ bottom ∧ u ≠ bottom + 2 := by
    rcases hu with ⟨c, hc⟩ | ⟨c, q, hq, hle, hlt⟩
    · have := hI.mailbox hc
      omega
    · have := hI.text hq
      omega
  have hfirst : (s.mem.poke u v).cell bottom = s.mem.cell bottom :=
    Mem.cell_poke_of_ne hne.1.symm
  have hsecond : (s.mem.poke u v).cell (bottom + 2) = s.mem.cell (bottom + 2) :=
    Mem.cell_poke_of_ne hne.2.symm
  refine ⟨fun h => ?_, fun h => ?_, hI.core⟩
  · rw [hfirst]
    exact hI.first h
  · rw [hsecond]
    exact hI.second h

theorem ProgramHolds.step (hI : ProgramHolds s) (hs : MainStep s op s') : ProgramHolds s' := by
  cases hs with
  | init c hc => exact hI.init
  | @create p h c hc hret =>
    obtain ⟨k, hcell, hk, hret'⟩ := hI.create hc
    obtain ⟨rfl, rfl⟩ := Prod.mk.inj (hret.unique (sccMallocPtr_fuelMono _ _) hret')
    rw [takeAlone]
    split
    · exact hI.go ⟨rfl, Or.inr rfl⟩ ⟨k, hcell, hk⟩ fun hsecond =>
        hI.second (hsecond.resolve_left (Nat.succ_ne_zero (bottom + 1)).symm)
    · next hne =>
      obtain ⟨hf, hself, hrest, -⟩ := splitBlock_alone (n := 2) (by decide) hcell
      refine hI.go ⟨rfl, Or.inl hf⟩ ⟨2, hself, Or.inr rfl⟩ fun _ => ⟨k - 2, hrest, Or.inl ?_⟩
      rw [hk.resolve_right hne]
  | @fill p q h c hc hret =>
    have hne : s.freeList c ≠ 0 := by
      intro h0
      obtain ⟨fuel, hfuel⟩ := hret
      cases (malloc_null (h := s.heap c) h0 textSize fuel).symm.trans hfuel
    obtain ⟨-, k, hcell, hk, hret'⟩ := hI.fill hc hne
    obtain ⟨rfl, rfl⟩ := Prod.mk.inj (hret.unique (sccMallocPtr_fuelMono _ _) hret')
    have hp : p = bottom + 1 := hI.mailbox (Or.inl hc)
    have hfirst := hI.first ⟨c, by rw [hc]; simp⟩
    rw [takeAlone]
    split
    · exact hI.go ⟨hp, rfl, Or.inr rfl⟩ hfirst fun _ => ⟨k, hcell, hk⟩
    · obtain ⟨hf, hself, -, hkeep⟩ := splitBlock_alone (n := 3) (by decide) hcell
      refine hI.go ⟨hp, rfl, Or.inl hf⟩ ?_ fun _ => ⟨3, hself, Or.inr rfl⟩
      rw [hkeep bottom (by omega) (by omega)]
      exact hfirst
  | @crash p c hc hstuck =>
    have h0 : s.freeList c = 0 := by
      by_contra hne
      obtain ⟨-, k, -, -, fuel, hfuel⟩ := hI.fill hc hne
      cases (hstuck fuel).symm.trans hfuel
    refine hI.go ⟨hI.mailbox (Or.inl hc), h0⟩ (hI.first ⟨c, by rw [hc]; simp⟩) fun hsecond =>
      hI.second (hsecond.elim (fun hd => ⟨c, hd⟩) id)
  | store u v hu => exact hI.store hu

omit [DecidableEq κ] in
theorem programHolds_initial (cell : ℕ → Block) : ProgramHolds (Program.initial κ cell) := by
  refine ⟨fun ⟨c, hc⟩ => absurd rfl hc, fun ⟨c, hc⟩ => ?_, fun _ => rfl⟩
  change 0 = bottom + 2 at hc
  omega

/-- **All mailboxes are one.** However many cores run `main`, and in whatever order, all the
mailboxes they create are the same block, and so are the strings in them. A core that finds
the block already cut off for a mailbox is left with `NULL` in `freeList`; then it gets no
string, but reads through it. -/
theorem mailboxes_same (cell : ℕ → Block) (h : Reach MainStep (Program.initial κ cell) s) :
    (∀ c d p q, s.Mailbox c p → s.Mailbox d q → p = q) ∧
    (∀ c d p q, s.Text c p → s.Text d q → p = q) ∧
    (∀ c, s.progress c = .ready → ∃ s', MainStep s (.create c) s' ∧
      (s'.freeList c = 0 ↔ s.mem.cell bottom = ⟨bottom, nunits mailboxSize⟩)) ∧
    ∀ c p, s.progress c = .created p → ∃ s', MainStep s (.fill c) s' ∧
      ((∃ q, s'.Text c q) ↔ s.freeList c ≠ 0) := by
  have hI : ProgramHolds s := h.invariant (programHolds_initial cell) fun _ _ _ hI hs => hI.step hs
  refine ⟨fun c d p q hp hq => (hI.mailbox hp).trans (hI.mailbox hq).symm,
    fun c d p q hp hq => (hI.text hp).trans (hI.text hq).symm, fun c hc => ?_, fun c p hc => ?_⟩
  · obtain ⟨k, hcell, -, hret⟩ := hI.create hc
    refine ⟨_, .create c hc hret, ?_⟩
    change Function.update s.freeList c (takeAlone s.mem bottom k 2).freeList c = 0 ↔ _
    rw [Function.update_self, hcell, Block.mk.injEq, takeAlone]
    split
    · next heq => exact ⟨fun _ => ⟨rfl, heq⟩, fun _ => rfl⟩
    · next hne =>
      rw [(splitBlock_alone (n := 2) (by decide) hcell).1]
      exact ⟨fun h0 => absurd h0 (Nat.succ_ne_zero _), fun heq => absurd heq.2 hne⟩
  · by_cases h0 : s.freeList c = 0
    · refine ⟨_, .crash c hc (malloc_null (h := s.heap c) h0 textSize), ?_⟩
      refine ⟨fun ⟨q, r, hq⟩ => ?_, fun hne => absurd h0 hne⟩
      change Function.update s.progress c (.crashed p) c = _ at hq
      rw [Function.update_self] at hq
      cases hq
    · obtain ⟨-, k, -, -, hret⟩ := hI.fill hc h0
      exact ⟨_, .fill c hc hret, ⟨fun _ => h0, fun _ => ⟨_, p, Function.update_self ..⟩⟩⟩

/-- Two cores, one after the other: core 1 sets up the heap again and is given the mailbox
and the string of core 0. -/
theorem mailboxes_same_demo :
    ∃ s : Program (Fin 2), s.Text 0 321559045 ∧ s.Text 1 321559045 ∧
      ∀ c d p q, s.Mailbox c p → s.Mailbox d q → p = q := by
  have r₀ : Reach MainStep (Program.initial (Fin 2) fun _ => ⟨0, 0⟩) _ := Reach.init
  have r₁ := r₀.next (.init 0 rfl)
  have r₂ := r₁.next (.create 0 rfl ⟨1, rfl⟩)
  have r₃ := r₂.next (.fill 0 rfl ⟨1, rfl⟩)
  have r₄ := r₃.next (.init 1 rfl)
  have r₅ := r₄.next (.create 1 rfl ⟨1, rfl⟩)
  have r₆ := r₅.next (.fill 1 rfl ⟨1, rfl⟩)
  exact ⟨_, ⟨_, rfl⟩, ⟨_, rfl⟩, (mailboxes_same _ r₆).1⟩

end Main

end SccShm
