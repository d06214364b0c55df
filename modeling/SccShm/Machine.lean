import SccShm.Blit
import SccShm.Loop

/-!
# Assembly

The part of the 32-bit x86 instruction set that copies memory, and programs written in it
with numeric labels.

* `Op.exec` — one instruction that does not jump. Memory that is not mapped faults.
* `step`, `run` — a program, by line number, until it falls off its end.
* `Exact x P Q` — `x` faults exactly if `P` fails, and otherwise gives a result in `Q`;
  `Ends` is the same for a call with fuel. There is one rule for each instruction,
  `Exact.bind` for sequences, `ends_ops` for a stretch of a program without jumps and
  `ends_line` for a label or jump.
-/

namespace SccShm

universe u

/-! ## Results that fault exactly where a condition fails -/

section Exact

variable {α β : Type u} {x : Exec α} {f : α → Exec β} {g : ℕ → Exec α} {P C : Prop}
  {Q Q' : α → Prop} {R : β → Prop}

/-- Under `P` the result is in `Q`, otherwise there is a fault. -/
structure Exact (x : Exec α) (P : Prop) (Q : α → Prop) : Prop where
  ok : P → ∃ a, x = .ok a ∧ Q a
  fault : ¬ P → x = .error .fault

theorem Exact.pure {a : α} (h : Q a) : Exact (.ok a) True Q :=
  ⟨fun _ => ⟨a, rfl, h⟩, fun hP => absurd trivial hP⟩

theorem Exact.guard [Decidable P] (h : Exact x C Q) :
    Exact (if P then x else .error .fault) (P ∧ C) Q := by
  refine ⟨fun hP => ?_, fun hP => ?_⟩
  · rw [if_pos hP.1]
    exact h.ok hP.2
  · split
    · next hp => exact h.fault fun hp' => hP ⟨hp, hp'⟩
    · rfl

theorem Exact.congr (h : Exact x P Q) (hP : C ↔ P) (hQ : ∀ a, Q a → Q' a) : Exact x C Q' :=
  ⟨fun h' => (h.ok (hP.mp h')).imp fun a ha => ⟨ha.1, hQ a ha.2⟩,
    fun h' => h.fault (mt hP.mpr h')⟩

theorem Exact.bind (h : Exact x P Q) (hf : ∀ a, Q a → Exact (f a) C R) :
    Exact (x >>= f) (P ∧ C) R := by
  by_cases hP : P
  · obtain ⟨a, hx, ha⟩ := h.ok hP
    rw [hx, Exec.ok_bind]
    exact (hf a ha).congr (and_iff_right hP) fun _ => id
  · rw [h.fault hP, Exec.error_bind]
    exact ⟨fun h' => absurd h'.1 hP, fun _ => rfl⟩

/-- With enough fuel, `g` faults exactly if `P` fails, and otherwise gives a result in
`Q`. -/
def Ends (g : ℕ → Exec α) (P : Prop) (Q : α → Prop) : Prop := ∃ n, Exact (g n) P Q

theorem Ends.congr (h : Ends g P Q) (hP : C ↔ P) (hQ : ∀ a, Q a → Q' a) : Ends g C Q' :=
  h.imp fun _ hn => hn.congr hP hQ

/-- Something is made of the result. -/
theorem Ends.map {h : α → β} (hg : Ends g P Q) (hQ : ∀ a, Q a → R (h a)) :
    Ends (fun n => g n >>= fun a => .ok (h a)) P R :=
  hg.imp fun _ hn => (hn.bind fun a ha => Exact.pure (hQ a ha)).congr
    (and_iff_left trivial).symm fun _ => id

/-- What `Ends` says in terms of the results of a call. -/
theorem Ends.returns (h : Ends g P Q) (hg : FuelStable g) :
    ((∃ a, Returns g a) ↔ P) ∧ ∀ a, Returns g a → Q a := by
  obtain ⟨n, hn⟩ := h
  have hfault : ¬ P → ¬ ∃ a, Returns g a := by
    rintro hP ⟨a, ha⟩
    rcases ha.eq_or hg n with h | h <;> cases (hn.fault hP).symm.trans h
  refine ⟨⟨not_imp_not.mp hfault, fun hP => ?_⟩, fun a ha => ?_⟩
  · obtain ⟨a, hx, -⟩ := hn.ok hP
    exact ⟨a, n, hx⟩
  · by_cases hP : P
    · obtain ⟨b, hx, hb⟩ := hn.ok hP
      rwa [ha.unique hg.mono ⟨n, hx⟩]
    · exact absurd ⟨a, ha⟩ (hfault hP)

end Exact

/-! ## Instructions -/

namespace X86

/-- The registers used. -/
inductive Reg : Type where
  | eax
  | ebx
  | ecx
  | edx
  | esi
  | edi
  deriving DecidableEq

/-- The registers, two of the flags, and memory. -/
structure State : Type where
  reg : Reg → BitVec 32
  /-- the zero flag -/
  zf : Bool
  /-- the direction flag: string instructions count down -/
  df : Bool
  mem : BitVec 32 → BitVec 8

/-- Register `r` set to `v`. -/
def State.set (s : State) (r : Reg) (v : BitVec 32) : State :=
  { s with reg := Function.update s.reg r v }

/-- An arithmetic result: register and zero flag. -/
def State.result (s : State) (r : Reg) (v : BitVec 32) : State :=
  { s.set r v with zf := v == 0 }

/-- The instructions that do not jump. -/
inductive Op : Type where
  | cld
  /-- `movl d(%b), %r` -/
  | load (d : BitVec 32) (b r : Reg)
  /-- `movl %r, d(%b)` -/
  | store (r : Reg) (d : BitVec 32) (b : Reg)
  /-- `movl %a, %r` -/
  | movl (a r : Reg)
  | addl (v : BitVec 32) (r : Reg)
  | andl (v : BitVec 32) (r : Reg)
  | cmpl (v : BitVec 32) (r : Reg)
  | dec (r : Reg)
  /-- `rep ; movsb` for `k = 1`, `rep ; movsl` for `k = 4` -/
  | repMovs (k : ℕ)

variable (mapped : BitVec 32 → Bool)

/-- One pass of a string instruction. -/
def State.movs (s : State) (k : ℕ) : State :=
  let by' : BitVec 32 := if s.df then -BitVec.ofNat 32 k else BitVec.ofNat 32 k
  { (((s.set .esi (s.reg .esi + by')).set .edi (s.reg .edi + by')).set .ecx (s.reg .ecx - 1))
    with mem := blit s.mem (s.reg .edi) (s.reg .esi) k }

/-- `n` passes of a string instruction. -/
def repMovs (k : ℕ) : ℕ → State → Exec State
  | 0, s => .ok s
  | n + 1, s =>
    if Maps mapped (s.reg .esi) k ∧ Maps mapped (s.reg .edi) k then
      repMovs k n (s.movs k)
    else .error .fault

/-- One instruction. -/
def Op.exec : Op → State → Exec State
  | cld, s => .ok { s with df := false }
  | load d b r, s =>
    if Maps mapped (s.reg b + d) 4 then .ok (s.set r (word s.mem (s.reg b + d)))
    else .error .fault
  | store r d b, s =>
    if Maps mapped (s.reg b + d) 4 then
      .ok { s with mem := putWord s.mem (s.reg b + d) (s.reg r) }
    else .error .fault
  | movl a r, s => .ok (s.set r (s.reg a))
  | addl v r, s => .ok (s.result r (s.reg r + v))
  | andl v r, s => .ok (s.result r (s.reg r &&& v))
  | cmpl v r, s => .ok { s with zf := s.reg r == v }
  | dec r, s => .ok (s.result r (s.reg r - 1))
  | repMovs k, s => X86.repMovs mapped k (s.reg .ecx).toNat s

/-- Instructions one after the other. -/
def execs : List Op → State → Exec State
  | [], s => .ok s
  | op :: ops, s => op.exec mapped s >>= execs ops

/-! ## Programs -/

/-- A line of a program. -/
inductive Line : Type where
  | op (op : Op)
  /-- `n:` -/
  | label (n : ℕ)
  /-- `je nf`: to the next label `n`, if the zero flag is set -/
  | je (n : ℕ)
  /-- `jmp nb`: back to the last label `n` -/
  | jmp (n : ℕ)

/-- The line is the label `n`. -/
def Line.isLabel (n : ℕ) : Line → Bool
  | label m => m == n
  | _ => false

/-- The next label `n` from line `pc` on. -/
def forward (code : List Line) (n pc : ℕ) : ℕ := pc + (code.drop pc).findIdx (Line.isLabel n)

/-- The last label `n` before line `pc`. -/
def backward (code : List Line) (n pc : ℕ) : ℕ :=
  pc - 1 - (code.take pc).reverse.findIdx (Line.isLabel n)

/-- One line. The program ends behind its last one. -/
def step (code : List Line) : ℕ × State → Exec ((ℕ × State) ⊕ State)
  | (pc, s) =>
    match code[pc]? with
    | none => .ok (.inr s)
    | some (.op op) => do
      let s' ← op.exec mapped s
      .ok (.inl (pc + 1, s'))
    | some (.label _) => .ok (.inl (pc + 1, s))
    | some (.je n) => .ok (.inl (if s.zf then forward code n pc else pc + 1, s))
    | some (.jmp n) => .ok (.inl (backward code n pc, s))

/-- Run a program from line `pc`. -/
def run (code : List Line) (fuel pc : ℕ) (s : State) : Exec State :=
  loop (step mapped code) fuel (pc, s)

/-! ## One rule for each instruction -/

section Rules

variable {m : BitVec 32 → Bool} {s s' : State} {a t : List Line} {l : List Op}
  {p k n : ℕ} {P C : Prop} {Q R : State → Prop}

@[simp] theorem State.reg_set_self (s : State) (r : Reg) (v : BitVec 32) : (s.set r v).reg r = v :=
  Function.update_self ..

theorem State.reg_set_of_ne (s : State) {r r' : Reg} (h : r' ≠ r) (v : BitVec 32) :
    (s.set r v).reg r' = s.reg r' := Function.update_of_ne h ..

@[simp] theorem State.mem_set (s : State) (r : Reg) (v : BitVec 32) : (s.set r v).mem = s.mem := rfl

@[simp] theorem State.df_set (s : State) (r : Reg) (v : BitVec 32) : (s.set r v).df = s.df := rfl

/-- `n` bytes have been copied, and the two pointers have moved on. -/
structure Moves (s : State) (n : ℕ) (s' : State) : Prop where
  mem : s'.mem = blit s.mem (s.reg .edi) (s.reg .esi) n
  esi : s'.reg .esi = s.reg .esi + BitVec.ofNat 32 n
  edi : s'.reg .edi = s.reg .edi + BitVec.ofNat 32 n
  df : s'.df = s.df

/-- The registers outside `rs` are as before. -/
def Keeps (rs : List Reg) (s s' : State) : Prop := ∀ r, r ∉ rs → s'.reg r = s.reg r

theorem Moves.refl (s : State) : Moves s 0 s :=
  ⟨paste_zero.symm, (add_ofNat_zero _).symm, (add_ofNat_zero _).symm, rfl⟩

/-- A register other than the two pointers is set. -/
theorem moves_set {r : Reg} (hsi : .esi ≠ r) (hdi : .edi ≠ r) (v : BitVec 32) :
    Moves s 0 (s.set r v) := by
  refine ⟨paste_zero.symm, ?_, ?_, rfl⟩
  · rw [s.reg_set_of_ne hsi, add_ofNat_zero]
  · rw [s.reg_set_of_ne hdi, add_ofNat_zero]

theorem Moves.trans {s₁ : State} (h : Moves s k s₁) (h' : Moves s₁ n s')
    (hclear : Clear (s.reg .edi) (s.reg .esi) (k + n)) (hlt : k + n ≤ 2 ^ 32) :
    Moves s (k + n) s' := by
  refine ⟨?_, ?_, ?_, h'.df.trans h.df⟩
  · rw [h'.mem, h.mem, h.esi, h.edi, blit_add hclear hlt]
  · rw [h'.esi, h.esi, add_ofNat_add]
  · rw [h'.edi, h.edi, add_ofNat_add]

theorem Keeps.trans {rs : List Reg} {s₁ : State} (h : Keeps rs s s₁) (h' : Keeps rs s₁ s') :
    Keeps rs s s' := fun r hr => (h' r hr).trans (h r hr)

theorem exact_load {d : BitVec 32} {b r : Reg} :
    Exact ((Op.load d b r).exec m s) (Maps m (s.reg b + d) 4)
      (· = s.set r (word s.mem (s.reg b + d))) :=
  ((Exact.pure rfl).guard).congr (and_iff_left trivial).symm fun _ h => h.symm

theorem exact_store {d : BitVec 32} {b r : Reg} :
    Exact ((Op.store r d b).exec m s) (Maps m (s.reg b + d) 4)
      (· = { s with mem := putWord s.mem (s.reg b + d) (s.reg r) }) :=
  ((Exact.pure rfl).guard).congr (and_iff_left trivial).symm fun _ h => h.symm

theorem moves_movs (hdf : s.df = false) :
    Moves s k (s.movs k) ∧ Keeps [.ecx, .esi, .edi] s (s.movs k) := by
  have hby : (if s.df then -BitVec.ofNat 32 k else BitVec.ofNat 32 k) = BitVec.ofNat 32 k := by
    rw [hdf]
    rfl
  refine ⟨⟨rfl, ?_, ?_, rfl⟩, fun r hr => ?_⟩
  · simp [State.movs, State.set, hby]
  · simp [State.movs, State.set, hby]
  · simp only [List.mem_cons, List.not_mem_nil, or_false, not_or] at hr
    simp [State.movs, State.set, hr]

/-- A string instruction that counts up copies `k * n` bytes. -/
theorem exact_repMovs (hdf : s.df = false) (hlt : k * n ≤ 2 ^ 32)
    (hclear : Clear (s.reg .edi) (s.reg .esi) (k * n)) :
    Exact (repMovs m k n s)
      (Maps m (s.reg .esi) (k * n) ∧ Maps m (s.reg .edi) (k * n))
      (fun s' => Moves s (k * n) s' ∧ Keeps [.ecx, .esi, .edi] s s') := by
  induction n generalizing s with
  | zero =>
    refine (Exact.pure ⟨Moves.refl s, fun r _ => rfl⟩).congr ⟨fun _ => trivial, fun _ => ?_⟩
      fun _ => id
    exact ⟨fun i hi => absurd hi (Nat.not_lt_zero i), fun i hi => absurd hi (Nat.not_lt_zero i)⟩
  | succ n ih =>
    obtain ⟨hmoves, hkeeps⟩ := moves_movs (k := k) hdf
    have hsum : k * (n + 1) = k + k * n := by rw [Nat.mul_succ, Nat.add_comm]
    rw [hsum] at hlt hclear ⊢
    have hclear' : Clear ((s.movs k).reg .edi) ((s.movs k).reg .esi) (k * n) := by
      rw [hmoves.edi, hmoves.esi]
      exact (hclear.of_le (Nat.le_add_left _ _)).add _
    refine ((ih (hmoves.df.trans hdf) (by omega) hclear').guard).congr ?_ fun s' hs' =>
      ⟨hmoves.trans hs'.1 hclear hlt, hkeeps.trans hs'.2⟩
    rw [hmoves.edi, hmoves.esi, maps_add, maps_add]
    tauto

theorem exact_nil (h : Q s) : Exact (execs m [] s) True Q := Exact.pure h

theorem exact_cons {op : Op} (h : Exact (op.exec m s) P (· = s'))
    (h' : Exact (execs m l s') C R) : Exact (execs m (op :: l) s) (P ∧ C) R :=
  h.bind fun _ heq => heq ▸ h'

theorem execs_append (l l' : List Op) (s : State) :
    execs m (l ++ l') s = execs m l s >>= execs m l' := by
  induction l generalizing s with
  | nil => rfl
  | cons op l ih =>
    rw [List.cons_append, execs, execs]
    cases op.exec m s with
    | error e => rfl
    | ok s' => exact ih s'

/-! ## Rules for programs -/

/-- A stretch of a program without jumps. -/
theorem run_ops (hcode : a.drop p = l.map Line.op ++ t) (n : ℕ) (s : State) :
    run m a (l.length + n) p s
      = execs m l s >>= run m a n (p + l.length) := by
  induction l generalizing p s with
  | nil => rw [List.length_nil, Nat.zero_add, Nat.add_zero, execs, Exec.ok_bind]
  | cons op l ih =>
    have hline : a[p]? = some (.op op) := by
      rw [← Nat.add_zero p, ← List.getElem?_drop, hcode]
      rfl
    have hdrop : a.drop (p + 1) = l.map Line.op ++ t := by
      rw [← List.drop_drop, hcode]
      rfl
    have hbody : step m a (p, s)
        = op.exec m s >>= fun s' => .ok (.inl (p + 1, s')) := by
      rw [step, hline]
    rw [List.length_cons, Nat.add_right_comm, execs]
    cases hx : op.exec m s with
    | error e =>
      rw [hx, Exec.error_bind] at hbody
      simp [run, loop, hbody]
    | ok s' =>
      rw [hx, Exec.ok_bind] at hbody
      rw [run, loop_next hbody, Exec.ok_bind, Nat.add_comm l.length 1, ← Nat.add_assoc]
      exact ih hdrop s'

theorem ends_ops (hcode : a.drop p = l.map Line.op ++ t)
    (h : Exact (execs m l s) P Q)
    (hrest : ∀ s', Q s' → Ends (fun n => run m a n (p + l.length) s') C R) :
    Ends (fun n => run m a n p s) (P ∧ C) R := by
  by_cases hP : P
  · obtain ⟨s', hx, hs'⟩ := h.ok hP
    obtain ⟨n, hn⟩ := hrest s' hs'
    refine ⟨l.length + n, ?_⟩
    change Exact (run m a _ p s) _ _
    rw [run_ops hcode, hx, Exec.ok_bind]
    exact hn.congr (and_iff_right hP) fun _ => id
  · refine ⟨l.length + 0, ?_⟩
    change Exact (run m a _ p s) _ _
    rw [run_ops hcode, h.fault hP, Exec.error_bind]
    exact ⟨fun h' => absurd h'.1 hP, fun _ => rfl⟩

/-- A label or a jump. -/
theorem ends_line {q : ℕ} (h : Ends (fun n => run m a n q s) P Q)
    (hstep : step m a (p, s) = .ok (.inl (q, s))) :
    Ends (fun n => run m a n p s) P Q := by
  obtain ⟨n, hn⟩ := h
  refine ⟨n + 1, ?_⟩
  change Exact (loop _ _ _) _ _
  rw [loop_next hstep]
  exact hn

/-- Behind the last line. -/
theorem ends_exit (hpc : a[p]? = none) (hs : Q s) :
    Ends (fun n => run m a n p s) True Q := by
  refine ⟨1, ?_⟩
  change Exact (loop _ _ _) _ _
  rw [loop_done (r := s) (by rw [step, hpc])]
  exact Exact.pure hs

end Rules

end X86

end SccShm
