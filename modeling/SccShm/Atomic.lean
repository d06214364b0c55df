import SccShm.Nodes
import SccShm.Loop

/-!
# Atomic counters

`SccInit` sets up two banks of counters on the chip's interface, and the cores share them: a
counter counts up when it is read at one address and down when it is written there, and is
read and set as it is at another. The hardware is a parameter of this module; `Counts` is
what the comments in `scc.c` and the test in `air.c` say of it.

* `atomicInc`, `atomicDec`, `atomicRead`, `atomicWrite` — the calls of a core, at the
  addresses from its tables.
* `tickets_taken` — the numbers that cores get from one counter.
-/

namespace SccShm

universe u

/-- The interface: reads and writes at a place on the chip. -/
structure Interface (σ : Type u) : Type u where
  read : ℕ → σ → BitVec 32 × σ
  write : ℕ → BitVec 32 → σ → σ

/-- Behind the places of the registers are counters. -/
structure Counts {σ : Type u} (A : Interface σ) (val : σ → ℕ → BitVec 32) : Prop where
  read_counter : ∀ i < 2 * cores, ∀ hw, (A.read (Register.counter i).place hw).1 = val hw i
  inc : ∀ i < 2 * cores, ∀ hw, val (A.read (Register.counter i).place hw).2
    = Function.update (val hw) i (val hw i + 1)
  dec : ∀ i < 2 * cores, ∀ hw v, val (A.write (Register.counter i).place v hw)
    = Function.update (val hw) i (val hw i - 1)
  read_init : ∀ i < 2 * cores, ∀ hw, (A.read (Register.init i).place hw).1 = val hw i
  keep : ∀ i < 2 * cores, ∀ hw, val (A.read (Register.init i).place hw).2 = val hw
  set : ∀ i < 2 * cores, ∀ hw v, val (A.write (Register.init i).place v hw)
    = Function.update (val hw) i v

section Calls

variable {σ : Type u} (A : Interface σ) (phys : ℕ → ℕ → ℕ) (c i : ℕ)

/-- `atomic_inc(&atomic_inc_regs[i], &value)` on core `c`. -/
def atomicInc (hw : σ) : BitVec 32 × σ := A.read (phys c ((Register.counter i).address c)) hw

/-- `atomic_dec(&atomic_inc_regs[i], value)`. -/
def atomicDec (value : BitVec 32) (hw : σ) : σ :=
  A.write (phys c ((Register.counter i).address c)) value hw

/-- `atomic_read(&atomic_inc_regs[i], &value)`. -/
def atomicRead (hw : σ) : BitVec 32 × σ := A.read (phys c ((Register.init i).address c)) hw

/-- `atomic_write(&atomic_inc_regs[i], value)`; also what `SccInit` does, with 0, on core 0. -/
def atomicWrite (value : BitVec 32) (hw : σ) : σ :=
  A.write (phys c ((Register.init i).address c)) value hw

end Calls

/-- The hardware, and for each register what `atomic_inc` returned, and to which core. -/
structure Atomics (σ : Type u) : Type u where
  hw : σ
  taken : ℕ → List (ℕ × BitVec 32)

/-- A call of core `c`. -/
inductive AtomicOp : Type where
  | inc (c i : ℕ)
  | dec (c i : ℕ) (value : BitVec 32)
  | read (c i : ℕ)
  | write (c i : ℕ) (value : BitVec 32)

/-- The cores call in any order. -/
inductive AtomicStep {σ : Type u} (A : Interface σ) (phys : ℕ → ℕ → ℕ) :
    Atomics σ → AtomicOp → Atomics σ → Prop where
  | inc {s : Atomics σ} (c i : ℕ) : c < cores → i < 2 * cores →
      AtomicStep A phys s (.inc c i)
        { hw := (atomicInc A phys c i s.hw).2
          taken := Function.update s.taken i
            (s.taken i ++ [(c, (atomicInc A phys c i s.hw).1)]) }
  | dec {s : Atomics σ} (c i : ℕ) (value : BitVec 32) : c < cores → i < 2 * cores →
      AtomicStep A phys s (.dec c i value) { s with hw := atomicDec A phys c i value s.hw }
  | read {s : Atomics σ} (c i : ℕ) : c < cores → i < 2 * cores →
      AtomicStep A phys s (.read c i) { s with hw := (atomicRead A phys c i s.hw).2 }
  | write {s : Atomics σ} (c i : ℕ) (value : BitVec 32) : c < cores → i < 2 * cores →
      AtomicStep A phys s (.write c i value) { s with hw := atomicWrite A phys c i value s.hw }

/-- No core takes a number back from register `i` or sets it. -/
def OnlyTaken {σ : Type u} (i : ℕ) (_ : Atomics σ) : AtomicOp → Prop
  | .dec _ j _ | .write _ j _ => j ≠ i
  | .inc _ _ | .read _ _ => True

section Tickets

variable {σ : Type u} {A : Interface σ} {phys : ℕ → ℕ → ℕ} {val : σ → ℕ → BitVec 32}
  {s s' : Atomics σ} {op : AtomicOp} {c i : ℕ} {v : BitVec 32} {hw hw' : σ}
  {l : List (ℕ × BitVec 32)}

/-! ### What a call does, on any core -/

theorem Counts.atomicInc (hA : Counts A val) (hphys : OwnTile phys) (hc : c < cores)
    (hi : i < 2 * cores) (hw : σ) : (SccShm.atomicInc A phys c i hw).1 = val hw i ∧
      val (SccShm.atomicInc A phys c i hw).2 = Function.update (val hw) i (val hw i + 1) := by
  rw [SccShm.atomicInc, hphys.place (r := .counter i) hc hi]
  exact ⟨hA.read_counter i hi hw, hA.inc i hi hw⟩

theorem Counts.atomicDec (hA : Counts A val) (hphys : OwnTile phys) (hc : c < cores)
    (hi : i < 2 * cores) (value : BitVec 32) (hw : σ) :
    val (SccShm.atomicDec A phys c i value hw) = Function.update (val hw) i (val hw i - 1) := by
  rw [SccShm.atomicDec, hphys.place (r := .counter i) hc hi]
  exact hA.dec i hi hw value

theorem Counts.atomicRead (hA : Counts A val) (hphys : OwnTile phys) (hc : c < cores)
    (hi : i < 2 * cores) (hw : σ) : (SccShm.atomicRead A phys c i hw).1 = val hw i ∧
      val (SccShm.atomicRead A phys c i hw).2 = val hw := by
  rw [SccShm.atomicRead, hphys.place (r := .init i) hc hi]
  exact ⟨hA.read_init i hi hw, hA.keep i hi hw⟩

theorem Counts.atomicWrite (hA : Counts A val) (hphys : OwnTile phys) (hc : c < cores)
    (hi : i < 2 * cores) (value : BitVec 32) (hw : σ) :
    val (SccShm.atomicWrite A phys c i value hw) = Function.update (val hw) i value := by
  rw [SccShm.atomicWrite, hphys.place (r := .init i) hc hi]
  exact hA.set i hi hw value

/-! ### Numbers taken -/

/-- The `n` numbers from `v` on. -/
def tickets (v : BitVec 32) (n : ℕ) : List (BitVec 32) :=
  (List.range n).map fun k => v + BitVec.ofNat 32 k

theorem tickets_succ (v : BitVec 32) (n : ℕ) :
    tickets v (n + 1) = tickets v n ++ [v + BitVec.ofNat 32 n] := by
  rw [tickets, List.range_succ, List.map_append]
  rfl

theorem nodup_tickets {n : ℕ} (hn : n ≤ 2 ^ 32) (v : BitVec 32) : (tickets v n).Nodup := by
  refine List.nodup_range.map_on fun j hj k hk heq => ?_
  have hjk := congrArg BitVec.toNat ((BitVec.add_right_inj v).mp heq)
  have hj := List.mem_range.mp hj
  have hk := List.mem_range.mp hk
  rwa [BitVec.toNat_ofNat, BitVec.toNat_ofNat, Nat.mod_eq_of_lt (by omega),
    Nat.mod_eq_of_lt (by omega)] at hjk

/-- Register `i` was at `v`, and has counted the numbers in `l` taken from it. -/
structure TicketsHold (val : σ → ℕ → BitVec 32) (i : ℕ) (v : BitVec 32) (hw : σ)
    (l : List (ℕ × BitVec 32)) : Prop where
  taken : l.map Prod.snd = tickets v l.length
  val : val hw i = v + BitVec.ofNat 32 l.length

theorem TicketsHold.congr (hI : TicketsHold val i v hw l) (h : val hw' i = val hw i) :
    TicketsHold val i v hw' l := ⟨hI.taken, h.trans hI.val⟩

/-- The next number is taken. -/
theorem TicketsHold.take (hI : TicketsHold val i v hw l) (c : ℕ)
    (h : val hw' i = val hw i + 1) : TicketsHold val i v hw' (l ++ [(c, val hw i)]) := by
  refine ⟨?_, ?_⟩
  · rw [List.map_append, hI.taken, List.length_append, List.length_singleton, tickets_succ, hI.val]
    rfl
  · rw [h, hI.val, List.length_append, List.length_singleton, BitVec.ofNat_add, BitVec.add_assoc]
    rfl

theorem TicketsHold.step (hphys : OwnTile phys) (hA : Counts A val)
    (hI : TicketsHold val i v s.hw (s.taken i)) (hok : OnlyTaken i s op)
    (hs : AtomicStep A phys s op s') : TicketsHold val i v s'.hw (s'.taken i) := by
  cases hs with
  | inc c j hc hj =>
    obtain ⟨hret, hval⟩ := hA.atomicInc hphys hc hj s.hw
    change TicketsHold val i v _ (Function.update s.taken j _ i)
    by_cases hij : i = j
    · subst hij
      rw [Function.update_self, hret]
      exact hI.take c (by rw [hval, Function.update_self])
    · rw [Function.update_of_ne hij]
      exact hI.congr (by rw [hval, Function.update_of_ne hij])
  | dec c j value hc hj =>
    refine hI.congr ?_
    rw [hA.atomicDec hphys hc hj, Function.update_of_ne (Ne.symm hok)]
  | read c j hc hj =>
    refine hI.congr ?_
    rw [(hA.atomicRead hphys hc hj s.hw).2]
  | write c j value hc hj =>
    refine hI.congr ?_
    rw [hA.atomicWrite hphys hc hj, Function.update_of_ne (Ne.symm hok)]

/-- **No number is given out twice.** However the cores' calls interleave, and whatever they do
with the other registers: what `atomic_inc` returned from register `i`, to whichever core, are
the numbers from its first value on, in order; up to 2^32 of them are different; and
`atomic_read` tells every core how many there were. -/
theorem tickets_taken (hphys : OwnTile phys) (hA : Counts A val) (hw : σ) (hi : i < 2 * cores)
    (h : Reach (Guarded (AtomicStep A phys) (OnlyTaken i)) ⟨hw, fun _ => []⟩ s) :
    (s.taken i).map Prod.snd = tickets (val hw i) (s.taken i).length ∧
    ((s.taken i).length ≤ 2 ^ 32 → ((s.taken i).map Prod.snd).Nodup) ∧
    ∀ c < cores, (atomicRead A phys c i s.hw).1
      = val hw i + BitVec.ofNat 32 (s.taken i).length := by
  have hI := h.invariant (I := fun s => TicketsHold val i (val hw i) s.hw (s.taken i))
    ⟨rfl, (BitVec.add_zero _).symm⟩ fun _ _ _ hI hs => hI.step hphys hA hs.1 hs.2
  refine ⟨hI.taken, fun hn => ?_, fun c hc => ?_⟩
  · rw [hI.taken]
    exact nodup_tickets hn _
  · rw [(hA.atomicRead hphys hc hi s.hw).1, hI.val]

/-- Counters, found by their places. -/
def counters : Interface (ℕ → BitVec 32) where
  read p hw :=
    let i := 48 * ((p - 0xf900e000) / 0x1000) + (p - 0xf900e000) % 0x1000 / 8
    (hw i, if p % 8 = 0 then Function.update hw i (hw i + 1) else hw)
  write p v hw :=
    let i := 48 * ((p - 0xf900e000) / 0x1000) + (p - 0xf900e000) % 0x1000 / 8
    Function.update hw i (if p % 8 = 0 then hw i - 1 else v)

theorem counters_ok : Counts counters fun hw i => hw i := by
  have hcores : cores = 48 := rfl
  have hcounter : ∀ i < 2 * cores, (Register.counter i).place % 8 = 0 ∧
      48 * (((Register.counter i).place - 0xf900e000) / 0x1000)
        + ((Register.counter i).place - 0xf900e000) % 0x1000 / 8 = i := by
    intro i hi
    rw [Register.place]
    omega
  have hinit : ∀ i < 2 * cores, (Register.init i).place % 8 ≠ 0 ∧
      48 * (((Register.init i).place - 0xf900e000) / 0x1000)
        + ((Register.init i).place - 0xf900e000) % 0x1000 / 8 = i := by
    intro i hi
    rw [Register.place]
    omega
  refine ⟨fun i hi hw => ?_, fun i hi hw => ?_, fun i hi hw v => ?_, fun i hi hw => ?_,
    fun i hi hw => ?_, fun i hi hw v => ?_⟩
  · simp only [counters, hcounter i hi]
  · simp only [counters, hcounter i hi, if_true]
  · simp only [counters, hcounter i hi, if_true]
  · simp only [counters, hinit i hi]
  · simp only [counters, hinit i hi, if_false]
  · simp only [counters, hinit i hi, if_false]

/-- Cores 3 and 5 take a number each from register 7, while core 0 sets register 8. -/
theorem tickets_taken_demo : ∃ s : Atomics (ℕ → BitVec 32), s.taken 7 = [(3, 4#32), (5, 5#32)] ∧
    ((s.taken 7).map Prod.snd).Nodup ∧ (atomicRead counters ownTile 0 7 s.hw).1 = 6#32 := by
  have r₀ : Reach (Guarded (AtomicStep counters ownTile) (OnlyTaken 7))
    ⟨fun _ => 4#32, fun _ => []⟩ _ := Reach.init
  have r₁ := r₀.next (a := AtomicOp.inc 3 7) ⟨trivial, .inc 3 7 (by decide) (by decide)⟩
  have r₂ := r₁.next (a := AtomicOp.write 0 8 0)
    ⟨show 8 ≠ 7 by decide, .write 0 8 0 (by decide) (by decide)⟩
  have r₃ := r₂.next (a := AtomicOp.inc 5 7) ⟨trivial, .inc 5 7 (by decide) (by decide)⟩
  obtain ⟨-, hnodup, hread⟩ := tickets_taken ownTile_ok counters_ok _ (by decide) r₃
  exact ⟨_, by decide, hnodup (by decide), hread 0 (by decide)⟩

end Tickets

end SccShm
