import SccShm.MpbBytes
import SccShm.Tiling

/-!
# Core numbers and registers

A core reads its tile's coordinates from a register and numbers itself by them. `SccInit`
then computes, for every core, where its interrupt pin, lock, lookup table and message
passing buffer are, and where the two sets of atomic counters are. For itself a core uses
the addresses of its own tile, which every core sees at the same place.

* `nodeLocation_eq` — the number of a core, and the coordinates back from the number.
* `registers_shared` — on every core the address for a register leads to the same one, and
  different registers do not overlap.
-/

namespace SccShm

/-! ## Core numbers -/

/-- `NUM_ROWS`. -/
def numRows : ℕ := 4

/-- `NUM_COLS`. -/
def numCols : ℕ := 6

/-- `NUM_CORES`, per tile. -/
def numCores : ℕ := 2

/-- `CORES`. -/
def cores : ℕ := numRows * numCols * numCores

/-- `PID(x, y, core)`. -/
def pid (x y core : ℕ) : ℕ := numCores * numCols * y + numCores * x + core

/-- `Y_PID(pid)`. -/
def yPid (p : ℕ) : ℕ := p / numCores / numCols

/-- `X_PID(pid)`. -/
def xPid (p : ℕ) : ℕ := p / numCores - numCols * yPid p

/-- `Z_PID(pid)`. -/
def zPid (p : ℕ) : ℕ := p % numCores

/-- `node_location`, from the contents of the register `MYTILEID`. -/
def nodeLocation (tileId : ℕ) : ℕ :=
  let x := (tileId >>> 3) &&& 0x0f
  let y := (tileId >>> 7) &&& 0x0f
  let z := tileId &&& 7
  pid x y z

/-- The contents of `MYTILEID`: the core in bits 0 to 2, the column in bits 3 to 6, the row
in bits 7 to 10. -/
def tileId (x y z : ℕ) : ℕ := y * 2 ^ 7 + x * 2 ^ 3 + z

section Numbers

variable {x y z p : ℕ}

theorem nodeLocation_tileId (hx : x < numCols) (hy : y < numRows) (hz : z < numCores) :
    nodeLocation (tileId x y z) = pid x y z := by
  rw [numCols] at hx
  rw [numRows] at hy
  rw [numCores] at hz
  have h15 : ∀ n, n &&& 0x0f = n % 2 ^ 4 := fun n => Nat.and_two_pow_sub_one_eq_mod n 4
  have h7 : ∀ n, n &&& 7 = n % 2 ^ 3 := fun n => Nat.and_two_pow_sub_one_eq_mod n 3
  have hx' : (tileId x y z >>> 3) &&& 0x0f = x := by
    rw [Nat.shiftRight_eq_div_pow, h15, tileId]
    omega
  have hy' : (tileId x y z >>> 7) &&& 0x0f = y := by
    rw [Nat.shiftRight_eq_div_pow, h15, tileId]
    omega
  have hz' : tileId x y z &&& 7 = z := by
    rw [h7, tileId]
    omega
  rw [nodeLocation, hx', hy', hz']

theorem coords_lt (hp : p < cores) : xPid p < numCols ∧ yPid p < numRows ∧ zPid p < numCores ∧
    pid (xPid p) (yPid p) (zPid p) = p := by
  simp only [cores, numRows, numCols, numCores, xPid, yPid, zPid, pid] at *
  omega

/-- **Cores are numbered one to one.** The number a core computes from its tile's register is
less than `CORES` and has the coordinates of the tile; and every number less than `CORES` is
that of a core. -/
theorem nodeLocation_eq :
    (∀ x y z, x < numCols → y < numRows → z < numCores →
      nodeLocation (tileId x y z) < cores ∧ xPid (nodeLocation (tileId x y z)) = x ∧
        yPid (nodeLocation (tileId x y z)) = y ∧ zPid (nodeLocation (tileId x y z)) = z) ∧
    ∀ p < cores, xPid p < numCols ∧ yPid p < numRows ∧ zPid p < numCores ∧
      nodeLocation (tileId (xPid p) (yPid p) (zPid p)) = p := by
  refine ⟨fun x y z hx hy hz => ?_, fun p hlt => ?_⟩
  · rw [nodeLocation_tileId hx hy hz]
    simp only [cores, numRows, numCols, numCores, xPid, yPid, zPid, pid] at *
    omega
  · obtain ⟨hx, hy, hz, hpid⟩ := coords_lt hlt
    exact ⟨hx, hy, hz, by rw [nodeLocation_tileId hx hy hz, hpid]⟩

end Numbers

/-! ## Addresses -/

/-- `CRB_ADDR(x, y)`: the configuration registers of a tile. -/
def crbAddr (x y : ℕ) : ℕ := 0xe0000000 + 0x01000000 * x + 0x01000000 * numCols * y

/-- `CRB_OWN`. -/
def crbOwn : ℕ := 0xf8000000

/-- `MPB_ADDR(x, y, z)`: the buffer of a core. -/
def mpbAddr (x y z : ℕ) : ℕ :=
  0xc0000000 + 0x01000000 * x + 0x01000000 * numCols * y + mpbSize * z

/-- `MPB_OWN`. -/
def mpbOwn : ℕ := 0xd8000000

/-- `FPGA_BASE`. -/
def fpgaBase : ℕ := 0xf9000000

/-- `address` in `SccInit`, on core `self`. -/
def crbBase (self cpu : ℕ) : ℕ := if cpu = self then crbOwn else crbAddr (xPid cpu) (yPid cpu)

/-- `irq_pins[cpu]`. -/
def irqPinAddr (self cpu : ℕ) : ℕ := crbBase self cpu + if zPid cpu = 0 then 0x010 else 0x018

/-- `locks[cpu]`. -/
def lockAddr (self cpu : ℕ) : ℕ := crbBase self cpu + if zPid cpu = 0 then 0x200 else 0x400

/-- `luts[cpu]`. -/
def lutAddr (self cpu : ℕ) : ℕ := crbBase self cpu + if zPid cpu = 0 then 0x00800 else 0x01000

/-- `mpbs[cpu]`: what `MPBalloc(&mpbs[cpu], x, y, z, cpu == node_location)` maps. -/
def mpbsAddr (self cpu : ℕ) : ℕ :=
  if cpu = self then mpbOwn + mpbSize * zPid cpu else mpbAddr (xPid cpu) (yPid cpu) (zPid cpu)

/-- `atomic_inc_regs[i].counter`: an `int *`, counted from one of the two bases. -/
def airCounter (i : ℕ) : ℕ :=
  if i < cores then fpgaBase + 0xE000 + 4 * (2 * i) else fpgaBase + 0xF000 + 4 * (2 * (i - cores))

/-- `atomic_inc_regs[i].init`. -/
def airInit (i : ℕ) : ℕ := airCounter i + 4

/-- What the tables of `SccInit` lead to. -/
inductive Register : Type where
  /-- `*irq_pins[cpu]` -/
  | irqPin (cpu : ℕ)
  /-- `*locks[cpu]` -/
  | lock (cpu : ℕ)
  /-- `LUT(cpu, idx)` -/
  | lut (cpu idx : ℕ)
  /-- `mpbs[cpu][k]` -/
  | mpb (cpu k : ℕ)
  /-- `*atomic_inc_regs[i].counter` -/
  | counter (i : ℕ)
  /-- `*atomic_inc_regs[i].init` -/
  | init (i : ℕ)

namespace Register

/-- The register is there: a lookup table has 256 entries. -/
def Exists : Register → Prop
  | irqPin cpu | lock cpu => cpu < cores
  | lut cpu idx => cpu < cores ∧ idx < 256
  | mpb cpu k => cpu < cores ∧ k < mpbSize
  | counter i | init i => i < 2 * cores

/-- The address that core `self` uses for it. Entries of a table are 8 bytes apart. -/
def address (self : ℕ) : Register → ℕ
  | irqPin cpu => irqPinAddr self cpu
  | lock cpu => lockAddr self cpu
  | lut cpu idx => lutAddr self cpu + 8 * idx
  | mpb cpu k => mpbsAddr self cpu + k
  | counter i => airCounter i
  | init i => airInit i

/-- How many bytes of it are accessed. -/
def width : Register → ℕ
  | irqPin _ | lut _ _ | counter _ | init _ => 4
  | lock _ | mpb _ _ => 1

end Register

/-- What the chip makes of an address: `phys self a` is where an access of core `self` to `a`
goes. The two ranges `OWN` lead to the core's own tile. -/
structure OwnTile (phys : ℕ → ℕ → ℕ) : Prop where
  crb : ∀ self < cores, ∀ k < 0x01000000,
    phys self (crbOwn + k) = crbAddr (xPid self) (yPid self) + k
  mpb : ∀ self < cores, ∀ k < 0x01000000,
    phys self (mpbOwn + k) = mpbAddr (xPid self) (yPid self) 0 + k
  other : ∀ self a, (a < mpbOwn ∨ mpbOwn + 0x01000000 ≤ a) →
    (a < crbOwn ∨ crbOwn + 0x01000000 ≤ a) → phys self a = a

section Registers

variable {phys : ℕ → ℕ → ℕ} {self cpu k : ℕ} {r r' : Register}

/-- Where a register is, whoever looks. -/
def Register.place : Register → ℕ
  | irqPin cpu => 0xe0000000 + 0x01000000 * (cpu / 2) + 0x010 + 0x008 * (cpu % 2)
  | lock cpu => 0xe0000000 + 0x01000000 * (cpu / 2) + 0x200 + 0x200 * (cpu % 2)
  | lut cpu idx => 0xe0000000 + 0x01000000 * (cpu / 2) + 0x800 + 0x800 * (cpu % 2) + 8 * idx
  | mpb cpu k => 0xc0000000 + 0x01000000 * (cpu / 2) + 0x2000 * (cpu % 2) + k
  | counter i => 0xf900e000 + 0x1000 * (i / 48) + 8 * (i % 48)
  | init i => 0xf900e000 + 0x1000 * (i / 48) + 8 * (i % 48) + 4

theorem crbAddr_eq (cpu : ℕ) :
    crbAddr (xPid cpu) (yPid cpu) = 0xe0000000 + 0x01000000 * (cpu / 2) := by
  rw [crbAddr, xPid, yPid, numCols, numCores]
  omega

theorem mpbAddr_eq (cpu z : ℕ) :
    mpbAddr (xPid cpu) (yPid cpu) z = 0xc0000000 + 0x01000000 * (cpu / 2) + 0x2000 * z := by
  rw [mpbAddr, xPid, yPid, numCols, numCores, mpbSize]
  omega

/-- A configuration register of a core's tile. -/
theorem OwnTile.crbBase (h : OwnTile phys) (hself : self < cores) (hcpu : cpu < cores)
    (hk : k < 0x01000000) :
    phys self (crbBase self cpu + k) = 0xe0000000 + 0x01000000 * (cpu / 2) + k := by
  have hcores : cores = 48 := rfl
  rw [SccShm.crbBase]
  split
  · next heq =>
    rw [h.crb self hself k hk, crbAddr_eq, heq]
  · rw [crbAddr_eq]
    apply h.other
    · rw [mpbOwn]
      omega
    · rw [crbOwn]
      omega

/-- A byte of a core's buffer. -/
theorem OwnTile.mpbs (h : OwnTile phys) (hself : self < cores) (hcpu : cpu < cores)
    (hk : k < mpbSize) :
    phys self (mpbsAddr self cpu + k)
      = 0xc0000000 + 0x01000000 * (cpu / 2) + 0x2000 * (cpu % 2) + k := by
  have hcores : cores = 48 := rfl
  have hsize : mpbSize = 0x2000 := rfl
  have hz : zPid cpu = cpu % 2 := rfl
  rw [hsize] at hk
  rw [mpbsAddr, hsize, hz]
  split
  · next heq =>
    rw [Nat.add_assoc, h.mpb self hself _ (by omega), mpbAddr_eq, heq]
    omega
  · rw [mpbAddr_eq]
    apply h.other
    · rw [mpbOwn]
      omega
    · rw [crbOwn]
      omega

theorem airCounter_eq {i : ℕ} (hi : i < 2 * cores) :
    airCounter i = 0xf900e000 + 0x1000 * (i / 48) + 8 * (i % 48) := by
  have hcores : cores = 48 := rfl
  rw [airCounter, fpgaBase, hcores]
  split <;> omega

theorem OwnTile.place (h : OwnTile phys) (hself : self < cores) (hr : r.Exists) :
    phys self (r.address self) = r.place := by
  have hz : ∀ cpu, zPid cpu = cpu % 2 := fun _ => rfl
  have hcores : cores = 48 := rfl
  cases r with
  | irqPin cpu =>
    rw [Register.address, irqPinAddr, h.crbBase hself hr (by split <;> omega), Register.place, hz]
    split <;> omega
  | lock cpu =>
    rw [Register.address, lockAddr, h.crbBase hself hr (by split <;> omega), Register.place, hz]
    split <;> omega
  | lut cpu idx =>
    obtain ⟨hcpu, hidx⟩ := hr
    rw [Register.address, lutAddr, Nat.add_assoc,
      h.crbBase hself hcpu (by split <;> omega), Register.place, hz]
    split <;> omega
  | mpb cpu k =>
    obtain ⟨hcpu, hk⟩ := hr
    rw [Register.address, h.mpbs hself hcpu hk, Register.place]
  | counter i =>
    rw [Register.address, Register.place, airCounter_eq hr]
    apply h.other <;> simp only [mpbOwn, crbOwn] <;> omega
  | init i =>
    rw [Register.address, Register.place, airInit, airCounter_eq hr]
    apply h.other <;> simp only [mpbOwn, crbOwn] <;> omega

/-- Different registers do not overlap. -/
theorem Register.place_apart (hr : r.Exists) (hr' : r'.Exists) (hne : r' ≠ r) :
    Apart r.place r.width r'.place r'.width := by
  have hcores : cores = 48 := rfl
  have hsize : mpbSize = 0x2000 := rfl
  apply apart_of_le
  cases r <;> cases r' <;>
    simp only [Exists, ne_eq, irqPin.injEq, lock.injEq, lut.injEq, mpb.injEq, counter.injEq,
      init.injEq] at hr hr' hne <;>
    simp only [place, width] <;> omega

/-- **Registers are shared.** On all cores, the address for a register leads to the same
place, and no two registers overlap: there is one lock, one lookup table and one buffer for
every core, and every atomic counter is one of its own. -/
theorem registers_shared (h : OwnTile phys) (hself : self < cores) (hr : r.Exists) :
    (∀ self' < cores, phys self' (r.address self') = phys self (r.address self)) ∧
    ∀ r', r'.Exists → r' ≠ r → ∀ self' < cores,
      Apart (phys self (r.address self)) r.width (phys self' (r'.address self')) r'.width := by
  refine ⟨fun self' hself' => by rw [h.place hself' hr, h.place hself hr],
    fun r' hr' hne self' hself' => ?_⟩
  rw [h.place hself hr, h.place hself' hr']
  exact Register.place_apart hr hr' hne

/-- An access to one of the two ranges `OWN`, sent to the core's tile. -/
def ownTile (self a : ℕ) : ℕ :=
  if mpbOwn ≤ a ∧ a < mpbOwn + 0x01000000 then
    mpbAddr (xPid self) (yPid self) 0 + (a - mpbOwn)
  else if crbOwn ≤ a ∧ a < crbOwn + 0x01000000 then
    crbAddr (xPid self) (yPid self) + (a - crbOwn)
  else a

theorem ownTile_ok : OwnTile ownTile := by
  have hdist : crbOwn = mpbOwn + 0x20000000 := rfl
  refine ⟨fun self _ k hk => ?_, fun self _ k hk => ?_, fun self a hmpb hcrb => ?_⟩
  · rw [ownTile, if_neg (by omega), if_pos (by omega), Nat.add_sub_cancel_left]
  · rw [ownTile, if_pos (by omega), Nat.add_sub_cancel_left]
  · rw [ownTile, if_neg (by omega), if_neg (by omega)]

/-- Cores 0 and 1 are on one tile: the lock of core 0 on both, and that of core 1. -/
theorem registers_shared_demo :
    ownTile 1 (lockAddr 1 0) = ownTile 0 (lockAddr 0 0) ∧
      Apart (ownTile 0 (lockAddr 0 0)) 1 (ownTile 1 (lockAddr 1 1)) 1 := by
  have h := @registers_shared _ 0 (.lock 0) ownTile_ok (by decide) (show 0 < cores by decide)
  exact ⟨h.1 1 (by decide), h.2 (.lock 1) (show 1 < cores by decide) (by simp) 1 (by decide)⟩

end Registers

end SccShm
