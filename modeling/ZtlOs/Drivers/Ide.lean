import ZtlOs.Drivers.Memide
import ZtlOs.Support.Linked

/-!
# The interrupt-driven disk driver

`ide.c` over a disk that works on one command at a time and then raises an
interrupt.  A turn of a loop in `iderw`, the taking and the dropping of
`idelock`, and a run of the interrupt handler are one step each.  A sleeping
process may go on at any time, so that `wakeup` has no effect of its own.
-/

namespace ZtlOs.Drivers.Ide

open ZtlOs.Support ZtlOs.Fs

def SECTOR_SIZE : ℕ := 512

/-- `sector_per_block` of `idestart`. -/
def sectorPerBlock : ℕ := BSIZE / SECTOR_SIZE

/-! ## The command registers -/

/-- The bytes that `idestart` writes to the ports `0x1f2` to `0x1f6`. -/
structure Regs where
  count : BitVec 8
  lba0 : BitVec 8
  lba1 : BitVec 8
  lba2 : BitVec 8
  device : BitVec 8
  deriving DecidableEq

/-- The `outb` calls of `idestart`. -/
def regs (dev blockno : BitVec 32) : Regs :=
  let sector := blockno * BitVec.ofNat 32 sectorPerBlock
  { count := BitVec.ofNat 8 sectorPerBlock
    lba0 := (sector &&& 0xff).setWidth 8
    lba1 := ((sector >>> 8) &&& 0xff).setWidth 8
    lba2 := ((sector >>> 16) &&& 0xff).setWidth 8
    device := (0xe0 ||| ((dev &&& 1) <<< 4) |||
      ((sector >>> 24) &&& 0x0f)).setWidth 8 }

/-- The sector that the disk is to work on. -/
def Regs.sector (r : Regs) : ℕ :=
  r.lba0.toNat + 2 ^ 8 * r.lba1.toNat + 2 ^ 16 * r.lba2.toNat +
    2 ^ 24 * (r.device.toNat % 2 ^ 4)

/-- The disk that is to work. -/
def Regs.drive (r : Regs) : ℕ :=
  r.device.toNat / 2 ^ 4 % 2

section Regs

variable {dev sector : BitVec 32}

theorem byte_toNat (sector : BitVec 32) (k : ℕ) :
    (((sector >>> k) &&& 0xff).setWidth 8).toNat =
      sector.toNat / 2 ^ k % 2 ^ 8 := by
  have hmask : (0xff : BitVec 32).toNat = 2 ^ 8 - 1 := rfl
  rw [BitVec.toNat_setWidth, BitVec.toNat_and, BitVec.toNat_ushiftRight,
    Nat.shiftRight_eq_div_pow, hmask, Nat.and_two_pow_sub_one_eq_mod,
    Nat.mod_mod]

/-- The byte of the drive, for a sector number of 24 bits. -/
theorem device_toNat (dev : BitVec 32) (h : sector.toNat < 2 ^ 24) :
    ((0xe0 ||| ((dev &&& 1) <<< 4) |||
      ((sector >>> 24) &&& 0x0f)).setWidth 8).toNat =
      0xe0 + 2 ^ 4 * (dev.toNat % 2) := by
  have hzero : sector >>> 24 = 0 := by
    apply BitVec.eq_of_toNat_eq
    rw [BitVec.toNat_ushiftRight, Nat.shiftRight_eq_div_pow,
      Nat.div_eq_of_lt h]
    rfl
  have hbit : (dev &&& 1).toNat = dev.toNat % 2 := by
    rw [BitVec.toNat_and]
    exact Nat.and_one_is_mod _
  rw [hzero]
  rcases Nat.mod_two_eq_zero_or_one dev.toNat with hdev | hdev
  · have : dev &&& 1 = 0 := BitVec.eq_of_toNat_eq (hbit.trans hdev)
    rw [this, hdev]
    rfl
  · have : dev &&& 1 = 1 := BitVec.eq_of_toNat_eq (hbit.trans hdev)
    rw [this, hdev]
    rfl

variable {blockno : BitVec 32}

theorem sector_eq : blockno * BitVec.ofNat 32 sectorPerBlock = blockno := by
  have hone : BitVec.ofNat 32 sectorPerBlock = 1 := by decide
  rw [hone]
  exact BitVec.mul_one blockno

/-- The disk works on the sector that the driver means. -/
theorem regs_sector (h : blockno.toNat < FSSIZE) :
    (regs dev blockno).sector = blockno.toNat := by
  have hlt : blockno.toNat < 1000 := h
  have hlow : ((blockno &&& 0xff).setWidth 8).toNat =
      blockno.toNat % 2 ^ 8 := by
    simpa using byte_toNat blockno 0
  simp only [Regs.sector, regs, sector_eq, hlow, byte_toNat,
    device_toNat dev (show blockno.toNat < 2 ^ 24 by omega)]
  omega

theorem regs_drive (h : blockno.toNat < FSSIZE) :
    (regs dev blockno).drive = dev.toNat % 2 := by
  have hlt : blockno.toNat < 1000 := h
  simp only [Regs.drive, regs, sector_eq,
    device_toNat dev (show blockno.toNat < 2 ^ 24 by omega)]
  omega

end Regs

/-! ## The driver -/

inductive Status where
  | idle
  | busy
  /-- The command is complete, and the interrupt has been raised. -/
  | done
  deriving DecidableEq

/-- The disk controller: its status, its last command, with the data for a
write, and the data that a completed read has left. -/
structure Device (D : Type*) where
  status : Status
  regs : Regs
  write : Option D
  fifo : D

/-- Where a process stands in `iderw`. -/
inductive Pc (B : Type*) where
  | idle
  /-- Before `acquire(&idelock)`. -/
  | enter (b : B)
  /-- In the loop that looks for the end of the queue; `pp` points to
  `idequeue`, or to the `qnext` of a buffer. -/
  | append (b : B) (pp : Option B)
  /-- Before the test whether to start the disk. -/
  | start (b : B)
  /-- At the test of the waiting loop, with `idelock`. -/
  | wait (b : B)
  | sleep (b : B)
  deriving DecidableEq

structure State (P B D : Type*) where
  buf : B → Buf P D
  qnext : B → Option B
  idequeue : Option B
  idelock : Option P
  havedisk1 : Bool
  device : Device D
  disk : ℕ → ℕ → D
  pc : P → Pc B

inductive Act (P B D : Type*) where
  | call (c : Call P B D)
  /-- The next step of a process in `iderw`. -/
  | run (p : P)
  /-- The disk completes its command and raises an interrupt. -/
  | complete
  /-- The interrupt handler, for the interrupt of a completed command or for
  one without a cause while the queue is empty. -/
  | ideintr

section Step

variable {P B D : Type*} [DecidableEq B]

def State.setBuf (s : State P B D) (b : B) (v : Buf P D) : State P B D :=
  { s with buf := Function.update s.buf b v }

/-- `idestart`.  The disk must not be busy. -/
def State.idestart (s : State P B D) (b : B) : Outcome (State P B D) :=
  let v := s.buf b
  if v.blockno.toNat ≥ FSSIZE then
    .panic "incorrect blockno"
  else if s.device.status = .busy then
    .blocked
  else
    .next { s with
      device :=
        { s.device with
          status := .busy
          regs := regs v.dev v.blockno
          write := if v.dirty then some v.data else none } }

/-- `*pp` -/
def State.deref (s : State P B D) : Option B → Option B
  | none => s.idequeue
  | some c => s.qnext c

/-- `*pp = b` -/
def State.link (s : State P B D) (pp : Option B) (b : B) : State P B D :=
  match pp with
  | none => { s with idequeue := some b }
  | some c => { s with qnext := Function.update s.qnext c (some b) }

/-- The data that the handler reads from the disk. -/
def State.intrData (s : State P B D) (b : B) : D :=
  if (s.buf b).dirty then (s.buf b).data else s.device.fifo

def State.ideintr (s : State P B D) : Outcome (State P B D) :=
  match s.idequeue with
  | none => .next { s with device := { s.device with status := .idle } }
  | some b =>
      let t :=
        { s.setBuf b { s.buf b with
            data := s.intrData b, valid := true, dirty := false } with
          idequeue := s.qnext b
          device := { s.device with status := .idle } }
      match t.idequeue with
      | none => .next t
      | some c => t.idestart c

/-- The end of a command. -/
def State.complete (s : State P B D) : State P B D :=
  let r := s.device.regs
  match s.device.write with
  | some d =>
      { s with
        device := { s.device with status := .done }
        disk := Function.update s.disk r.drive
          (Function.update (s.disk r.drive) r.sector d) }
  | none =>
      { s with
        device :=
          { s.device with status := .done, fifo := s.disk r.drive r.sector } }

variable [DecidableEq P]

def State.setPc (s : State P B D) (p : P) (pc : Pc B) : State P B D :=
  { s with pc := Function.update s.pc p pc }

/-- `iderw` up to `acquire(&idelock)`. -/
def State.iderw (s : State P B D) (p : P) (b : B) : Outcome (State P B D) :=
  if (s.buf b).lock ≠ some p then
    .panic "iderw: buf not locked"
  else if (s.buf b).clean then
    .panic "iderw: nothing to do"
  else if (s.buf b).dev ≠ 0 ∧ s.havedisk1 = false then
    .panic "iderw: ide disk 1 not present"
  else
    .next (s.setPc p (.enter b))

def State.call (s : State P B D) : Call P B D → Outcome (State P B D)
  | .acquiresleep p b =>
      if s.pc p = .idle ∧ (s.buf b).lock = none then
        .next (s.setBuf b { s.buf b with lock := some p })
      else .blocked
  | .releasesleep p b =>
      if s.pc p = .idle ∧ (s.buf b).lock = some p then
        .next (s.setBuf b { s.buf b with lock := none })
      else .blocked
  | .fill p b c =>
      if s.pc p = .idle ∧ (s.buf b).lock = some p then
        .next (s.setBuf b ((s.buf b).fill c))
      else .blocked
  | .iderw p b => if s.pc p = .idle then s.iderw p b else .blocked

def State.run (s : State P B D) (p : P) : Outcome (State P B D) :=
  match s.pc p with
  | .idle => .blocked
  | .enter b =>
      if s.idelock = none then
        .next { s.setPc p (.append b none) with
          idelock := some p, qnext := Function.update s.qnext b none }
      else .blocked
  | .append b pp =>
      match s.deref pp with
      | some c => .next (s.setPc p (.append b (some c)))
      | none => .next ((s.link pp b).setPc p (.start b))
  | .start b =>
      if s.idequeue = some b then
        (s.idestart b).map fun t => t.setPc p (.wait b)
      else .next (s.setPc p (.wait b))
  | .wait b =>
      if (s.buf b).clean then .next { s.setPc p .idle with idelock := none }
      else .next { s.setPc p (.sleep b) with idelock := none }
  | .sleep b =>
      if s.idelock = none then
        .next { s.setPc p (.wait b) with idelock := some p }
      else .blocked

def step (s : State P B D) : Act P B D → Outcome (State P B D)
  | .call c => s.call c
  | .run p => s.run p
  | .complete =>
      if s.device.status = .busy then .next s.complete else .blocked
  | .ideintr =>
      if s.idelock = none ∧
          (s.device.status = .done ∨ s.idequeue = none) then s.ideintr
      else .blocked

end Step

end ZtlOs.Drivers.Ide
