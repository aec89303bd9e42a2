import ZtlOs.Memory.Layout

/-!
# bootmain.c

The boot loader reads whole sectors of the first drive into memory.  The drive
is ready whenever it is asked.  Sectors are numbered, and each is a function
from the offset of a byte.
-/

namespace ZtlOs.Boot

open ZtlOs.Memory

/-- The physical memory. -/
abbrev Mem := Word → BitVec 8

/-- The bytes of the sectors of a drive. -/
abbrev Drive := ℕ → ℕ → BitVec 8

def SECTSIZE : Word := 512

def ELF_MAGIC : Word := 0x464C457F

/-- The scratch space. -/
def scratch : Word := 0x10000

/-! ## The structures of elf.h -/

/-- The `uint` at offset `k`. -/
def uint (bytes : ℕ → BitVec 8) (k : ℕ) : Word :=
  bytes (k + 3) ++ bytes (k + 2) ++ bytes (k + 1) ++ bytes k

/-- The `ushort` at offset `k`. -/
def ushort (bytes : ℕ → BitVec 8) (k : ℕ) : BitVec 16 :=
  bytes (k + 1) ++ bytes k

/-- The fields of `struct elfhdr` that are read. -/
structure Elfhdr where
  magic : Word
  entry : Word
  phoff : Word
  phnum : BitVec 16
  deriving DecidableEq

def elfhdr (bytes : ℕ → BitVec 8) : Elfhdr where
  magic := uint bytes 0
  entry := uint bytes 24
  phoff := uint bytes 28
  phnum := ushort bytes 44

/-- The fields of `struct proghdr` that are read. -/
structure Proghdr where
  off : Word
  paddr : Word
  filesz : Word
  memsz : Word
  deriving DecidableEq

def proghdr (bytes : ℕ → BitVec 8) : Proghdr where
  off := uint bytes 4
  paddr := uint bytes 12
  filesz := uint bytes 16
  memsz := uint bytes 20

/-- The bytes of the memory from an address on. -/
def bytesAt (mem : Mem) (a : Word) : ℕ → BitVec 8 :=
  fun k => mem (a + (k : Word))

/-! ## The functions -/

/-- `rep stosb` -/
def stosb (mem : Mem) (addr : Word) (data : BitVec 8) (cnt : Word) : Mem :=
  fun a => if (a - addr).toNat < cnt.toNat then data else mem a

/-- `insl` of a whole sector. -/
def insl (mem : Mem) (addr : Word) (sector : ℕ → BitVec 8) : Mem :=
  fun a => if (a - addr).toNat < SECTSIZE.toNat then sector (a - addr).toNat
    else mem a

/-- What the controller transfers for the command 0x20, with the number of the
sector in the registers 0x1F3 to 0x1F6; the last of them selects the drive. -/
def transfer (drives : Bool → Drive) (r3 r4 r5 r6 : BitVec 8) : ℕ → BitVec 8 :=
  drives (r6.getLsbD 4) (r6.extractLsb' 0 4 ++ r5 ++ r4 ++ r3).toNat

/-- Read a single sector at `offset` into `dst`. -/
def readsect (drives : Bool → Drive) (mem : Mem) (dst offset : Word) : Mem :=
  insl mem dst (transfer drives (offset.setWidth 8) ((offset >>> 8).setWidth 8)
    ((offset >>> 16).setWidth 8) ((offset >>> 24 ||| 0xE0).setWidth 8))

/-- The loop of `readseg`.  After `2 ^ 23` rounds `pa` is where it was at
first, and the loop goes on for ever. -/
def readsegLoop (drives : Bool → Drive) :
    ℕ → Mem → Word → Word → Word → Option Mem
  | 0, _, _, _, _ => none
  | n + 1, mem, pa, epa, offset =>
      if pa < epa then
        readsegLoop drives n (readsect drives mem pa offset) (pa + SECTSIZE) epa
          (offset + 1)
      else some mem

/-- Read `count` bytes at `offset` from the kernel into physical address `pa`.
Might copy more than asked. -/
def readseg (drives : Bool → Drive) (mem : Mem) (pa count offset : Word) :
    Option Mem :=
  let epa := pa + count
  -- Round down to sector boundary.
  let pa := pa - offset % SECTSIZE
  -- Kernel starts at sector 1.
  let offset := offset / SECTSIZE + 1
  readsegLoop drives (2 ^ 23) mem pa epa offset

/-- Load each program segment; `n` headers are left. -/
def loadLoop (drives : Bool → Drive) : ℕ → Mem → Word → Word → Option Mem
  | 0, mem, _, _ => some mem
  | n + 1, mem, ph, eph =>
      if ph < eph then
        let p := proghdr (bytesAt mem ph)
        let pa := p.paddr
        match readseg drives mem pa p.filesz p.off with
        | none => none
        | some mem =>
            let p := proghdr (bytesAt mem ph)
            let mem :=
              if p.memsz > p.filesz then
                stosb mem (pa + p.filesz) 0 (p.memsz - p.filesz)
              else mem
            loadLoop drives n mem (ph + 32) eph
      else some mem

/-- How `bootmain` ends. -/
inductive Outcome where
  /-- It returns to `bootasm.S`. -/
  | returned (mem : Mem)
  /-- It calls the entry point. -/
  | entered (entry : Word) (mem : Mem)

def bootmain (drives : Bool → Drive) (mem : Mem) : Option Outcome :=
  -- Read 1st page off disk.
  match readseg drives mem scratch 4096 0 with
  | none => none
  | some mem =>
      let elf := elfhdr (bytesAt mem scratch)
      if elf.magic ≠ ELF_MAGIC then some (.returned mem)
      else
        let ph := scratch + elf.phoff
        let eph := ph + 32 * elf.phnum.setWidth 32
        match loadLoop drives elf.phnum.toNat mem ph eph with
        | none => none
        | some mem =>
            some (.entered (elfhdr (bytesAt mem scratch)).entry mem)

end ZtlOs.Boot
