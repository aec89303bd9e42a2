import ZtlOs.Kernel.State

/-!
# fs.c

Blocks, inodes and their content.  There is one device, so device numbers are
left out.
-/

namespace ZtlOs.Kernel

open ZtlOs.Support ZtlOs.Fs

variable {P : Type}

/-! ## Blocks -/

/-- Read the super block. -/
def readsb : M P Unit := do
  let bp ← bread 1
  modify fun s => { s with sb := bp.superblock }
  brelse 1

/-- Zero a block. -/
def bzero (bno : ℕ) : M P Unit := do
  let _ ← bread bno
  logWrite bno Block.zero
  brelse bno

/-- The first clear bit among the first `n` bits of a bitmap block. -/
def firstClear (bp : Block) (n : ℕ) : Option ℕ :=
  (List.range n).find? fun bi => !bp.bit bi

/-- The loop of `balloc` over the bitmap blocks, from the one for `b` on. -/
def ballocLoop : ℕ → ℕ → M P ℕ
  | 0, _ => panic "balloc: out of blocks"
  | n + 1, b => do
      let s ← get
      let bp ← bread (BBLOCK b s.sb)
      match firstClear bp (min BPB (s.sb.size - b)) with
      | some bi => do
          -- Mark block in use.
          logWrite (BBLOCK b s.sb) (bp.setBit bi)
          brelse (BBLOCK b s.sb)
          bzero (b + bi)
          pure (b + bi)
      | none => do
          brelse (BBLOCK b s.sb)
          ballocLoop n (b + BPB)

/-- Allocate a zeroed disk block. -/
def balloc : M P ℕ := do
  let s ← get
  ballocLoop ((s.sb.size + (BPB - 1)) / BPB) 0

/-- Free a disk block. -/
def bfree (b : ℕ) : M P Unit := do
  readsb
  let s ← get
  let bp ← bread (BBLOCK b s.sb)
  if bp.bit (b % BPB) = false then panic "freeing free block"
  else do
    logWrite (BBLOCK b s.sb) (bp.clearBit (b % BPB))
    brelse (BBLOCK b s.sb)

/-! ## Inodes -/

/-- Find the inode with number `inum` and return the in-memory copy: the
referenced entry if there is one, otherwise the first entry without references,
recycled. -/
def iget (inum : ℕ) : M P Slot := do
  let s ← get
  match (List.finRange NINODE).find? fun c =>
      decide (0 < (s.icache c).ref ∧ (s.icache c).inum = inum) with
  | some c => do
      set (s.setInode c { s.icache c with ref := (s.icache c).ref + 1 })
      pure c
  | none =>
      match (List.finRange NINODE).find? fun c =>
          decide ((s.icache c).ref = 0) with
      | none => panic "iget: no inodes"
      | some c => do
          set (s.setInode c
            { s.icache c with inum := inum, ref := 1, valid := false })
          pure c

/-- The loop of `ialloc`, from inode `inum` on. -/
def iallocLoop (type : BitVec 16) : ℕ → ℕ → M P Slot
  | 0, _ => panic "ialloc: no inodes"
  | n + 1, inum => do
      let s ← get
      let bp ← bread (IBLOCK inum s.sb)
      if (bp.dinode (inum % IPB)).type = 0 then do
        -- Mark it allocated on the disk.
        logWrite (IBLOCK inum s.sb)
          (bp.setDinode (inum % IPB) { Dinode.zero with type := type })
        brelse (IBLOCK inum s.sb)
        iget inum
      else do
        brelse (IBLOCK inum s.sb)
        iallocLoop type n (inum + 1)

/-- Allocate a new inode with the given type.  A free inode has a type of
zero. -/
def ialloc (type : BitVec 16) : M P Slot := do
  let s ← get
  iallocLoop type (s.sb.ninodes - 1) 1

/-- Copy a modified in-memory inode to disk. -/
def iupdate (ip : Slot) : M P Unit := do
  let s ← get
  let i := s.icache ip
  let bp ← bread (IBLOCK i.inum s.sb)
  logWrite (IBLOCK i.inum s.sb) (bp.setDinode (i.inum % IPB) i.din)
  brelse (IBLOCK i.inum s.sb)

/-- Increment reference count for `ip`. -/
def idup (ip : Slot) : M P Slot := do
  modify fun s =>
    s.setInode ip { s.icache ip with ref := (s.icache ip).ref + 1 }
  pure ip

/-- Lock the given inode.  Reads the inode from disk if necessary. -/
def ilock (ip : Slot) : M P Unit := do
  let s ← get
  if (s.icache ip).ref < 1 then panic "ilock"
  else if (s.icache ip).locked then throw .sleep
  else do
    set ((s.setInode ip { s.icache ip with locked := true }).emit (.ilock ip))
    if (s.icache ip).valid then pure ()
    else do
      let bp ← bread (IBLOCK (s.icache ip).inum s.sb)
      let d := bp.dinode ((s.icache ip).inum % IPB)
      modify fun s => s.setDin ip d
      brelse (IBLOCK (s.icache ip).inum s.sb)
      modify fun s => s.setInode ip { s.icache ip with valid := true }
      if d.type = 0 then panic "ilock: no type" else pure ()

/-- Unlock the given inode. -/
def iunlock (ip : Slot) : M P Unit := do
  let s ← get
  if (s.icache ip).locked = false ∨ (s.icache ip).ref < 1 then panic "iunlock"
  else
    set ((s.setInode ip { s.icache ip with locked := false }).emit
      (.iunlock ip))

/-! ## Inode content -/

/-- The fields of `ip` that are copied from the disk. -/
def getDin (ip : Slot) : M P Dinode := do
  let s ← get
  pure (s.icache ip).din

def setDin (ip : Slot) (d : Dinode) : M P Unit :=
  modify fun s => s.setDin ip d

/-- The indirect block of an inode, allocated if necessary. -/
def indirectBlock (ip : Slot) (d : Dinode) : M P ℕ :=
  if d.addrs indirectSlot = 0 then do
    let addr ← balloc
    let d ← getDin ip
    setDin ip (d.setAddr indirectSlot (BitVec.ofNat 32 addr))
    pure addr
  else pure (d.addrs indirectSlot).toNat

/-- Return the disk block address of the nth block in inode `ip`.  If there is
no such block, `bmap` allocates one. -/
def bmap (ip : Slot) (bn : ℕ) : M P ℕ := do
  let d ← getDin ip
  if bn < NDIRECT then
    let k := Fin.ofNat (NDIRECT + 1) bn
    if d.addrs k = 0 then do
      let addr ← balloc
      let d ← getDin ip
      setDin ip (d.setAddr k (BitVec.ofNat 32 addr))
      pure addr
    else pure (d.addrs k).toNat
  else if bn - NDIRECT < NINDIRECT then do
    -- Load indirect block, allocating if necessary.
    let ind ← indirectBlock ip d
    let a ← bread ind
    if a.word (4 * (bn - NDIRECT)) = 0 then do
      let addr ← balloc
      logWrite ind (a.setWord (4 * (bn - NDIRECT)) (BitVec.ofNat 32 addr))
      brelse ind
      pure addr
    else do
      brelse ind
      pure (a.word (4 * (bn - NDIRECT))).toNat
  else panic "bmap: out of range"

/-- The loop of `itrunc` over the direct blocks. -/
def itruncDirect (ip : Slot) : List (Fin (NDIRECT + 1)) → M P Unit
  | [] => pure ()
  | k :: ks => do
      let d ← getDin ip
      if d.addrs k = 0 then itruncDirect ip ks
      else do
        bfree (d.addrs k).toNat
        let d ← getDin ip
        setDin ip (d.setAddr k 0)
        itruncDirect ip ks

/-- The loop of `itrunc` over the entries of the indirect block `a`. -/
def itruncEntries (a : Block) : List ℕ → M P Unit
  | [] => pure ()
  | j :: js =>
      if a.word (4 * j) = 0 then itruncEntries a js
      else do
        bfree (a.word (4 * j)).toNat
        itruncEntries a js

/-- The direct slots of an inode. -/
def directSlots : List (Fin (NDIRECT + 1)) :=
  (List.finRange NDIRECT).map Fin.castSucc

/-- The part of `itrunc` that frees the indirect block and its entries. -/
def itruncIndirect (ip : Slot) : M P Unit := do
  let d ← getDin ip
  if d.addrs indirectSlot = 0 then pure ()
  else do
    let a ← bread (d.addrs indirectSlot).toNat
    itruncEntries a (List.range NINDIRECT)
    brelse (d.addrs indirectSlot).toNat
    bfree (d.addrs indirectSlot).toNat
    let d ← getDin ip
    setDin ip (d.setAddr indirectSlot 0)

/-- Truncate inode (discard contents). -/
def itrunc (ip : Slot) : M P Unit := do
  itruncDirect ip directSlots
  itruncIndirect ip
  let d ← getDin ip
  setDin ip { d with size := 0 }
  iupdate ip

/-- The part of `iput` for an inode without links and other references:
truncate and free. -/
def iputFree (ip : Slot) : M P Unit := do
  itrunc ip
  let d ← getDin ip
  setDin ip { d with type := 0 }
  iupdate ip
  modify fun s => s.setInode ip { s.icache ip with valid := false }

/-- Drop a reference to an in-memory inode.  If that was the last reference
and the inode has no links to it, free the inode (and its content) on disk. -/
def iput (ip : Slot) : M P Unit := do
  modify fun s => s.emit (.iput ip)
  let s ← get
  (if (s.icache ip).ref = 1 ∧ (s.icache ip).valid ∧
      (s.icache ip).din.nlink = 0 then iputFree ip
    else pure ())
  modify fun s =>
    s.setInode ip { s.icache ip with ref := (s.icache ip).ref - 1 }

/-- Common idiom: unlock, then put. -/
def iunlockput (ip : Slot) : M P Unit := do
  iunlock ip
  iput ip

/-! ### Reading and writing -/

/-- The major number of the console. -/
def CONSOLE : BitVec 16 := 1

/-- `consoleread`: the inode is unlocked while it waits for input.  A count
that is negative as an `int` asks for nothing. -/
def consoleread (ip : Slot) (n : ℕ) : M P (Option Bytes) := do
  iunlock ip
  let r ← (if n < 2 ^ 31 then receive else pure (some []))
  ilock ip
  pure (r.map (List.take n))

/-- `consolewrite`. -/
def consolewrite (ip : Slot) (src : Bytes) : M P (Option ℕ) := do
  iunlock ip
  ilock ip
  pure (some src.length)

/-- The loop of `readi`; each round copies at least one byte. -/
def readLoop (ip : Slot) : ℕ → ℕ → ℕ → M P Bytes
  | 0, _, _ => pure []
  | fuel + 1, off, n =>
      if n = 0 then pure []
      else do
        let b ← bmap ip (off / BSIZE)
        let bp ← bread b
        let m := min n (BSIZE - off % BSIZE)
        brelse b
        let rest ← readLoop ip fuel (off + m) (n - m)
        pure (bp.get (off % BSIZE) m ++ rest)

/-- Read data from inode; the result is the bytes read, none for -1.  `off`
and `n` are 32-bit numbers. -/
def readi (ip : Slot) (off n : ℕ) : M P (Option Bytes) := do
  let d ← getDin ip
  if d.type = T_DEV then
    -- Only the console has device functions.
    if d.major = CONSOLE then consoleread ip n else pure none
  else if d.size.toNat < off ∨ 2 ^ 32 ≤ off + n then pure none
  else do
    let n := min n (d.size.toNat - off)
    let bytes ← readLoop ip n off n
    pure (some bytes)

/-- The loop of `writei`; each round copies at least one byte. -/
def writeLoop (ip : Slot) : ℕ → ℕ → Bytes → M P ℕ
  | 0, off, _ => pure off
  | fuel + 1, off, src =>
      if src.length = 0 then pure off
      else do
        let b ← bmap ip (off / BSIZE)
        let bp ← bread b
        let m := min src.length (BSIZE - off % BSIZE)
        logWrite b (bp.put (off % BSIZE) (src.take m))
        brelse b
        writeLoop ip fuel (off + m) (src.drop m)

/-- Write data to inode; the result is the number of bytes, none for -1. -/
def writei (ip : Slot) (src : Bytes) (off : ℕ) : M P (Option ℕ) := do
  let d ← getDin ip
  if d.type = T_DEV then
    if d.major = CONSOLE then consolewrite ip src else pure none
  else if d.size.toNat < off ∨ 2 ^ 32 ≤ off + src.length then pure none
  else if MAXFILE * BSIZE < off + src.length then pure none
  else do
    let off ← writeLoop ip src.length off src
    let d ← getDin ip
    if 0 < src.length ∧ d.size.toNat < off then do
      setDin ip { d with size := BitVec.ofNat 32 off }
      iupdate ip
      pure (some src.length)
    else pure (some src.length)

end ZtlOs.Kernel
