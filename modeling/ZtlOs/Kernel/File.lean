import ZtlOs.Kernel.Dir

/-!
# file.c

The file table.  What a pipe transfers is left to the environment.
-/

namespace ZtlOs.Kernel

open ZtlOs.Support ZtlOs.Fs

variable {P : Type}

/-- `struct stat`, without the device. -/
structure Stat where
  type : BitVec 16
  ino : ℕ
  nlink : BitVec 16
  size : BitVec 32

/-- Copy stat information from inode. -/
def stati (ip : Slot) : M P Stat := do
  let s ← get
  let i := s.icache ip
  pure ⟨i.din.type, i.inum, i.din.nlink, i.din.size⟩

/-- Allocate a file structure. -/
def filealloc : M P (Option FileSlot) := do
  let s ← get
  match (List.finRange NFILE).find? fun f =>
      decide ((s.ftable f).ref = 0) with
  | none => pure none
  | some f => do
      set (s.setFile f { s.ftable f with ref := 1 })
      pure (some f)

/-- Increment ref count for file `f`. -/
def filedup (f : FileSlot) : M P Unit := do
  let s ← get
  if (s.ftable f).ref < 1 then panic "filedup"
  else set (s.setFile f { s.ftable f with ref := (s.ftable f).ref + 1 })

/-- Close file `f`.  (Decrement ref count, close when reaches 0.) -/
def fileclose (f : FileSlot) : M P Unit := do
  let s ← get
  if (s.ftable f).ref < 1 then panic "fileclose"
  else if 0 < (s.ftable f).ref - 1 then
    set (s.setFile f { s.ftable f with ref := (s.ftable f).ref - 1 })
  else do
    let ff := s.ftable f
    set (s.setFile f { s.ftable f with ref := 0, type := .none })
    if ff.type = .inode then do
      beginOp
      iput ff.ip
      endOp
    else pure ()

/-- Get metadata about file `f`. -/
def filestat (f : FileSlot) : M P (Option Stat) := do
  let s ← get
  if (s.ftable f).type = .inode then do
    ilock (s.ftable f).ip
    let st ← stati (s.ftable f).ip
    iunlock (s.ftable f).ip
    pure (some st)
  else pure none

/-- `f->off += r`. -/
def advance (f : FileSlot) (r : ℕ) : M P Unit :=
  modify fun s =>
    s.setFile f { s.ftable f with off := ((s.ftable f).off + r) % 2 ^ 32 }

/-- Read from file `f`. -/
def fileread (f : FileSlot) (n : ℕ) : M P (Option Bytes) := do
  let s ← get
  if (s.ftable f).readable = false then pure none
  else
    match (s.ftable f).type with
    | .pipe => do
        let r ← receive
        pure (r.map (List.take n))
    | .inode => do
        ilock (s.ftable f).ip
        let r ← readi (s.ftable f).ip (s.ftable f).off n
        (match r with
          | none => pure ()
          | some bytes => advance f bytes.length)
        iunlock (s.ftable f).ip
        pure r
    | .none => panic "fileread"

/-- The most bytes that `filewrite` writes at a time. -/
def maxWrite : ℕ := (LOGSIZE - 1 - 1 - 2) / 2 * 512

/-- The loop of `filewrite`; each round writes at least one byte. -/
def filewriteLoop (f : FileSlot) : ℕ → Bytes → M P Bool
  | 0, _ => pure true
  | fuel + 1, addr =>
      if addr.length = 0 then pure true
      else do
        let n1 := min addr.length maxWrite
        beginOp
        let s ← get
        ilock (s.ftable f).ip
        let r ← writei (s.ftable f).ip (addr.take n1) (s.ftable f).off
        (match r with
          | none => pure ()
          | some r => advance f r)
        iunlock (s.ftable f).ip
        endOp
        match r with
        | none => pure false
        | some r =>
            if r ≠ n1 then panic "short filewrite"
            else filewriteLoop f fuel (addr.drop n1)

/-- Write the bytes `addr` to file `f`; the result is their number, none
for -1. -/
def filewrite (f : FileSlot) (addr : Bytes) : M P (Option ℕ) := do
  let s ← get
  if (s.ftable f).writable = false then pure none
  else
    match (s.ftable f).type with
    | .pipe => do
        let r ← receive
        pure (r.map fun _ => addr.length)
    | .inode => do
        let ok ← filewriteLoop f addr.length addr
        if ok then pure (some addr.length) else pure none
    | .none => panic "filewrite"

end ZtlOs.Kernel
