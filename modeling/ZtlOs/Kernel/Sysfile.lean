import ZtlOs.Kernel.File

/-!
# sysfile.c

The file system calls.  An argument that cannot be fetched from user memory is
absent.
-/

namespace ZtlOs.Kernel

open ZtlOs.Support ZtlOs.Fs

variable {P : Type} [DecidableEq P]

/-! ## File descriptors -/

/-- Fetch the file of a descriptor. -/
def argfd (p : P) (fd : ℤ) : M P (Option (Fin NOFILE × FileSlot)) := do
  let s ← get
  if h : 0 ≤ fd ∧ fd.toNat < NOFILE then
    match s.ofile p ⟨fd.toNat, fd_lt h⟩ with
    | none => pure none
    | some f => pure (some (⟨fd.toNat, fd_lt h⟩, f))
  else pure none

def State.setOfile (s : State P) (p : P) (fd : Fin NOFILE)
    (f : Option FileSlot) : State P :=
  { s with
    ofile := Function.update s.ofile p (Function.update (s.ofile p) fd f) }

/-- Allocate a file descriptor for the given file.  Takes over file reference
from caller on success. -/
def fdalloc (p : P) (f : FileSlot) : M P (Option (Fin NOFILE)) := do
  let s ← get
  match (List.finRange NOFILE).find? fun fd => (s.ofile p fd).isNone with
  | none => pure none
  | some fd => do
      set (s.setOfile p fd (some f))
      pure (some fd)

def sysDup (p : P) (fd : ℤ) : M P ℤ := do
  let r ← argfd p fd
  match r with
  | none => pure (-1)
  | some (_, f) => do
      let r ← fdalloc p f
      match r with
      | none => pure (-1)
      | some fd => do
          filedup f
          pure fd.val

def sysRead (p : P) (fd : ℤ) (n : ℕ) : M P ℤ := do
  let r ← argfd p fd
  match r with
  | none => pure (-1)
  | some (_, f) => do
      let r ← fileread f n
      match r with
      | none => pure (-1)
      | some bytes => pure bytes.length

def sysWrite (p : P) (fd : ℤ) (addr : Bytes) : M P ℤ := do
  let r ← argfd p fd
  match r with
  | none => pure (-1)
  | some (_, f) => do
      let r ← filewrite f addr
      match r with
      | none => pure (-1)
      | some n => pure n

def sysClose (p : P) (fd : ℤ) : M P ℤ := do
  let r ← argfd p fd
  match r with
  | none => pure (-1)
  | some (fd, f) => do
      modify fun s => s.setOfile p fd none
      fileclose f
      pure 0

def sysFstat (p : P) (fd : ℤ) : M P ℤ := do
  let r ← argfd p fd
  match r with
  | none => pure (-1)
  | some (_, f) => do
      let r ← filestat f
      match r with
      | none => pure (-1)
      | some _ => pure 0

/-! ## Links -/

/-- `ip->nlink = f(ip->nlink); iupdate(ip);` -/
def updateNlink (ip : Slot) (f : BitVec 16 → BitVec 16) : M P Unit := do
  let d ← getDin ip
  setDin ip { d with nlink := f d.nlink }
  iupdate ip

/-- The label `bad` of `sys_link`. -/
def linkBad (ip : Slot) : M P ℤ := do
  ilock ip
  updateNlink ip (· - 1)
  iunlockput ip
  endOp
  pure (-1)

/-- Create the path `new` as a link to the same inode as `old`. -/
def sysLink (p : P) (old new : Option Bytes) : M P ℤ := do
  match old, new with
  | some old, some new => do
      beginOp
      let r ← namei p old
      match r with
      | none => do
          endOp
          pure (-1)
      | some ip => do
          ilock ip
          let d ← getDin ip
          if d.type = T_DIR then do
            iunlockput ip
            endOp
            pure (-1)
          else do
            updateNlink ip (· + 1)
            iunlock ip
            let r ← nameiparent p new
            match r with
            | none => linkBad ip
            | some (dp, name) => do
                ilock dp
                let s ← get
                let ok ← dirlink dp name (s.icache ip).inum
                iunlockput dp
                if ok then do
                  iput ip
                  endOp
                  pure 0
                else linkBad ip
  | _, _ => pure (-1)

/-- The loop of `isdirempty`. -/
def isdiremptyLoop (dp : Slot) : List ℕ → M P Bool
  | [] => pure true
  | off :: offs => do
      let de ← readDirent "isdirempty: readi" dp off
      if de.inum ≠ 0 then pure false else isdiremptyLoop dp offs

/-- Is the directory `dp` empty except for "." and ".." ? -/
def isdirempty (dp : Slot) : M P Bool := do
  let d ← getDin dp
  isdiremptyLoop dp ((direntOffsets d.size.toNat).drop 2)

/-- The strings "." and "..". -/
def dot : Bytes := [0x2e]
def dotdot : Bytes := [0x2e, 0x2e]

/-- The label `bad` of `sys_unlink`. -/
def unlinkBad (dp : Slot) : M P ℤ := do
  iunlockput dp
  endOp
  pure (-1)

def sysUnlink (p : P) (path : Option Bytes) : M P ℤ := do
  match path with
  | none => pure (-1)
  | some path => do
      beginOp
      let r ← nameiparent p path
      match r with
      | none => do
          endOp
          pure (-1)
      | some (dp, name) => do
          ilock dp
          -- Cannot unlink "." or "..".
          if namecmp name dot = 0 ∨ namecmp name dotdot = 0 then unlinkBad dp
          else do
            let r ← dirlookup dp name
            match r with
            | none => unlinkBad dp
            | some (ip, off) => do
                ilock ip
                let d ← getDin ip
                if d.nlink.toInt < 1 then panic "unlink: nlink < 1"
                else do
                  let empty ←
                    (if d.type = T_DIR then isdirempty ip else pure true)
                  if empty = false then do
                    iunlockput ip
                    unlinkBad dp
                  else do
                    let r ← writei dp Dirent.zero.bytes off
                    if r ≠ some Dirent.size then panic "unlink: writei"
                    else do
                      (if d.type = T_DIR then updateNlink dp (· - 1)
                        else pure ())
                      iunlockput dp
                      updateNlink ip (· - 1)
                      iunlockput ip
                      endOp
                      pure 0

/-! ## New files -/

/-- The entries of a new directory `ip` in `dp`. -/
def createDots (ip dp : Slot) : M P Unit := do
  updateNlink dp (· + 1)
  -- No ip->nlink++ for ".": avoid cyclic ref count.
  let s ← get
  let ok ← dirlink ip dot (s.icache ip).inum
  if ok = false then panic "create dots"
  else do
    let ok ← dirlink ip dotdot (s.icache dp).inum
    if ok = false then panic "create dots" else pure ()

/-- The inode of the new file, locked, or of the file that is there. -/
def create (p : P) (path : Bytes) (type major minor : BitVec 16) :
    M P (Option Slot) := do
  let r ← nameiparent p path
  match r with
  | none => pure none
  | some (dp, name) => do
      ilock dp
      let r ← dirlookup dp name
      match r with
      | some (ip, _) => do
          iunlockput dp
          ilock ip
          let d ← getDin ip
          if type = T_FILE ∧ d.type = T_FILE then pure (some ip)
          else do
            iunlockput ip
            pure none
      | none => do
          let ip ← ialloc type
          ilock ip
          let d ← getDin ip
          setDin ip { d with major := major, minor := minor, nlink := 1 }
          iupdate ip
          (if type = T_DIR then createDots ip dp else pure ())
          let s ← get
          let ok ← dirlink dp name (s.icache ip).inum
          if ok = false then panic "create: dirlink"
          else do
            iunlockput dp
            pure (some ip)

/-! ## Opening files -/

def O_RDONLY : BitVec 32 := 0x000
def O_WRONLY : BitVec 32 := 0x001
def O_RDWR : BitVec 32 := 0x002
def O_CREATE : BitVec 32 := 0x200

/-- The part of `sys_open` that obtains the locked inode. -/
def openInode (p : P) (path : Bytes) (omode : BitVec 32) :
    M P (Option Slot) := do
  if omode &&& O_CREATE ≠ 0 then create p path T_FILE 0 0
  else do
    let r ← namei p path
    match r with
    | none => pure none
    | some ip => do
        ilock ip
        let d ← getDin ip
        if d.type = T_DIR ∧ omode ≠ O_RDONLY then do
          iunlockput ip
          pure none
        else pure (some ip)

/-- `filealloc` and `fdalloc` of `sys_open`. -/
def openFile (p : P) : M P (Option (FileSlot × Fin NOFILE)) := do
  let r ← filealloc
  match r with
  | none => pure none
  | some f => do
      let r ← fdalloc p f
      match r with
      | none => do
          fileclose f
          pure none
      | some fd => pure (some (f, fd))

def sysOpen (p : P) (path : Option Bytes) (omode : BitVec 32) : M P ℤ := do
  match path with
  | none => pure (-1)
  | some path => do
      beginOp
      let r ← openInode p path omode
      match r with
      | none => do
          endOp
          pure (-1)
      | some ip => do
          let r ← openFile p
          match r with
          | none => do
              iunlockput ip
              endOp
              pure (-1)
          | some (f, fd) => do
              iunlock ip
              endOp
              modify fun s => s.setFile f
                { s.ftable f with
                  type := .inode
                  ip := ip
                  off := 0
                  readable := decide (omode &&& O_WRONLY = 0)
                  writable := decide
                    (omode &&& O_WRONLY ≠ 0 ∨ omode &&& O_RDWR ≠ 0) }
              pure fd.val

def sysMkdir (p : P) (path : Option Bytes) : M P ℤ := do
  beginOp
  match path with
  | none => do
      endOp
      pure (-1)
  | some path => do
      let r ← create p path T_DIR 0 0
      match r with
      | none => do
          endOp
          pure (-1)
      | some ip => do
          iunlockput ip
          endOp
          pure 0

def sysMknod (p : P) (path : Option Bytes) (major minor : Option (BitVec 32)) :
    M P ℤ := do
  beginOp
  match path, major, minor with
  | some path, some major, some minor => do
      let r ← create p path T_DEV (major.setWidth 16) (minor.setWidth 16)
      match r with
      | none => do
          endOp
          pure (-1)
      | some ip => do
          iunlockput ip
          endOp
          pure 0
  | _, _, _ => do
      endOp
      pure (-1)

def sysChdir (p : P) (path : Option Bytes) : M P ℤ := do
  beginOp
  match path with
  | none => do
      endOp
      pure (-1)
  | some path => do
      let r ← namei p path
      match r with
      | none => do
          endOp
          pure (-1)
      | some ip => do
          ilock ip
          let d ← getDin ip
          if d.type ≠ T_DIR then do
            iunlockput ip
            endOp
            pure (-1)
          else do
            iunlock ip
            let s ← get
            iput (s.cwd p)
            endOp
            modify fun s => { s with cwd := Function.update s.cwd p ip }
            pure 0

/-! ## Pipes -/

/-- `pipealloc`; `page` says whether `kalloc` finds a page. -/
def pipealloc (page : Bool) : M P (Option (FileSlot × FileSlot)) := do
  let r ← filealloc
  match r with
  | none => pure none
  | some f0 => do
      let r ← filealloc
      match r with
      | none => do
          fileclose f0
          pure none
      | some f1 =>
          if page = false then do
            fileclose f0
            fileclose f1
            pure none
          else do
            modify fun s => s.setFile f0
              { s.ftable f0 with
                type := .pipe, readable := true, writable := false }
            modify fun s => s.setFile f1
              { s.ftable f1 with
                type := .pipe, readable := false, writable := true }
            pure (some (f0, f1))

def sysPipe (p : P) (page : Bool) : M P ℤ := do
  let r ← pipealloc page
  match r with
  | none => pure (-1)
  | some (rf, wf) => do
      let r ← fdalloc p rf
      match r with
      | none => do
          fileclose rf
          fileclose wf
          pure (-1)
      | some fd0 => do
          let r ← fdalloc p wf
          match r with
          | none => do
              modify fun s => s.setOfile p fd0 none
              fileclose rf
              fileclose wf
              pure (-1)
          | some _ => pure 0

end ZtlOs.Kernel
